import Mathlib.Logic.Function.Basic

/-!
# Read-through caches

A source gives an answer for every key, or fails. A cache in front of it keeps the answers
it has handed out.

* `answers_fetch`: as long as the cache is coherent, a run of lookups through it gives what
  the source gives.
* `answers_eq_of_simulates`: the rule for an implementation, whose state may look different.
-/

namespace Coms4111.Store

variable {K A σ τ : Type}

/-- The answers of a run of requests. -/
def answers (step : K → σ → A × σ) : List K → σ → List A
  | [], _ => []
  | k :: ks, s => (step k s).1 :: answers step ks (step k s).2

/-- Every step of the implementation is one of the specification, with the same answer. -/
def Simulates (R : σ → τ → Prop) (step : K → σ → A × σ) (spec : K → τ → A × τ) : Prop :=
  ∀ k s t, R s t → (step k s).1 = (spec k t).1 ∧ R (step k s).2 (spec k t).2

theorem answers_eq_of_simulates {R : σ → τ → Prop} {step : K → σ → A × σ} {spec : K → τ → A × τ}
    (h : Simulates R step spec) (ks : List K) {s : σ} {t : τ} (hR : R s t) :
    answers step ks s = answers spec ks t := by
  induction ks generalizing s t with
  | nil => rfl
  | cons k ks ih =>
    obtain ⟨hanswer, hR⟩ := h k s t hR
    rw [answers, answers, hanswer, ih hR]

variable {V E : Type} [DecidableEq K]

/-- One lookup. What is kept is handed out; else the source is asked, and its answer kept. -/
def fetch (source : K → Except E V) (k : K) (cache : K → Option V) : Except E V × (K → Option V) :=
  match cache k with
  | some v => (.ok v, cache)
  | none => match source k with
    | .ok v => (.ok v, Function.update cache k (some v))
    | .error e => (.error e, cache)

/-- What is kept is what the source gives. -/
def Coherent (source : K → Except E V) (cache : K → Option V) : Prop :=
  ∀ k v, cache k = some v → source k = .ok v

variable {source : K → Except E V} {cache : K → Option V}

theorem fetch_answer (h : Coherent source cache) (k : K) : (fetch source k cache).1 = source k := by
  unfold fetch
  cases hc : cache k with
  | some v => exact (h k v hc).symm
  | none => cases source k <;> rfl

theorem Coherent.fetch (h : Coherent source cache) (k : K) : Coherent source (fetch source k cache).2 := by
  unfold Store.fetch
  cases hc : cache k with
  | some v => exact h
  | none =>
    cases hs : source k with
    | error e => exact h
    | ok v =>
      intro k' v' hk'
      by_cases hk : k' = k
      · subst hk
        simp only [Function.update_self, Option.some.injEq] at hk'
        rw [hs, hk']
      · simp only [Function.update_of_ne hk] at hk'
        exact h k' v' hk'

/-- **A coherent cache is transparent.** -/
theorem answers_fetch (h : Coherent source cache) (ks : List K) :
    answers (fetch source) ks cache = ks.map source := by
  induction ks generalizing cache with
  | nil => rfl
  | cons k ks ih => rw [answers, fetch_answer h, ih (h.fetch k), List.map_cons]

end Coms4111.Store
