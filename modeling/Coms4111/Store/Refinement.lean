import Coms4111.Store.ReadThrough
import Mathlib.Data.Nat.Notation

/-!
# Runs of an implementation and of its specification

An implementation with bounded resources follows its specification only as long as they last.
The index of the relation is what is left, and each request has its cost. A step of the
implementation may fail, which ends the run.

* `RefinesFor.run`: as long as they last, no step fails, the answers are the same and the states
  related.
-/

namespace Coms4111.Store

variable {K A σ τ : Type}

/-- The state after a run of requests. -/
def after (step : K → σ → A × σ) : List K → σ → σ
  | [], s => s
  | k :: ks, s => after step ks (step k s).2

/-- A run of requests of which each may fail: the answers, and the state after it. -/
def runAll (step : K → σ → Option (A × σ)) : List K → σ → Option (List A × σ)
  | [], s => some ([], s)
  | k :: ks, s => do
    let (a, s) ← step k s
    let (as, s) ← runAll step ks s
    return (a :: as, s)

/-- What a run of requests costs. -/
def total (cost : K → ℕ) : List K → ℕ
  | [] => 0
  | k :: ks => total cost ks + cost k

theorem total_one (ks : List K) : total (fun _ => 1) ks = ks.length := by
  induction ks with
  | nil => rfl
  | cons k ks ih => rw [total, ih, List.length_cons]

theorem runAll_cons {step : K → σ → Option (A × σ)} {k : K} {ks : List K} {s s₁ s₂ : σ} {a : A} {as : List A}
    (hstep : step k s = some (a, s₁)) (hrun : runAll step ks s₁ = some (as, s₂)) :
    runAll step (k :: ks) s = some (a :: as, s₂) := by
  simp only [runAll, hstep, hrun, Option.bind_eq_bind, Option.bind_some, Option.pure_def]

/-- **Every step is one of the specification**: it does not fail, gives the same answer, and takes its
cost off the index. -/
def RefinesFor (cost : K → ℕ) (R : ℕ → σ → τ → Prop) (step : K → σ → Option (A × σ)) (spec : K → τ → A × τ) :
    Prop :=
  ∀ n k s t, R (n + cost k) s t → ∃ s', step k s = some ((spec k t).1, s') ∧ R n s' (spec k t).2

/-- **A run that costs no more than is left.** -/
theorem RefinesFor.run {cost : K → ℕ} {R : ℕ → σ → τ → Prop} {step : K → σ → Option (A × σ)}
    {spec : K → τ → A × τ} (h : RefinesFor cost R step spec) (ks : List K) {n : ℕ} {s : σ} {t : τ}
    (hR : R (n + total cost ks) s t) :
    ∃ s', runAll step ks s = some (answers spec ks t, s') ∧ R n s' (after spec ks t) := by
  induction ks generalizing s t with
  | nil => exact ⟨s, rfl, hR⟩
  | cons k ks ih =>
    rw [total, ← Nat.add_assoc] at hR
    obtain ⟨s₁, hstep, hR₁⟩ := h _ k s t hR
    obtain ⟨s₂, hrun, hR₂⟩ := ih hR₁
    exact ⟨s₂, runAll_cons hstep hrun, hR₂⟩

end Coms4111.Store
