import Coms4111.Store.Refinement

/-!
# Calls in steps, one after the other

Calls that take several steps run at the same time over one state. If a call takes effect with its
last step, and what it has found out before still holds then, it could as well have been made as a
whole at that moment.

* `Commits`: what has to be shown about one step of one call, and about what other calls do to it.
* `serializable`: then the state and the results are those of the calls made one after the other,
  in the order in which they end, whatever the schedule.
* `Calls.ended_of_count`: a call that is scheduled often enough ends.
-/

namespace Coms4111.Store

variable {A Φ σ R ι : Type}

/-- **Calls in steps**: the phase that a call begins in, what a step does, and the result of a call
that has ended. -/
structure Steps (A Φ σ R : Type) where
  start : A → Φ
  step : Φ → σ → Φ × σ
  result : Φ → Option R

/-- Several calls, each in its phase, over one state. -/
structure Calls (ι Φ σ : Type) where
  phase : ι → Φ
  state : σ

section Run

variable [DecidableEq ι] (P : Steps A Φ σ R)

/-- The call `i` takes its next step. A call that has ended does nothing. -/
def Calls.step (C : Calls ι Φ σ) (i : ι) : Calls ι Φ σ :=
  match P.result (C.phase i) with
  | some _ => C
  | none => ⟨Function.update C.phase i (P.step (C.phase i) C.state).1, (P.step (C.phase i) C.state).2⟩

/-- The calls take their steps in the order of the schedule. -/
def Calls.run (schedule : List ι) (C : Calls ι Φ σ) : Calls ι Φ σ := schedule.foldl (Calls.step P) C

/-- All calls, before their first steps. -/
def Calls.begin (args : ι → A) (s : σ) : Calls ι Φ σ := ⟨fun i => P.start (args i), s⟩

/-- The call `i`, if it ends with its next step. -/
def Calls.ends (C : Calls ι Φ σ) (i : ι) : List ι :=
  if (P.result (C.phase i)).isNone && (P.result ((C.step P i).phase i)).isSome then [i] else []

/-- **The calls that end along a schedule**, in the order in which they do. -/
def Calls.endings : List ι → Calls ι Φ σ → List ι
  | [], _ => []
  | i :: schedule, C => C.ends P i ++ Calls.endings schedule (C.step P i)

variable {P} {C : Calls ι Φ σ} {i : ι}

theorem Calls.step_of_ended {r : R} (h : P.result (C.phase i) = some r) : C.step P i = C := by
  simp only [Calls.step, h]

theorem Calls.step_of_running (h : P.result (C.phase i) = none) : C.step P i =
    ⟨Function.update C.phase i (P.step (C.phase i) C.state).1, (P.step (C.phase i) C.state).2⟩ := by
  simp only [Calls.step, h]

theorem Calls.ends_of_ended {r : R} (h : P.result (C.phase i) = some r) : C.ends P i = [] := by
  simp only [Calls.ends, h, Option.isNone_some, Bool.false_and, Bool.false_eq_true, if_false]

theorem Calls.ends_of_running (h : P.result (C.phase i) = none) :
    C.ends P i = if (P.result (P.step (C.phase i) C.state).1).isSome then [i] else [] := by
  simp only [Calls.ends, step_of_running h, h, Option.isNone_none, Bool.true_and, Function.update_self]

/-- **A call ends** once it has been scheduled as often as it has steps. -/
theorem Calls.ended_of_count (rank : Φ → ℕ)
    (hrank : ∀ φ s, P.result φ = none → rank (P.step φ s).1 < rank φ) {schedule : List ι}
    (h : P.result (C.phase i) = none → rank (C.phase i) ≤ schedule.count i) :
    P.result ((Calls.run P schedule C).phase i) ≠ none := by
  unfold Calls.run
  induction schedule generalizing C with
  | nil =>
    intro hres
    have hlt := hrank (C.phase i) C.state hres
    have hle := h hres
    rw [List.count_nil] at hle
    omega
  | cons j schedule ih =>
    refine ih fun hres => ?_
    cases hj : P.result (C.phase j) with
    | some r =>
      rw [step_of_ended hj] at hres ⊢
      have hne : j ≠ i := by
        rintro rfl
        rw [hres] at hj
        cases hj
      rw [List.count_cons_of_ne hne] at h
      exact h hres
    | none =>
      rw [step_of_running hj] at hres ⊢
      by_cases hij : i = j
      · subst hij
        have hlt := hrank (C.phase i) C.state hj
        have hle := h hj
        rw [List.count_cons_self] at hle
        simp only [Function.update_self]
        omega
      · simp only [Function.update_of_ne hij] at hres ⊢
        rw [List.count_cons_of_ne (Ne.symm hij)] at h
        exact h hres

end Run

/-- **A call takes effect with its last step**, as `serial` does as a whole. `Ready` is what the
phase of a call relies on, and calls that are `apart` leave it alone. -/
structure Commits (P : Steps A Φ σ R) (serial : A → σ → R × σ) (I : σ → Prop) (Ready : A → Φ → σ → Prop)
    (apart : A → A → Prop) : Prop where
  inv : ∀ a s, I s → I (serial a s).2
  start : ∀ a s, P.result (P.start a) = none ∧ Ready a (P.start a) s
  step : ∀ a φ s, I s → Ready a φ s → P.result φ = none →
    ((P.step φ s).2 = s ∧ P.result (P.step φ s).1 = none ∧ Ready a (P.step φ s).1 s) ∨
      (P.result (P.step φ s).1 = some (serial a s).1 ∧ (P.step φ s).2 = (serial a s).2)
  other : ∀ a b φ s, I s → apart a b → Ready a φ s → Ready a φ (serial b s).2

theorem answers_concat (step : A → σ → R × σ) (as : List A) (a : A) (s : σ) :
    answers step (as ++ [a]) s = answers step as s ++ [(step a (after step as s)).1] := by
  induction as generalizing s with
  | nil => rfl
  | cons b as ih => rw [List.cons_append, answers, answers, after, ih, List.cons_append]

theorem after_concat (step : A → σ → R × σ) (as : List A) (a : A) (s : σ) :
    after step (as ++ [a]) s = (step a (after step as s)).2 := by
  induction as generalizing s with
  | nil => rfl
  | cons b as ih => rw [List.cons_append, after, after, ih]

variable {P : Steps A Φ σ R} {serial : A → σ → R × σ} {I : σ → Prop} {Ready : A → Φ → σ → Prop}
  {apart : A → A → Prop} {args : ι → A} {s : σ}

/-- The calls of `order` have been made one after the other, and the others rely on nothing that
is not so. -/
structure Serialized (P : Steps A Φ σ R) (serial : A → σ → R × σ) (I : σ → Prop) (Ready : A → Φ → σ → Prop)
    (args : ι → A) (s : σ) (C : Calls ι Φ σ) (order : List ι) : Prop where
  nodup : order.Nodup
  ended : ∀ i, i ∈ order ↔ P.result (C.phase i) ≠ none
  state : C.state = after serial (order.map args) s
  results : order.map (fun i => P.result (C.phase i)) = (answers serial (order.map args) s).map some
  inv : I C.state
  ready : ∀ i, i ∉ order → Ready (args i) (C.phase i) C.state

variable [DecidableEq ι]

/-- **One step**: a call goes on without an effect, or ends as the next one in the order. -/
theorem Serialized.step {C : Calls ι Φ σ} {order : List ι} (h : Commits P serial I Ready apart)
    (hargs : ∀ i j, i ≠ j → apart (args i) (args j)) (hC : Serialized P serial I Ready args s C order) (i : ι) :
    Serialized P serial I Ready args s (C.step P i) (order ++ C.ends P i) := by
  cases hres : P.result (C.phase i) with
  | some r =>
    rw [Calls.step_of_ended hres, Calls.ends_of_ended hres, List.append_nil]
    exact hC
  | none =>
    rw [Calls.step_of_running hres, Calls.ends_of_running hres]
    have hi : i ∉ order := fun hmem => (hC.ended i).1 hmem hres
    have hothers : ∀ j ∈ order, P.result (Function.update C.phase i (P.step (C.phase i) C.state).1 j) =
        P.result (C.phase j) := by
      intro j hj
      have hij : j ≠ i := fun hji => hi (hji ▸ hj)
      rw [Function.update_of_ne hij]
    rcases h.step (args i) (C.phase i) C.state hC.inv (hC.ready i hi) hres with ⟨hs, hgo, hready⟩ | ⟨hend, hs⟩
    · rw [hgo, Option.isSome_none, if_neg (by decide), List.append_nil]
      refine ⟨hC.nodup, fun j => ?_, by rw [hs]; exact hC.state, ?_, by rw [hs]; exact hC.inv, fun j hj => ?_⟩
      · by_cases hij : j = i
        · subst hij
          simp only [Function.update_self, hgo, hi, ne_eq, not_true_eq_false]
        · simp only [Function.update_of_ne hij]
          exact hC.ended j
      · rw [List.map_congr_left hothers]
        exact hC.results
      · by_cases hij : j = i
        · subst hij
          simp only [Function.update_self, hs]
          exact hready
        · simp only [Function.update_of_ne hij, hs]
          exact hC.ready j hj
    · rw [hend, Option.isSome_some, if_pos rfl]
      refine ⟨?_, fun j => ?_, ?_, ?_, by rw [hs]; exact h.inv _ _ hC.inv, fun j hj => ?_⟩
      · exact List.nodup_append.2 ⟨hC.nodup, List.pairwise_singleton _ i, fun a ha b hb hab => by
          rw [List.mem_singleton] at hb
          exact hi (hb ▸ hab ▸ ha)⟩
      · rw [List.mem_append, List.mem_singleton]
        by_cases hij : j = i
        · subst hij
          simp only [Function.update_self, hend, or_true, ne_eq, reduceCtorEq, not_false_eq_true]
        · simp only [Function.update_of_ne hij, hij, or_false]
          exact hC.ended j
      · simp only [List.map_append, List.map_singleton, after_concat, hs]
        rw [← hC.state]
      · rw [List.map_append, List.map_append, List.map_congr_left hothers, hC.results, List.map_singleton,
          List.map_singleton, answers_concat, ← hC.state, List.map_append]
        simp only [Function.update_self, hend, List.map_singleton]
      · rw [List.mem_append, List.mem_singleton, not_or] at hj
        simp only [Function.update_of_ne hj.2, hs]
        exact h.other _ _ _ _ hC.inv (hargs j i hj.2) (hC.ready j hj.1)

/-- **The calls could have been made one after the other**, in the order in which they end. -/
theorem serializable (h : Commits P serial I Ready apart) (args : ι → A)
    (hargs : ∀ i j, i ≠ j → apart (args i) (args j)) (hs : I s) (schedule : List ι) :
    Serialized P serial I Ready args s (Calls.run P schedule (.begin P args s))
      (Calls.endings P schedule (.begin P args s)) := by
  have hstart : Serialized P serial I Ready args s (.begin P args s) [] :=
    ⟨List.nodup_nil, fun i => by simp only [Calls.begin, (h.start (args i) s).1, List.not_mem_nil, ne_eq,
      not_true_eq_false], rfl, rfl, hs, fun i _ => (h.start (args i) s).2⟩
  -- what has ended before comes first
  have hrun : ∀ (C : Calls ι Φ σ) (order : List ι), Serialized P serial I Ready args s C order →
      Serialized P serial I Ready args s (Calls.run P schedule C) (order ++ Calls.endings P schedule C) := by
    unfold Calls.run
    induction schedule with
    | nil =>
      intro C order hC
      rw [Calls.endings, List.append_nil]
      exact hC
    | cons i schedule ih =>
      intro C order hC
      rw [Calls.endings, ← List.append_assoc]
      exact ih _ _ (hC.step h hargs i)
  exact hrun _ [] hstart

end Coms4111.Store
