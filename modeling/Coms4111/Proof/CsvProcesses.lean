import Coms4111.Proof.CsvKeys
import Coms4111.Store.Serial

/-!
# Several processes at the same time

Between the check of an insertion and its write another process may append a row. If the two have
the same id, both are written (`same_id_twice`). Otherwise nothing is lost by it:

* `processes_serialize`: processes that insert different ids print and leave behind what they would
  one after the other, in the order in which they end, whatever the interleaving of their
  steps; in particular the tables keep their key.
-/

namespace Coms4111.Csv

open Sql (Text)
open Store

variable {t : TableName} {f : File} {O : KeyOrder} {files : Files} {args rest tokens : List Text}

/-! ## The row of an insertion -/

/-- The entries between the parentheses. -/
def tokensOf : List Text → Option (List Text)
  | [arg] => some (arg.tail.dropLast.splitOn ',')
  | _ => none

/-- The table and the id that an invocation wants to insert. -/
def insertedId (args : List Text) : Option (TableName × Text) :=
  (insertion args).bind fun p => (tokensOf p.2).map fun tokens => (p.1, lower (rowId tokens))

theorem tokensOf_eq (h : insertTokens t f rest = .ok tokens) : tokensOf rest = some tokens := by
  unfold insertTokens at h
  split at h
  · split at h
    · split at h
      · cases h
      · rw [(checkTokens_ok h).1]
        rfl
    · cases h
  · cases h

/-- The file has a say in an insertion only through the search for the id. -/
theorem insertTokens_of_search {f' : File} (h : insertTokens t f rest = .ok tokens)
    (hrep : repeatItem (rowId tokens) t.idColumn f'.lines = .ok false) : insertTokens t f' rest = .ok tokens := by
  unfold insertTokens at h ⊢
  split at h
  · split at h
    · split at h
      · cases h
      · rename_i hparens
        obtain ⟨rfl, hlen, -⟩ := checkTokens_ok h
        have hrep' : repeatItem ((List.splitOn ',' (List.dropLast (List.tail _))).headD []) t.idColumn f'.lines =
            .ok false := hrep
        simp only [checkTokens, ne_eq, hlen, not_true_eq_false, if_false, hrep', if_neg hparens]
    · cases h
  · cases h

theorem hw1a_insertion (h : insertion args = some (t, rest)) : hw1a O files args = insert t rest files := by
  unfold insertion at h
  split at h
  · rename_i operation table arg args
    split at h
    · rename_i hop htable
      cases h
      simp only [hw1a, hop, htable]
    · cases h
  · cases h

/-- What is no insertion leaves the files alone. -/
theorem hw1a_other (h : insertion args = none) : (hw1a O files args).files = files := by
  unfold insertion at h
  unfold hw1a
  split at h
  · rename_i operation table arg args
    split
    · rfl
    · rfl
    · unfold find
      split <;> rfl
    · rename_i t hop htable
      simp only [hop, htable] at h
      cases h
  · rfl

/-- What an invocation appends is the row that it wants to insert. -/
theorem hw1a_inserted (O : KeyOrder) (files : Files) (args : List Text) : (hw1a O files args).files = files ∨
    ∃ t tokens, insertedId args = some (t, lower (rowId tokens)) ∧
      (hw1a O files args).files = Function.update files t (files t ++ [tokens]) := by
  cases hins : insertion args with
  | none => exact .inl (hw1a_other hins)
  | some p =>
    obtain ⟨t, rest⟩ := p
    rw [hw1a_insertion hins]
    unfold insert
    cases htokens : insertTokens t (files t) rest with
    | error e => exact .inl rfl
    | ok tokens =>
      refine .inr ⟨t, tokens, ?_, rfl⟩
      rw [insertedId, hins, Option.bind_some, tokensOf_eq htokens, Option.map_some]

/-! ## Processes as calls in steps -/

/-- A process of `hw1a.py`. -/
def processSteps (O : KeyOrder) : Steps (List Text) Process Files (List Line × Ending) where
  start := .started
  step := Process.step O
  result
    | .ended printed ending => some (printed, ending)
    | _ => none

/-- An invocation as a whole. -/
def invocation (O : KeyOrder) (args : List Text) (files : Files) : (List Line × Ending) × Files :=
  (((hw1a O files args).printed, (hw1a O files args).ending), (hw1a O files args).files)

/-- What a process relies on: a row that has been checked would still pass. -/
def Ready (args : List Text) : Process → Files → Prop
  | .started args', _ => args' = args
  | .checked t tokens, files =>
    ∃ rest, insertion args = some (t, rest) ∧ insertTokens t (files t) rest = .ok tokens
  | .ended _ _, _ => True

/-- The invocations do not insert the same id. -/
def DifferentIds (args args' : List Text) : Prop := insertedId args = none ∨ insertedId args ≠ insertedId args'

instance (args args' : List Text) : Decidable (DifferentIds args args') := inferInstanceAs (Decidable (_ ∨ _))

/-- **A row that has been checked stays so**, whatever other ids are inserted. -/
theorem Ready.other (h : ∀ t, Keyed t (files t)) {φ : Process} {args' : List Text}
    (hids : DifferentIds args args') (hready : Ready args φ files) :
    Ready args φ (hw1a O files args').files := by
  cases φ with
  | started => exact hready
  | ended => trivial
  | checked t tokens =>
    obtain ⟨rest, hins, htokens⟩ := hready
    refine ⟨rest, hins, insertTokens_of_search htokens ?_⟩
    have hkeyed := (keyed_step (O := O) h args' t).1
    have hold := (insertTokens_ok htokens).2
    rcases hw1a_inserted O files args' with hf | ⟨t', tokens', hid, hf⟩
    · rw [hf]
      exact hold
    · rw [hf] at hkeyed ⊢
      by_cases ht : t = t'
      · subst ht
        rw [Function.update_self] at hkeyed ⊢
        -- the new row has another id
        have hown : insertedId args = some (t, lower (rowId tokens)) := by
          rw [insertedId, hins, Option.bind_some, tokensOf_eq htokens, Option.map_some]
        have hne : lower (rowId tokens') ≠ lower (rowId tokens) := by
          intro heq
          rw [heq, ← hown] at hid
          rcases hids with hnone | hne
          · rw [hnone] at hown
            cases hown
          · exact hne hid.symm
        have hrows : File.rows (files t ++ [tokens']) = (files t).rows ++ [tokens'] :=
          List.tail_append_of_ne_nil (h t).ne_nil
        rw [(h t).repeatItem] at hold
        rw [hkeyed.repeatItem, hrows, List.any_append, Except.ok.inj hold]
        simp [hne]
      · rw [Function.update_of_ne ht]
        exact hold

/-- **An insertion takes effect with its write**, everything else with its only step. -/
theorem process_commits (O : KeyOrder) :
    Commits (processSteps O) (invocation O) (fun files => ∀ t, Keyed t (files t)) Ready DifferentIds where
  inv := fun args files h t => (keyed_step h args t).1
  start := fun _ _ => ⟨rfl, rfl⟩
  other := fun _ _ _ _ h hids hready => hready.other h hids
  step := by
    intro args φ files _ hready hres
    cases φ with
    | ended printed ending => cases hres
    | checked t tokens =>
      obtain ⟨rest, hins, htokens⟩ := hready
      right
      simp only [processSteps, Process.step, invocation, hw1a_insertion hins, insert, htokens]
      exact ⟨trivial, trivial⟩
    | started args' =>
      subst hready
      cases hins : insertion args' with
      | none =>
        right
        simp only [processSteps, Process.step, invocation, hins, hw1a_other hins]
        exact ⟨trivial, trivial⟩
      | some p =>
        obtain ⟨t, rest⟩ := p
        cases htokens : insertTokens t (files t) rest with
        | error e =>
          right
          simp only [processSteps, Process.step, invocation, hins, hw1a_insertion hins, insert, htokens]
          exact ⟨trivial, trivial⟩
        | ok tokens =>
          left
          simp only [processSteps, Process.step, hins, htokens]
          exact ⟨trivial, trivial, rest, hins, htokens⟩

theorem after_invocation (O : KeyOrder) (invocations : List (List Text)) (files : Files) :
    after (invocation O) invocations files = run O invocations files := by
  unfold run
  induction invocations generalizing files with
  | nil => rfl
  | cons args invocations ih => rw [after, ih, List.foldl_cons]; rfl

/-- The steps that a process has before it at most. -/
def Process.rank : Process → ℕ
  | .started _ => 2
  | .checked _ _ => 1
  | .ended _ _ => 0

theorem rank_step (O : KeyOrder) (φ : Process) (files : Files) (h : (processSteps O).result φ = none) :
    ((processSteps O).step φ files).1.rank < φ.rank := by
  cases φ with
  | ended printed ending => cases h
  | checked t tokens => exact Nat.zero_lt_one
  | started args =>
    simp only [processSteps, Process.step]
    split
    · exact Nat.zero_lt_two
    · split
      · exact Nat.zero_lt_two
      · exact Nat.one_lt_two

/-- **Processes that insert different ids** do the same as one after the other, in the order in
which they end, and each ends with its second step at the latest. -/
theorem processes_serialize {ι : Type} [DecidableEq ι] (O : KeyOrder) (files : Files) (h : ∀ t, Keyed t (files t))
    (args : ι → List Text) (hids : ∀ i j, i ≠ j → DifferentIds (args i) (args j)) (schedule : List ι) :
    let C := Calls.run (processSteps O) schedule (.begin (processSteps O) args files)
    let order := Calls.endings (processSteps O) schedule (.begin (processSteps O) args files)
    order.Nodup ∧ (∀ i, i ∈ order ↔ (processSteps O).result (C.phase i) ≠ none) ∧
      (∀ i, 2 ≤ schedule.count i → i ∈ order) ∧
      C.state = run O (order.map args) files ∧ (∀ t, Keyed t (C.state t)) ∧
      order.map (fun i => (processSteps O).result (C.phase i)) =
        (answers (invocation O) (order.map args) files).map some := by
  intro C order
  have hC : Serialized _ _ _ _ args files C order := serializable (process_commits O) args hids h schedule
  refine ⟨hC.nodup, hC.ended, fun i hi => ?_, hC.state.trans (after_invocation O _ files), hC.inv, hC.results⟩
  exact (hC.ended i).2 (Calls.ended_of_count Process.rank (rank_step O) fun _ => hi)

/-- Two customers are checked before either is written, and a search falls between the
writes. -/
theorem processes_serialize_interleaved :
    let args : Fin 3 → List Text := ![["insert".toList, "customer".toList, "(BONAP,,,,,,,,,,)".toList],
      ["INSERT".toList, "customer".toList, "(FRANK,,,,,,,,,,)".toList],
      ["find".toList, "customer".toList, "CustomerID=FRANK".toList]]
    let P := processSteps insertionOrder
    let C := Calls.run P [0, 1, 1, 2, 0] (.begin P args firstCustomer)
    let order := Calls.endings P [0, 1, 1, 2, 0] (.begin P args firstCustomer)
    order = [1, 2, 0] ∧ order.Nodup ∧ (∀ i, i ∈ order ↔ P.result (C.phase i) ≠ none) ∧
      (∀ i, 2 ≤ List.count i [0, 1, 1, 2, 0] → i ∈ order) ∧
      C.state = run insertionOrder (order.map args) firstCustomer ∧ (∀ t, Keyed t (C.state t)) ∧
      order.map (fun i => P.result (C.phase i)) =
        (answers (invocation insertionOrder) (order.map args) firstCustomer).map some :=
  ⟨by decide +kernel,
    processes_serialize insertionOrder firstCustomer firstCustomer_keyed _ (by decide +kernel) _⟩

/-- Two processes check the same new id before either writes it: both rows are written. -/
theorem same_id_twice :
    let args : Fin 2 → List Text := fun _ => ["insert".toList, "customer".toList, "(BONAP,,,,,,,,,,)".toList]
    let P := processSteps insertionOrder
    let C := Calls.run P [0, 1, 0, 1] (.begin P args firstCustomer)
    (∀ i, P.result (C.phase i) = some ([], .done)) ∧ ¬Keyed .customer (C.state .customer) := by
  refine ⟨by decide +kernel, fun h => ?_⟩
  exact absurd h.ids (by decide +kernel)

end Coms4111.Csv
