import Coms4111.Proof.Conservation

/-!
# Concurrent transfers

Several sessions call `transfer_commit` at once, between existing accounts, each
statement one step. The procedure reads a balance into `temp_balance` and writes it
back in a later statement, with no lock in between.

* `transfers_none_lost`: if no session writes a balance while another one stands
  between its reading and its writing of the same balance, then at the end every
  account has what it had, plus the transfers to it and minus the transfers from it.
* `interleaved_transfer_lost`: two transfers from one account, both with `rc = 1`, of
  which one is lost.

A session is one of the programs `Route.prog`, named by the `Phase` of the call.
The proof follows the phases: `Matches` says that the tables are those of the
beginning plus what the phases have already paid.
-/

namespace Coms4111.Bank

open Sql

variable (C : Collation) {ι : Type}

/-- Sessions that make one call each. -/
def sessions (source target : ι → Option Text) (amount : ι → ℚ) (s : State) :
    Pool ι Stmt State (Option ℤ) :=
  ⟨fun i => transferCommit C (source i) (target i) (some (amount i)), s⟩

/-- The call of session `i` has ended with `rc = 1`. -/
def Committed (P : Pool ι Stmt State (Option ℤ)) (i : ι) : Prop :=
  (P.session i).returned = some (some 1)

instance (P : Pool ι Stmt State (Option ℤ)) (i : ι) : Decidable (Committed P i) :=
  inferInstanceAs (Decidable (_ = _))

/-- **No transfer is lost**: every account of `s` has been given the amounts of the
committed calls with it as target, and been taken those with it as source. -/
def NoneLost [Fintype ι] (source target : ι → Option Text) (amount : ι → ℚ) (s : State)
    (P : Pool ι Stmt State (Option ℤ)) : Prop :=
  ∀ k, (P.tables.accounts k).rows = (s.accounts k).rows.map fun r =>
    { r with balance := r.balance +
        (∑ i, if Committed P i ∧ C.eqN r.accountId (target i) = true then amount i else 0) -
        ∑ i, if Committed P i ∧ C.eqN r.accountId (source i) = true then amount i else 0 }

/-- Both statements write the balance of the same account. -/
def sameWrite : Option Stmt → Option Stmt → Bool
  | some (.write k id), some (.write k' id') => decide (k = k') && C.eqN id id'
  | _, _ => false

/-- If session `i` is about to write a balance, no other session has read the same
balance and not written it yet. -/
def Undisturbed (P : Pool ι Stmt State (Option ℤ)) (i : ι) : Prop :=
  ∀ j, j ≠ i → sameWrite C (P.session i).next (P.session j).next = false

instance [Fintype ι] [DecidableEq ι] (P : Pool ι Stmt State (Option ℤ)) (i : ι) :
    Decidable (Undisturbed C P i) := inferInstanceAs (Decidable (∀ _, _))

/-! ## The phases of a call -/

/-- The two halves of a transfer. -/
inductive Leg
  | debit
  | credit

/-- How far a call has come. `write` has the balance that was read. -/
inductive Phase
  | test
  | read (l : Leg)
  | write (l : Leg) (balance : ℚ)
  | log (rc : ℤ)
  | done (rc : ℤ)

/-- A call between accounts of `s`. -/
structure Route (s : State) where
  kind : Leg → Kind
  id : Leg → Option Text
  amount : ℚ
  like : ∀ l, C.likeN (kind l).pattern (id l) = true
  one : ∀ l, (s.named C (kind l) (id l)).length = 1

variable {C} {s : State}

/-- The balance that the leg writes, from the amount and the balance that was read. -/
def Leg.value (a b : ℚ) : Leg → ℚ
  | debit => b - a
  | credit => b + a

/-- What comes after the leg's write. -/
def Leg.after : Leg → Phase
  | debit => .read .credit
  | credit => .log 1

/-- The legs that have been written. -/
def Phase.paid : Phase → List Leg
  | test | read .debit | write .debit _ => []
  | read .credit | write .credit _ => [.debit]
  | log rc | done rc => if rc = 1 then [.debit, .credit] else []

namespace Route

variable (t : Route C s)

/-- The log record and the end of the call. -/
def finish (rc : ℤ) : Proc Stmt State (Option ℤ) := do
  Proc.exec (.log rc) (insertLog ⟨t.id .debit, t.id .credit, some t.amount, rc⟩)
  return some rc

/-- What is left of the procedure from the reading of the leg's balance on. -/
def fromRead : Leg → Proc Stmt State (Option ℤ)
  | .debit => do
    debit C (t.kind .debit) (t.id .debit) (some t.amount)
    credit C (t.kind .credit) (t.id .credit) (some t.amount)
    t.finish 1
  | .credit => do
    credit C (t.kind .credit) (t.id .credit) (some t.amount)
    t.finish 1

/-- What is left of the procedure in a phase. -/
def prog : Phase → Proc Stmt State (Option ℤ)
  | .test => do
    if ← Proc.query (.test (t.kind .debit) (t.id .debit))
        (sourceTest C (t.kind .debit) (t.id .debit) (some t.amount)) then t.fromRead .debit
    else t.finish (-1)
  | .read l => t.fromRead l
  | .write .debit b => do
    Proc.exec (.write (t.kind .debit) (t.id .debit))
      (updateBalance C (t.kind .debit) (t.id .debit) (some (Leg.debit.value t.amount b)))
    t.fromRead .credit
  | .write .credit b => do
    Proc.exec (.write (t.kind .credit) (t.id .credit))
      (updateBalance C (t.kind .credit) (t.id .credit) (some (Leg.credit.value t.amount b)))
    t.finish 1
  | .log rc => t.finish rc
  | .done rc => return some rc

/-- What the call has added to the accounts. -/
def moved (φ : Phase) : Kind → Option Text → ℚ :=
  (φ.paid.map fun l => charge C (t.kind l) (t.id l) (l.value t.amount 0)).sum

/-- The call begins in the phase `test`. -/
theorem transferCommit_eq :
    transferCommit C (t.id .debit) (t.id .credit) (some t.amount) = t.prog .test := by
  have hfrom : ∀ k, C.likeN k.pattern (t.id .debit) = true →
      transferFrom C k (t.id .debit) (t.id .credit) (some t.amount) = t.prog .test := by
    intro k hk
    obtain rfl := pattern_unique hk (t.like .debit)
    unfold transferFrom
    simp only [credits_eq (t.like .credit)]
    rfl
  unfold transferCommit
  split
  · rename_i h; exact hfrom _ h
  · rename_i h1
    split
    · rename_i h; exact hfrom _ h
    · rename_i h2
      have hl := t.like .debit
      cases hk : t.kind .debit with
      | checking => rw [hk] at hl; exact absurd hl h1
      | savings => rw [hk] at hl; exact absurd hl h2

/-- **One statement of a call**: the phase and the tables before it and after it. -/
inductive Advance : Phase → State → Phase → State → Prop
  | accept (T : State) : Advance .test T (.read .debit) T
  | refuse (T : State) : Advance .test T (.log (-1)) T
  | read {l : Leg} {T : State} {r : Account} : T.named C (t.kind l) (t.id l) = [r] →
      Advance (.read l) T (.write l r.balance) T
  | write {l : Leg} {b : ℚ} {T T' : State} {r : Account} : T.named C (t.kind l) (t.id l) = [r] →
      Adds (charge C (t.kind l) (t.id l) (l.value t.amount b - r.balance)) T T' →
      Advance (.write l b) T l.after T'
  | log {rc : ℤ} {T T' : State} : T'.accounts = T.accounts → Advance (.log rc) T (.done rc) T'

/-- A call that has not ended takes its next statement: none is refused as long as the
accounts are there. -/
theorem prog_step {T : State} (hT : ∀ l, (T.named C (t.kind l) (t.id l)).length = 1) {φ : Phase}
    (hφ : (t.prog φ).next ≠ none) :
    ∃ φ' T', (t.prog φ).step T = some (t.prog φ', T') ∧ t.Advance φ T φ' T' := by
  have hone : ∀ l, ∃ r, T.named C (t.kind l) (t.id l) = [r] := fun l => List.length_eq_one_iff.1 (hT l)
  cases φ with
  | test =>
    obtain ⟨r, hr⟩ := hone .debit
    have htest : ∃ v, sourceTest C (t.kind .debit) (t.id .debit) (some t.amount) T = .ok v := by
      unfold sourceTest selectBalance selectLimit
      rw [hr]; exact ⟨_, rfl⟩
    obtain ⟨v, hv⟩ := htest
    unfold prog
    rw [Proc.step_query_bind, hv]
    cases v with
    | true => exact ⟨.read .debit, T, rfl, .accept T⟩
    | false => exact ⟨.log (-1), T, rfl, .refuse T⟩
  | read l =>
    obtain ⟨r, hr⟩ := hone l
    refine ⟨.write l r.balance, T, ?_, .read hr⟩
    cases l with
    | debit =>
      show Proc.step (Proc.query _ _ >>= _) T = _
      rw [Proc.step_query_bind, selectBalance_one hr]; rfl
    | credit =>
      simp only [prog, fromRead, credit, if_pos (t.like .credit)]
      show Proc.step (Proc.query _ _ >>= _) T = _
      rw [Proc.step_query_bind, selectBalance_one hr]; rfl
  | write l b =>
    obtain ⟨r, hr⟩ := hone l
    obtain ⟨T', hT', hadd, -⟩ := updateBalance_named hr (l.value t.amount b)
    refine ⟨l.after, T', ?_, .write hr hadd⟩
    cases l <;>
    · unfold prog
      rw [Proc.step_exec_bind, hT']; rfl
  | log rc => exact ⟨.done rc, _, rfl, .log rfl⟩
  | done rc => exact absurd rfl hφ

theorem prog_ended {φ : Phase} (h : (t.prog φ).next = none) : ∃ rc, φ = .done rc := by
  cases φ with
  | done rc => exact ⟨rc, rfl⟩
  | test => cases h
  | log rc => cases h
  | write l b => cases l <;> cases h
  | read l =>
    cases l with
    | debit => cases h
    | credit =>
      simp only [prog, fromRead, credit, if_pos (t.like .credit)] at h
      cases h

theorem prog_write (l : Leg) (b : ℚ) :
    (t.prog (.write l b)).next = some (.write (t.kind l) (t.id l)) := by
  cases l <;> rfl

theorem moved_after (l : Leg) (b : ℚ) : t.moved l.after =
    t.moved (.write l b) + charge C (t.kind l) (t.id l) (l.value t.amount 0) := by
  cases l <;> simp [moved, Leg.after, Phase.paid]

theorem moved_done (rc : ℤ) : t.moved (.done rc) = if rc = 1 then
    charge C (t.kind .debit) (t.id .debit) (-t.amount) + charge C (t.kind .credit) (t.id .credit) t.amount
    else 0 := by
  by_cases h : rc = 1 <;> simp [moved, Phase.paid, Leg.value, h]

variable {t}

/-- What one statement adds to the accounts: nothing, or, if the balance it writes is
still the one in the table, what its leg pays. -/
theorem Advance.adds {φ φ' : Phase} {T T' : State} (h : t.Advance φ T φ' T')
    (hfresh : ∀ l b, φ = .write l b → ∀ r ∈ T.named C (t.kind l) (t.id l), r.balance = b) :
    ∃ ε, Adds ε T T' ∧ t.moved φ' = t.moved φ + ε ∧
      (ε = 0 ∨ ∃ l b d, φ = .write l b ∧ ε = charge C (t.kind l) (t.id l) d) := by
  have hzero : ∀ {T T' : State}, T'.accounts = T.accounts → Adds 0 T T' := by
    intro T T' he k; rw [he]; simp
  cases h with
  | accept => exact ⟨0, hzero rfl, by simp [moved, Phase.paid], .inl rfl⟩
  | refuse => exact ⟨0, hzero rfl, by simp [moved, Phase.paid], .inl rfl⟩
  | @read l T r hr =>
    refine ⟨0, hzero rfl, ?_, .inl rfl⟩
    cases l <;> simp [moved, Phase.paid]
  | @write l b T T' r hr hadd =>
    -- the balance read is the one in the table, so the new value is a change by the amount
    have hb : r.balance = b := hfresh l b rfl r (by rw [hr]; exact List.mem_singleton_self r)
    have hval : l.value t.amount b - r.balance = l.value t.amount 0 := by
      rw [hb]; cases l <;> simp [Leg.value]
    rw [hval] at hadd
    exact ⟨_, hadd, t.moved_after l b, .inr ⟨l, b, _, rfl, rfl⟩⟩
  | log he => exact ⟨0, hzero he, by simp [moved, Phase.paid], .inl rfl⟩

/-- A call in the phase `write` has just read the balance. -/
theorem Advance.fresh {φ : Phase} {l : Leg} {b : ℚ} {T T' : State} (h : t.Advance φ T (.write l b) T') :
    ∀ r ∈ T'.named C (t.kind l) (t.id l), r.balance = b := by
  generalize hφ' : Phase.write l b = φ' at h
  cases h with
  | read hr =>
    cases hφ'
    intro r' hr'
    rw [hr, List.mem_singleton] at hr'
    rw [hr']
  | @write l' => cases l' <;> cases hφ'
  | _ => cases hφ'

end Route

/-! ## Sessions in phases -/

variable [Fintype ι] [DecidableEq ι]

/-- The sessions are in the phases `φ`, the accounts of `s` have what these have paid,
and a balance that is about to be written is up to date. -/
structure Matches (t : ι → Route C s) (φ : ι → Phase) (P : Pool ι Stmt State (Option ℤ)) : Prop where
  session : ∀ i, P.session i = (t i).prog (φ i)
  adds : Adds (∑ i, (t i).moved (φ i)) s P.tables
  fresh : ∀ i l b, φ i = .write l b →
    ∀ r ∈ P.tables.named C ((t i).kind l) ((t i).id l), r.balance = b

theorem sum_moved_update (t : ι → Route C s) (φ : ι → Phase) {i : ι} {φ' : Phase}
    {ε : Kind → Option Text → ℚ} (h : (t i).moved φ' = (t i).moved (φ i) + ε) :
    ∑ j, (t j).moved (Function.update φ i φ' j) = (∑ j, (t j).moved (φ j)) + ε := by
  have hrest : ∑ j ∈ Finset.univ.erase i, (t j).moved (Function.update φ i φ' j) =
      ∑ j ∈ Finset.univ.erase i, (t j).moved (φ j) := by
    apply Finset.sum_congr rfl
    intro j hj
    rw [Function.update_of_ne (Finset.ne_of_mem_erase hj)]
  rw [← Finset.add_sum_erase _ _ (Finset.mem_univ i),
    ← Finset.add_sum_erase (Finset.univ) (fun j => (t j).moved (φ j)) (Finset.mem_univ i), hrest,
    Function.update_self, h, add_right_comm]

/-- **One statement of an undisturbed schedule.** -/
theorem Matches.step {t : ι → Route C s} {φ : ι → Phase} {P : Pool ι Stmt State (Option ℤ)}
    (h : Matches t φ P) {i : ι} (hi : Undisturbed C P i) : ∃ φ, Matches t φ (P.step i) := by
  by_cases hend : (P.session i).next = none
  · rw [Pool.step_ended hend]; exact ⟨φ, h⟩
  have hT : ∀ l, (P.tables.named C ((t i).kind l) ((t i).id l)).length = 1 := by
    intro l; rw [named_adds h.adds, List.length_map]; exact (t i).one l
  rw [h.session i] at hend
  obtain ⟨φ', T', hstep, hadv⟩ := (t i).prog_step hT hend
  obtain ⟨ε, hadd, hmoved, hε⟩ := hadv.adds (h.fresh i)
  rw [Pool.step_phase h.session ((congrArg (Proc.step · _) (h.session i)).trans hstep)]
  refine ⟨Function.update φ i φ', fun _ => rfl, ?_, ?_⟩
  · rw [sum_moved_update t φ hmoved]; exact h.adds.trans hadd
  · intro j l b hjb
    by_cases hj : j = i
    · subst hj
      rw [Function.update_self] at hjb
      subst hjb
      exact hadv.fresh
    rw [Function.update_of_ne hj] at hjb
    intro r hr
    rw [named_adds hadd, List.mem_map] at hr
    obtain ⟨r₀, hr₀, rfl⟩ := hr
    -- what session `i` adds does not reach the account that `j` has read
    have hz : ε ((t j).kind l) r₀.accountId = 0 := by
      rcases hε with rfl | ⟨l', b', d, hφ, rfl⟩
      · rfl
      · unfold charge
        rw [if_neg]
        rintro ⟨hk, hm⟩
        have hni : (P.session i).next = some (.write ((t i).kind l') ((t i).id l')) := by
          rw [h.session i, hφ, Route.prog_write]
        have hnj : (P.session j).next = some (.write ((t i).kind l') ((t j).id l)) := by
          rw [h.session j, hjb, Route.prog_write, hk]
        have hne := hi j hj
        rw [hni, hnj] at hne
        simp [sameWrite, Collation.eqN_trans hm (mem_named.1 hr₀).2] at hne
    rw [hz, add_zero]
    exact h.fresh j l b hjb r₀ hr₀

/-- An id that names one account belongs to the account's table. -/
theorem holds_named (hs : Prefixed C s) {id : Option Text} (h : s.Holds C id) :
    ∃ k : Kind, C.likeN k.pattern id = true ∧ (s.named C k id).length = 1 := by
  have hne : s.holders C id ≠ [] := by
    intro he; unfold State.Holds at h; rw [he] at h; cases h
  obtain ⟨a, ha⟩ := List.exists_mem_of_ne_nil _ hne
  have hex : ∃ k, a ∈ s.named C k id := by
    unfold State.holders at ha
    rcases List.mem_append.1 ha with ha | ha
    · exact ⟨_, ha⟩
    · exact ⟨_, ha⟩
  obtain ⟨k, hk⟩ := hex
  have hl := mem_named_like hs hk
  unfold State.Holds at h
  rw [holders_eq hs hl] at h
  exact ⟨k, hl, h⟩

/-- **Concurrent transfers.** Any number of calls between accounts of a reachable
state, in any order of their statements in which no balance is written while another
session has read it and not written it yet: once all calls have ended, none is lost. -/
theorem transfers_none_lost (C : Collation) {ι : Type} [Fintype ι] [DecidableEq ι] (ops : List Op)
    (source target : ι → Option Text) (amount : ι → ℚ)
    (hsource : ∀ i, (run C ops .empty).Holds C (source i))
    (htarget : ∀ i, (run C ops .empty).Holds C (target i)) (sched : List ι)
    (hsched : Along Pool.step (Undisturbed C) (sessions C source target amount (run C ops .empty)) sched)
    (hend : ((sessions C source target amount (run C ops .empty)).run sched).Finished) :
    NoneLost C source target amount (run C ops .empty)
      ((sessions C source target amount (run C ops .empty)).run sched) := by
  have hs := prefixed_run (C := C) ops prefixed_empty
  generalize run C ops .empty = s at *
  choose k hk using fun i => holds_named hs (hsource i)
  choose k' hk' using fun i => holds_named hs (htarget i)
  -- every call runs between two accounts, each in the table its id belongs to
  let t : ι → Route C s := fun i => {
    kind := fun | .debit => k i | .credit => k' i
    id := fun | .debit => source i | .credit => target i
    amount := amount i
    like := fun | .debit => (hk i).1 | .credit => (hk' i).1
    one := fun | .debit => (hk i).2 | .credit => (hk' i).2 }
  have hstart : Matches t (fun _ => .test) (sessions C source target amount s) := by
    refine ⟨fun i => (t i).transferCommit_eq, ?_, fun i l b h => by cases h⟩
    intro k; simp [Route.moved, Phase.paid, sessions]
  have hrun : ∃ φ, Matches t φ ((sessions C source target amount s).run sched) :=
    Along.inv (I := fun P => ∃ φ, Matches t φ P) (fun P i ⟨_, hφ⟩ hi => hφ.step hi) sched _ ⟨_, hstart⟩ hsched
  generalize (sessions C source target amount s).run sched = P at hrun hend
  obtain ⟨φ, hφ⟩ := hrun
  choose rc hrc using fun i => (t i).prog_ended (by rw [← hφ.session i]; exact hend i)
  -- the result codes are what the phases say
  have hcom : ∀ i, Committed P i ↔ rc i = 1 := by
    intro i
    unfold Committed
    rw [hφ.session i, hrc i]
    show some (some (rc i)) = some (some 1) ↔ _
    simp
  -- what the phases have moved, account by account and call by call
  intro k₀
  rw [hφ.adds k₀]
  apply List.map_congr_left
  intro r hr
  congr 1
  rw [Finset.sum_apply, Finset.sum_apply, add_sub_assoc, ← Finset.sum_sub_distrib]
  congr 1
  apply Finset.sum_congr rfl
  intro i _
  rw [hrc i, Route.moved_done]
  by_cases h1 : rc i = 1
  · simp only [h1, (hcom i).2 h1, if_true, true_and, Pi.add_apply]
    rw [charge_prefixed hs hr ((t i).like .debit), charge_prefixed hs hr ((t i).like .credit)]
    show (if C.eqN r.accountId (source i) = true then -amount i else 0) +
      (if C.eqN r.accountId (target i) = true then amount i else 0) = _
    split_ifs <;> ring
  · simp [h1, mt (hcom i).1 h1]

/-- Two transfers in opposite directions, interleaved between their writes. -/
theorem opposite_transfers_none_lost :
    NoneLost asciiCi ![some "CH-14".toList, some "SV-1".toList] ![some "SV-1".toList, some "CH-14".toList]
      ![10, 20] (run asciiCi [.insert .checking 14 100 50, .insert .savings 1 760 50] .empty)
      ((sessions asciiCi ![some "CH-14".toList, some "SV-1".toList]
        ![some "SV-1".toList, some "CH-14".toList] ![10, 20]
        (run asciiCi [.insert .checking 14 100 50, .insert .savings 1 760 50] .empty)).run
        [0, 1, 0, 0, 1, 1, 0, 0, 1, 1, 0, 1]) :=
  transfers_none_lost asciiCi _ _ _ _ (by unfold State.Holds; decide +kernel)
    (by unfold State.Holds; decide +kernel) _ (by decide +kernel) (by unfold Pool.Finished; decide +kernel)

/-- Two transfers of 10 from `CH-14`: both sessions read the balance 100 before either
writes 90. Both report `rc = 1`, and one debit is lost. -/
theorem interleaved_transfer_lost :
    let s := run asciiCi [.insert .checking 14 100 50, .insert .savings 1 760 50] .empty
    let source : Fin 2 → Option Text := fun _ => some "CH-14".toList
    let target : Fin 2 → Option Text := fun _ => some "SV-1".toList
    let P := (sessions asciiCi source target (fun _ => 10) s).run [0, 0, 1, 1, 0, 1, 0, 0, 0, 1, 1, 1]
    (∀ i, s.Holds asciiCi (source i) ∧ s.Holds asciiCi (target i)) ∧ P.Finished ∧
      (∀ i, Committed P i) ∧ ¬NoneLost asciiCi source target (fun _ => 10) s P := by
  refine ⟨by unfold State.Holds; decide +kernel, by unfold Pool.Finished; decide +kernel,
    by decide +kernel, ?_⟩
  intro h
  exact absurd (h .checking) (by decide +kernel)

end Coms4111.Bank
