import Coms4111.Proof.AccountIds
import Coms4111.Proof.Limits

/-!
# The transfer log

* `logged_truthfully_iff`: a run of calls leaves one row per call, with the call's
  arguments and the `rc` it returned, **exactly when** the source of every call begins
  with `CH-` or `SV-` and no id that the call looks up names two accounts. For any other
  source the procedure has no branch: `unknown_source_unlogged` is such a call, whose `rc`
  is `NULL`.
* `balances_reconstructed`: as long as nothing is deleted and every target is an account,
  **the log accounts for every balance**: it is the balance the account was opened with,
  plus what the rows with `result_code = 1` brought, minus what they took.
-/

namespace Coms4111.Bank

open Sql

variable {C : Collation}

/-! ## One row per call -/

variable (C) in
/-- What the call returns. -/
def Call.result (c : Call) (s : State) : Except SqlError (Option ℤ) :=
  ((transferCommit C c.source c.target c.amount).run s).1

variable (C) in
/-- What the calls of a run return. -/
def results : List Call → State → List (Except SqlError (Option ℤ))
  | [], _ => []
  | c :: calls, s => c.result C s :: results calls (c.run C s)

/-- The row of the log that tells the truth about the call. -/
def Call.logRow (c : Call) (rc : ℤ) : LogRow := ⟨c.source, c.target, c.amount, rc⟩

/-- **The log tells the truth**: there is an `rc` of 1 or -1 for each call, the call has
returned it, and the log has grown by the rows of the calls with these, in their order. No
row is changed on the way. -/
def LoggedTruthfully (C : Collation) (calls : List Call) (s : State) : Prop :=
  (∃ rcs : List ℤ, (∀ rc ∈ rcs, rc = 1 ∨ rc = -1) ∧ results C calls s = rcs.map (fun rc => .ok (some rc)) ∧
    (runCalls C calls s).log = s.log ++ List.zipWith Call.logRow calls rcs) ∧
  ∀ n, (runCalls C (calls.take n) s).log <+: (runCalls C calls s).log

/-- The procedure has a branch for the call's source, and no id that the call looks up
names several accounts. -/
def Answered (C : Collation) (s : State) (c : Call) : Prop :=
  ∃ k : Kind, C.likeN k.pattern c.source = true ∧ (s.named C k c.source).length ≤ 1 ∧
    (Accepted C c.source c.amount s →
      ∀ k' : Kind, C.likeN k'.pattern c.target = true → (s.named C k' c.target).length ≤ 1)

/-- The call is logged with the `rc` it returns. -/
def Logs (C : Collation) (s : State) (c : Call) (rc : ℤ) : Prop :=
  (rc = 1 ∨ rc = -1) ∧ c.result C s = .ok (some rc) ∧ (c.run C s).log = s.log ++ [c.logRow rc]

/-- **One call** is logged with its `rc` exactly when it is answered. -/
theorem logs_iff (s : State) (c : Call) : (∃ rc, Logs C s c rc) ↔ Answered C s c := by
  have hout := transferCommit_outcome (C := C) c.source c.target c.amount s
  unfold Logs Call.result Call.run Call.logRow
  generalize ((transferCommit C c.source c.target c.amount).run s).1 = out at hout ⊢
  generalize ((transferCommit C c.source c.target c.amount).run s).2 = s' at hout ⊢
  -- the table of an answered call is the one its source belongs to
  have hunique : ∀ {k k' : Kind}, C.likeN k.pattern c.source = true →
      C.likeN k'.pattern c.source = true → k = k' :=
    fun h h' => pattern_unique h h'
  cases hout with
  | ignored hno =>
    refine iff_of_false (by simp) ?_
    rintro ⟨k, hk, -⟩
    rw [hno k] at hk; cases hk
  | aborted hk he =>
    refine iff_of_false (by simp) ?_
    rintro ⟨k', hk', hone, -⟩
    rw [hunique hk' hk] at hone
    have := sourceTest_error.1 ⟨_, he⟩
    omega
  | @refused k _ hk hf hacc hlog =>
    refine iff_of_true ⟨-1, .inr rfl, rfl, hlog⟩ ⟨k, hk, ?_, ?_⟩
    · by_contra hmany
      obtain ⟨e, he⟩ := sourceTest_error.2 (show 2 ≤ (s.named C k c.source).length by omega)
      rw [hf] at he; cases he
    · rintro ⟨k', hk', ht⟩
      rw [hunique hk' hk, hf] at ht; cases ht
  | @paid k k' r x a _ hd hk' hx hadd hlog =>
    refine iff_of_true ⟨1, .inl rfl, rfl, hlog⟩ ⟨k, hd.like, by rw [hd.one]; exact le_refl 1, ?_⟩
    intro _ k₂ hk₂
    rw [pattern_unique hk₂ hk', hx]; exact le_refl 1
  | @lost k r a _ hd hno hadd hlog =>
    refine iff_of_true ⟨1, .inl rfl, rfl, hlog⟩ ⟨k, hd.like, by rw [hd.one]; exact le_refl 1, ?_⟩
    intro _ k' hk'
    rw [hno k' hk']; exact Nat.zero_le 1
  | @broken k k' r a _ hd hk' hmany hadd hlog =>
    refine iff_of_false (by simp) ?_
    rintro ⟨-, -, -, hone⟩
    have := hone (accepted_iff.2 ⟨_, _, _, hd⟩) k' hk'
    omega

/-- Rows of the log are only added. -/
theorem Outcome.log_grows {source target : Option Text} {amount : Option ℚ} {s s' : State}
    {out : Except SqlError (Option ℤ)} (h : Outcome C source target amount s out s') : s.log <+: s'.log := by
  cases h with
  | ignored _ => exact List.prefix_refl _
  | aborted _ _ => exact List.prefix_refl _
  | refused _ _ _ hlog => rw [hlog]; exact List.prefix_append _ _
  | paid _ _ _ _ hlog => rw [hlog]; exact List.prefix_append _ _
  | lost _ _ _ hlog => rw [hlog]; exact List.prefix_append _ _
  | broken _ _ _ _ hlog => rw [hlog]

theorem runCalls_log_grows (calls : List Call) (s : State) : s.log <+: (runCalls C calls s).log := by
  unfold runCalls
  induction calls generalizing s with
  | nil => exact List.prefix_refl _
  | cons c calls ih => exact (transferCommit_outcome c.source c.target c.amount s).log_grows.trans (ih _)

/-- Earlier rows stay as they are, whatever the calls. -/
theorem runCalls_take_log (calls : List Call) (s : State) (n : ℕ) :
    (runCalls C (calls.take n) s).log <+: (runCalls C calls s).log := by
  conv_rhs => rw [← List.take_append_drop n calls]
  unfold runCalls
  rw [List.foldl_append]
  exact runCalls_log_grows (calls.drop n) _

/-- A call that returns an `rc` is logged with it. -/
theorem logs_of_result {s : State} {c : Call} {rc : ℤ} (h : c.result C s = .ok (some rc)) : Logs C s c rc := by
  have hout := transferCommit_outcome (C := C) c.source c.target c.amount s
  unfold Call.result at h
  unfold Logs Call.result Call.run Call.logRow
  generalize ((transferCommit C c.source c.target c.amount).run s).1 = out at hout h ⊢
  generalize ((transferCommit C c.source c.target c.amount).run s).2 = s' at hout ⊢
  cases hout with
  | ignored _ => cases h
  | aborted _ _ => cases h
  | refused _ _ _ hlog => cases h; exact ⟨.inr rfl, rfl, hlog⟩
  | paid _ _ _ _ hlog => cases h; exact ⟨.inl rfl, rfl, hlog⟩
  | lost _ _ _ hlog => cases h; exact ⟨.inl rfl, rfl, hlog⟩
  | broken _ _ _ _ _ => cases h

/-- **When the log tells the truth**: one row per call, in order, with the call's arguments
and the `rc` it returned, exactly when every call is answered. -/
theorem logged_truthfully_iff (C : Collation) (calls : List Call) (s : State) :
    LoggedTruthfully C calls s ↔ Along (fun s c => c.run C s) (Answered C) s calls := by
  unfold LoggedTruthfully
  rw [and_iff_left (runCalls_take_log calls s)]
  induction calls generalizing s with
  | nil => exact iff_of_true ⟨[], nofun, rfl, (List.append_nil _).symm⟩ trivial
  | cons c calls ih =>
    rw [Along, ← ih, ← logs_iff]
    constructor
    · rintro ⟨rcs, hpm, hres, hlog⟩
      cases rcs with
      | nil => cases hres
      | cons rc rcs =>
        obtain ⟨hc, hres⟩ := List.cons.inj hres
        have hL := logs_of_result hc
        refine ⟨⟨rc, hL⟩, rcs, fun x hx => hpm x (List.mem_cons_of_mem _ hx), hres, ?_⟩
        rw [hL.2.2, List.append_assoc]
        exact hlog
    · rintro ⟨⟨rc, hL⟩, rcs, hpm, hres, hlog⟩
      refine ⟨rc :: rcs, List.forall_mem_cons.2 ⟨hL.1, hpm⟩, ?_, ?_⟩
      · rw [results, hL.2.1, hres]; rfl
      · rw [hL.2.2, List.append_assoc] at hlog
        exact hlog

/-- The source `V-15` begins with neither stem: the call returns `NULL` and is not logged. -/
theorem unknown_source_unlogged :
    let s := run asciiCi [.insert .checking 14 0 0, .insert .savings 1 760 50] .empty
    let call : Call := ⟨some "V-15".toList, some "SV-1".toList, some 100⟩
    s.log = [] ∧ call.result asciiCi s = .ok none ∧ (call.run asciiCi s).log = [] ∧
      ¬LoggedTruthfully asciiCi [call] s := by
  intro s call
  have hnull : call.result asciiCi s = .ok none := by decide +kernel
  refine ⟨by decide +kernel, hnull, by decide +kernel, ?_⟩
  rintro ⟨⟨rcs, -, hres, -⟩, -⟩
  rw [results, hnull] at hres
  cases rcs with
  | nil => cases hres
  | cons rc rcs => cases (List.cons.inj hres).1

/-! ## Balances -/

/-- The id is that of an account. -/
def State.Known (C : Collation) (s : State) (id : Option Text) : Prop :=
  ∃ k, ∃ x ∈ s.keys k, C.eqN x.2 id = true

instance (s : State) (id : Option Text) : Decidable (s.Known C id) :=
  decidable_of_iff
    ((∃ x ∈ s.keys .checking, C.eqN x.2 id = true) ∨ ∃ x ∈ s.keys .savings, C.eqN x.2 id = true) <| by
    constructor
    · rintro (h | h)
      · exact ⟨.checking, h⟩
      · exact ⟨.savings, h⟩
    · rintro ⟨k, h⟩
      cases k with
      | checking => exact .inl h
      | savings => exact .inr h

/-- The sum of the amounts of the rows that `p` selects. -/
def paidSum (p : LogRow → Bool) (log : List LogRow) : ℚ :=
  ((log.filter fun row => row.resultCode == 1 && p row).map fun row => row.amount.getD 0).sum

/-- What the log has brought to an id. -/
def credited (C : Collation) (log : List LogRow) (id : Option Text) : ℚ :=
  paidSum (fun row => C.eqN row.targetId id) log

/-- What the log has taken from an id. -/
def debited (C : Collation) (log : List LogRow) (id : Option Text) : ℚ :=
  paidSum (fun row => C.eqN row.sourceId id) log

/-- **The log accounts for every balance.** The accounts are those that were opened, and
each has the balance it was opened with, plus what the log brought, minus what it took. -/
def Reconstructed (C : Collation) (h : History) : Prop :=
  ∀ k, List.Forall₂ (fun o a : Account => a.idCount = o.idCount ∧ a.accountId = o.accountId ∧
      a.balance = o.balance + credited C h.tables.log a.accountId - debited C h.tables.log a.accountId)
    (h.opened k) (h.tables.accounts k).rows

/-- The operation opens an account, or it is a call whose target is an account. -/
def OpensOrPays (C : Collation) (h : History) : Op → Prop
  | .insert _ _ _ _ => True
  | .delete _ _ => False
  | .transfer _ target _ => h.tables.Known C target

instance (h : History) : ∀ op, Decidable (OpensOrPays C h op)
  | .insert _ _ _ _ => isTrue trivial
  | .delete _ _ => isFalse id
  | .transfer _ target _ => inferInstanceAs (Decidable (h.tables.Known C target))

theorem paidSum_concat (p : LogRow → Bool) (log : List LogRow) (row : LogRow) :
    paidSum p (log ++ [row]) =
      paidSum p log + if row.resultCode = 1 ∧ p row = true then row.amount.getD 0 else 0 := by
  unfold paidSum
  rw [List.filter_append, List.map_append, List.sum_append, List.filter_cons, List.filter_nil]
  simp only [Bool.and_eq_true, beq_iff_eq]
  split_ifs <;> simp

theorem paidSum_eq_zero {p : LogRow → Bool} {log : List LogRow}
    (h : ∀ row ∈ log, row.resultCode = 1 → p row = false) : paidSum p log = 0 := by
  unfold paidSum
  rw [List.filter_eq_nil_iff.2]
  · rfl
  · intro row hrow
    simp only [Bool.and_eq_true, beq_iff_eq, not_and, Bool.not_eq_true]
    exact h row hrow

/-- The ids of the paid rows are those of accounts. -/
def PaidKnown (C : Collation) (s : State) : Prop :=
  ∀ row ∈ s.log, row.resultCode = 1 → s.Known C row.sourceId ∧ s.Known C row.targetId

theorem known_mono {s s' : State} (h : ∀ k, s.keys k ⊆ s'.keys k) {id : Option Text} (hk : s.Known C id) :
    s'.Known C id := by
  obtain ⟨k, x, hx, hid⟩ := hk
  exact ⟨k, x, h k hx, hid⟩

theorem known_named {s : State} {k : Kind} {id : Option Text} {r : Account} (h : s.named C k id = [r]) :
    s.Known C id := by
  have hr : r ∈ s.named C k id := by rw [h]; exact List.mem_singleton_self r
  obtain ⟨hmem, heq⟩ := mem_named.1 hr
  exact ⟨k, _, List.mem_map_of_mem hmem, heq⟩

/-- A new account has an id that no account has. -/
theorem Opens.idsDiffer {ops : List Op} {h h' : History} {k : Kind} {a : Account} (ho : Opens h h' k a)
    (hK : ∀ k, Kept ops h k) (hfirst : k.first ≤ a.idCount) (hlt : ∀ j ∈ idCounts k ops, j < a.idCount)
    {k' : Kind} {x : ℤ × Option Text} (hx : x ∈ h.tables.keys k') : C.eqN x.2 a.accountId = false := by
  obtain ⟨b, hb, rfl⟩ := List.mem_map.1 hx
  obtain ⟨o, hmem, hi, hid⟩ := (hK k').exists_opened hb
  obtain ⟨n, hn, h1, h2⟩ := (hK k').numbered o hmem
  obtain ⟨hnext, -, habove⟩ := (hK k).next hfirst hlt
  have h0 := first_nonneg k
  have h0' := first_nonneg k'
  refine (idsDiffer_of (C := C) (a := b) (by rw [← hid, hn]) ho.id (by omega) (by omega) ?_).2
  rintro ⟨rfl, rfl⟩
  have := habove b hb
  omega

/-- No row of the log is about an account that is yet to come. -/
theorem paidSum_new {s : State} (hP : PaidKnown C s) {id : Option Text}
    (hnew : ∀ k, ∀ x ∈ s.keys k, C.eqN x.2 id = false) : credited C s.log id = 0 ∧ debited C s.log id = 0 := by
  have hother : ∀ id', s.Known C id' → C.eqN id' id = false := by
    rintro id' ⟨k, x, hx, hid⟩
    by_contra hc
    have h1 : C.eqN id' x.2 = true := by rw [Collation.eqN_symm]; exact hid
    have h2 := Collation.eqN_trans h1 (by simpa using hc)
    rw [hnew k x hx] at h2; cases h2
  exact ⟨paidSum_eq_zero fun row hrow hrc => hother _ (hP row hrow hrc).2,
    paidSum_eq_zero fun row hrow hrc => hother _ (hP row hrow hrc).1⟩

theorem Reconstructed.opens {h h' : History} {k : Kind} {a : Account} (hR : Reconstructed C h)
    (hP : PaidKnown C h.tables) (ho : Opens h h' k a)
    (hnew : ∀ k', ∀ x ∈ h.tables.keys k', C.eqN x.2 a.accountId = false) : Reconstructed C h' := by
  intro k'
  rw [ho.log, ho.opened]
  by_cases hk : k' = k
  · subst hk
    rw [Function.update_self, ho.rows]
    refine List.rel_append (hR k') (List.Forall₂.cons ⟨rfl, rfl, ?_⟩ List.Forall₂.nil)
    obtain ⟨hcredited, hdebited⟩ := paidSum_new hP hnew
    rw [hcredited, hdebited]
    ring
  · rw [Function.update_of_ne hk, ho.others k' hk]
    exact hR k'

/-- The row of the log that a call adds accounts for what it does to the balances. -/
theorem Reconstructed.transfer {h : History} (hpre : Prefixed C h.tables)
    (hone : ∀ k id, (h.tables.named C k id).length ≤ 1) (hR : Reconstructed C h) {source target : Option Text}
    {amount : Option ℚ} {out : Except SqlError (Option ℤ)} {s' : State} (htarget : h.tables.Known C target)
    (hout : Outcome C source target amount h.tables out s') : Reconstructed C ⟨s', h.opened⟩ := by
  cases hout with
  | ignored _ => exact hR
  | aborted _ _ => exact hR
  | refused _ _ hacc hlog =>
    intro k
    have hsum : ∀ p, paidSum p s'.log = paidSum p h.tables.log := by
      intro p
      rw [hlog, paidSum_concat]; simp
    simp only [credited, debited, hsum, hacc]
    exact hR k
  | @paid k₁ k₂ r x a _ hd hk' hx hadd hlog =>
    intro k
    have hrows := (paid_moved hpre hd hk' hx hadd).rows k
    have hcredited : ∀ id, credited C s'.log id =
        credited C h.tables.log id + if C.eqN id target = true then a else 0 := by
      intro id
      unfold credited
      rw [hlog, paidSum_concat, Collation.eqN_symm target id]
      simp [hd.amount]
    have hdebited : ∀ id, debited C s'.log id =
        debited C h.tables.log id + if C.eqN id source = true then a else 0 := by
      intro id
      unfold debited
      rw [hlog, paidSum_concat, Collation.eqN_symm source id]
      simp [hd.amount]
    simp only [hrows, List.forall₂_map_right_iff]
    refine (hR k).imp ?_
    rintro o b ⟨hi, hid, hbal⟩
    refine ⟨hi, hid, ?_⟩
    rw [hcredited, hdebited, hbal]
    ring
  | lost hd hno hadd hlog =>
    -- the target is an account, so the call has found it
    obtain ⟨k, y, hy, hid⟩ := htarget
    obtain ⟨b, hb, rfl⟩ := List.mem_map.1 hy
    have hnamed := mem_named.2 ⟨hb, hid⟩
    rw [hno k (mem_named_like hpre hnamed)] at hnamed
    cases hnamed
  | @broken k k' r a _ hd hk' hmany hadd hlog =>
    have := hone k' target
    omega

theorem PaidKnown.transfer {s s' : State} (hP : PaidKnown C s) {source target : Option Text} {amount : Option ℚ}
    {out : Except SqlError (Option ℤ)} (htarget : s.Known C target)
    (hout : Outcome C source target amount s out s') : PaidKnown C s' := by
  have hkeys : ∀ k, s.keys k ⊆ s'.keys k := by
    intro k
    rw [keys_outcome hout k]
    exact List.Subset.refl _
  -- what the call adds to the log names accounts, if it says that they were paid
  have hadded : ∀ row ∈ s'.log, row ∈ s.log ∨
      (row.resultCode = 1 → s.Known C row.sourceId ∧ s.Known C row.targetId) := by
    intro row hrow
    cases hout with
    | ignored _ => exact .inl hrow
    | aborted _ _ => exact .inl hrow
    | refused _ _ _ hlog =>
      rw [hlog, List.mem_append, List.mem_singleton] at hrow
      exact hrow.imp_right (by rintro rfl hrc; cases hrc)
    | paid hd _ _ _ hlog =>
      rw [hlog, List.mem_append, List.mem_singleton] at hrow
      exact hrow.imp_right (by rintro rfl _; exact ⟨known_named hd.one, htarget⟩)
    | lost hd _ _ hlog =>
      rw [hlog, List.mem_append, List.mem_singleton] at hrow
      exact hrow.imp_right (by rintro rfl _; exact ⟨known_named hd.one, htarget⟩)
    | broken _ _ _ _ hlog => rw [hlog] at hrow; exact .inl hrow
  intro row hrow hrc
  have hold : s.Known C row.sourceId ∧ s.Known C row.targetId := by
    rcases hadded row hrow with h | h
    · exact hP row h hrc
    · exact h hrc
  exact ⟨known_mono hkeys hold.1, known_mono hkeys hold.2⟩

theorem PaidKnown.opens {h h' : History} {k : Kind} {a : Account} (hP : PaidKnown C h.tables)
    (ho : Opens h h' k a) : PaidKnown C h'.tables := by
  have hkeys : ∀ k', h.tables.keys k' ⊆ h'.tables.keys k' := by
    intro k'
    unfold State.keys
    by_cases hk : k' = k
    · subst hk
      rw [ho.rows, List.map_append]
      exact List.subset_append_left _ _
    · rw [ho.others k' hk]
      exact List.Subset.refl _
  intro row hrow hrc
  rw [ho.log] at hrow
  obtain ⟨h1, h2⟩ := hP row hrow hrc
  exact ⟨known_mono hkeys h1, known_mono hkeys h2⟩

/-- One operation of such a run. -/
theorem Reconstructed.step {ops : List Op} {op : Op} {h : History} (hA : AutoIncrement (ops ++ [op]))
    (hK : ∀ k, Kept ops h k) (hpre : Prefixed C h.tables) (hop : OpensOrPays C h op)
    (hinv : Reconstructed C h ∧ PaidKnown C h.tables) :
    Reconstructed C (h.step C op) ∧ PaidKnown C (h.step C op).tables := by
  obtain ⟨hR, hP⟩ := hinv
  cases op with
  | insert k i b l =>
    rcases hs : insertAccount k i b l h.tables with e | s
    · simp only [History.step, Op.run, hs]
      exact ⟨hR, hP⟩
    · have ho := insertAccount_opens (C := C) hs
      obtain ⟨hfirst, hlt⟩ := hA.insert
      exact ⟨hR.opens hP ho fun k' x hx => ho.idsDiffer hK hfirst hlt hx, hP.opens ho⟩
  | delete k p => exact hop.elim
  | transfer source target amount =>
    have hout := transferCommit_outcome (C := C) source target amount h.tables
    have hone := named_le_one (distinct_of_kept (C := C) hK)
    exact ⟨hR.transfer hpre hone hop hout, hP.transfer hop hout⟩

/-- **The log accounts for every balance**, after every run that only opens accounts and
transfers to accounts that exist. -/
theorem balances_reconstructed (C : Collation) {ops : List Op} (hA : AutoIncrement ops)
    (hP : Along (History.step C) (OpensOrPays C) .start ops) : Reconstructed C (history C ops) := by
  suffices h : Reconstructed C (history C ops) ∧ PaidKnown C (history C ops).tables from h.1
  induction ops using List.reverseRecOn with
  | nil => exact ⟨fun _ => .nil, nofun⟩
  | append_singleton ops op ih =>
    obtain ⟨hprev, hop⟩ := along_concat.1 hP
    have hpre : Prefixed C (history C ops).tables := by
      rw [history_tables]; exact prefixed_run ops prefixed_empty
    rw [history_concat]
    exact Reconstructed.step hA (kept_history hA.of_append) hpre hop (ih hA.of_append hprev)

theorem balances_reconstructed_self_transfer :
    let ops := [Op.insert .checking 14 100 50, .insert .savings 3 760 50,
      .transfer (some "CH-14".toList) (some "SV-1".toList) (some 30),
      .transfer (some "sv-1".toList) (some "SV-1".toList) (some 7),
      .transfer (some "CH-14".toList) (some "SV-1".toList) (some 900), .insert .checking 20 1 0]
    AutoIncrement ops ∧ Along (History.step asciiCi) (OpensOrPays asciiCi) .start ops ∧
      Reconstructed asciiCi (history asciiCi ops) := by
  intro ops
  have hA : AutoIncrement ops := by intro k; cases k <;> decide
  have hP : Along (History.step asciiCi) (OpensOrPays asciiCi) .start ops := by decide +kernel
  exact ⟨hA, hP, balances_reconstructed asciiCi hA hP⟩

end Coms4111.Bank
