import Coms4111.Proof.Transfer

/-!
# Transfers and the sum of all balances

* `Conserves`: the call moves its amount from one account to another and reports
  `rc = 1`, or it moves nothing and does not.
* `transferCommit_conserves_iff`: in every reachable state, a call conserves money
  **exactly when** its source-side test fails or its target is an account. The target
  is never tested: `transfer_loses_money` is a call that debits and credits nobody.
-/

namespace Coms4111.Bank

open Sql

variable (C : Collation)

/-- The accounts with the given id, in either table. -/
def State.holders (s : State) (id : Option Text) : List Account :=
  s.named C .checking id ++ s.named C .savings id

/-- The id is the id of an account. -/
def State.Holds (s : State) (id : Option Text) : Prop := (s.holders C id).length = 1

/-- The sum of all balances. -/
def State.total (s : State) : ℚ :=
  ((s.accounts .checking).rows.map Account.balance).sum + ((s.accounts .savings).rows.map Account.balance).sum

/-- `a` went from the account `source` to the account `target`, and nothing else in
the two tables changed. -/
structure Moved (source target : Option Text) (a : ℚ) (s s' : State) : Prop where
  holdsSource : s.Holds C source
  holdsTarget : s.Holds C target
  rows : ∀ k, (s'.accounts k).rows = (s.accounts k).rows.map fun r =>
    { r with balance := r.balance - (if C.eqN r.accountId source then a else 0) +
        (if C.eqN r.accountId target then a else 0) }

/-- **The call conserves money**: it reports `rc = 1` and moves the amount, or it does
not report `rc = 1` and changes no account. The sum of all balances stays. -/
def Conserves (source target : Option Text) (amount : Option ℚ) (s : State) : Prop :=
  let r := (transferCommit C source target amount).run s
  ((r.1 = .ok (some 1) ∧ ∃ a, amount = some a ∧ Moved C source target a s r.2) ∨
    (r.1 ≠ .ok (some 1) ∧ r.2.accounts = s.accounts)) ∧ r.2.total = s.total

variable {C}

/-! ## Ids and tables -/

/-- Every account's id has its table's stem. -/
def Prefixed (C : Collation) (s : State) : Prop :=
  ∀ k, ∀ a ∈ (s.accounts k).rows, C.likeN k.pattern a.accountId = true

theorem eqN_like {id id' : Option Text} (h : C.eqN id id' = true) (k : Kind) :
    C.likeN k.pattern id = C.likeN k.pattern id' := by
  cases id with
  | none => cases h
  | some s =>
    cases id' with
    | none => cases h
    | some t =>
      have hl : ∀ hne : k.stem ≠ [], k.stem.getLast hne ≠ ' ' := by cases k <;> simp [Kind.stem]
      exact Collation.like_stem_congr (stem_lit k).1 (stem_lit k).2 hl h

theorem mem_named_like {s : State} (hs : Prefixed C s) {k : Kind} {id : Option Text} {a : Account}
    (ha : a ∈ s.named C k id) : C.likeN k.pattern id = true := by
  obtain ⟨h1, h2⟩ := mem_named.1 ha
  rw [← eqN_like h2]; exact hs k a h1

theorem named_eq_nil {s : State} (hs : Prefixed C s) {k : Kind} {id : Option Text}
    (h : C.likeN k.pattern id = false) : s.named C k id = [] := by
  rw [List.eq_nil_iff_forall_not_mem]
  intro a ha
  rw [mem_named_like hs ha] at h; cases h

/-- An id with a table's stem is looked up in that table only. -/
theorem holders_eq {s : State} (hs : Prefixed C s) {k : Kind} {id : Option Text}
    (h : C.likeN k.pattern id = true) : s.holders C id = s.named C k id := by
  have hother : ∀ k', k' ≠ k → s.named C k' id = [] := by
    intro k' hne
    apply named_eq_nil hs
    by_contra hc
    exact hne (pattern_unique (by simpa using hc) h)
  unfold State.holders
  cases k with
  | checking => rw [hother .savings (by decide), List.append_nil]
  | savings => rw [hother .checking (by decide), List.nil_append]

theorem newAccountId_like (k : Kind) (T : Accounts) : C.like k.pattern (triggerInsert k T) = true := by
  rw [like_pattern_iff]
  have hp : k.stem <+: triggerInsert k T := by
    cases k with
    | checking =>
      simp only [triggerInsert, triggerInsertChecking, newAccountId]
      split
      · exact ⟨"14".toList, rfl⟩
      · exact List.prefix_append _ _
    | savings =>
      simp only [triggerInsert, triggerInsertSaving, newAccountId]
      split
      · exact ⟨"1".toList, rfl⟩
      · exact List.prefix_append _ _
  exact hp.map C.weight

theorem prefixed_adds {δ : Kind → Option Text → ℚ} {s s' : State} (h : Adds δ s s') (hs : Prefixed C s) :
    Prefixed C s' := by
  intro k a ha
  rw [h k, List.mem_map] at ha
  obtain ⟨b, hb, rfl⟩ := ha
  exact hs k b hb

theorem prefixed_insert {k : Kind} {idCount : ℤ} {balance limit : ℚ} {s s' : State} (hs : Prefixed C s)
    (h : insertAccount k idCount balance limit s = .ok s') : Prefixed C s' := by
  unfold insertAccount at h
  obtain ⟨id, hid, h⟩ := bind_eq_ok.1 h
  obtain ⟨T, hT, h⟩ := bind_eq_ok.1 h
  obtain ⟨hrows, -⟩ := Table.insert_ok hT
  simp only [pure, Except.pure, Except.ok.injEq] at h
  subst h
  intro k' a ha
  by_cases hk : k' = k
  · subst hk
    simp only [State.set, Function.update_self, hrows, List.mem_append, List.mem_singleton] at ha
    rcases ha with ha | rfl
    · exact hs _ a ha
    · -- the id that is stored compares equal to the one the trigger has made
      have heq : C.eqN (some id) (some (triggerInsert k' (s.accounts k'))) = true := varchar_eq hid
      rw [eqN_like heq]; exact newAccountId_like k' _
  · simp only [State.set, Function.update_of_ne hk] at ha
    exact hs k' a ha

theorem prefixed_outcome {source target : Option Text} {amount : Option ℚ} {s s' : State}
    {out : Except SqlError (Option ℤ)} (h : Outcome C source target amount s out s') (hs : Prefixed C s) :
    Prefixed C s' := by
  cases h with
  | ignored _ => exact hs
  | aborted _ _ => exact hs
  | refused _ _ hacc _ => unfold Prefixed; rw [hacc]; exact hs
  | paid _ _ _ hadd _ => exact prefixed_adds hadd hs
  | lost _ _ hadd _ => exact prefixed_adds hadd hs
  | broken _ _ _ hadd _ => exact prefixed_adds hadd hs

theorem prefixed_op (op : Op) {s : State} (hs : Prefixed C s) : Prefixed C (op.run C s) := by
  cases op with
  | insert k idCount balance limit =>
    simp only [Op.run]
    split
    · rename_i s' h; exact prefixed_insert hs h
    · exact hs
  | delete k p =>
    intro k' a ha
    simp only [Op.run, deleteAccounts, State.set] at ha
    by_cases hk : k' = k
    · subst hk
      rw [Function.update_self] at ha
      exact hs k' a (List.mem_of_mem_filter ha)
    · rw [Function.update_of_ne hk] at ha
      exact hs k' a ha
  | transfer source target amount =>
    exact prefixed_outcome (transferCommit_outcome source target amount s) hs

/-- **Ids carry their table's stem** in every reachable state. -/
theorem prefixed_run (ops : List Op) {s : State} (hs : Prefixed C s) : Prefixed C (run C ops s) := by
  unfold run
  induction ops generalizing s with
  | nil => exact hs
  | cons op ops ih => exact ih (prefixed_op op hs)

theorem prefixed_empty : Prefixed C .empty := by
  intro k a ha
  cases ha

/-! ## Sums -/

/-- The sum of `δ` over all accounts. -/
def State.sumOver (s : State) (δ : Kind → Option Text → ℚ) : ℚ :=
  ((s.accounts .checking).rows.map fun a => δ .checking a.accountId).sum +
    ((s.accounts .savings).rows.map fun a => δ .savings a.accountId).sum

theorem total_adds {δ : Kind → Option Text → ℚ} {s s' : State} (h : Adds δ s s') :
    s'.total = s.total + s.sumOver δ := by
  have hsum : ∀ k, ((s'.accounts k).rows.map Account.balance).sum =
      ((s.accounts k).rows.map Account.balance).sum + ((s.accounts k).rows.map fun a => δ k a.accountId).sum := by
    intro k
    rw [h k, List.map_map, ← List.sum_map_add]
    rfl
  unfold State.total State.sumOver
  rw [hsum, hsum]
  ring

theorem sumOver_add (s : State) (δ ε : Kind → Option Text → ℚ) :
    s.sumOver (δ + ε) = s.sumOver δ + s.sumOver ε := by
  unfold State.sumOver
  simp only [Pi.add_apply, List.sum_map_add]
  ring

theorem sumOver_charge (s : State) (k : Kind) (id : Option Text) (d : ℚ) :
    s.sumOver (charge C k id d) = (s.named C k id).length * d := by
  have hsum : ∀ k', ((s.accounts k').rows.map fun a => charge C k id d k' a.accountId).sum =
      if k' = k then (s.named C k id).length * d else 0 := by
    intro k'
    by_cases hk : k' = k
    · subst hk
      unfold State.named
      rw [if_pos rfl]
      -- one summand for each row of the id
      induction (s.accounts k').rows with
      | nil => simp
      | cons a l ih =>
        rw [List.map_cons, List.sum_cons, ih, List.filter_cons]
        by_cases hm : C.eqN a.accountId id = true
        · simp only [charge, hm, and_self, if_true, List.length_cons]; push_cast; ring
        · simp [charge, hm]
    · simp [charge, hk]
  unfold State.sumOver
  rw [hsum, hsum]
  cases k <;> simp

theorem accounts_eq {s s' : State} (h : ∀ k, (s'.accounts k).rows = (s.accounts k).rows) :
    s'.accounts = s.accounts := funext fun k => Table.ext (h k)

theorem total_eq {s s' : State} (h : s'.accounts = s.accounts) : s'.total = s.total := by
  unfold State.total; rw [h]

/-! ## Conservation -/

/-- A row that matches an id is in the table the id belongs to. -/
theorem charge_prefixed {s : State} (hs : Prefixed C s) {k₀ : Kind} {b : Account}
    (hb : b ∈ (s.accounts k₀).rows) {k : Kind} {id : Option Text} (hk : C.likeN k.pattern id = true) (d : ℚ) :
    charge C k id d k₀ b.accountId = if C.eqN b.accountId id then d else 0 := by
  unfold charge
  by_cases hm : C.eqN b.accountId id = true
  · have hl := hs k₀ b hb
    rw [eqN_like hm] at hl
    simp [hm, pattern_unique hl hk]
  · simp [hm]

/-- The two charges of a transfer between accounts that carry their tables' stems. -/
theorem paid_moved {s s' : State} (hs : Prefixed C s) {k k' : Kind} {source target : Option Text}
    {amount : Option ℚ} {r x : Account} {a : ℚ} (hd : Debits C k source amount s r a)
    (hk' : C.likeN k'.pattern target = true) (hx : s.named C k' target = [x])
    (hadd : Adds (charge C k source (-a) + charge C k' target a) s s') : Moved C source target a s s' := by
  refine ⟨?_, ?_, ?_⟩
  · unfold State.Holds; rw [holders_eq hs hd.like, hd.one]; rfl
  · unfold State.Holds; rw [holders_eq hs hk', hx]; rfl
  intro k₀
  rw [hadd k₀]
  apply List.map_congr_left
  intro b hb
  simp only [Pi.add_apply, charge_prefixed hs hb hd.like, charge_prefixed hs hb hk']
  congr 1
  split_ifs <;> ring

theorem adds_charge_eq {s s' : State} {k : Kind} {id : Option Text} {r : Account} {d : ℚ}
    (h : Adds (charge C k id d) s s') (hr : s.named C k id = [r]) : s'.accounts = s.accounts ↔ d = 0 := by
  constructor
  · intro he
    have ht := total_adds h
    rw [total_eq he, sumOver_charge, hr] at ht
    simpa using ht
  · rintro rfl
    apply accounts_eq
    intro k'
    rw [h k']
    have hz : ∀ a : Account, { a with balance := a.balance + charge C k id 0 k' a.accountId } = a := by
      intro a; simp [charge]
    simp only [hz, List.map_id']

/-- A call conserves money exactly when, if it is accepted, its target is an account
(or names several, and the amount is zero). -/
theorem conserves_iff {s : State} (hs : Prefixed C s) (source target : Option Text) (amount : Option ℚ) :
    Conserves C source target amount s ↔ (Accepted C source amount s →
      s.Holds C target ∨ (amount = some 0 ∧ 2 ≤ (s.holders C target).length)) := by
  unfold Conserves
  simp only
  have hout := transferCommit_outcome (C := C) source target amount s
  generalize ((transferCommit C source target amount).run s).1 = out at hout
  generalize ((transferCommit C source target amount).run s).2 = s' at hout
  by_cases hacc : Accepted C source amount s
  · obtain ⟨k, r, a, hd⟩ := accepted_iff.1 hacc
    simp only [hacc, forall_const]
    rcases hout.of_debits hd with ⟨k', x, hk', hx, rfl, hadd⟩ | ⟨hno, rfl, hadd⟩ | ⟨k', hk', hmany, rfl, hadd⟩
    · -- paid
      have hm := paid_moved hs hd hk' hx hadd
      refine ⟨fun _ => .inl hm.holdsTarget, fun _ => ⟨.inl ⟨rfl, a, hd.amount, hm⟩, ?_⟩⟩
      rw [total_adds hadd, sumOver_add, sumOver_charge, sumOver_charge, hd.one, hx]
      simp
    · -- lost: the target is no account at all
      have hnil : s.holders C target = [] := by
        have : ∀ k, s.named C k target = [] := by
          intro k
          by_cases hl : C.likeN k.pattern target = true
          · exact hno k hl
          · exact named_eq_nil hs (by simpa using hl)
        unfold State.holders; rw [this, this]; rfl
      constructor
      · rintro ⟨⟨-, a', -, hm⟩ | ⟨hne, -⟩, -⟩
        · left; exact hm.holdsTarget
        · exact absurd rfl hne
      · rintro (h | ⟨-, h⟩)
        · unfold State.Holds at h; rw [hnil] at h; cases h
        · rw [hnil] at h; simp at h
    · -- broken off: nothing has changed only if the amount is zero
      have hz := adds_charge_eq hadd hd.one
      rw [holders_eq hs hk', hd.amount]
      constructor
      · rintro ⟨⟨he, -⟩ | ⟨-, hsame⟩, -⟩
        · cases he
        · right; exact ⟨by rw [neg_eq_zero.1 (hz.1 hsame)], hmany⟩
      · rintro (h | ⟨h, -⟩)
        · unfold State.Holds at h
          rw [holders_eq hs hk'] at h; omega
        · have hsame := hz.2 (neg_eq_zero.2 (Option.some.inj h))
          exact ⟨.inr ⟨by simp, hsame⟩, total_eq hsame⟩
  · obtain ⟨hne, hsame⟩ := hout.of_not_accepted hacc
    exact ⟨fun _ h => absurd h hacc, fun _ => ⟨.inr ⟨hne, hsame⟩, total_eq hsame⟩⟩

/-- **Conservation, in every reachable state**: a call of `transfer_commit` moves its
amount between two accounts or moves nothing, exactly when its test on the source
fails or its target is an account. -/
theorem transferCommit_conserves_iff (C : Collation) (ops : List Op) (source target : Option Text)
    (amount : Option ℚ) :
    Conserves C source target amount (run C ops .empty) ↔
      (Accepted C source amount (run C ops .empty) → (run C ops .empty).Holds C target ∨
        (amount = some 0 ∧ 2 ≤ ((run C ops .empty).holders C target).length)) :=
  conserves_iff (prefixed_run ops prefixed_empty) source target amount

/-- A transfer to an id that no account has: the source is debited and `rc` is 1. -/
theorem transfer_loses_money :
    ¬Conserves asciiCi (some "CH-14".toList) (some "SV-9".toList) (some 10)
      (run asciiCi [.insert .checking 14 100 50] .empty) := by
  intro h
  exact absurd h.2 (by decide +kernel)

end Coms4111.Bank
