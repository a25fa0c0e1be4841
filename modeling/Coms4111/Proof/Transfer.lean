import Coms4111.Spec.Bank

/-!
# What one call of `transfer_commit` does

`transferCommit_outcome` says once and for all how a call ends and what it does to the
tables, for every state of the tables and all arguments (`Outcome`): it is ignored,
aborted, refused, paid, **lost** (the source is debited and no account credited) or
**broken off** after the debit. Everything else about transfers is read off there.

Balances change by adding to them: `Adds δ s s'` says that `s'` has the rows of `s`,
each in its place, with `δ` added to its balance.
-/

namespace Coms4111.Bank

open Sql

variable {C : Collation}

/-! ## The two patterns -/

theorem stem_lit (k : Kind) : (∀ c ∈ k.stem, tokOf c = .lit c) ∧ '\\' ∉ k.stem := by
  cases k <;> simp [Kind.stem, tokOf]

theorem like_pattern_iff (k : Kind) (id : Text) :
    C.like k.pattern id = true ↔ k.stem.map C.weight <+: id.map C.weight :=
  Collation.like_stem (stem_lit k).1 (stem_lit k).2 id

/-- No id belongs to both tables. -/
theorem pattern_unique {k k' : Kind} {id : Option Text} (h : C.likeN k.pattern id = true)
    (h' : C.likeN k'.pattern id = true) : k = k' := by
  cases id with
  | none => cases h
  | some id =>
    have h1 := (like_pattern_iff k id).1 h
    have h2 := (like_pattern_iff k' id).1 h'
    -- the two stems differ in their first letter
    have hw : C.weight 'C' ≠ C.weight 'S' := fun hw =>
      absurd ((C.ascii 'C' 'S' (by decide) (by decide)).1 hw) (by decide)
    obtain ⟨u, hu⟩ := h1
    obtain ⟨v, hv⟩ := h2
    have huv := hu.trans hv.symm
    cases k <;> cases k'
    · rfl
    · exact absurd (List.cons.inj huv).1 hw
    · exact absurd (List.cons.inj huv).1.symm hw
    · rfl

/-! ## Adding to balances -/

/-- The rows of `s'` are those of `s`, with `δ` added to their balances. -/
def Adds (δ : Kind → Option Text → ℚ) (s s' : State) : Prop :=
  ∀ k, (s'.accounts k).rows =
    (s.accounts k).rows.map fun a => { a with balance := a.balance + δ k a.accountId }

theorem Adds.trans {δ ε : Kind → Option Text → ℚ} {s s' s'' : State} (h : Adds δ s s')
    (h' : Adds ε s' s'') : Adds (δ + ε) s s'' := by
  intro k
  rw [h' k, h k, List.map_map]
  apply List.map_congr_left
  intro a _
  simp [add_assoc]

variable (C) in
/-- `d` for the accounts named `id` in table `k`. -/
def charge (k : Kind) (id : Option Text) (d : ℚ) : Kind → Option Text → ℚ :=
  fun k' id' => if k' = k ∧ C.eqN id' id = true then d else 0

theorem named_adds {δ : Kind → Option Text → ℚ} {s s' : State} (h : Adds δ s s') (k : Kind)
    (id : Option Text) : s'.named C k id =
      (s.named C k id).map fun a => { a with balance := a.balance + δ k a.accountId } := by
  unfold State.named
  rw [h k, List.filter_map]
  rfl

theorem mem_named {s : State} {k : Kind} {id : Option Text} {a : Account} :
    a ∈ s.named C k id ↔ a ∈ (s.accounts k).rows ∧ C.eqN a.accountId id = true := by
  unfold State.named; exact List.mem_filter

/-! ## The statements -/

theorem updateBalance_named {s : State} {k : Kind} {id : Option Text} {r : Account}
    (h : s.named C k id = [r]) (v : ℚ) :
    ∃ s', updateBalance C k id (some v) s = .ok s' ∧ Adds (charge C k id (v - r.balance)) s s' ∧
      s'.log = s.log := by
  obtain ⟨T, hT, hrows⟩ := Table.update_eq_ok (T := s.accounts k) (p := fun a => C.eqN a.accountId id)
    (f := fun a => (notNull "balance" (some v)).map fun b => { a with balance := b })
    (g := fun a => { a with balance := v }) (fun _ _ _ => rfl) (fun _ _ _ _ => rfl)
  refine ⟨s.set k T, ?_, ?_, rfl⟩
  · unfold updateBalance; rw [hT]; rfl
  · intro k'
    by_cases hk : k' = k
    · subst hk
      simp only [State.set, Function.update_self, hrows]
      apply List.map_congr_left
      intro a ha
      by_cases hm : C.eqN a.accountId id = true
      · -- the only row the update selects is `r`
        have har : a ∈ s.named C k' id := mem_named.2 ⟨ha, hm⟩
        rw [h, List.mem_singleton] at har
        subst har
        simp [charge, hm]
      · simp [charge, hm]
    · simp only [State.set, Function.update_of_ne hk]
      simp [charge, hk]

theorem updateBalance_nil {s : State} {k : Kind} {id : Option Text} (h : s.named C k id = []) (v : Option ℚ) :
    updateBalance C k id v s = .ok s := by
  have hno : ∀ a ∈ (s.accounts k).rows, C.eqN a.accountId id = false := by
    unfold State.named at h
    simpa [List.filter_eq_nil_iff] using h
  unfold updateBalance
  rw [Table.update_none _ hno]
  show Except.ok (s.set k (s.accounts k)) = .ok s
  unfold State.set; rw [Function.update_eq_self]

/-- The source-side test is passed exactly when the id names one account of the table
and the amount leaves it above its limit. -/
theorem sourceTest_true {s : State} {k : Kind} {source : Option Text} {amount : Option ℚ} :
    sourceTest C k source amount s = .ok true ↔
      ∃ r a, s.named C k source = [r] ∧ amount = some a ∧ k.sign * r.limit < r.balance - a := by
  unfold sourceTest selectBalance selectLimit
  -- no account gives `NULL`, and two make the subquery an error
  match hn : s.named C k source with
  | [] => simp [scalar]
  | [r] =>
    cases amount with
    | none => simp [scalar]
    | some a => simp [scalar]
  | r :: r' :: l => simp [scalar]

/-- It is refused exactly when the id names several accounts. -/
theorem sourceTest_error {s : State} {k : Kind} {source : Option Text} {amount : Option ℚ} :
    (∃ e, sourceTest C k source amount s = .error e) ↔ 2 ≤ (s.named C k source).length := by
  unfold sourceTest selectBalance selectLimit
  match hn : s.named C k source with
  | [] => simp [scalar, pure, Except.pure]
  | [r] => simp [scalar, pure, Except.pure]
  | r :: r' :: l => simp [scalar]

theorem selectBalance_one {s : State} {k : Kind} {id : Option Text} {r : Account}
    (h : s.named C k id = [r]) : selectBalance C k id s = .ok (some r.balance) := by
  unfold selectBalance; rw [h]; rfl

theorem debit_run {s : State} {k : Kind} {source : Option Text} {r : Account}
    (h : s.named C k source = [r]) (a : ℚ) :
    ∃ s', (debit C k source (some a)).run s = (.ok (), s') ∧ Adds (charge C k source (-a)) s s' ∧
      s'.log = s.log := by
  obtain ⟨s', hs', hadd, hlog⟩ := updateBalance_named h (r.balance - a)
  refine ⟨s', ?_, by simpa using hadd, hlog⟩
  unfold debit
  rw [Proc.run_query_bind, selectBalance_one h]
  simp only
  rw [Proc.run_exec]
  simp only [Option.map₂_some_some, hs']

theorem credit_skip {k : Kind} {target : Option Text} (h : C.likeN k.pattern target = false)
    (amount : Option ℚ) (s : State) : (credit C k target amount).run s = (.ok (), s) := by
  unfold credit
  rw [if_neg (by simp [h])]
  rfl

theorem credit_none {s : State} {k : Kind} {target : Option Text} (h : s.named C k target = [])
    (amount : Option ℚ) : (credit C k target amount).run s = (.ok (), s) := by
  unfold credit
  split
  · rw [Proc.run_query_bind]
    unfold selectBalance
    rw [h]
    simp only [List.map_nil, scalar]
    rw [Proc.run_exec, updateBalance_nil h]
  · rfl

theorem credit_one {s : State} {k : Kind} {target : Option Text} {x : Account}
    (hk : C.likeN k.pattern target = true) (h : s.named C k target = [x]) (a : ℚ) :
    ∃ s', (credit C k target (some a)).run s = (.ok (), s') ∧ Adds (charge C k target a) s s' ∧
      s'.log = s.log := by
  obtain ⟨s', hs', hadd, hlog⟩ := updateBalance_named h (x.balance + a)
  refine ⟨s', ?_, by simpa using hadd, hlog⟩
  unfold credit
  rw [if_pos hk, Proc.run_query_bind, selectBalance_one h]
  simp only
  rw [Proc.run_exec]
  simp only [Option.map₂_some_some, hs']

theorem credit_many {s : State} {k : Kind} {target : Option Text} (hk : C.likeN k.pattern target = true)
    (h : 2 ≤ (s.named C k target).length) (amount : Option ℚ) :
    (credit C k target amount).run s = (.error .moreThanOneRow, s) := by
  unfold credit
  rw [if_pos hk, Proc.run_query_bind]
  unfold selectBalance
  match hn : s.named C k target with
  | [] => rw [hn] at h; simp at h
  | [x] => rw [hn] at h; simp at h
  | x :: y :: l => rfl

/-- A kind whose pattern the id does not match. -/
theorem not_like_of_ne {k k' : Kind} {id : Option Text} (hk : C.likeN k.pattern id = true) (hne : k' ≠ k) :
    C.likeN k'.pattern id = false := by
  by_contra hc
  exact hne (pattern_unique (by simpa using hc) hk)

/-- Both credit steps together are the one for the table the target's id belongs to. -/
theorem credits_eq {k : Kind} {target : Option Text} (hk : C.likeN k.pattern target = true)
    (amount : Option ℚ) (K : Proc Stmt State (Option ℤ)) :
    (do credit C .checking target amount; credit C .savings target amount; K) =
      (do credit C k target amount; K) := by
  have hother : ∀ k', k' ≠ k → credit C k' target amount = pure () := by
    intro k' hne
    unfold credit; rw [if_neg (by simp [not_like_of_ne hk hne])]
  cases k with
  | checking => rw [hother .savings (by decide)]; rfl
  | savings => rw [hother .checking (by decide)]; rfl

theorem credits_skip {s : State} {target : Option Text}
    (h : ∀ k : Kind, C.likeN k.pattern target = true → s.named C k target = []) (amount : Option ℚ)
    (K : Proc Stmt State (Option ℤ)) :
    (do credit C .checking target amount; credit C .savings target amount; K).run s = K.run s := by
  have hk : ∀ k, (credit C k target amount).run s = (.ok (), s) := by
    intro k
    by_cases hl : C.likeN k.pattern target = true
    · exact credit_none (h k hl) amount
    · exact credit_skip (by simpa using hl) amount s
  rw [Proc.run_bind, hk]
  simp only
  rw [Proc.run_bind, hk]

/-! ## The outcome of a call -/

/-- The call reaches the writes: its source's table is `k` and the test is passed, on
the account `r` and the amount `a`. -/
structure Debits (C : Collation) (k : Kind) (source : Option Text) (amount : Option ℚ) (s : State)
    (r : Account) (a : ℚ) : Prop where
  like : C.likeN k.pattern source = true
  one : s.named C k source = [r]
  amount : amount = some a
  test : k.sign * r.limit < r.balance - a

/-- **How a call can end**, and the tables it leaves behind. -/
inductive Outcome (C : Collation) (source target : Option Text) (amount : Option ℚ) (s : State) :
    Except SqlError (Option ℤ) → State → Prop
  | ignored : (∀ k : Kind, C.likeN k.pattern source = false) → Outcome C source target amount s (.ok none) s
  | aborted {k : Kind} {e : SqlError} : C.likeN k.pattern source = true →
      sourceTest C k source amount s = .error e → Outcome C source target amount s (.error e) s
  | refused {k : Kind} {s' : State} : C.likeN k.pattern source = true →
      sourceTest C k source amount s = .ok false → s'.accounts = s.accounts →
      s'.log = s.log ++ [⟨source, target, amount, -1⟩] →
      Outcome C source target amount s (.ok (some (-1))) s'
  | paid {k k' : Kind} {r x : Account} {a : ℚ} {s' : State} : Debits C k source amount s r a →
      C.likeN k'.pattern target = true → s.named C k' target = [x] →
      Adds (charge C k source (-a) + charge C k' target a) s s' →
      s'.log = s.log ++ [⟨source, target, amount, 1⟩] →
      Outcome C source target amount s (.ok (some 1)) s'
  | lost {k : Kind} {r : Account} {a : ℚ} {s' : State} : Debits C k source amount s r a →
      (∀ k' : Kind, C.likeN k'.pattern target = true → s.named C k' target = []) →
      Adds (charge C k source (-a)) s s' → s'.log = s.log ++ [⟨source, target, amount, 1⟩] →
      Outcome C source target amount s (.ok (some 1)) s'
  | broken {k k' : Kind} {r : Account} {a : ℚ} {s' : State} : Debits C k source amount s r a →
      C.likeN k'.pattern target = true → 2 ≤ (s.named C k' target).length →
      Adds (charge C k source (-a)) s s' → s'.log = s.log →
      Outcome C source target amount s (.error .moreThanOneRow) s'

/-- Once the test is passed, the end depends on how many accounts the target names. -/
theorem debits_outcome {k : Kind} {source target : Option Text} {amount : Option ℚ} {s : State}
    {r : Account} {a : ℚ} (h : Debits C k source amount s r a) :
    Outcome C source target amount s ((transferFrom C k source target amount).run s).1
      ((transferFrom C k source target amount).run s).2 := by
  obtain ⟨s₁, hrun, hadd, hlog⟩ := debit_run h.one a
  have htest : sourceTest C k source amount s = .ok true :=
    sourceTest_true.2 ⟨r, a, h.one, h.amount, h.test⟩
  have hlen : ∀ k', (s₁.named C k' target).length = (s.named C k' target).length := by
    intro k'; rw [named_adds hadd, List.length_map]
  unfold transferFrom
  rw [Proc.run_query_bind, htest]
  simp only [if_true]
  rw [Proc.run_bind, h.amount, hrun]
  simp only
  by_cases hex : ∃ k' : Kind, C.likeN k'.pattern target = true ∧ s.named C k' target ≠ []
  · obtain ⟨k', hk', hne⟩ := hex
    rw [credits_eq hk', Proc.run_bind]
    rcases Nat.lt_or_ge (s.named C k' target).length 2 with hlt | hge
    · -- one account: it is credited
      obtain ⟨x, hx⟩ : ∃ x, s.named C k' target = [x] := by
        apply List.length_eq_one_iff.1
        have := List.length_pos_iff.2 hne
        omega
      obtain ⟨x₁, hx₁⟩ : ∃ x, s₁.named C k' target = [x] := by
        apply List.length_eq_one_iff.1; rw [hlen, hx]; rfl
      obtain ⟨s₂, hrun₂, hadd₂, hlog₂⟩ := credit_one hk' hx₁ a
      rw [hrun₂]
      simp only
      rw [Proc.run_exec_bind]
      refine .paid (x := x) ⟨h.like, h.one, rfl, h.test⟩ hk' hx ?_ ?_
      · exact hadd.trans hadd₂
      · rw [← hlog, ← hlog₂]; rfl
    · -- several: the subquery is refused, after the debit
      rw [credit_many hk' (by rw [hlen]; exact hge)]
      exact .broken ⟨h.like, h.one, rfl, h.test⟩ hk' hge hadd hlog
  · -- none: both credit steps do nothing, and the log says that it was paid
    push Not at hex
    rw [credits_skip]
    · rw [Proc.run_exec_bind]
      refine .lost ⟨h.like, h.one, rfl, h.test⟩ hex ?_ ?_
      · exact hadd
      · rw [← hlog]; rfl
    · intro k' hk'
      rw [named_adds hadd, hex k' hk', List.map_nil]

theorem transferFrom_outcome {k : Kind} {source : Option Text} (hk : C.likeN k.pattern source = true)
    (target : Option Text) (amount : Option ℚ) (s : State) :
    Outcome C source target amount s ((transferFrom C k source target amount).run s).1
      ((transferFrom C k source target amount).run s).2 := by
  rcases ht : sourceTest C k source amount s with e | _ | _
  · unfold transferFrom
    rw [Proc.run_query_bind, ht]
    exact .aborted hk ht
  · unfold transferFrom
    rw [Proc.run_query_bind, ht]
    simp only [Bool.false_eq_true, if_false]
    rw [Proc.run_exec_bind]
    exact .refused hk ht rfl rfl
  · obtain ⟨r, a, hone, ham, htest⟩ := sourceTest_true.1 ht
    exact debits_outcome ⟨hk, hone, ham, htest⟩

/-- **What a call of `transfer_commit` does**, in every state and for all arguments. -/
theorem transferCommit_outcome (source target : Option Text) (amount : Option ℚ) (s : State) :
    Outcome C source target amount s ((transferCommit C source target amount).run s).1
      ((transferCommit C source target amount).run s).2 := by
  unfold transferCommit
  split
  · rename_i h; exact transferFrom_outcome h target amount s
  · rename_i h1
    split
    · rename_i h; exact transferFrom_outcome h target amount s
    · rename_i h2
      apply Outcome.ignored
      intro k
      cases k with
      | checking => simpa using h1
      | savings => simpa using h2

variable (C) in
/-- The source-side test of the call is passed. -/
def Accepted (source : Option Text) (amount : Option ℚ) (s : State) : Prop :=
  ∃ k : Kind, C.likeN k.pattern source = true ∧ sourceTest C k source amount s = .ok true

theorem accepted_iff {source : Option Text} {amount : Option ℚ} {s : State} :
    Accepted C source amount s ↔ ∃ k r a, Debits C k source amount s r a := by
  constructor
  · rintro ⟨k, hk, ht⟩
    obtain ⟨r, a, h1, h2, h3⟩ := sourceTest_true.1 ht
    exact ⟨k, r, a, hk, h1, h2, h3⟩
  · rintro ⟨k, r, a, h⟩
    exact ⟨k, h.like, sourceTest_true.2 ⟨r, a, h.one, h.amount, h.test⟩⟩

section

variable {source target : Option Text} {amount : Option ℚ} {s s' : State} {out : Except SqlError (Option ℤ)}

/-- A call that is not accepted changes no account and does not report `rc = 1`. -/
theorem Outcome.of_not_accepted (h : Outcome C source target amount s out s')
    (hn : ¬Accepted C source amount s) : out ≠ .ok (some 1) ∧ s'.accounts = s.accounts := by
  cases h with
  | ignored _ => exact ⟨by simp, rfl⟩
  | aborted _ _ => exact ⟨by simp, rfl⟩
  | refused _ _ hsame _ => exact ⟨by simp, hsame⟩
  | paid hd _ _ _ _ => exact absurd (accepted_iff.2 ⟨_, _, _, hd⟩) hn
  | lost hd _ _ _ => exact absurd (accepted_iff.2 ⟨_, _, _, hd⟩) hn
  | broken hd _ _ _ _ => exact absurd (accepted_iff.2 ⟨_, _, _, hd⟩) hn

/-- A call that is accepted is paid, lost or broken off. -/
theorem Outcome.of_debits (h : Outcome C source target amount s out s') {k : Kind} {r : Account} {a : ℚ}
    (hd : Debits C k source amount s r a) :
    (∃ k' x, C.likeN k'.pattern target = true ∧ s.named C k' target = [x] ∧ out = .ok (some 1) ∧
      Adds (charge C k source (-a) + charge C k' target a) s s') ∨
    ((∀ k' : Kind, C.likeN k'.pattern target = true → s.named C k' target = []) ∧ out = .ok (some 1) ∧
      Adds (charge C k source (-a)) s s') ∨
    (∃ k', C.likeN k'.pattern target = true ∧ 2 ≤ (s.named C k' target).length ∧
      out = .error .moreThanOneRow ∧ Adds (charge C k source (-a)) s s') := by
  have ht : sourceTest C k source amount s = .ok true :=
    sourceTest_true.2 ⟨r, a, hd.one, hd.amount, hd.test⟩
  -- the table and the amount are determined by the arguments
  have huniq : ∀ {k₁ r₁ a₁}, Debits C k₁ source amount s r₁ a₁ → k₁ = k ∧ a₁ = a := fun hd₁ =>
    ⟨pattern_unique hd₁.like hd.like, Option.some.inj (hd₁.amount.symm.trans hd.amount)⟩
  cases h with
  | ignored hno => exact absurd hd.like (by simp [hno k])
  | aborted hk he => rw [pattern_unique hd.like hk, he] at ht; cases ht
  | refused hk he => rw [pattern_unique hd.like hk, he] at ht; cases ht
  | paid hd₁ hk' hx hadd _ =>
    obtain ⟨rfl, rfl⟩ := huniq hd₁
    exact .inl ⟨_, _, hk', hx, rfl, hadd⟩
  | lost hd₁ hno hadd _ =>
    obtain ⟨rfl, rfl⟩ := huniq hd₁
    exact .inr (.inl ⟨hno, rfl, hadd⟩)
  | broken hd₁ hk' hmany hadd _ =>
    obtain ⟨rfl, rfl⟩ := huniq hd₁
    exact .inr (.inr ⟨_, hk', hmany, rfl, hadd⟩)

end

end Coms4111.Bank
