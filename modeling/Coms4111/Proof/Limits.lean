import Coms4111.Proof.Conservation

/-!
# Account limits along runs of transfers

The limit of an account is tested when the account is the source, and not when it is
the target. `limits_hold_iff`: from tables within their limits, the limits hold all
along a run of calls **exactly when** every accepted call leaves its target enough, or
has its source as target. A call can only fail this with a negative amount
(`absorbs_of_nonneg`); `negative_transfer_breaks_limit` is one.
-/

namespace Coms4111.Bank

open Sql

/-- Every account is within its limit. -/
def WithinLimits (s : State) : Prop :=
  (∀ a ∈ (s.accounts .checking).rows, -a.limit ≤ a.balance) ∧
    ∀ a ∈ (s.accounts .savings).rows, a.limit ≤ a.balance

instance (s : State) : Decidable (WithinLimits s) := inferInstanceAs (Decidable (_ ∧ _))

/-- The arguments of a call. -/
structure Call where
  source : Option Text
  target : Option Text
  amount : Option ℚ

variable (C : Collation)

/-- The tables after the call. -/
def Call.run (c : Call) (s : State) : State := ((transferCommit C c.source c.target c.amount).run s).2

/-- The tables after a run of calls. -/
def runCalls (calls : List Call) (s : State) : State := calls.foldl (fun s c => c.run C s) s

/-- The target of the call can bear the amount: if the test on the source is passed,
the target is the source, or stays within its own limit. -/
def Absorbs (c : Call) (s : State) : Prop :=
  Accepted C c.source c.amount s → C.eqN c.source c.target = true ∨
    ∀ (k : Kind) (x : Account) (a : ℚ), C.likeN k.pattern c.target = true →
      s.named C k c.target = [x] → c.amount = some a → k.sign * x.limit ≤ x.balance + a

variable {C}

theorem withinLimits_iff {s : State} :
    WithinLimits s ↔ ∀ k, ∀ a ∈ (s.accounts k).rows, k.sign * a.limit ≤ a.balance := by
  constructor
  · rintro ⟨h1, h2⟩ k a ha
    cases k with
    | checking => simpa [Kind.sign] using h1 a ha
    | savings => simpa [Kind.sign] using h2 a ha
  · intro h
    refine ⟨fun a ha => ?_, fun a ha => ?_⟩
    · simpa [Kind.sign] using h .checking a ha
    · simpa [Kind.sign] using h .savings a ha

theorem withinLimits_adds {δ : Kind → Option Text → ℚ} {s s' : State} (h : Adds δ s s') :
    WithinLimits s' ↔
      ∀ k, ∀ a ∈ (s.accounts k).rows, k.sign * a.limit ≤ a.balance + δ k a.accountId := by
  rw [withinLimits_iff]
  have hmem : ∀ k (P : Account → Prop), (∀ a ∈ (s'.accounts k).rows, P a) ↔
      ∀ a ∈ (s.accounts k).rows, P { a with balance := a.balance + δ k a.accountId } := by
    intro k P; rw [h k, List.forall_mem_map]
  simp only [hmem]

/-- The debit alone keeps the limits: the test is about the account it writes. -/
theorem debit_withinLimits {s : State} (hs : WithinLimits s) {k : Kind} {source : Option Text}
    {amount : Option ℚ} {r : Account} {a : ℚ} (hd : Debits C k source amount s r a) :
    ∀ k', ∀ b ∈ (s.accounts k').rows, k'.sign * b.limit ≤ b.balance + charge C k source (-a) k' b.accountId := by
  intro k' b hb
  unfold charge
  split
  · rename_i hm
    obtain ⟨rfl, hm⟩ := hm
    have hbr : b ∈ s.named C k' source := mem_named.2 ⟨hb, hm⟩
    rw [hd.one, List.mem_singleton] at hbr
    subst hbr
    have := hd.test
    linarith
  · simpa using withinLimits_iff.1 hs k' b hb

/-- Debit and credit keep the limits exactly when source and target are one account, or
the target can bear the amount. -/
theorem credit_withinLimits {s : State} (hs : WithinLimits s) {k k' : Kind} {source target : Option Text}
    {amount : Option ℚ} {r x : Account} {a : ℚ} (hd : Debits C k source amount s r a)
    (hk' : C.likeN k'.pattern target = true) (hx : s.named C k' target = [x]) :
    (∀ k₀, ∀ b ∈ (s.accounts k₀).rows, k₀.sign * b.limit ≤
      b.balance + (charge C k source (-a) + charge C k' target a) k₀ b.accountId) ↔
    C.eqN source target = true ∨ k'.sign * x.limit ≤ x.balance + a := by
  have hxm : x ∈ s.named C k' target := by rw [hx]; exact List.mem_singleton_self x
  obtain ⟨hxrow, hxid⟩ := mem_named.1 hxm
  simp only [Pi.add_apply]
  constructor
  · intro h
    by_cases hst : C.eqN source target = true
    · exact .inl hst
    · -- the target's row is not the source's, so only the credit reaches it
      have hns : ¬C.eqN x.accountId source = true := fun hm => hst (Collation.eqN_trans hm hxid)
      right
      simpa [charge, hns, hxid] using h k' x hxrow
  · intro h k₀ b hb
    by_cases hbt : k₀ = k' ∧ C.eqN b.accountId target = true
    · obtain ⟨rfl, hbt⟩ := hbt
      have hbx : b ∈ s.named C k₀ target := mem_named.2 ⟨hb, hbt⟩
      rw [hx, List.mem_singleton] at hbx
      subst hbx
      have hlim := withinLimits_iff.1 hs k₀ b hb
      by_cases hbs : C.eqN b.accountId source = true
      · -- source and target are one account: what is taken is given back
        have hkk : k₀ = k := by
          refine pattern_unique hk' ?_
          rw [← eqN_like hbt, eqN_like hbs]; exact hd.like
        subst hkk
        simp only [charge, hbs, hbt, and_self, if_true]
        linarith
      · have hst : ¬C.eqN source target = true := by
          intro hst
          rw [Collation.eqN_symm] at hst hbt
          rw [Collation.eqN_symm] at hbs
          exact hbs (Collation.eqN_trans hst hbt)
        have hle := h.resolve_left hst
        simpa [charge, hbs, hbt] using hle
    · -- no credit reaches the row
      have hz : charge C k' target a k₀ b.accountId = 0 := if_neg hbt
      have hdeb := debit_withinLimits hs hd k₀ b hb
      rw [hz, add_zero]; exact hdeb

/-- **One call**: from tables within their limits it leaves them so exactly when its
target can bear the amount. -/
theorem call_withinLimits {s : State} (hs : WithinLimits s) (c : Call) :
    WithinLimits (c.run C s) ↔ Absorbs C c s := by
  unfold Call.run Absorbs
  have hout := transferCommit_outcome (C := C) c.source c.target c.amount s
  generalize ((transferCommit C c.source c.target c.amount).run s).1 = out at hout
  generalize ((transferCommit C c.source c.target c.amount).run s).2 = s' at hout
  by_cases hacc : Accepted C c.source c.amount s
  · obtain ⟨k, r, a, hd⟩ := accepted_iff.1 hacc
    have hdeb := debit_withinLimits hs hd
    simp only [hacc, forall_const]
    rcases hout.of_debits hd with ⟨k', x, hk', hx, -, hadd⟩ | ⟨hno, -, hadd⟩ | ⟨k', hk', hmany, -, hadd⟩
    · rw [withinLimits_adds hadd, credit_withinLimits hs hd hk' hx]
      refine or_congr_right ⟨fun h k₀ x₀ a₀ hk₀ hx₀ ha₀ => ?_, fun h => h k' x a hk' hx hd.amount⟩
      obtain rfl := pattern_unique hk₀ hk'
      obtain rfl := Option.some.inj (hd.amount.symm.trans ha₀)
      rw [hx] at hx₀
      obtain rfl := List.singleton_inj.1 hx₀
      exact h
    · -- nobody has the target's id: only the source is written
      refine ⟨fun _ => .inr ?_, fun _ => (withinLimits_adds hadd).2 hdeb⟩
      intro k₀ x₀ a₀ hk₀ hx₀ _
      rw [hno k₀ hk₀] at hx₀; cases hx₀
    · -- the target's balance cannot be read: only the source is written
      refine ⟨fun _ => .inr ?_, fun _ => (withinLimits_adds hadd).2 hdeb⟩
      intro k₀ x₀ a₀ hk₀ hx₀ _
      rw [pattern_unique hk₀ hk'] at hx₀
      rw [hx₀] at hmany; simp at hmany
  · have hsame := (hout.of_not_accepted hacc).2
    refine ⟨fun _ h => absurd h hacc, fun _ => ?_⟩
    unfold WithinLimits; rw [hsame]; exact hs

/-- Only a negative amount can fail the condition. -/
theorem absorbs_of_nonneg {s : State} (hs : WithinLimits s) {c : Call} (h : ∀ a, c.amount = some a → 0 ≤ a) :
    Absorbs C c s := by
  intro _
  right
  intro k x a _ hx ha
  have hxm : x ∈ s.named C k c.target := by rw [hx]; exact List.mem_singleton_self x
  have h1 := withinLimits_iff.1 hs k x (mem_named.1 hxm).1
  have h2 := h a ha
  linarith

theorem runCalls_succ {calls : List Call} {n : ℕ} (hn : n < calls.length) (s : State) :
    runCalls C (calls.take (n + 1)) s = calls[n].run C (runCalls C (calls.take n) s) := by
  unfold runCalls
  rw [List.take_add_one, List.getElem?_eq_getElem hn, Option.toList_some, List.foldl_append]
  rfl

/-- **Limits along a run.** From tables within their limits, all states of a run of
calls are within their limits exactly when every call's target can bear its amount. -/
theorem limits_hold_iff (C : Collation) {s : State} (hs : WithinLimits s) (calls : List Call) :
    (∀ n ≤ calls.length, WithinLimits (runCalls C (calls.take n) s)) ↔
      ∀ n (hn : n < calls.length), Absorbs C calls[n] (runCalls C (calls.take n) s) := by
  constructor
  · intro h n hn
    rw [← call_withinLimits (h n hn.le), ← runCalls_succ hn]
    exact h (n + 1) hn
  · intro h n
    induction n with
    | zero => intro _; exact hs
    | succ n ih =>
      intro hn
      rw [runCalls_succ hn, call_withinLimits (ih (by omega))]
      exact h n hn

theorem limits_hold_two_transfers :
    let s := run asciiCi [.insert .checking 14 100 50, .insert .savings 1 760 50] .empty
    let calls := [⟨some "CH-14".toList, some "SV-1".toList, some 100⟩,
      ⟨some "SV-1".toList, some "CH-14".toList, some (225 / 2)⟩]
    WithinLimits s ∧ ∀ n (hn : n < calls.length),
      Absorbs asciiCi calls[n] (runCalls asciiCi (calls.take n) s) :=
  ⟨by decide +kernel, (limits_hold_iff asciiCi (by decide +kernel) _).1 (by decide +kernel)⟩

/-- A negative amount passes the test on the source and takes money from the target,
whose limit is not tested. -/
theorem negative_transfer_breaks_limit :
    let s := run asciiCi [.insert .checking 14 0 0, .insert .savings 1 200 200] .empty
    WithinLimits s ∧
      ¬WithinLimits (runCalls asciiCi [⟨some "CH-14".toList, some "SV-1".toList, some (-50)⟩] s) := by
  decide +kernel

end Coms4111.Bank
