import Coms4111.Proof.Dict

/-!
# The tables are never overfull

A dict that reaches as many entries as buckets starts to move to a table of twice the size,
and moves at least one bucket with each entry that is added. So the old table is empty in time
for the next move.

* `load_at_most_one`: along every run without safe iterators and without shrinking, the table
  that takes the new entries has at least as many buckets as there are entries.
-/

namespace Coms4111.Server

open Store

variable {K V : Type} {hashFunction : K → UInt64} {d d' : Dict K V} {n : ℕ}

/-- **Room for `n` more entries.** While the dict is rehashing, every bucket that is left
stands for an entry that may be added meanwhile; the last one is moved with the entry that
comes then. -/
structure Dict.Room (n : ℕ) (d : Dict K V) : Prop where
  iterators : d.iterators = 0
  idle : d.rehashidx = none → d.size + n ≤ d.ht0.size
  moving : ∀ idx, d.rehashidx = some idx →
    idx < d.ht0.size ∧ d.size + n + (d.ht0.size - idx) ≤ d.ht1.size + 1

theorem room_create : (Dict.create : Dict K V).Room 0 :=
  ⟨rfl, fun _ => Nat.le_refl _, fun idx h => by cases h⟩

theorem Dict.Room.size_le (h : d.Room 0) : d.size ≤ if d.isRehashing then d.ht1.size else d.ht0.size := by
  cases hr : d.rehashidx with
  | none =>
    rw [Dict.isRehashing, hr]
    exact h.idle hr
  | some idx =>
    have hm := h.moving idx hr
    rw [Dict.isRehashing, hr]
    change d.size ≤ d.ht1.size
    omega

/-- Room is a matter of the sizes. -/
theorem Dict.Room.of_sizes {k : ℕ} (h : d.Room n) (hit : d'.iterators = d.iterators)
    (hidx : d'.rehashidx = d.rehashidx) (h0 : d'.ht0.size = d.ht0.size) (h1 : d'.ht1.size = d.ht1.size)
    (hsize : d'.size + k ≤ d.size + n) : d'.Room k := by
  refine ⟨hit.trans h.iterators, fun hnone => ?_, fun idx hsome => ?_⟩
  · have := h.idle (hidx.symm.trans hnone)
    omega
  · have := h.moving idx (hidx.symm.trans hsome)
    omega

/-- A call of `dictRehash` that moves on makes room for one more. -/
theorem Dict.Room.rehashed {idx k : ℕ} (h : d.Room 0) (hv : d.Valid hashFunction) (hidx : d.rehashidx = some idx)
    (hr : Rehashed hashFunction (idx + k) d d') :
    d'.Room 0 ∧ ∀ idx', d'.rehashidx = some idx' → d'.size + k + (d'.ht0.size - idx') ≤ d'.ht1.size + 1 := by
  have hm := h.moving idx hidx
  have hsize : d'.size = d.size := hr.kept.size_eq hv
  rcases hr.progress with ⟨hdone, hs⟩ | ⟨idx', hidx', hle, hlt, hs0, hs1⟩
  · refine ⟨⟨hr.iterators.trans h.iterators, fun _ => by omega, fun idx' hsome => ?_⟩, fun idx' hsome => ?_⟩ <;>
    · rw [hdone] at hsome
      cases hsome
  · refine ⟨⟨hr.iterators.trans h.iterators, fun hnone => ?_, fun idx'' hsome => ?_⟩, fun idx'' hsome => ?_⟩
    · rw [hidx'] at hnone
      cases hnone
    · rw [hidx'] at hsome
      cases hsome
      omega
    · rw [hidx'] at hsome
      cases hsome
      omega

theorem Dict.Room.rehashStep (h : d.Room 0) (hv : d.Valid hashFunction)
    (hd : d.rehashStep hashFunction = some d') :
    d'.Room 0 ∧ ∀ idx, d'.rehashidx = some idx → d'.size + 1 + (d'.ht0.size - idx) ≤ d'.ht1.size + 1 := by
  unfold Dict.rehashStep at hd
  cases hidx : d.rehashidx with
  | none =>
    rw [if_neg (by rw [Dict.isRehashing, hidx]; simp)] at hd
    cases hd
    refine ⟨h, fun idx hsome => ?_⟩
    rw [hidx] at hsome
    cases hsome
  | some idx =>
    obtain ⟨more, d₁, hrehash, hr⟩ := rehash_spec hv hidx Nat.one_pos
    rw [if_pos ⟨by rw [Dict.isRehashing, hidx]; rfl, h.iterators⟩, hrehash] at hd
    cases hd
    exact h.rehashed hv hidx hr

theorem Dict.Room.rehash (h : d.Room 0) (hv : d.Valid hashFunction) {more : Bool}
    (hd : d.rehash hashFunction n = some (more, d')) : d'.Room 0 := by
  cases hidx : d.rehashidx with
  | none =>
    rw [Dict.rehash, hidx] at hd
    cases hd
    exact h
  | some idx =>
    cases n with
    | zero =>
      have hvalid : ({ d with rehashidx := some idx } : Dict K V).Valid hashFunction := by rw [← hidx]; exact hv
      have hr := finishRehash_spec hvalid
      rw [Dict.rehash, hidx] at hd
      obtain rfl : (d.finishRehash idx).2 = d' := congrArg Prod.snd (Option.some.inj hd)
      exact (h.rehashed (k := 0) hv hidx hr).1
    | succ n =>
      obtain ⟨more', d₁, hrehash, hr⟩ := rehash_spec hv hidx (Nat.succ_pos n)
      rw [hrehash] at hd
      cases hd
      exact (h.rehashed hv hidx hr).1

/-- **Before an entry is added there is room for it.** -/
theorem room_expandIfNeeded (h : d.Room 0) (hv : d.Valid hashFunction) (hsmall : d.size < 2 ^ 61)
    (hroom : ∀ idx, d.rehashidx = some idx → d.size + 1 + (d.ht0.size - idx) ≤ d.ht1.size + 1)
    (hd : d.expandIfNeeded true = some d') : d'.Room 1 := by
  obtain ⟨d'', hd'', hkept, hcases⟩ := expandIfNeeded_spec true hv hsmall
  obtain rfl : d'' = d' := Option.some.inj (hd''.symm.trans hd)
  have hsize : d''.size = d.size := hkept.size_eq hv
  have hused : d.rehashidx = none → d.size = d.ht0.used := fun hnone => by
    rw [Dict.size, hv.idle hnone]
    rfl
  have hit : d''.iterators = 0 := hkept.iterators.trans h.iterators
  rcases hcases with ⟨rfl, hpos, hless⟩ | ⟨hidle, hzero, rfl⟩ | ⟨hidle, hpos, hfull, rfl⟩
  · refine ⟨hit, fun hnone => ?_, fun idx hsome => ⟨(h.moving idx hsome).1, hroom idx hsome⟩⟩
    have := hless hnone rfl
    have := hused hnone
    omega
  · have := h.idle hidle
    refine ⟨hit, fun _ => ?_, fun idx hsome => ?_⟩
    · rw [hsize]
      change d.size + 1 ≤ 4
      omega
    · rw [hidle] at hsome
      cases hsome
  · refine ⟨hit, fun hnone => (by cases hnone), fun idx hsome => ?_⟩
    cases hsome
    have hu := hused hidle
    obtain ⟨k, -, -, hpow, hle⟩ := nextPower_spec (d.ht0.used * 2)
    have hle := (hle (by unfold longMax; omega)).1
    refine ⟨hpos, ?_⟩
    rw [hsize]
    change d.size + 1 + (d.ht0.size - 0) ≤ (Table.calloc (nextPower (d.ht0.used * 2)) : Table K V).size + 1
    rw [size_calloc]
    omega

variable [DecidableEq K] {m : K → Option V} {key : K} {val : V}

theorem room_add (h : d.Room 0) (hv : d.Valid hashFunction) (hsmall : d.size < 2 ^ 61) {new : Bool}
    (hd : d.add hashFunction true key val = some (new, d')) : d'.Room 0 := by
  obtain ⟨d₁, hstep, hk⟩ := rehashStep_kept hv
  have hsize : d₁.size < 2 ^ 61 := by rw [hk.size_eq hv]; exact hsmall
  obtain ⟨hroom, hone⟩ := h.rehashStep hv hstep
  obtain ⟨d₂, hd₂, -, -⟩ := expandIfNeeded_spec true hk.valid hsize
  have hr := room_expandIfNeeded hroom hk.valid hsize hone hd₂
  simp only [Dict.add, Dict.keyIndex, hstep, Option.bind_eq_bind, Option.bind_some, hd₂] at hd
  cases hl : d₂.lookup hashFunction key with
  | some v =>
    rw [hl] at hd
    cases hd
    exact hr.of_sizes rfl rfl rfl rfl (Nat.le_succ _)
  | none =>
    rw [hl] at hd
    simp only at hd
    by_cases hreh : d₂.isRehashing = true
    · rw [if_pos hreh] at hd
      cases hd
      exact hr.of_sizes rfl rfl rfl (size_push _ _ _) (Nat.le_of_eq (by simp only [Dict.size, Table.push]; omega))
    · rw [if_neg hreh] at hd
      cases hd
      exact hr.of_sizes rfl rfl (size_push _ _ _) rfl (Nat.le_of_eq (by simp only [Dict.size, Table.push]; omega))

theorem room_setVal (h : d.Room 0) (key : K) (val : V) : (d.setVal hashFunction key val).Room 0 := by
  unfold Dict.setVal
  cases d.ht0.find (index hashFunction d.ht0 key) key with
  | some v => exact h.of_sizes rfl rfl List.length_set rfl (Nat.le_refl _)
  | none => exact h.of_sizes rfl rfl rfl List.length_set (Nat.le_refl _)

theorem room_replace (h : d.Room 0) (hv : d.Valid hashFunction) (hsmall : d.size < 2 ^ 61) {new : Bool}
    (hd : d.replace hashFunction true key val = some (new, d')) : d'.Room 0 := by
  obtain ⟨⟨new', d₁⟩, hadd, hd⟩ := Option.bind_eq_some_iff.1 hd
  have hroom := room_add h hv hsmall hadd
  cases new' with
  | true =>
    cases hd
    exact hroom
  | false =>
    cases hd
    exact room_setVal hroom key val

theorem room_find (h : d.Room 0) (hv : d.Valid hashFunction) {found : Option V}
    (hd : d.find hashFunction key = some (found, d')) : d'.Room 0 := by
  unfold Dict.find at hd
  split_ifs at hd
  · cases hd
    exact h
  · obtain ⟨d₁, hstep, hd⟩ := Option.bind_eq_some_iff.1 hd
    cases hd
    exact (h.rehashStep hv hstep).1

theorem room_delete (h : d.Room 0) (hv : d.Valid hashFunction) {found : Bool}
    (hd : d.delete hashFunction key = some (found, d')) : d'.Room 0 := by
  unfold Dict.delete at hd
  split_ifs at hd
  · cases hd
    exact h
  · obtain ⟨d₁, hstep, hd⟩ := Option.bind_eq_some_iff.1 hd
    have hr := (h.rehashStep hv hstep).1
    cases hf : d₁.ht0.find (index hashFunction d₁.ht0 key) key with
    | some v =>
      rw [hf] at hd
      cases hd
      exact hr.of_sizes rfl rfl List.length_set rfl (by simp only [Dict.size, Table.unlink]; omega)
    | none =>
      rw [hf] at hd
      simp only at hd
      split_ifs at hd
      · cases hf₁ : d₁.ht1.find (index hashFunction d₁.ht1 key) key with
        | some v =>
          rw [hf₁] at hd
          cases hd
          exact hr.of_sizes rfl rfl rfl List.length_set (by simp only [Dict.size, Table.unlink]; omega)
        | none =>
          rw [hf₁] at hd
          cases hd
          exact hr
      · cases hd
        exact hr

/-! ## Runs -/

/-- The operations on keys, and the rehashing that the server does on its own. -/
def DictOp.steady : DictOp K V → Bool
  | add _ _ | replace _ _ | find _ | delete _ | rehash _ => true
  | resize | enableResize | disableResize | openIterator | closeIterator => false

/-- **One step keeps the room.** -/
theorem room_step {s s' : DictState K V} {reply : DictReply V} (hs : HoldsFor hashFunction (n + 1) s m)
    (hc : s.canResize = true) (h : s.dict.Room 0) {op : DictOp K V} (hop : op.steady)
    (hrun : op.run hashFunction s = some (reply, s')) : s'.canResize = true ∧ s'.dict.Room 0 := by
  obtain ⟨hv, -, hsize⟩ := hs
  have hsmall : s.dict.size < 2 ^ 61 := by omega
  cases op with
  | add key val =>
    obtain ⟨⟨new, d⟩, hadd, hd⟩ := Option.bind_eq_some_iff.1 hrun
    cases hd
    rw [hc] at hadd
    exact ⟨hc, room_add h hv hsmall hadd⟩
  | replace key val =>
    obtain ⟨⟨new, d⟩, hreplace, hd⟩ := Option.bind_eq_some_iff.1 hrun
    cases hd
    rw [hc] at hreplace
    exact ⟨hc, room_replace h hv hsmall hreplace⟩
  | find key =>
    obtain ⟨⟨found, d⟩, hfind, hd⟩ := Option.bind_eq_some_iff.1 hrun
    cases hd
    exact ⟨hc, room_find h hv hfind⟩
  | delete key =>
    obtain ⟨⟨found, d⟩, hdelete, hd⟩ := Option.bind_eq_some_iff.1 hrun
    cases hd
    exact ⟨hc, room_delete h hv hdelete⟩
  | rehash k =>
    obtain ⟨⟨more, d⟩, hrehash, hd⟩ := Option.bind_eq_some_iff.1 hrun
    cases hd
    exact ⟨hc, h.rehash hv hrehash⟩
  | resize | enableResize | disableResize | openIterator | closeIterator => cases hop

theorem room_run {s : DictState K V} (ops : List (DictOp K V)) (hops : ∀ op ∈ ops, op.steady)
    (hs : HoldsFor hashFunction (n + ops.length) s m) (hc : s.canResize = true) (h : s.dict.Room 0) :
    ∃ replies s', runAll (DictOp.run hashFunction) ops s = some (replies, s') ∧ s'.dict.Room 0 := by
  induction ops generalizing s m with
  | nil => exact ⟨[], s, rfl, h⟩
  | cons op ops ih =>
    obtain ⟨s₁, hstep, hs₁⟩ := dict_refines hashFunction _ op s m hs
    obtain ⟨hc', h'⟩ := room_step hs hc h (hops op List.mem_cons_self) hstep
    obtain ⟨replies, s₂, hrun, hroom⟩ := ih (fun op' hmem => hops op' (List.mem_cons_of_mem _ hmem)) hs₁ hc' h'
    exact ⟨_, s₂, runAll_cons hstep hrun, hroom⟩

/-- **No table gets more entries than buckets**, whatever keys are added, replaced, looked up
and deleted and however far the rehashing is driven in between. -/
theorem load_at_most_one (hashFunction : K → UInt64) (ops : List (DictOp K V)) (hops : ∀ op ∈ ops, op.steady)
    (hlen : ops.length ≤ 2 ^ 30) :
    ∃ replies s, runAll (DictOp.run hashFunction) ops .start = some (replies, s) ∧
      s.dict.size ≤ if s.dict.isRehashing then s.dict.ht1.size else s.dict.ht0.size := by
  have hstart : HoldsFor hashFunction (2 ^ 30 - ops.length + ops.length) (DictState.start : DictState K V)
      fun _ => none := by
    rw [Nat.sub_add_cancel hlen]
    exact holdsFor_start
  obtain ⟨replies, s, hrun, hroom⟩ := room_run ops hops hstart rfl room_create
  exact ⟨replies, s, hrun, hroom.size_le⟩

/-- Six keys added to four buckets, and rehashed on the way. -/
theorem load_at_most_one_six_keys :
    let ops : List (DictOp ℕ Bool) :=
      [.add 1 true, .add 2 true, .add 5 true, .add 9 true, .add 13 true, .rehash 1,
      .add 17 true, .find 9, .delete 2]
    ∃ replies s, runAll (DictOp.run UInt64.ofNat) ops .start = some (replies, s) ∧
      s.dict.size ≤ if s.dict.isRehashing then s.dict.ht1.size else s.dict.ht0.size :=
  load_at_most_one UInt64.ofNat _ (by decide) (by simp)

end Coms4111.Server
