import Coms4111.Proof.Dict
import Coms4111.Store.Cursor

/-!
# Scanning while the tables change

`dictScan` keeps no state but a cursor, which counts from the highest bit of the mask down. A
call reports the cursor's block of the smaller table (`scan_spec`), and of the larger one the
expansions of the cursor, in their usual order (`mem_scanLarger`).

* `scan_misses_nothing`: a scan that has come round reports every key that was there all the
  time, unless the dict is in the middle of shrinking at one of the calls.
* `scan_misses_shrinking`: then a key may be missed. A cursor of the larger table stands in
  the midst of the expansions, and the loop takes those after it in another order than the
  cursor would.
-/

namespace Coms4111.Server

open Store

variable {K V : Type} {hashFunction : K → UInt64} {t : Table K V} {d : Dict K V} {k l : ℕ} {v : BitVec 64}

/-! ## The cursor -/

/-- One round exchanges the bits whose places differ in one bit of their number. -/
theorem getLsbD_revRound {p : BitVec 64 × BitVec 64} {s : ℕ}
    (hmask : ∀ j : Fin 64, (p.1 ^^^ (p.1 <<< s)).getLsbD j = decide (j.val &&& s = 0))
    (hup : ∀ j : Fin 64, j.val &&& s = 0 → j.val + s = j.val ^^^ s)
    (hdown : ∀ j : Fin 64, j.val &&& s ≠ 0 → s ≤ j.val ∧ j.val - s = j.val ^^^ s) {j : ℕ} (hj : j < 64) :
    (revRound p s).2.getLsbD j = p.2.getLsbD (j ^^^ s) := by
  have hm := hmask ⟨j, hj⟩
  simp only at hm
  simp only [revRound, BitVec.getLsbD_or, BitVec.getLsbD_and, BitVec.getLsbD_not, hm, BitVec.getLsbD_ushiftRight,
    BitVec.getLsbD_shiftLeft, hj]
  by_cases hz : j &&& s = 0
  · have hsum : j + s = j ^^^ s := hup ⟨j, hj⟩ hz
    simp [hz, Nat.add_comm s j, hsum]
  · obtain ⟨hle, hdiff⟩ := hdown ⟨j, hj⟩ hz
    simp only at hle hdiff
    simp [hz, show ¬j < s by omega, hdiff]

/-- **`rev` reverses the bits.** -/
theorem rev_eq (v : BitVec 64) : rev v = v.reverse := by
  refine BitVec.eq_of_getLsbD_eq fun j hj => ?_
  have hxor : ∀ {i s : ℕ}, i < 64 → s < 64 → i ^^^ s < 64 := fun {i s} hi hs =>
    Nat.xor_lt_two_pow (n := 6) hi hs
  have hall : ∀ j : Fin 64, j.val ^^^ 1 ^^^ 2 ^^^ 4 ^^^ 8 ^^^ 16 ^^^ 32 = 63 - j.val := by decide
  have h1 : j ^^^ 1 < 64 := hxor hj (by decide)
  have h2 : j ^^^ 1 ^^^ 2 < 64 := hxor h1 (by decide)
  have h4 : j ^^^ 1 ^^^ 2 ^^^ 4 < 64 := hxor h2 (by decide)
  have h8 : j ^^^ 1 ^^^ 2 ^^^ 4 ^^^ 8 < 64 := hxor h4 (by decide)
  have h16 : j ^^^ 1 ^^^ 2 ^^^ 4 ^^^ 8 ^^^ 16 < 64 := hxor h8 (by decide)
  simp only [rev, List.foldl_cons, List.foldl_nil]
  rw [getLsbD_revRound (by simp only [revRound]; decide +kernel) (by decide) (by decide) hj,
    getLsbD_revRound (by simp only [revRound]; decide +kernel) (by decide) (by decide) h1,
    getLsbD_revRound (by simp only [revRound]; decide +kernel) (by decide) (by decide) h2,
    getLsbD_revRound (by simp only [revRound]; decide +kernel) (by decide) (by decide) h4,
    getLsbD_revRound (by simp only [revRound]; decide +kernel) (by decide) (by decide) h8,
    getLsbD_revRound (by simp only; decide +kernel) (by decide) (by decide) h16,
    hall ⟨j, hj⟩, BitVec.getLsbD_reverse, BitVec.getMsbD_eq_getLsbD]
  simp [hj]

theorem mask_eq (h : t.size = 2 ^ k) : t.mask = lowMask 64 k := by
  rw [Table.mask, Table.sizemask, h, lowMask]

theorem nextCursor_eq (k : ℕ) (v : BitVec 64) : nextCursor (lowMask 64 k) v = advance k v := by
  rw [nextCursor, rev_eq, rev_eq, advance]

theorem atCursor_eq (h : t.size = 2 ^ k) (hk : k ≤ 63) (v : BitVec 64) :
    t.atCursor v = t.bucket (v.toNat % 2 ^ k) := by
  rw [Table.atCursor, mask_eq h, toNat_and_lowMask (by omega)]

/-! ## The larger table -/

/-- The next expansion of a cursor, as the loop computes it. -/
def nextExpansion (m0 v : BitVec 64) : BitVec 64 := (((v ||| m0) + 1) &&& ~~~m0) ||| (v &&& m0)

theorem scanLarger_succ (t1 : Table K V) (m0 : BitVec 64) (n : ℕ) (v : BitVec 64) :
    scanLarger t1 m0 (n + 1) v =
      if nextExpansion m0 v &&& (m0 ^^^ t1.mask) = 0 then (t1.atCursor v, nextExpansion m0 v)
      else (t1.atCursor v ++ (scanLarger t1 m0 n (nextExpansion m0 v)).1,
        (scanLarger t1 m0 n (nextExpansion m0 v)).2) := rfl

/-- An expansion agrees with the cursor on the bits of the smaller table. -/
theorem nextExpansion_mod (hk : k ≤ 64) (v : BitVec 64) :
    (nextExpansion (lowMask 64 k) v).toNat % 2 ^ k = v.toNat % 2 ^ k := by
  refine Nat.eq_of_testBit_eq fun i => ?_
  rw [Nat.testBit_mod_two_pow, Nat.testBit_mod_two_pow]
  by_cases hi : i < k
  · rw [BitVec.testBit_toNat, BitVec.testBit_toNat, nextExpansion]
    simp only [BitVec.getLsbD_or, BitVec.getLsbD_and, BitVec.getLsbD_not, getLsbD_lowMask hk, hi]
    simp
  · simp [hi]

/-- **The expansions are taken in order**: the bits above the smaller mask count up. -/
theorem toNat_nextExpansion (hk : k ≤ 64) {j low : ℕ} (hlow : low < 2 ^ k) (hv : v.toNat = 2 ^ k * j + low)
    (hj : 2 ^ k * (j + 1) < 2 ^ 64) : (nextExpansion (lowMask 64 k) v).toNat = 2 ^ k * (j + 1) + low := by
  have hpow := Nat.two_pow_pos k
  have hmask : 2 ^ k - 1 < 2 ^ k := Nat.sub_lt hpow Nat.one_pos
  have hfill : (v ||| lowMask 64 k).toNat = 2 ^ k * j + (2 ^ k - 1) := by
    refine Nat.eq_of_testBit_eq fun i => ?_
    rw [BitVec.testBit_toNat, BitVec.getLsbD_or, getLsbD_lowMask hk, ← BitVec.testBit_toNat, hv,
      Nat.testBit_two_pow_mul_add _ hlow, Nat.testBit_two_pow_mul_add _ hmask, Nat.testBit_two_pow_sub_one]
    by_cases hi : i < k <;> simp [hi]
  have hnext : ((v ||| lowMask 64 k) + 1).toNat = 2 ^ k * (j + 1) := by
    rw [BitVec.toNat_add, hfill]
    change (2 ^ k * j + (2 ^ k - 1) + 1) % 2 ^ 64 = _
    rw [Nat.mul_add] at hj ⊢
    rw [Nat.mod_eq_of_lt (by omega)]
    omega
  refine Nat.eq_of_testBit_eq fun i => ?_
  have hbit : ((v ||| lowMask 64 k) + 1).getLsbD i = (2 ^ k * (j + 1) + 0).testBit i := by
    rw [← BitVec.testBit_toNat, hnext]
    rfl
  rw [Nat.testBit_two_pow_mul_add _ hpow] at hbit
  rw [BitVec.testBit_toNat, nextExpansion, Nat.testBit_two_pow_mul_add _ hlow]
  simp only [BitVec.getLsbD_or, BitVec.getLsbD_and, BitVec.getLsbD_not, getLsbD_lowMask hk, hbit]
  rw [← BitVec.testBit_toNat v, hv, Nat.testBit_two_pow_mul_add _ hlow]
  by_cases hi : i < k
  · simp [hi]
  · have hlt : (j + 1).testBit (i - k) = true → i < 64 := by
      intro hset
      by_contra hge
      have hz : (2 ^ k * (j + 1)).testBit i = false := Nat.testBit_lt_two_pow
        (Nat.lt_of_lt_of_le hj (Nat.pow_le_pow_right (by decide) (by omega)))
      rw [← Nat.add_zero (2 ^ k * (j + 1)), Nat.testBit_two_pow_mul_add _ hpow, if_neg hi, hset] at hz
      cases hz
    cases hset : (j + 1).testBit (i - k) with
    | false => simp [hi]
    | true => simp [hi, hlt hset]

/-- The loop goes on until the bits above the smaller mask have wrapped. -/
theorem and_xor_ne_zero (hk : k ≤ l) (hl : l ≤ 64) {j low : ℕ} (hlow : low < 2 ^ k)
    (hv : v.toNat = 2 ^ k * j + low) (hpos : j ≠ 0) (hj : j < 2 ^ (l - k)) :
    v &&& (lowMask 64 k ^^^ lowMask 64 l) ≠ 0 := by
  intro hzero
  refine hpos (Nat.eq_of_testBit_eq fun i => ?_)
  rw [Nat.zero_testBit]
  by_cases hi : i < l - k
  · have hbit := congrArg (BitVec.getLsbD · (k + i)) hzero
    simp only [BitVec.getLsbD_and, BitVec.getLsbD_xor, getLsbD_lowMask (Nat.le_trans hk hl),
      getLsbD_lowMask hl] at hbit
    rw [← BitVec.testBit_toNat v, hv, Nat.testBit_two_pow_mul_add _ hlow] at hbit
    simpa [show k + i < l by omega, show ¬k + i < k by omega] using hbit
  · exact Nat.testBit_lt_two_pow (Nat.lt_of_lt_of_le hj (Nat.pow_le_pow_right (by decide) (by omega)))

/-- **The buckets of the larger table that are reported**: all expansions from the cursor's
own on. -/
theorem mem_scanLarger {t1 : Table K V} (ht1 : t1.size = 2 ^ l) (hk : k ≤ l) (hl : l ≤ 63) {j low n i : ℕ}
    (hlow : low < 2 ^ k) (hv : v.toNat = 2 ^ k * j + low) (hj : j ≤ i) (hi : i < 2 ^ (l - k)) (hn : i < j + n)
    {e : K × V} (he : e ∈ t1.bucket (2 ^ k * i + low)) : e ∈ (scanLarger t1 (lowMask 64 k) n v).1 := by
  have hpow : 2 ^ k * 2 ^ (l - k) = 2 ^ l := by rw [← Nat.pow_add]; congr 1; omega
  have hbelow : ∀ i < 2 ^ (l - k), 2 ^ k * (i + 1) ≤ 2 ^ l := fun i hi => by
    rw [← hpow]; exact Nat.mul_le_mul_left _ hi
  have h64 : 2 ^ l < 2 ^ 64 := Nat.pow_lt_pow_right (by decide) (by omega)
  induction n generalizing j v with
  | zero => omega
  | succ n ih =>
    rw [scanLarger_succ, mask_eq ht1]
    by_cases hij : i = j
    · -- the cursor's own bucket
      subst hij
      have hmod : v.toNat % 2 ^ l = 2 ^ k * i + low := by
        rw [hv, Nat.mod_eq_of_lt]
        have := hbelow i hi
        rw [Nat.mul_add] at this
        omega
      have hat : e ∈ t1.atCursor v := by rw [atCursor_eq ht1 hl, hmod]; exact he
      split_ifs
      · exact hat
      · exact List.mem_append_left _ hat
    · have hnext := toNat_nextExpansion (by omega) hlow hv
        (Nat.lt_of_le_of_lt (hbelow j (by omega)) h64)
      rw [if_neg (and_xor_ne_zero hk (by omega) hlow hnext (Nat.succ_ne_zero j) (by omega))]
      exact List.mem_append_right _ (ih hnext (by omega) (by omega))

theorem scanLarger_mod (t1 : Table K V) (hk : k ≤ 64) (n : ℕ) (v : BitVec 64) :
    (scanLarger t1 (lowMask 64 k) n v).2.toNat % 2 ^ k = v.toNat % 2 ^ k := by
  induction n generalizing v with
  | zero => rfl
  | succ n ih =>
    rw [scanLarger_succ]
    split_ifs
    · exact nextExpansion_mod hk v
    · exact (ih _).trans (nextExpansion_mod hk v)

/-! ## One call -/

/-- The size of the smaller table, or of the only one. -/
def Dict.smaller (d : Dict K V) : ℕ :=
  if d.isRehashing then (if d.ht1.size < d.ht0.size then d.ht1.size else d.ht0.size) else d.ht0.size

theorem exists_pow (h : t.Valid hashFunction) (hpos : 0 < t.size) : ∃ k, k ≤ 63 ∧ t.size = 2 ^ k := by
  obtain hzero | ⟨k, -, hk, hsize⟩ := h.size
  · omega
  · exact ⟨k, hk, hsize⟩

theorem mem_bucket (h : t.Valid hashFunction) (hsize : t.size = 2 ^ k) {e : K × V} (he : e ∈ t.table.flatten) :
    e ∈ t.bucket ((hashFunction e.1).toNat % 2 ^ 32 % 2 ^ k) := by
  rw [← index_eq_mod hashFunction hsize]
  exact (mem_flatten_iff h).1 he

/-- Two tables of which the one is not larger, as `dictScan` reads them. -/
theorem scan_tables {t0 t1 : Table K V} (h0 : t0.Valid hashFunction) (h1 : t1.Valid hashFunction)
    (hs0 : t0.size = 2 ^ k) (hs1 : t1.size = 2 ^ l) (hk : k ≤ l) (hl : l ≤ 63) (v : BitVec 64) :
    nextCursor t0.mask (scanLarger t1 t0.mask t1.size v).2 = advance k v ∧
      ∀ e, e ∈ t0.table.flatten ∨ e ∈ t1.table.flatten →
        (hashFunction e.1).toNat % 2 ^ 32 % 2 ^ k = v.toNat % 2 ^ k → v.toNat < 2 ^ k →
        e ∈ t0.atCursor v ++ (scanLarger t1 t0.mask t1.size v).1 := by
  rw [mask_eq hs0, nextCursor_eq]
  refine ⟨advance_congr (by omega) (scanLarger_mod t1 (by omega) _ v), fun e he hblock hv => ?_⟩
  rcases he with he | he
  · refine List.mem_append_left _ ?_
    rw [atCursor_eq hs0 (by omega), ← hblock]
    exact mem_bucket h0 hs0 he
  · -- the entry's index in the larger table is an expansion of the cursor
    refine List.mem_append_right _ ?_
    have hmem := mem_bucket h1 hs1 he
    generalize (hashFunction e.1).toNat % 2 ^ 32 = h at hblock hmem
    have hpow : 2 ^ l = 2 ^ k * 2 ^ (l - k) := by rw [← Nat.pow_add]; congr 1; omega
    have hlow : h % 2 ^ l % 2 ^ k = v.toNat := by
      rw [Nat.mod_mod_of_dvd _ ⟨_, hpow⟩, hblock, Nat.mod_eq_of_lt hv]
    have hsplit : h % 2 ^ l = 2 ^ k * (h % 2 ^ l / 2 ^ k) + v.toNat := by
      rw [← hlow]; exact (Nat.div_add_mod _ _).symm
    have hi : h % 2 ^ l / 2 ^ k < 2 ^ (l - k) := by
      refine Nat.div_lt_of_lt_mul ?_
      rw [← hpow]
      exact Nat.mod_lt _ (Nat.two_pow_pos l)
    refine mem_scanLarger hs1 hk hl (j := 0) hv (by omega) (Nat.zero_le _) hi ?_ (hsplit ▸ hmem)
    have hle : 2 ^ (l - k) ≤ 2 ^ l := Nat.pow_le_pow_right (by decide) (Nat.sub_le l k)
    omega

/-- **One call of `dictScan`** advances the cursor on the bits of the smaller table, and
reports what is in the cursor's block; while the dict is rehashing, the cursor must not
have more bits than the smaller table. -/
theorem scan_spec (h : d.Valid hashFunction) (hne : d.size ≠ 0) (v : BitVec 64) :
    ∃ k, k ≤ 63 ∧ d.smaller = 2 ^ k ∧ (d.scan v).2 = advance k v ∧
      ∀ e ∈ d.toList, (hashFunction e.1).toNat % 2 ^ 32 % 2 ^ k = v.toNat % 2 ^ k →
        (d.isRehashing = true → v.toNat < 2 ^ k) → e ∈ (d.scan v).1 := by
  unfold Dict.scan Dict.smaller
  rw [if_neg hne]
  cases hr : d.rehashidx with
  | none =>
    have hno : d.isRehashing = false := by rw [Dict.isRehashing, hr]; rfl
    have hlist : d.toList = d.ht0.table.flatten := by
      rw [Dict.toList, h.idle hr]
      exact List.append_nil _
    have hpos : 0 < d.ht0.size := by
      refine Nat.pos_of_ne_zero fun hzero => hne ?_
      rw [size_eq_length h, hlist, List.length_eq_zero_iff.1 hzero]
      rfl
    obtain ⟨k, hk, hs⟩ := exists_pow h.ht0 hpos
    simp only [hno, Bool.not_false, if_true, Bool.false_eq_true, if_false]
    refine ⟨k, hk, hs, ?_, fun e he hblock _ => ?_⟩
    · rw [mask_eq hs, nextCursor_eq]
    · rw [hlist] at he
      rw [atCursor_eq hs hk, ← hblock]
      exact mem_bucket h.ht0 hs he
  | some idx =>
    have hyes : d.isRehashing = true := by rw [Dict.isRehashing, hr]; rfl
    obtain ⟨h0, h1, -, -⟩ := h.moving idx hr
    obtain ⟨k0, hk0, hs0⟩ := exists_pow h.ht0 h0
    obtain ⟨k1, hk1, hs1⟩ := exists_pow h.ht1 h1
    simp only [hyes, Bool.not_true, Bool.false_eq_true, if_true, if_false]
    by_cases hlt : d.ht1.size < d.ht0.size
    · simp only [hlt, if_true]
      have hle : k1 ≤ k0 := by
        rw [hs0, hs1] at hlt
        exact Nat.le_of_lt ((Nat.pow_lt_pow_iff_right (by decide)).1 hlt)
      obtain ⟨hnext, hmem⟩ := scan_tables h.ht1 h.ht0 hs1 hs0 hle hk0 v
      refine ⟨k1, hk1, hs1, hnext, fun e he hblock hv => ?_⟩
      exact hmem e (List.mem_append.1 he).symm hblock (hv trivial)
    · simp only [hlt, if_false]
      have hle : k0 ≤ k1 := by
        rw [hs0, hs1, Nat.not_lt] at hlt
        exact (Nat.pow_le_pow_iff_right (by decide)).1 hlt
      obtain ⟨hnext, hmem⟩ := scan_tables h.ht0 h.ht1 hs0 hs1 hle hk1 v
      refine ⟨k0, hk0, hs0, hnext, fun e he hblock hv => ?_⟩
      exact hmem e (List.mem_append.1 he) hblock (hv trivial)

/-! ## A whole scan -/

/-- Where a key is, among the positions of the cursor. -/
def position (hashFunction : K → UInt64) (key : K) : BitVec 64 :=
  BitVec.ofNat 64 ((hashFunction key).toNat % 2 ^ 32)

theorem toNat_position (hashFunction : K → UInt64) (key : K) :
    (position hashFunction key).toNat = (hashFunction key).toNat % 2 ^ 32 := by
  have hlt := Nat.mod_lt (hashFunction key).toNat (Nat.two_pow_pos 32)
  rw [position, BitVec.toNat_ofNat, Nat.mod_eq_of_lt (Nat.lt_trans hlt (by decide))]

variable [DecidableEq K]

/-- What a scan gives: the entries that are reported, the last cursor, and the dicts that its calls
have met. -/
structure Scanned (K V : Type) where
  reported : List (K × V)
  cursor : BitVec 64
  met : List (Dict K V)
  deriving DecidableEq

/-- **A scan**: calls of `dictScan`, each with the cursor that the one before has returned,
and with operations in between. -/
def scanRun (hashFunction : K → UInt64) :
    List (List (DictOp K V)) → DictState K V → BitVec 64 → Option (Scanned K V)
  | [], _, v => some ⟨[], v, []⟩
  | ops :: rest, s, v => do
    let (_, s) ← runAll (DictOp.run hashFunction) ops s
    let r := s.dict.scan v
    let later ← scanRun hashFunction rest s r.2
    return ⟨r.1 ++ later.reported, later.cursor, s.dict :: later.met⟩

/-- Between two calls the table has not become smaller, unless it has done so for good. -/
def NotShrinking (d d' : Dict K V) : Prop := d'.isRehashing = true → d.smaller ≤ d'.smaller

instance (d d' : Dict K V) : Decidable (NotShrinking d d') :=
  inferInstanceAs (Decidable (d'.isRehashing = true → d.smaller ≤ d'.smaller))

omit [DecidableEq K] in
theorem HoldsFor.batch {m : K → Option V} {s : DictState K V} {n : ℕ} (ops : List (DictOp K V))
    (rest : List (List (DictOp K V))) (hs : HoldsFor hashFunction (n + (ops :: rest).flatten.length) s m) :
    HoldsFor hashFunction (n + rest.flatten.length + total (fun _ => 1) ops) s m := by
  rw [List.flatten_cons, List.length_append] at hs
  rwa [total_one, Nat.add_assoc, Nat.add_comm rest.flatten.length]

/-- No operation fails during a scan. -/
theorem scanRun_isSome {m : K → Option V} {s : DictState K V} {n : ℕ} (batches : List (List (DictOp K V)))
    (hs : HoldsFor hashFunction (n + batches.flatten.length) s m) (v : BitVec 64) :
    ∃ r, scanRun hashFunction batches s v = some r := by
  induction batches generalizing s m v with
  | nil => exact ⟨_, rfl⟩
  | cons ops rest ih =>
    obtain ⟨s', hrun, hs'⟩ := (dict_refines hashFunction).run ops (HoldsFor.batch ops rest hs)
    obtain ⟨later, hlater⟩ := ih hs' (s'.dict.scan v).2
    simp only [scanRun, hrun, hlater, Option.bind_eq_bind, Option.bind_some, Option.pure_def]
    exact ⟨_, rfl⟩

/-- A scan from any cursor that ends at 0 reports the keys that are not before the cursor. -/
theorem scan_from {key : K} {m : K → Option V} {s : DictState K V} {n : ℕ} {r : Scanned K V}
    (batches : List (List (DictOp K V))) (hs : HoldsFor hashFunction (n + batches.flatten.length) s m)
    (hne : batches ≠ []) (hr : scanRun hashFunction batches s v = some r) (hdone : r.cursor = 0)
    (hkey : ∀ d ∈ r.met, d.lookup hashFunction key ≠ none) (hshrink : r.met.IsChain NotShrinking)
    (hcursor : ∀ d ∈ r.met.head?, d.isRehashing = true → v ≠ 0 → v.toNat < d.smaller)
    (hpos : pos v ≤ pos (position hashFunction key)) : ∃ val, (key, val) ∈ r.reported := by
  induction batches generalizing s v m n r with
  | nil => exact absurd rfl hne
  | cons ops rest ih =>
    obtain ⟨s', hrun, hs'⟩ := (dict_refines hashFunction).run ops (HoldsFor.batch ops rest hs)
    obtain ⟨later, hlater⟩ := scanRun_isSome rest hs' (s'.dict.scan v).2
    simp only [scanRun, hrun, hlater, Option.bind_eq_bind, Option.bind_some, Option.pure_def,
      Option.some.injEq] at hr
    subst hr
    simp only at hdone hkey hshrink hcursor ⊢
    obtain ⟨val, hval⟩ := Option.ne_none_iff_exists'.1 (hkey s'.dict List.mem_cons_self)
    have hmem : (key, val) ∈ s'.dict.toList := by
      rw [hs'.2.1.mem_iff, ← lookup_eq hs'.1 hs'.2.1, hval]
    have hsize : s'.dict.size ≠ 0 := by
      rw [size_eq_length hs'.1]
      exact Nat.ne_of_gt (List.length_pos_of_mem hmem)
    obtain ⟨k, hk, hsmaller, hnext, hreport⟩ := scan_spec hs'.1 hsize v
    rw [hnext] at hlater
    rcases block_or_advance (k := k) (by omega) hpos with hblock | ⟨hzero, hpos'⟩
    · rw [toNat_position] at hblock
      refine ⟨val, List.mem_append_left _ (hreport _ hmem hblock fun hr => ?_)⟩
      by_cases hv : v = 0
      · rw [hv]
        exact Nat.two_pow_pos k
      · rw [← hsmaller]
        exact hcursor s'.dict rfl hr hv
    · cases rest with
      | nil =>
        cases hlater
        exact absurd hdone hzero
      | cons ops' rest =>
        have hchain : ∀ d ∈ later.met.head?, NotShrinking s'.dict d := fun d hd =>
          (List.isChain_cons.1 hshrink).1 d hd
        obtain ⟨val', hval'⟩ := ih hs' (List.cons_ne_nil _ _) hlater hdone
          (fun d hd => hkey d (List.mem_cons_of_mem _ hd)) (List.isChain_cons.1 hshrink).2 (by
            rintro d hd hr -
            have hlt := advance_lt (k := k) (by omega) v
            exact Nat.lt_of_lt_of_le (hsmaller ▸ hlt) (hchain d hd hr)) hpos'
        exact ⟨val', List.mem_append_right _ hval'⟩

/-- **A scan misses nothing.** No operation fails, and a scan that has come round to cursor 0 has
reported every key that was there at each of its calls, whatever was done to the dict in between,
growing and rehashing included; at a call in the middle of a rehashing, the smaller table must not
be smaller than the one of the call before. -/
theorem scan_misses_nothing (hashFunction : K → UInt64) (batches : List (List (DictOp K V)))
    (hlen : batches.flatten.length ≤ 2 ^ 30) (hne : batches ≠ []) (key : K) :
    ∃ r, scanRun hashFunction batches .start 0 = some r ∧
      (r.cursor = 0 → (∀ d ∈ r.met, d.lookup hashFunction key ≠ none) → r.met.IsChain NotShrinking →
        ∃ val, (key, val) ∈ r.reported) := by
  have hstart : HoldsFor hashFunction (2 ^ 30 - batches.flatten.length + batches.flatten.length)
      (DictState.start : DictState K V) fun _ => none := by
    rw [Nat.sub_add_cancel hlen]
    exact holdsFor_start
  obtain ⟨r, hr⟩ := scanRun_isSome batches hstart 0
  refine ⟨r, hr, fun hdone hkey hshrink => ?_⟩
  exact scan_from batches hstart hne hr hdone hkey hshrink (fun d _ _ hv => absurd rfl hv)
    (by rw [pos_zero]; exact Nat.zero_le _)

/-- Four keys are there when the scan starts. Two of its calls find the dict on the way from
four buckets to eight. -/
def growingScan : List (List (DictOp ℕ Unit)) :=
  [(List.range 4).map (.add · ()), [.add 4 ()], [.add 5 (), .rehash 1], [.add 6 (), .rehash 100], []]

theorem scan_misses_nothing_growing :
    ∃ r, scanRun (fun k => .ofNat k) growingScan .start 0 = some r ∧ r.cursor = 0 ∧
      ∃ val, (3, val) ∈ r.reported := by
  obtain ⟨r, hr, hreported⟩ :=
    scan_misses_nothing (fun k => .ofNat k) growingScan (by decide) (List.cons_ne_nil _ _) 3
  have hall : (scanRun (fun k => .ofNat k) growingScan .start 0).all (fun r => r.cursor = 0 ∧
      (∀ d ∈ r.met, d.lookup (fun k => .ofNat k) 3 ≠ none) ∧ r.met.IsChain NotShrinking) = true := by
    decide +kernel
  rw [hr, Option.all_some, decide_eq_true_eq] at hall
  exact ⟨r, hr, hall.1, hreported hall.1 hall.2.1 hall.2.2⟩

/-- Four keys are left of thirteen in sixteen buckets, and the dict is shrunk to four buckets
between the first call of a scan and the second. -/
def shrinkingScan : List (List (DictOp ℕ Unit)) :=
  [(List.range 13).map (.add · ()) ++ (List.range 13).map .find,
    [1, 2, 3, 5, 6, 7, 9, 10, 11].map .delete ++ [.resize], [.rehash 100], [], []]

/-- **A scan may miss a key while the table shrinks**: key 4 is there all the time. -/
theorem scan_misses_shrinking :
    (scanRun (fun k => .ofNat k) shrinkingScan .start 0).any (fun r => r.cursor = 0 ∧
      (∀ d ∈ r.met, d.lookup (fun k => .ofNat k) 4 = some ()) ∧ (4, ()) ∉ r.reported) = true := by
  decide +kernel

end Coms4111.Server
