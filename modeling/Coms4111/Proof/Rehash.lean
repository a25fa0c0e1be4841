import Coms4111.Spec.Dict
import Coms4111.Store.Listing
import Mathlib.Tactic.Common

/-!
# Rehashing keeps the entries

The invariant of a dict (`Dict.Valid`), and what is done to one without touching its entries.

* `Rehashed`: what a call of `dictRehash` leaves (`rehash_spec`).
* `expandIfNeeded_spec`: when a table is added, and which.
* `entries_eq`: an iterator gives every entry once.
-/

namespace Coms4111.Server

open Store

variable {K V : Type} {hashFunction : K → UInt64} {t : Table K V} {i : ℕ}

/-! ## One table -/

variable (hashFunction) in
/-- **A table as the code keeps it**: its size is a power of two, every entry is in the
bucket of its hash, and `used` counts them. -/
structure Table.Valid (t : Table K V) : Prop where
  size : t.size = 0 ∨ ∃ n, 2 ≤ n ∧ n ≤ 63 ∧ t.size = 2 ^ n
  placed : ∀ i, ∀ e ∈ t.bucket i, index hashFunction t e.1 = i
  used : t.used = t.table.flatten.length

theorem index_eq_mod (hashFunction : K → UInt64) {n : ℕ} (h : t.size = 2 ^ n) (key : K) :
    index hashFunction t key = (hashFunction key).toNat % 2 ^ 32 % 2 ^ n := by
  rw [index, Table.sizemask, h, Nat.and_two_pow_sub_one_eq_mod]

/-- It makes no difference where the index is cut. -/
theorem newIndex_eq (hashFunction : K → UInt64) (t : Table K V) (key : K) :
    newIndex hashFunction t key = index hashFunction t key := by
  unfold newIndex index
  rw [← Nat.and_two_pow_sub_one_eq_mod _ 32, ← Nat.and_two_pow_sub_one_eq_mod _ 32, Nat.and_assoc,
    Nat.and_comm t.sizemask, Nat.and_assoc]

theorem index_lt (h : t.Valid hashFunction) (hsize : 0 < t.size) (key : K) :
    index hashFunction t key < t.size := by
  obtain h0 | ⟨n, -, -, hn⟩ := h.size
  · omega
  · rw [index_eq_mod hashFunction hn, hn]
    exact Nat.mod_lt _ (Nat.two_pow_pos n)

/-- The index depends on the size of the table only. -/
theorem index_congr {t' : Table K V} (h : t'.size = t.size) (key : K) :
    index hashFunction t' key = index hashFunction t key := by
  rw [index, index, Table.sizemask, Table.sizemask, h]

theorem valid_reset : (Table.reset : Table K V).Valid hashFunction :=
  ⟨Or.inl rfl, fun i e he => by simp [Table.bucket, Table.reset] at he, rfl⟩

theorem bucket_calloc (n i : ℕ) : (Table.calloc n : Table K V).bucket i = [] := by
  simp only [Table.bucket, Table.calloc, List.getD_eq_getElem?_getD, List.getElem?_replicate]
  split <;> rfl

theorem flatten_calloc (n : ℕ) : (Table.calloc n : Table K V).table.flatten = [] := by
  simp [Table.calloc]

theorem size_calloc (n : ℕ) : (Table.calloc n : Table K V).size = n := List.length_replicate

theorem valid_calloc {n k : ℕ} (hn : n = 2 ^ k) (h2 : 2 ≤ k) (h63 : k ≤ 63) :
    (Table.calloc n : Table K V).Valid hashFunction := by
  refine ⟨Or.inr ⟨k, h2, h63, by rw [size_calloc, hn]⟩, fun i e he => ?_, by rw [flatten_calloc]; rfl⟩
  rw [bucket_calloc] at he
  cases he

theorem bucket_eq_nil (h : t.size ≤ i) : t.bucket i = [] := by
  rw [Table.bucket, List.getD_eq_getElem?_getD, List.getElem?_eq_none h]
  rfl

theorem flatten_eq_nil (hempty : ∀ i, t.bucket i = []) : t.table.flatten = [] := by
  rw [List.eq_nil_iff_forall_not_mem]
  intro e he
  obtain ⟨i, hi⟩ := mem_flatten_iff_getD.1 he
  have hnil := hempty i
  rw [Table.bucket] at hnil
  rw [hnil] at hi
  cases hi

/-- An entry is in the bucket of its hash and in no other. -/
theorem mem_flatten_iff (h : t.Valid hashFunction) {e : K × V} :
    e ∈ t.table.flatten ↔ e ∈ t.bucket (index hashFunction t e.1) := by
  rw [mem_flatten_iff_getD]
  constructor
  · rintro ⟨i, hi⟩
    rw [h.placed i e hi]
    exact hi
  · intro he
    exact ⟨_, he⟩

/-- **A table with one bucket set is valid** if the bucket gets entries that belong there. -/
theorem Table.Valid.set (h : t.Valid hashFunction) (hi : i < t.size) {b : List (K × V)} {used : ℕ}
    (hb : ∀ e ∈ b, index hashFunction t e.1 = i) (hused : used + (t.bucket i).length = t.used + b.length) :
    (⟨t.table.set i b, used⟩ : Table K V).Valid hashFunction := by
  have hsize : (⟨t.table.set i b, used⟩ : Table K V).size = t.size := List.length_set
  refine ⟨by rw [hsize]; exact h.size, fun j e he => ?_, ?_⟩
  · rw [index_congr hsize]
    rw [Table.bucket, getD_set hi] at he
    split_ifs at he with hj
    · rw [hj]; exact hb e he
    · exact h.placed j e he
  · have hlen := (flatten_set_perm hi b).length_eq
    rw [List.length_append, List.length_append, ← h.used] at hlen
    change used = (t.table.set i b).flatten.length
    change _ + (t.bucket i).length = _ at hlen
    omega

theorem length_bucket_le (h : t.Valid hashFunction) (hi : i < t.size) : (t.bucket i).length ≤ t.used := by
  have hlen := (flatten_set_perm hi ([] : List (K × V))).length_eq
  rw [List.append_nil, List.length_append, ← h.used] at hlen
  change _ + (t.bucket i).length = _ at hlen
  omega

/-! ## Setting a bucket -/

variable {e : K × V}

theorem size_push (t : Table K V) (i : ℕ) (e : K × V) : (t.push i e).size = t.size := List.length_set

theorem Table.Valid.push (h : t.Valid hashFunction) (hsize : 0 < t.size)
    (hi : index hashFunction t e.1 = i) : (t.push i e).Valid hashFunction := by
  have hlt : i < t.size := by rw [← hi]; exact index_lt h hsize e.1
  refine h.set hlt (fun e' he' => ?_) (by rw [List.length_cons]; omega)
  rcases List.mem_cons.1 he' with rfl | he'
  · exact hi
  · exact h.placed i e' he'

theorem push_perm (hi : i < t.size) : (t.push i e).table.flatten.Perm (e :: t.table.flatten) := by
  have h := flatten_set_perm hi (e :: t.bucket i)
  rw [← List.perm_append_right_iff (t.bucket i)]
  exact h.trans (by rw [List.cons_append]; exact List.perm_middle)

/-- The entries of a list, pushed one by one. -/
theorem pushAll_spec (h : t.Valid hashFunction) (hsize : 0 < t.size) (es : List (K × V)) :
    let t' := es.foldl (fun t e => t.push (index hashFunction t e.1) e) t
    t'.Valid hashFunction ∧ t'.size = t.size ∧ t'.table.flatten.Perm (es ++ t.table.flatten) := by
  induction es generalizing t with
  | nil => exact ⟨h, rfl, List.Perm.refl _⟩
  | cons e es ih =>
    have hv := h.push hsize (e := e) rfl
    have hs := size_push t (index hashFunction t e.1) e
    obtain ⟨h1, h2, h3⟩ := ih hv (by omega)
    refine ⟨h1, h2.trans hs, h3.trans ?_⟩
    exact ((push_perm (index_lt h hsize e.1)).append_left es).trans List.perm_middle

section

variable [DecidableEq K] {key : K} {v : V}

theorem find_eq_some_iff (h : t.Valid hashFunction) (hnodup : (t.table.flatten.map Prod.fst).Nodup) :
    t.find (index hashFunction t key) key = some v ↔ (key, v) ∈ t.table.flatten := by
  have hsub := (getD_sublist_flatten t.table (index hashFunction t key)).map Prod.fst
  rw [mem_flatten_iff h]
  exact ((lists_lookup (hnodup.sublist hsub)).mem_iff key v).symm

theorem lt_size_of_find (h : t.find i key = some v) : i < t.size := by
  by_contra hi
  rw [Table.find, bucket_eq_nil (by omega)] at h
  cases h

theorem index_of_find (h : t.Valid hashFunction) (hf : t.find i key = some v) : index hashFunction t key = i :=
  h.placed i (key, v) ((perm_of_lookup hf).mem_iff.2 List.mem_cons_self)

theorem length_eraseP_of_find (hf : t.find i key = some v) :
    ((t.bucket i).eraseP fun e => e.1 = key).length + 1 = (t.bucket i).length := by
  rw [(perm_of_lookup hf).length_eq, List.length_cons]

theorem Table.Valid.setVal (h : t.Valid hashFunction) (hf : t.find i key = some v) (w : V) :
    (t.setVal i key w).Valid hashFunction := by
  refine h.set (lt_size_of_find hf) (fun e he => ?_) ?_
  · rcases List.mem_cons.1 ((replaceF_perm hf w).mem_iff.1 he) with rfl | he
    · exact index_of_find h hf
    · exact h.placed i e (List.mem_of_mem_eraseP he)
  · rw [(replaceF_perm hf w).length_eq, List.length_cons, length_eraseP_of_find hf]

theorem Table.Valid.unlink (h : t.Valid hashFunction) (hf : t.find i key = some v) :
    (t.unlink i key).Valid hashFunction := by
  have hlt := lt_size_of_find hf
  have hle := length_bucket_le h hlt
  have hlen := length_eraseP_of_find hf
  exact h.set hlt (fun e he => h.placed i e (List.mem_of_mem_eraseP he)) (by omega)

/-- The entry that is found, and what else a table has. -/
theorem unlink_perm (hf : t.find i key = some v) :
    t.table.flatten.Perm ((key, v) :: (t.unlink i key).table.flatten) := by
  have h := flatten_set_perm (lt_size_of_find hf) ((t.bucket i).eraseP fun e => e.1 = key)
  rw [← List.perm_append_right_iff ((t.bucket i).eraseP fun e => e.1 = key)]
  refine h.symm.trans ?_
  exact ((perm_of_lookup hf).append_left _).trans List.perm_middle

theorem setVal_perm (hf : t.find i key = some v) (w : V) :
    (t.setVal i key w).table.flatten.Perm ((key, w) :: (t.unlink i key).table.flatten) := by
  have h := flatten_set_perm (lt_size_of_find hf)
    ((t.bucket i).replaceF fun e => if e.1 = key then some (e.1, w) else none)
  rw [← List.perm_append_right_iff (t.bucket i)]
  refine h.trans ?_
  refine (((unlink_perm hf).append_right _).trans ?_)
  refine (((replaceF_perm hf w).append_left _).trans ?_)
  rw [List.cons_append, List.cons_append]
  refine (List.perm_middle.cons _).trans ((List.Perm.swap _ _ _).trans (List.Perm.cons _ ?_))
  exact List.perm_middle.symm.trans ((perm_of_lookup hf).symm.append_left _)

end

/-! ## Two tables -/

variable {d d' : Dict K V} {idx : ℕ}

/-- What the two tables have. -/
def Dict.toList (d : Dict K V) : List (K × V) := d.ht0.table.flatten ++ d.ht1.table.flatten

/-- **The tables of a dict that is rehashing**, up to the bucket `idx`. -/
structure Dict.Moving (d : Dict K V) (idx : ℕ) : Prop where
  size0 : 0 < d.ht0.size
  size1 : 0 < d.ht1.size
  le_size : idx ≤ d.ht0.size
  empty : ∀ j < idx, d.ht0.bucket j = []

variable (hashFunction) in
/-- **A dict as the code keeps it.** While it is rehashing, the buckets of `ht[0]` below
`rehashidx` are empty; else there is no `ht[1]`. No key is there twice. -/
structure Dict.Valid (d : Dict K V) : Prop where
  ht0 : d.ht0.Valid hashFunction
  ht1 : d.ht1.Valid hashFunction
  idle : d.rehashidx = none → d.ht1 = .reset
  moving : ∀ idx, d.rehashidx = some idx → d.Moving idx
  nodup : (d.toList.map Prod.fst).Nodup

theorem valid_create : (Dict.create : Dict K V).Valid hashFunction :=
  ⟨valid_reset, valid_reset, fun _ => rfl, fun idx h => by simp [Dict.create] at h, List.nodup_nil⟩

theorem size_eq_length (h : d.Valid hashFunction) : d.size = d.toList.length := by
  rw [Dict.size, Dict.toList, List.length_append, ← h.ht0.used, ← h.ht1.used]

theorem Dict.Valid.nodup0 (h : d.Valid hashFunction) : (d.ht0.table.flatten.map Prod.fst).Nodup :=
  h.nodup.sublist ((List.sublist_append_left _ _).map _)

theorem Dict.Valid.nodup1 (h : d.Valid hashFunction) : (d.ht1.table.flatten.map Prod.fst).Nodup :=
  h.nodup.sublist ((List.sublist_append_right _ _).map _)

/-- A dict of the same entries, with the key constraint for free. -/
theorem Dict.Valid.of_perm (h : d.Valid hashFunction) (hp : d'.toList.Perm d.toList)
    (h0 : d'.ht0.Valid hashFunction) (h1 : d'.ht1.Valid hashFunction)
    (hidle : d'.rehashidx = none → d'.ht1 = .reset) (hmoving : ∀ idx, d'.rehashidx = some idx → d'.Moving idx) :
    d'.Valid hashFunction :=
  ⟨h0, h1, hidle, hmoving, (hp.map Prod.fst).nodup_iff.2 h.nodup⟩

/-! ## Rehashing -/

/-- What the skipping of empty buckets gives. -/
theorem skipEmpty_spec (t : Table K V) (visits idx : ℕ) :
    idx ≤ (skipEmpty t visits idx).1 ∧ (∀ j, idx ≤ j → j < (skipEmpty t visits idx).1 → t.bucket j = []) ∧
      (skipEmpty t visits idx).1 + (skipEmpty t visits idx).2 = idx + visits := by
  induction visits generalizing idx with
  | zero => exact ⟨Nat.le_refl _, fun j h1 h2 => absurd h2 (by simp only [skipEmpty]; omega), rfl⟩
  | succ visits ih =>
    unfold skipEmpty
    split_ifs with hb
    · obtain ⟨h1, h2, h3⟩ := ih (idx + 1)
      refine ⟨by omega, fun j hj hlt => ?_, by omega⟩
      by_cases hj' : j = idx
      · rw [hj']; exact List.isEmpty_iff.1 hb
      · exact h2 j (by omega) hlt
    · exact ⟨Nat.le_refl _, fun j h1 h2 => absurd h2 (by simp only; omega), rfl⟩

/-- Moving a bucket, as one change of each table. -/
theorem moveBucket_eq (d : Dict K V) (idx : ℕ) :
    d.moveBucket hashFunction idx =
      { d with
        ht0 := ⟨d.ht0.table.set idx [], d.ht0.used - (d.ht0.bucket idx).length⟩
        ht1 := (d.ht0.bucket idx).foldl (fun t e => t.push (index hashFunction t e.1) e) d.ht1 } := by
  have hfold : ∀ (es : List (K × V)) (d : Dict K V), es.foldl (Dict.moveEntry hashFunction) d =
      { d with
        ht0 := { d.ht0 with used := d.ht0.used - es.length }
        ht1 := es.foldl (fun t e => t.push (index hashFunction t e.1) e) d.ht1 } := by
    intro es
    induction es with
    | nil => intro d; rfl
    | cons e es ih =>
      intro d
      rw [List.foldl_cons, ih, List.foldl_cons]
      simp only [Dict.moveEntry, newIndex_eq, List.length_cons, Nat.sub_sub, Nat.add_comm 1]
  rw [Dict.moveBucket, hfold]

/-- **A bucket is moved**: the entries stay, and one more bucket of `ht[0]` is empty. -/
theorem moveBucket_spec (h : ({ d with rehashidx := some idx } : Dict K V).Valid hashFunction)
    (hidx : idx < d.ht0.size) :
    ({ d.moveBucket hashFunction idx with rehashidx := some (idx + 1) } : Dict K V).Valid hashFunction ∧
      (d.moveBucket hashFunction idx).toList.Perm d.toList := by
  obtain ⟨hs0, hs1, -, hempty⟩ := h.moving idx rfl
  obtain ⟨hv1, hsize1, hperm1⟩ := pushAll_spec h.ht1 hs1 (d.ht0.bucket idx)
  have hle : (d.ht0.bucket idx).length ≤ d.ht0.used := length_bucket_le h.ht0 hidx
  have hv0 :
      (⟨d.ht0.table.set idx [], d.ht0.used - (d.ht0.bucket idx).length⟩ : Table K V).Valid hashFunction := by
    refine h.ht0.set hidx (fun e he => by cases he) ?_
    rw [List.length_nil]
    exact Nat.sub_add_cancel hle
  have hperm : (d.moveBucket hashFunction idx).toList.Perm d.toList := by
    rw [moveBucket_eq]
    have hset := flatten_set_perm hidx ([] : List (K × V))
    rw [List.append_nil] at hset
    refine (hperm1.append_left _).trans ?_
    rw [← List.append_assoc]
    exact hset.append_right _
  refine ⟨h.of_perm hperm ?_ ?_ (fun hnone => by cases hnone) ?_, hperm⟩
  · simp only [moveBucket_eq]; exact hv0
  · simp only [moveBucket_eq]; exact hv1
  · rintro j hj
    cases hj
    simp only [moveBucket_eq]
    have hsize0 : (d.ht0.table.set idx []).length = d.ht0.size := List.length_set
    refine ⟨?_, lt_of_lt_of_eq hs1 hsize1.symm, ?_, fun j hj => ?_⟩
    · exact lt_of_lt_of_eq hs0 hsize0.symm
    · change idx + 1 ≤ (d.ht0.table.set idx []).length
      omega
    · rw [Table.bucket, getD_set hidx]
      split_ifs with hji
      · rfl
      · exact hempty j (by omega)

theorem flatten_eq_nil_iff (h : t.Valid hashFunction) : t.table.flatten = [] ↔ t.used = 0 := by
  rw [h.used, List.length_eq_zero_iff]

/-- While `ht[0]` has entries, one of them is at the index or above. -/
theorem lt_size_of_used (h : t.Valid hashFunction) (hused : t.used ≠ 0) (hempty : ∀ j < idx, t.bucket j = []) :
    idx < t.size := by
  by_contra hlt
  refine hused ((flatten_eq_nil_iff h).1 (flatten_eq_nil fun j => ?_))
  by_cases hj : j < idx
  · exact hempty j hj
  · exact bucket_eq_nil (by omega)

/-- An index that is set while entries are left to move. -/
theorem Dict.Valid.skip (h : ({ d with rehashidx := some idx } : Dict K V).Valid hashFunction) {idx' : ℕ}
    (hused : d.ht0.used ≠ 0) (hskip : ∀ j, idx ≤ j → j < idx' → d.ht0.bucket j = []) :
    idx' < d.ht0.size ∧ ({ d with rehashidx := some idx' } : Dict K V).Valid hashFunction := by
  obtain ⟨hs0, hs1, -, hempty⟩ := h.moving idx rfl
  have hbelow : ∀ j < idx', d.ht0.bucket j = [] := by
    intro j hj
    by_cases hji : j < idx
    · exact hempty j hji
    · exact hskip j (by omega) hj
  have hlt : idx' < d.ht0.size := lt_size_of_used h.ht0 hused hbelow
  refine ⟨hlt, h.of_perm (List.Perm.refl _) h.ht0 h.ht1 (fun hnone => by cases hnone) ?_⟩
  rintro j hj
  cases hj
  exact ⟨hs0, hs1, Nat.le_of_lt hlt, hbelow⟩

/-- **What `dictRehash` leaves**: the same entries, and a rehashing that is over or has come
further, in tables of the same sizes. -/
structure Rehashed (hashFunction : K → UInt64) (idx : ℕ) (d d' : Dict K V) : Prop where
  valid : d'.Valid hashFunction
  perm : d'.toList.Perm d.toList
  iterators : d'.iterators = d.iterators
  progress : d'.rehashidx = none ∧ d'.ht0.size = d.ht1.size ∨
    ∃ idx', d'.rehashidx = some idx' ∧ idx ≤ idx' ∧ idx' < d.ht0.size ∧
      d'.ht0.size = d.ht0.size ∧ d'.ht1.size = d.ht1.size

theorem Rehashed.trans {d₁ d₂ d₃ : Dict K V} {idx₁ idx₂ : ℕ} (h : Rehashed hashFunction idx₂ d₂ d₃)
    (hle : idx₁ ≤ idx₂) (hperm : d₂.toList.Perm d₁.toList) (hit : d₂.iterators = d₁.iterators)
    (hs0 : d₂.ht0.size = d₁.ht0.size) (hs1 : d₂.ht1.size = d₁.ht1.size) : Rehashed hashFunction idx₁ d₁ d₃ := by
  refine ⟨h.valid, h.perm.trans hperm, h.iterators.trans hit, ?_⟩
  rw [← hs0, ← hs1]
  rcases h.progress with hdone | ⟨idx', hidx', hle', hrest⟩
  · exact Or.inl hdone
  · exact Or.inr ⟨idx', hidx', Nat.le_trans hle hle', hrest⟩

theorem finishRehash_done (h : ({ d with rehashidx := some idx } : Dict K V).Valid hashFunction)
    (hused : d.ht0.used = 0) (n : ℕ) : Rehashed hashFunction n d (d.finishRehash idx).2 := by
  have hnil : d.ht0.table.flatten = [] := (flatten_eq_nil_iff h.ht0).2 hused
  have hlist : ({ d with ht0 := d.ht1, ht1 := .reset, rehashidx := none } : Dict K V).toList = d.toList := by
    rw [Dict.toList, Dict.toList, hnil]
    exact List.append_nil _
  rw [Dict.finishRehash, if_pos hused]
  refine ⟨h.of_perm (by rw [hlist]; exact List.Perm.refl _) h.ht1 valid_reset (fun _ => rfl) ?_,
    by rw [hlist], rfl, Or.inl ⟨rfl, rfl⟩⟩
  intro j hj
  cases hj

theorem finishRehash_spec (h : ({ d with rehashidx := some idx } : Dict K V).Valid hashFunction) :
    Rehashed hashFunction idx d (d.finishRehash idx).2 := by
  by_cases hused : d.ht0.used = 0
  · exact finishRehash_done h hused idx
  · rw [Dict.finishRehash, if_neg hused]
    have hlt := lt_size_of_used h.ht0 hused (h.moving idx rfl).empty
    exact ⟨h, List.Perm.refl _, rfl, Or.inr ⟨idx, rfl, Nat.le_refl _, hlt, rfl, rfl⟩⟩

/-- The loop, where every round but none at all gets beyond the index. Its assertion holds: while
there are entries, the index is below the size. -/
theorem rehashLoop_spec (n : ℕ) {visits : ℕ} (hvisits : 0 < visits)
    (h : ({ d with rehashidx := some idx } : Dict K V).Valid hashFunction) :
    ∃ more d', d.rehashLoop hashFunction n visits idx = some (more, d') ∧
      Rehashed hashFunction (idx + min n 1) d d' := by
  induction n generalizing d visits idx with
  | zero => exact ⟨_, _, rfl, finishRehash_spec h⟩
  | succ n ih =>
    unfold Dict.rehashLoop
    by_cases hused : d.ht0.used = 0
    · rw [if_pos hused]
      exact ⟨_, _, rfl, finishRehash_done h hused _⟩
    · have hlt := lt_size_of_used h.ht0 hused (h.moving idx rfl).empty
      rw [if_neg hused, if_neg (Nat.not_le.2 hlt)]
      obtain ⟨h1, h2, h3⟩ := skipEmpty_spec d.ht0 visits idx
      generalize skipEmpty d.ht0 visits idx = r at h1 h2 h3
      obtain ⟨idx', left⟩ := r
      simp only at h1 h2 h3
      obtain ⟨hlt', hskip⟩ := h.skip hused h2
      cases left with
      | zero =>
        exact ⟨_, _, rfl, hskip, List.Perm.refl _, rfl, Or.inr ⟨idx', rfl, by omega, hlt', rfl, rfl⟩⟩
      | succ left =>
        obtain ⟨hv, hp⟩ := moveBucket_spec hskip hlt'
        have hs0 : (d.moveBucket hashFunction idx').ht0.size = d.ht0.size := by
          rw [moveBucket_eq]; exact List.length_set
        have hs1 : (d.moveBucket hashFunction idx').ht1.size = d.ht1.size := by
          rw [moveBucket_eq]
          exact (pushAll_spec h.ht1 (h.moving idx rfl).size1 _).2.1
        have hit : (d.moveBucket hashFunction idx').iterators = d.iterators := by rw [moveBucket_eq]
        obtain ⟨more, d', hloop, hr⟩ := ih (Nat.succ_pos left) hv
        exact ⟨more, d', hloop, hr.trans (by omega) hp hit hs0 hs1⟩

/-- **`dictRehash` on a dict that is rehashing.** -/
theorem rehash_spec (h : d.Valid hashFunction) (hidx : d.rehashidx = some idx) {n : ℕ} (hn : 0 < n) :
    ∃ more d', d.rehash hashFunction n = some (more, d') ∧ Rehashed hashFunction (idx + 1) d d' := by
  have hd : ({ d with rehashidx := some idx } : Dict K V).Valid hashFunction := by rw [← hidx]; exact h
  have hloop := rehashLoop_spec n (Nat.mul_pos hn (Nat.succ_pos 9)) hd
  rw [Nat.min_eq_right hn] at hloop
  rw [Dict.rehash, hidx]
  exact hloop

/-- **The same entries**, in a dict that is as the code keeps it. -/
structure Kept (hashFunction : K → UInt64) (d d' : Dict K V) : Prop where
  valid : d'.Valid hashFunction
  perm : d'.toList.Perm d.toList
  iterators : d'.iterators = d.iterators

theorem Kept.refl (h : d.Valid hashFunction) : Kept hashFunction d d := ⟨h, List.Perm.refl _, rfl⟩

theorem Kept.trans {d'' : Dict K V} (h : Kept hashFunction d d') (h' : Kept hashFunction d' d'') :
    Kept hashFunction d d'' :=
  ⟨h'.valid, h'.perm.trans h.perm, h'.iterators.trans h.iterators⟩

theorem Rehashed.kept {n : ℕ} (h : Rehashed hashFunction n d d') : Kept hashFunction d d' :=
  ⟨h.valid, h.perm, h.iterators⟩

theorem Kept.size_eq (h : d.Valid hashFunction) (hk : Kept hashFunction d d') : d'.size = d.size := by
  rw [size_eq_length hk.valid, size_eq_length h, hk.perm.length_eq]

theorem rehash_kept (h : d.Valid hashFunction) (n : ℕ) :
    ∃ more d', d.rehash hashFunction n = some (more, d') ∧ Kept hashFunction d d' := by
  cases hidx : d.rehashidx with
  | none =>
    rw [Dict.rehash, hidx]
    exact ⟨_, d, rfl, Kept.refl h⟩
  | some idx =>
    cases n with
    | zero =>
      have hd : ({ d with rehashidx := some idx } : Dict K V).Valid hashFunction := by rw [← hidx]; exact h
      rw [Dict.rehash, hidx]
      exact ⟨_, _, rfl, (finishRehash_spec hd).kept⟩
    | succ n =>
      obtain ⟨more, d', hrun, hr⟩ := rehash_spec h hidx (Nat.succ_pos n)
      exact ⟨more, d', hrun, hr.kept⟩

theorem rehashStep_kept (h : d.Valid hashFunction) :
    ∃ d', d.rehashStep hashFunction = some d' ∧ Kept hashFunction d d' := by
  unfold Dict.rehashStep
  split_ifs
  · obtain ⟨more, d', hrun, hk⟩ := rehash_kept h 1
    exact ⟨d', by rw [hrun]; rfl, hk⟩
  · exact ⟨d, rfl, Kept.refl h⟩

/-! ## Expanding -/

theorem nextPowerFrom_spec (size n : ℕ) : ∃ k, n ≤ k ∧ nextPowerFrom (2 ^ n) size = 2 ^ k ∧ size ≤ 2 ^ k ∧
    (k = n ∨ 2 ^ k < 2 * size) := by
  -- the distance to the size shrinks with every doubling
  induction hm : size - 2 ^ n using Nat.strongRecOn generalizing n with
  | ind m ih =>
    have hpos := Nat.two_pow_pos n
    rw [nextPowerFrom]
    by_cases hle : size ≤ 2 ^ n
    · rw [if_pos (Or.inr hle)]
      exact ⟨n, Nat.le_refl n, rfl, hle, Or.inl rfl⟩
    · rw [if_neg (by omega), ← Nat.pow_succ]
      obtain ⟨k, hk, heq, hsize, hmin⟩ := ih (size - 2 ^ (n + 1)) (by rw [Nat.pow_succ]; omega) (n + 1) rfl
      refine ⟨k, by omega, heq, hsize, Or.inr ?_⟩
      rcases hmin with rfl | hmin
      · rw [Nat.pow_succ]; omega
      · exact hmin

/-- **The next power of two** from 4 on. -/
theorem nextPower_spec (size : ℕ) : ∃ k, 2 ≤ k ∧ k ≤ 63 ∧ nextPower size = 2 ^ k ∧
    (size < longMax → size ≤ 2 ^ k ∧ (k = 2 ∨ 2 ^ k < 2 * size)) := by
  unfold nextPower
  split_ifs with hbig
  · exact ⟨63, by decide, Nat.le_refl _, rfl, fun h => absurd h (by omega)⟩
  · obtain ⟨k, hk, heq, hsize, hmin⟩ := nextPowerFrom_spec size 2
    refine ⟨k, hk, ?_, heq, fun _ => ⟨hsize, hmin⟩⟩
    by_contra hlt
    have hpow : 2 ^ 64 ≤ 2 ^ k := Nat.pow_le_pow_right (by decide) (by omega)
    unfold longMax at hbig
    rcases hmin with rfl | hmin <;> omega

/-- **`dictExpand`**: an empty table is added, and `ht[0]` stays unless there is none. -/
theorem expand_spec (h : d.Valid hashFunction) {n : ℕ} (hd : d.expand n = some d') :
    Kept hashFunction d d' ∧ d.rehashidx = none ∧ nextPower n ≠ d.ht0.size ∧
      (d' = { d with ht0 := .calloc (nextPower n) } ∧ d.ht0.size = 0 ∨
        d' = { d with ht1 := .calloc (nextPower n), rehashidx := some 0 } ∧ 0 < d.ht0.size) := by
  obtain ⟨k, hk2, hk63, hpow, -⟩ := nextPower_spec n
  have hcalloc : (Table.calloc (nextPower n) : Table K V).Valid hashFunction := valid_calloc hpow hk2 hk63
  have hpos : 0 < nextPower n := by rw [hpow]; exact Nat.two_pow_pos k
  unfold Dict.expand at hd
  simp only at hd
  split_ifs at hd with h1 h2 h3
  · cases hd
    have hidle : d.rehashidx = none := by
      rw [not_or, Dict.isRehashing, Option.not_isSome_iff_eq_none] at h1
      exact h1.1
    have hnil : d.ht0.table.flatten = [] := by
      rw [List.length_eq_zero_iff.1 h3]
      rfl
    have hlist : ({ d with ht0 := .calloc (nextPower n) } : Dict K V).toList.Perm d.toList := by
      rw [Dict.toList, Dict.toList, flatten_calloc, hnil]
    refine ⟨⟨h.of_perm hlist hcalloc h.ht1 h.idle ?_, hlist, rfl⟩, hidle, h2, Or.inl ⟨rfl, h3⟩⟩
    intro idx hidx
    rw [hidle] at hidx
    cases hidx
  · cases hd
    have hidle : d.rehashidx = none := by
      rw [not_or, Dict.isRehashing, Option.not_isSome_iff_eq_none] at h1
      exact h1.1
    have hlist :
        ({ d with ht1 := .calloc (nextPower n), rehashidx := some 0 } : Dict K V).toList.Perm d.toList := by
      rw [Dict.toList, Dict.toList, flatten_calloc, h.idle hidle]
      exact List.Perm.refl _
    refine ⟨⟨h.of_perm hlist h.ht0 hcalloc (fun hnone => by cases hnone) ?_, hlist, rfl⟩, hidle, h2,
      Or.inr ⟨rfl, Nat.pos_of_ne_zero h3⟩⟩
    intro idx hidx
    cases hidx
    refine ⟨Nat.pos_of_ne_zero h3, ?_, Nat.zero_le _, fun j hj => by omega⟩
    change 0 < (Table.calloc (nextPower n) : Table K V).size
    rw [size_calloc]
    exact hpos

theorem expand_isSome (hidle : d.rehashidx = none) {n : ℕ} (hused : d.ht0.used ≤ n)
    (hne : nextPower n ≠ d.ht0.size) : ∃ d', d.expand n = some d' := by
  unfold Dict.expand
  simp only
  rw [if_neg (by rw [Dict.isRehashing, hidle]; simpa using hused), if_neg hne]
  split_ifs
  · exact ⟨_, rfl⟩
  · exact ⟨_, rfl⟩

/-- **What `_dictExpandIfNeeded` does**: nothing, a first table, or a second one. It fails
only on tables that are too large. -/
theorem expandIfNeeded_spec (canResize : Bool) (h : d.Valid hashFunction) (hsmall : d.size < 2 ^ 61) :
    ∃ d', d.expandIfNeeded canResize = some d' ∧ Kept hashFunction d d' ∧
      (d' = d ∧ 0 < d.ht0.size ∧ (d.rehashidx = none → canResize = true → d.ht0.used < d.ht0.size) ∨
        d.rehashidx = none ∧ d.ht0.size = 0 ∧ d' = { d with ht0 := .calloc 4 } ∨
        d.rehashidx = none ∧ 0 < d.ht0.size ∧ d.ht0.size ≤ d.ht0.used ∧
          d' = { d with ht1 := .calloc (nextPower (d.ht0.used * 2)), rehashidx := some 0 }) := by
  have hused : d.ht0.used < 2 ^ 61 := Nat.lt_of_le_of_lt (Nat.le_add_right _ _) hsmall
  unfold Dict.expandIfNeeded
  split_ifs with h1 h2 h3
  · obtain ⟨idx, hidx⟩ := Option.isSome_iff_exists.1 h1
    refine ⟨d, rfl, Kept.refl h, Or.inl ⟨rfl, (h.moving idx hidx).size0, fun hnone => ?_⟩⟩
    rw [hidx] at hnone
    cases hnone
  · have hidle : d.rehashidx = none := by
      rwa [Dict.isRehashing, Option.not_isSome_iff_eq_none] at h1
    have hnone : d.ht0.used = 0 := by
      rw [h.ht0.used, List.length_eq_zero_iff.1 h2]
      rfl
    have hpow : nextPower initialSize = 4 := by decide +kernel
    obtain ⟨d', hd'⟩ := expand_isSome (n := initialSize) hidle (by omega) (by rw [hpow]; omega)
    obtain ⟨hkept, -, -, hcases⟩ := expand_spec h hd'
    rw [hpow] at hcases
    refine ⟨d', hd', hkept, Or.inr (Or.inl ⟨hidle, h2, ?_⟩)⟩
    rcases hcases with ⟨hd, -⟩ | ⟨-, hpos⟩
    · exact hd
    · omega
  · have hidle : d.rehashidx = none := by
      rwa [Dict.isRehashing, Option.not_isSome_iff_eq_none] at h1
    have hne : nextPower (d.ht0.used * 2) ≠ d.ht0.size := by
      obtain ⟨k, -, -, hpow, hle⟩ := nextPower_spec (d.ht0.used * 2)
      have hle := (hle (by unfold longMax; omega)).1
      omega
    obtain ⟨d', hd'⟩ := expand_isSome (n := d.ht0.used * 2) hidle (by omega) hne
    obtain ⟨hkept, -, -, hcases⟩ := expand_spec h hd'
    refine ⟨d', hd', hkept, Or.inr (Or.inr ⟨hidle, Nat.pos_of_ne_zero h2, h3.1, ?_⟩)⟩
    rcases hcases with ⟨-, hzero⟩ | ⟨hd, -⟩
    · exact absurd hzero h2
    · exact hd
  · refine ⟨d, rfl, Kept.refl h, Or.inl ⟨rfl, Nat.pos_of_ne_zero h2, fun _ hc => ?_⟩⟩
    by_contra hge
    exact h3 ⟨by omega, Or.inl hc⟩

theorem resize_kept (canResize : Bool) (h : d.Valid hashFunction) :
    Kept hashFunction d ((d.resize canResize).getD d) := by
  unfold Dict.resize
  split_ifs
  · exact Kept.refl h
  all_goals
    cases he : d.expand _ with
    | none => exact Kept.refl h
    | some d' => exact (expand_spec h he).1

theorem Dict.Valid.setIterators (h : d.Valid hashFunction) (n : ℕ) :
    ({ d with iterators := n } : Dict K V).Valid hashFunction :=
  ⟨h.ht0, h.ht1, h.idle, fun idx hidx => ⟨(h.moving idx hidx).size0, (h.moving idx hidx).size1,
    (h.moving idx hidx).le_size, (h.moving idx hidx).empty⟩, h.nodup⟩

/-! ## Iterators -/

/-- What an iterator has still to give. -/
def Iterator.remaining (d : Dict K V) (it : Iterator K V) : List (K × V) :=
  it.pending ++ if it.second then (d.ht1.table.drop it.index).flatten
    else (d.ht0.table.drop it.index).flatten ++ if d.isRehashing then d.ht1.table.flatten else []

theorem flatten_drop (t : Table K V) (i : ℕ) :
    (t.table.drop i).flatten = t.bucket i ++ (t.table.drop (i + 1)).flatten := by
  by_cases hi : i < t.table.length
  · rw [List.drop_eq_getElem_cons hi, List.flatten_cons, Table.bucket,
      List.getD_eq_getElem?_getD, List.getElem?_eq_getElem hi, Option.getD_some]
  · rw [List.drop_eq_nil_of_le (by omega), List.drop_eq_nil_of_le (by omega), bucket_eq_nil (Nat.le_of_not_lt hi)]
    rfl

/-- `dictNext` gives the first of them. -/
theorem next_spec (d : Dict K V) (it : Iterator K V) :
    (it.next d = none ∧ it.remaining d = []) ∨
      ∃ e it', it.next d = some (e, it') ∧ it.remaining d = e :: it'.remaining d := by
  fun_induction Iterator.next d it with
  | case1 it e rest hp =>
    refine Or.inr ⟨e, _, rfl, ?_⟩
    rw [Iterator.remaining, Iterator.remaining, hp]
    rfl
  | case2 it hp hs hi ih =>
    have hrem : it.remaining d = Iterator.remaining d ⟨true, it.index + 1, d.ht1.bucket it.index⟩ := by
      simp only [Iterator.remaining, hp, hs, if_true, List.nil_append]
      exact flatten_drop _ _
    rw [hrem]
    exact ih
  | case3 it hp hs hi =>
    refine Or.inl ⟨rfl, ?_⟩
    rw [Iterator.remaining, hp, if_pos hs, List.drop_eq_nil_of_le (Nat.le_of_not_lt hi)]
    rfl
  | case4 it hp hs hi ih =>
    have hrem : it.remaining d = Iterator.remaining d ⟨false, it.index + 1, d.ht0.bucket it.index⟩ := by
      simp only [Iterator.remaining, hp, hs, List.nil_append, Bool.false_eq_true, if_false,
        flatten_drop _ it.index, List.append_assoc]
    rw [hrem]
    exact ih
  | case5 it hp hs hi hr ih =>
    have hrem : it.remaining d = Iterator.remaining d ⟨true, 1, d.ht1.bucket 0⟩ := by
      simp only [Iterator.remaining, hp, hs, hr, List.nil_append, Bool.false_eq_true, if_false, if_true]
      rw [List.drop_eq_nil_of_le (Nat.le_of_not_lt hi), List.flatten_nil, List.nil_append]
      exact flatten_drop d.ht1 0
    rw [hrem]
    exact ih
  | case6 it hp hs hi hr =>
    refine Or.inl ⟨rfl, ?_⟩
    rw [Iterator.remaining, hp, if_neg hs, if_neg hr, List.drop_eq_nil_of_le (Nat.le_of_not_lt hi)]
    rfl

theorem collect_eq (d : Dict K V) {n : ℕ} {it : Iterator K V} (hn : (it.remaining d).length < n) :
    Iterator.collect d n it = it.remaining d := by
  induction n generalizing it with
  | zero => omega
  | succ n ih =>
    unfold Iterator.collect
    rcases next_spec d it with ⟨hnext, hrem⟩ | ⟨e, it', hnext, hrem⟩
    · rw [hnext, hrem]
    · rw [hrem, List.length_cons] at hn
      rw [hnext, hrem]
      exact congrArg (e :: ·) (ih (by omega))

/-- **An iterator gives every entry once.** -/
theorem entries_eq (h : d.Valid hashFunction) : d.entries = d.toList := by
  have hrem : Iterator.remaining d ⟨false, 0, []⟩ = d.toList := by
    simp only [Iterator.remaining, Dict.toList, Bool.false_eq_true, if_false, List.nil_append, List.drop_zero]
    by_cases hr : d.isRehashing = true
    · rw [if_pos hr]
    · rw [if_neg hr]
      rw [Dict.isRehashing, Option.not_isSome_iff_eq_none] at hr
      rw [h.idle hr]
      rfl
  rw [Dict.entries, collect_eq d (by rw [hrem, size_eq_length h]; omega), hrem]

end Coms4111.Server
