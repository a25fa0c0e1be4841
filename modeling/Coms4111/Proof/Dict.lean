import Coms4111.Proof.Rehash
import Coms4111.Store.Refinement

/-!
# A dict is a map

Each operation finds, adds, changes or removes the entry of its key, wherever the rehashing
has come (`add_spec`, `replace_spec`, `find_spec`, `delete_spec`).

* `dict_refines_map`: along every run, the operations return what they would on a map, and
  an iterator gives the pairs of the map.
-/

namespace Coms4111.Server

open Store

variable {K V : Type} {hashFunction : K → UInt64} {t : Table K V} {i : ℕ} {d d' : Dict K V}

/-! ## Operations -/

theorem not_mem_ht1 (h : d.Valid hashFunction) (hidle : d.rehashidx = none) (e : K × V) :
    e ∉ d.ht1.table.flatten := by
  rw [h.idle hidle]
  exact List.not_mem_nil

variable {m : K → Option V} {key : K} {val w : V}

/-- Unlinking or changing an entry empties no more buckets than were. -/
theorem bucket_set_nil (hi : i < t.size) {b : List (K × V)} {used : ℕ} (hb : b = [] ∨ t.bucket i ≠ []) {j : ℕ}
    (hj : t.bucket j = []) : (⟨t.table.set i b, used⟩ : Table K V).bucket j = [] := by
  rw [Table.bucket, getD_set hi]
  split_ifs with hji
  · rcases hb with rfl | hb
    · rfl
    · exact absurd (hji ▸ hj) hb
  · exact hj

/-- A dict of which one table is exchanged, with the entries it lists then. -/
theorem Dict.Valid.exchange0 (h : d.Valid hashFunction) {t' : Table K V} (ht : t'.Valid hashFunction)
    (hsize : t'.size = d.ht0.size) (hempty : ∀ j, d.ht0.bucket j = [] → t'.bucket j = [])
    (hm : Lists ({ d with ht0 := t' } : Dict K V).toList m) :
    ({ d with ht0 := t' } : Dict K V).Valid hashFunction := by
  refine ⟨ht, h.ht1, h.idle, fun idx hidx => ?_, hm.nodup⟩
  obtain ⟨h0, h1, hle, he⟩ := h.moving idx hidx
  exact ⟨lt_of_lt_of_eq h0 hsize.symm, h1, by rw [hsize]; exact hle, fun j hj => hempty j (he j hj)⟩

theorem Dict.Valid.exchange1 (h : d.Valid hashFunction) (hr : d.isRehashing = true) {t' : Table K V}
    (ht : t'.Valid hashFunction) (hsize : t'.size = d.ht1.size)
    (hm : Lists ({ d with ht1 := t' } : Dict K V).toList m) :
    ({ d with ht1 := t' } : Dict K V).Valid hashFunction := by
  obtain ⟨idx, hidx⟩ := Option.isSome_iff_exists.1 hr
  refine ⟨h.ht0, ht, fun hnone => ?_, fun idx' hidx' => ?_, hm.nodup⟩
  · rw [hidx] at hnone
    cases hnone
  · obtain ⟨h0, h1, hle, he⟩ := h.moving idx' hidx'
    exact ⟨h0, lt_of_lt_of_eq h1 hsize.symm, hle, he⟩

variable (hashFunction) in
/-- **The dict holds the map**, and has room for `n` more keys. -/
def HoldsFor (n : ℕ) (s : DictState K V) (m : K → Option V) : Prop :=
  s.dict.Valid hashFunction ∧ Lists s.dict.toList m ∧ s.dict.size + n ≤ 2 ^ 30

theorem HoldsFor.kept {n : ℕ} {s : DictState K V} {c : Bool} (h : HoldsFor hashFunction (n + 1) s m)
    (hk : Kept hashFunction s.dict d) : HoldsFor hashFunction n ⟨d, c⟩ m := by
  obtain ⟨hv, hl, hn⟩ := h
  refine ⟨hk.valid, hl.perm hk.perm.symm, ?_⟩
  have hsize : d.size = s.dict.size := hk.size_eq hv
  change d.size + n ≤ 2 ^ 30
  omega

theorem holdsFor_start : HoldsFor hashFunction (2 ^ 30) (DictState.start : DictState K V) fun _ => none :=
  ⟨valid_create, Lists.nil, by rw [Dict.size]; simp [DictState.start, Dict.create, Table.reset]⟩

variable [DecidableEq K]

/-- **The loop over the tables finds what there is.** -/
theorem lookup_eq (h : d.Valid hashFunction) (hm : Lists d.toList m) (key : K) :
    d.lookup hashFunction key = m key := by
  refine Option.ext fun v => ?_
  rw [← hm.mem_iff, Dict.toList, List.mem_append, ← find_eq_some_iff h.ht0 h.nodup0]
  unfold Dict.lookup
  cases hf : d.ht0.find (index hashFunction d.ht0 key) key with
  | some v' =>
    -- a key that is in the first table is not in the second
    have hmem : (key, v') ∈ d.ht0.table.flatten := (find_eq_some_iff h.ht0 h.nodup0).1 hf
    have hnot : (key, v) ∉ d.ht1.table.flatten := by
      intro hmem1
      have hdisj := List.disjoint_of_nodup_append (by rw [← List.map_append]; exact h.nodup)
      exact hdisj (List.mem_map.2 ⟨_, hmem, rfl⟩) (List.mem_map.2 ⟨_, hmem1, rfl⟩)
    simp only [hnot, or_false]
  | none =>
    simp only [reduceCtorEq, false_or]
    by_cases hr : d.isRehashing = true
    · rw [if_pos hr]
      exact find_eq_some_iff h.ht1 h.nodup1
    · rw [if_neg hr]
      rw [Dict.isRehashing, Option.not_isSome_iff_eq_none] at hr
      simp only [reduceCtorEq, not_mem_ht1 h hr]

/-- **`dictFind`** finds the key. -/
theorem find_spec (h : d.Valid hashFunction) (hm : Lists d.toList m) (key : K) :
    ∃ d', d.find hashFunction key = some (m key, d') ∧ Kept hashFunction d d' := by
  unfold Dict.find
  by_cases hempty : d.ht0.used + d.ht1.used = 0
  · have hnil : d.toList = [] := by
      rw [← List.length_eq_zero_iff, ← size_eq_length h]
      exact hempty
    have hnone : m key = none := by
      rw [← hm.lookup_eq, hnil]
      rfl
    rw [if_pos hempty, hnone]
    exact ⟨d, rfl, Kept.refl h⟩
  · obtain ⟨d', hstep, hk⟩ := rehashStep_kept h
    rw [if_neg hempty, hstep, ← lookup_eq hk.valid (hm.perm hk.perm.symm) key]
    exact ⟨d', rfl, hk⟩

/-- An entry for a new key, in the table that takes new entries. -/
theorem Dict.Valid.pushNew (h : d.Valid hashFunction) (hm : Lists d.toList m) (hkey : m key = none)
    (hsize : 0 < d.ht0.size) (val : V) :
    let d' := if d.isRehashing then { d with ht1 := d.ht1.push (index hashFunction d.ht1 key) (key, val) }
      else { d with ht0 := d.ht0.push (index hashFunction d.ht0 key) (key, val) }
    d'.Valid hashFunction ∧ Lists d'.toList (Function.update m key (some val)) := by
  have hcons := hm.cons hkey val
  by_cases hr : d.isRehashing = true
  · obtain ⟨idx, hidx⟩ := Option.isSome_iff_exists.1 hr
    have hmov := h.moving idx hidx
    have hperm : ({ d with ht1 := d.ht1.push (index hashFunction d.ht1 key) (key, val) } : Dict K V).toList.Perm
        ((key, val) :: d.toList) :=
      ((push_perm (index_lt h.ht1 hmov.size1 key)).append_left _).trans List.perm_middle
    have hl := hcons.perm hperm.symm
    simp only [hr, if_true]
    refine ⟨⟨h.ht0, h.ht1.push hmov.size1 rfl, fun hnone => ?_, fun idx' hidx' => ?_, hl.nodup⟩, hl⟩
    · rw [hidx] at hnone
      cases hnone
    · have hmov' := h.moving idx' hidx'
      exact ⟨hmov'.size0, by rw [size_push]; exact hmov'.size1, hmov'.le_size, hmov'.empty⟩
  · have hidle : d.rehashidx = none := by rwa [Dict.isRehashing, Option.not_isSome_iff_eq_none] at hr
    have hperm : ({ d with ht0 := d.ht0.push (index hashFunction d.ht0 key) (key, val) } : Dict K V).toList.Perm
        ((key, val) :: d.toList) :=
      (push_perm (index_lt h.ht0 hsize key)).append_right _
    have hl := hcons.perm hperm.symm
    simp only [hr]
    refine ⟨⟨h.ht0.push hsize rfl, h.ht1, h.idle, fun idx' hidx' => ?_, hl.nodup⟩, hl⟩
    rw [hidle] at hidx'
    cases hidx'

/-- **`dictAdd`** takes a key that is new. -/
theorem add_spec (canResize : Bool) (h : d.Valid hashFunction) (hm : Lists d.toList m) (hsmall : d.size < 2 ^ 61)
    (key : K) (val : V) :
    ∃ d', d.add hashFunction canResize key val = some ((m key).isNone, d') ∧ d'.Valid hashFunction ∧
      Lists d'.toList (if m key = none then Function.update m key (some val) else m) := by
  obtain ⟨d₁, hstep, hk⟩ := rehashStep_kept h
  obtain ⟨d', hd', hk', hcases⟩ := expandIfNeeded_spec canResize hk.valid (by rw [hk.size_eq h]; exact hsmall)
  have hm' : Lists d'.toList m := (hm.perm hk.perm.symm).perm hk'.perm.symm
  have hsize : 0 < d'.ht0.size := by
    rcases hcases with ⟨rfl, hpos, -⟩ | ⟨-, -, rfl⟩ | ⟨-, hpos, -, rfl⟩
    · exact hpos
    · exact Nat.succ_pos 3
    · exact hpos
  unfold Dict.add Dict.keyIndex
  simp only [hstep, Option.bind_eq_bind, Option.bind_some, hd', lookup_eq hk'.valid hm']
  cases hkey : m key with
  | some v =>
    simp only [Option.isNone_some, reduceCtorEq, if_false]
    exact ⟨d', rfl, hk'.valid, hm'⟩
  | none =>
    obtain ⟨hv, hl⟩ := hk'.valid.pushNew hm' hkey hsize val
    by_cases hr : d'.isRehashing = true
    · simp only [hr, if_true, Option.isNone_none] at hv hl ⊢
      exact ⟨_, rfl, hv, hl⟩
    · simp only [hr, Bool.false_eq_true, if_true, if_false, Option.isNone_none] at hv hl ⊢
      exact ⟨_, rfl, hv, hl⟩

/-- Where a key is found: in the bucket of its hash, in one of the tables. -/
theorem find_cases (h : d.Valid hashFunction) (hm : Lists d.toList m) (hkey : m key = some val) :
    d.ht0.find (index hashFunction d.ht0 key) key = some val ∨
      d.ht0.find (index hashFunction d.ht0 key) key = none ∧ d.isRehashing = true ∧
        d.ht1.find (index hashFunction d.ht1 key) key = some val := by
  have hl := lookup_eq h hm key
  rw [hkey, Dict.lookup] at hl
  cases hf : d.ht0.find (index hashFunction d.ht0 key) key with
  | some v =>
    rw [hf] at hl
    exact Or.inl hl
  | none =>
    rw [hf] at hl
    by_cases hr : d.isRehashing = true
    · rw [if_pos hr] at hl
      exact Or.inr ⟨rfl, hr, hl⟩
    · rw [if_neg hr] at hl
      cases hl

theorem find_none (h : d.Valid hashFunction) (hm : Lists d.toList m) (hkey : m key = none) :
    d.ht0.find (index hashFunction d.ht0 key) key = none ∧
      (d.isRehashing = true → d.ht1.find (index hashFunction d.ht1 key) key = none) := by
  have hl := lookup_eq h hm key
  rw [hkey, Dict.lookup] at hl
  cases hf : d.ht0.find (index hashFunction d.ht0 key) key with
  | some v => rw [hf] at hl; cases hl
  | none =>
    rw [hf] at hl
    refine ⟨rfl, fun hr => ?_⟩
    rw [if_pos hr] at hl
    exact hl

theorem bucket_ne_nil_of_find (hf : t.find i key = some val) : t.bucket i ≠ [] := by
  intro h
  rw [Table.find, h] at hf
  cases hf

/-- The value of a key that is there is set. -/
theorem setVal_spec (h : d.Valid hashFunction) (hm : Lists d.toList m) (hkey : m key = some val) (w : V) :
    (d.setVal hashFunction key w).Valid hashFunction ∧
      Lists (d.setVal hashFunction key w).toList (Function.update m key (some w)) := by
  unfold Dict.setVal
  rcases find_cases h hm hkey with hf | ⟨hnone, hr, hf⟩
  · have hold := (unlink_perm hf).append_right d.ht1.table.flatten
    have hnew := (setVal_perm hf w).append_right d.ht1.table.flatten
    have hl := ((hm.perm hold).change w).perm hnew.symm
    rw [hf]
    refine ⟨h.exchange0 (h.ht0.setVal hf w) List.length_set (fun j hj => ?_) hl, hl⟩
    exact bucket_set_nil (lt_size_of_find hf) (Or.inr (bucket_ne_nil_of_find hf)) hj
  · have hold := ((unlink_perm hf).append_left d.ht0.table.flatten).trans List.perm_middle
    have hnew := ((setVal_perm hf w).append_left d.ht0.table.flatten).trans List.perm_middle
    have hl := ((hm.perm hold).change w).perm hnew.symm
    rw [hnone]
    exact ⟨h.exchange1 hr (h.ht1.setVal hf w) List.length_set hl, hl⟩

/-- **`dictReplace`** sets the value of a key, new or not. -/
theorem replace_spec (canResize : Bool) (h : d.Valid hashFunction) (hm : Lists d.toList m)
    (hsmall : d.size < 2 ^ 61) (key : K) (val : V) :
    ∃ d', d.replace hashFunction canResize key val = some ((m key).isNone, d') ∧ d'.Valid hashFunction ∧
      Lists d'.toList (Function.update m key (some val)) := by
  obtain ⟨d', hadd, hv, hl⟩ := add_spec canResize h hm hsmall key val
  simp only [Dict.replace, hadd, Option.bind_eq_bind, Option.bind_some]
  cases hkey : m key with
  | none =>
    rw [if_pos hkey] at hl
    exact ⟨d', rfl, hv, hl⟩
  | some v =>
    rw [if_neg (by rw [hkey]; simp)] at hl
    obtain ⟨hv', hl'⟩ := setVal_spec hv hl hkey val
    exact ⟨_, rfl, hv', hl'⟩

/-- **`dictDelete`** removes the key. -/
theorem delete_spec (h : d.Valid hashFunction) (hm : Lists d.toList m) (key : K) :
    ∃ d', d.delete hashFunction key = some ((m key).isSome, d') ∧ d'.Valid hashFunction ∧
      Lists d'.toList (Function.update m key none) := by
  have habsent : m key = none → Function.update m key none = m := fun hk => by
    rw [← hk, Function.update_eq_self]
  unfold Dict.delete
  by_cases hempty : d.ht0.used = 0 ∧ d.ht1.used = 0
  · have hnil : d.toList = [] := by
      rw [← List.length_eq_zero_iff, ← size_eq_length h, Dict.size, hempty.1, hempty.2]
    have hnone : m key = none := by
      rw [← hm.lookup_eq, hnil]
      rfl
    rw [if_pos hempty, habsent hnone, hnone]
    exact ⟨d, rfl, h, hm⟩
  · obtain ⟨d', hstep, hk⟩ := rehashStep_kept h
    have hv := hk.valid
    have hl := hm.perm hk.perm.symm
    rw [if_neg hempty]
    simp only [hstep, Option.bind_eq_bind, Option.bind_some]
    cases hkey : m key with
    | none =>
      obtain ⟨hf0, hf1⟩ := find_none hv hl hkey
      rw [habsent hkey]
      by_cases hr : d'.isRehashing = true
      · simp only [hf0, hr, if_true, hf1 hr]
        exact ⟨d', rfl, hv, hl⟩
      · simp only [hf0, hr]
        exact ⟨d', rfl, hv, hl⟩
    | some v =>
      rcases find_cases hv hl hkey with hf | ⟨hnone, hr, hf⟩
      · have hlist := (hl.perm ((unlink_perm hf).append_right d'.ht1.table.flatten)).tail
        simp only [hf]
        refine ⟨_, rfl, hv.exchange0 (hv.ht0.unlink hf) List.length_set (fun j hj => ?_) hlist, hlist⟩
        exact bucket_set_nil (lt_size_of_find hf) (Or.inr (bucket_ne_nil_of_find hf)) hj
      · have hperm := ((unlink_perm hf).append_left d'.ht0.table.flatten).trans List.perm_middle
        have hlist := (hl.perm hperm).tail
        simp only [hnone, hr, if_true, hf]
        exact ⟨_, rfl, hv.exchange1 hr (hv.ht1.unlink hf) List.length_set hlist, hlist⟩

/-! ## Runs -/

/-- What an operation does to a map. -/
def DictOp.spec : DictOp K V → (K → Option V) → DictReply V × (K → Option V)
  | add key val, m => (.status (m key).isNone, if m key = none then Function.update m key (some val) else m)
  | replace key val, m => (.status (m key).isNone, Function.update m key (some val))
  | find key, m => (.value (m key), m)
  | delete key, m => (.status (m key).isSome, Function.update m key none)
  | resize, m | rehash _, m | enableResize, m | disableResize, m | openIterator, m | closeIterator, m =>
    (.done, m)

theorem HoldsFor.update {n : ℕ} {s : DictState K V} {c : Bool} {o : Option V}
    (h : HoldsFor hashFunction (n + 1) s m) (hv : d.Valid hashFunction)
    (hl : Lists d.toList (Function.update m key o)) :
    HoldsFor hashFunction n ⟨d, c⟩ (Function.update m key o) := by
  obtain ⟨hv', hl', hn⟩ := h
  refine ⟨hv, hl, ?_⟩
  have hle := hl'.length_update_le hl
  rw [← size_eq_length hv, ← size_eq_length hv'] at hle
  change d.size + n ≤ 2 ^ 30
  omega

/-- **Every operation on a dict is one on the map that it holds.** -/
theorem dict_refines (hashFunction : K → UInt64) :
    RefinesFor (fun _ => 1) (HoldsFor (V := V) hashFunction) (DictOp.run hashFunction) DictOp.spec := by
  intro n op s m h
  have hsmall : s.dict.size < 2 ^ 61 := by have := h.2.2; omega
  have hsame : ∀ c, HoldsFor hashFunction n ⟨s.dict, c⟩ m := fun c => h.kept (Kept.refl h.1)
  have hiter : ∀ k, HoldsFor hashFunction n ⟨{ s.dict with iterators := k }, s.canResize⟩ m := fun k =>
    ⟨h.1.setIterators k, h.2.1, (hsame true).2.2⟩
  cases op with
  | add key val =>
    obtain ⟨d, hadd, hv, hl⟩ := add_spec s.canResize h.1 h.2.1 hsmall key val
    refine ⟨⟨d, s.canResize⟩, by simp only [DictOp.run, hadd]; rfl, ?_⟩
    simp only [DictOp.spec]
    by_cases hkey : m key = none
    · rw [if_pos hkey] at hl ⊢
      exact h.update hv hl
    · rw [if_neg hkey] at hl ⊢
      have hself : Function.update m key (m key) = m := Function.update_eq_self key m
      rw [← hself] at hl ⊢
      exact h.update hv hl
  | replace key val =>
    obtain ⟨d, hreplace, hv, hl⟩ := replace_spec s.canResize h.1 h.2.1 hsmall key val
    exact ⟨⟨d, s.canResize⟩, by simp only [DictOp.run, hreplace]; rfl, h.update hv hl⟩
  | find key =>
    obtain ⟨d, hfind, hk⟩ := find_spec h.1 h.2.1 key
    exact ⟨⟨d, s.canResize⟩, by simp only [DictOp.run, hfind]; rfl, h.kept hk⟩
  | delete key =>
    obtain ⟨d, hdelete, hv, hl⟩ := delete_spec h.1 h.2.1 key
    exact ⟨⟨d, s.canResize⟩, by simp only [DictOp.run, hdelete]; rfl, h.update hv hl⟩
  | resize => exact ⟨_, rfl, h.kept (resize_kept s.canResize h.1)⟩
  | rehash k =>
    obtain ⟨more, d, hrehash, hk⟩ := rehash_kept h.1 k
    exact ⟨⟨d, s.canResize⟩, by simp only [DictOp.run, hrehash]; rfl, h.kept hk⟩
  | enableResize => exact ⟨_, rfl, hsame true⟩
  | disableResize => exact ⟨_, rfl, hsame false⟩
  | openIterator => exact ⟨_, rfl, hiter _⟩
  | closeIterator => exact ⟨_, rfl, hiter _⟩

/-- **A dict is a map.** Whatever is done with it, resizing and rehashing in between, the assertion
of `dictRehash` holds, the operations return what they would on a map, and an iterator gives the
pairs of the map, each once. With at most `2^30` operations no index overflows. -/
theorem dict_refines_map (hashFunction : K → UInt64) (ops : List (DictOp K V)) (hlen : ops.length ≤ 2 ^ 30) :
    ∃ s, runAll (DictOp.run hashFunction) ops .start = some (answers DictOp.spec ops (fun _ => none), s) ∧
      Lists s.dict.entries (after DictOp.spec ops fun _ => none) := by
  have hstart : HoldsFor hashFunction (2 ^ 30 - ops.length + total (fun _ => 1) ops)
      (DictState.start : DictState K V) fun _ => none := by
    rw [total_one, Nat.sub_add_cancel hlen]
    exact holdsFor_start
  obtain ⟨s, hrun, hv, hl, -⟩ := (dict_refines hashFunction).run ops hstart
  exact ⟨s, hrun, by rw [entries_eq hv]; exact hl⟩

/-- A run that grows the table, deletes while entries are in both tables, and shrinks. -/
theorem dict_refines_map_rehashing :
    let ops : List (DictOp ℕ Bool) :=
      [.add 1 true, .add 2 true, .add 5 true, .add 9 true, .add 13 false, .delete 5,
      .replace 13 true, .openIterator, .find 5, .closeIterator, .rehash 4, .delete 1, .delete 2, .resize, .find 9]
    ∃ s, runAll (DictOp.run UInt64.ofNat) ops .start = some (answers DictOp.spec ops (fun _ => none), s) ∧
      Lists s.dict.entries (after DictOp.spec ops fun _ => none) :=
  dict_refines_map UInt64.ofNat _ (by simp)

end Coms4111.Server
