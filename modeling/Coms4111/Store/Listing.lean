import Mathlib.Data.Finmap
import Mathlib.Data.List.Nodup
import Mathlib.Data.List.Perm.Basic
import Mathlib.Logic.Function.Basic

/-!
# Lists of pairs that represent a map

A container keeps the pairs of a map in an order of its own. `Lists` relates the two, and
is kept by what a container does: reorder (`Lists.perm`), add a pair for a new key
(`Lists.cons`), give a key another value (`Lists.change`) and remove a key (`Lists.tail`).

The pairs may be spread over buckets: `flatten_set_perm` is what setting one bucket does to
all of them.
-/

namespace Coms4111.Store

variable {K V : Type} {l l' : List (K × V)} {m : K → Option V} {k : K} {v w : V}

/-- **The pairs of the map**, in some order and each once. -/
structure Lists (l : List (K × V)) (m : K → Option V) : Prop where
  nodup : (l.map Prod.fst).Nodup
  mem_iff : ∀ k v, (k, v) ∈ l ↔ m k = some v

theorem Lists.nil : Lists ([] : List (K × V)) fun _ => none := ⟨List.nodup_nil, by simp⟩

theorem Lists.perm (h : Lists l m) (hp : l.Perm l') : Lists l' m :=
  ⟨(hp.map Prod.fst).nodup_iff.1 h.nodup, fun k v => (hp.mem_iff.symm).trans (h.mem_iff k v)⟩

theorem Lists.eq_none_iff (h : Lists l m) : m k = none ↔ k ∉ l.map Prod.fst := by
  rw [← not_iff_not, not_not, ← Ne, Option.ne_none_iff_exists']
  constructor
  · rintro ⟨v, hv⟩
    exact List.mem_map.2 ⟨(k, v), (h.mem_iff k v).2 hv, rfl⟩
  · intro hk
    obtain ⟨⟨k', v⟩, hmem, rfl⟩ := List.mem_map.1 hk
    exact ⟨v, (h.mem_iff k' v).1 hmem⟩

/-- A list of pairs with distinct keys represents a map. -/
theorem lists_lookup [DecidableEq K] (h : (l.map Prod.fst).Nodup) : Lists l fun k => l.lookup k := by
  refine ⟨h, fun k v => ?_⟩
  induction l with
  | nil => simp
  | cons e l ih =>
    obtain ⟨k', w⟩ := e
    rw [List.map_cons, List.nodup_cons] at h
    by_cases hk : k = k'
    · subst hk
      have hnot : (k, v) ∉ l := fun hmem => h.1 (List.mem_map.2 ⟨_, hmem, rfl⟩)
      simp [hnot, eq_comm]
    · have hbeq : (k == k') = false := beq_false_of_ne hk
      simp only [List.mem_cons, Prod.mk.injEq, hk, false_and, false_or, List.lookup_cons, hbeq, ih h.2]

/-- A list represents one map only. -/
theorem Lists.lookup_eq [DecidableEq K] (h : Lists l m) (k : K) : l.lookup k = m k :=
  Option.ext fun v => ((lists_lookup h.nodup).mem_iff k v).symm.trans (h.mem_iff k v)

/-- **Two listings of one map are reorderings of each other.** -/
theorem Lists.unique (h : Lists l m) (h' : Lists l' m) : l.Perm l' :=
  (List.perm_ext_iff_of_nodup h.nodup.of_map h'.nodup.of_map).2 fun e =>
    (h.mem_iff e.1 e.2).trans (h'.mem_iff e.1 e.2).symm

variable [DecidableEq K]

theorem Lists.cons (h : Lists l m) (hk : m k = none) (v : V) :
    Lists ((k, v) :: l) (Function.update m k (some v)) := by
  refine ⟨List.nodup_cons.2 ⟨h.eq_none_iff.1 hk, h.nodup⟩, fun k' v' => ?_⟩
  by_cases hkk : k' = k
  · subst hkk
    have hnot : (k', v') ∉ l := fun hmem => by rw [h.mem_iff, hk] at hmem; cases hmem
    simp [hnot, eq_comm]
  · simp only [List.mem_cons, Prod.mk.injEq, hkk, false_and, false_or, Function.update_of_ne hkk, h.mem_iff]

theorem Lists.tail (h : Lists ((k, v) :: l) m) : Lists l (Function.update m k none) := by
  have hnodup := h.nodup
  rw [List.map_cons, List.nodup_cons] at hnodup
  refine ⟨hnodup.2, fun k' v' => ?_⟩
  by_cases hkk : k' = k
  · subst hkk
    have hnot : (k', v') ∉ l := fun hmem => hnodup.1 (List.mem_map.2 ⟨_, hmem, rfl⟩)
    simp [hnot]
  · rw [Function.update_of_ne hkk, ← h.mem_iff]
    simp [hkk]

theorem Lists.change (h : Lists ((k, v) :: l) m) (w : V) :
    Lists ((k, w) :: l) (Function.update m k (some w)) := by
  have ht := h.tail.cons (Function.update_self k none m) w
  rwa [Function.update_idem] at ht

/-- **The pair of a key in its place**: it may get another value there, or be removed. -/
theorem Lists.split (h : Lists l m) (hk : m k = some v) :
    ∃ l₁ l₂, l = l₁ ++ (k, v) :: l₂ ∧ k ∉ l₁.map Prod.fst ∧
      (∀ w, Lists (l₁ ++ (k, w) :: l₂) (Function.update m k (some w))) ∧
      Lists (l₁ ++ l₂) (Function.update m k none) := by
  obtain ⟨l₁, l₂, rfl⟩ := List.append_of_mem ((h.mem_iff k v).2 hk)
  have hmid : ∀ w, ((k, w) :: (l₁ ++ l₂)).Perm (l₁ ++ (k, w) :: l₂) := fun w => List.perm_middle.symm
  have hfirst := h.perm (hmid v).symm
  refine ⟨l₁, l₂, rfl, fun hmem => ?_, fun w => (hfirst.change w).perm (hmid w), hfirst.tail⟩
  have hnodup := hfirst.nodup
  rw [List.map_cons, List.nodup_cons, List.map_append] at hnodup
  exact hnodup.1 (List.mem_append_left _ hmem)

/-- A change of one key adds at most one pair. -/
theorem Lists.length_update_le (h : Lists l m) {o : Option V} (h' : Lists l' (Function.update m k o)) :
    l'.length ≤ l.length + 1 := by
  have hsub : l'.map Prod.fst ⊆ k :: l.map Prod.fst := by
    intro k' hk'
    obtain ⟨⟨k', v'⟩, hmem, rfl⟩ := List.mem_map.1 hk'
    by_cases hkk : k' = k
    · rw [hkk]; exact List.mem_cons_self
    · rw [h'.mem_iff, Function.update_of_ne hkk, ← h.mem_iff] at hmem
      exact List.mem_cons_of_mem _ (List.mem_map.2 ⟨_, hmem, rfl⟩)
  simpa using (List.subperm_of_subset h'.nodup hsub).length_le

/-- The pair that a walk finds, and the others. -/
theorem perm_of_lookup (h : l.lookup k = some v) : l.Perm ((k, v) :: l.eraseP fun e => e.1 = k) := by
  induction l with
  | nil => cases h
  | cons e l ih =>
    obtain ⟨k', w⟩ := e
    by_cases hk : k = k'
    · subst hk
      rw [List.lookup_cons_self] at h
      cases h
      rw [List.eraseP_cons_of_pos (by simp)]
    · rw [List.lookup_cons, beq_false_of_ne hk] at h
      rw [List.eraseP_cons_of_neg (by simpa using Ne.symm hk)]
      exact ((ih h).cons _).trans (List.Perm.swap _ _ _)

theorem replaceF_perm (h : l.lookup k = some v) (w : V) :
    (l.replaceF fun e => if e.1 = k then some (e.1, w) else none).Perm ((k, w) :: l.eraseP fun e => e.1 = k) := by
  induction l with
  | nil => cases h
  | cons e l ih =>
    obtain ⟨k', w'⟩ := e
    by_cases hk : k = k'
    · subst hk
      rw [List.eraseP_cons_of_pos (by simp), List.replaceF_cons, if_pos rfl]
    · rw [List.lookup_cons, beq_false_of_ne hk] at h
      rw [List.eraseP_cons_of_neg (by simpa using Ne.symm hk), List.replaceF_cons, if_neg (Ne.symm hk)]
      exact ((ih h).cons _).trans (List.Perm.swap _ _ _)

/-! ## Finite maps -/

section

variable {f : Finmap fun _ : K => V}

theorem lookup_insert_eq (f : Finmap fun _ : K => V) (k : K) (v : V) :
    (fun k' => (f.insert k v).lookup k') = Function.update (fun k' => f.lookup k') k (some v) := by
  funext k'
  by_cases hk : k' = k
  · subst hk
    rw [Function.update_self, Finmap.lookup_insert]
  · rw [Function.update_of_ne hk, Finmap.lookup_insert_of_ne _ hk]

theorem lookup_erase_eq (f : Finmap fun _ : K => V) (k : K) :
    (fun k' => (f.erase k).lookup k') = Function.update (fun k' => f.lookup k') k none := by
  funext k'
  by_cases hk : k' = k
  · subst hk
    rw [Function.update_self, Finmap.lookup_erase]
  · rw [Function.update_of_ne hk, Finmap.lookup_erase_ne hk]

/-- The pairs are inserted in turn. -/
def insertAll (f : Finmap fun _ : K => V) (l : List (K × V)) : Finmap fun _ : K => V :=
  l.foldl (fun f e => f.insert e.1 e.2) f

/-- **Inserting all pairs of a map**, in whichever order they come. -/
theorem Lists.lookup_insertAll (h : Lists l m) (f : Finmap fun _ : K => V) (k : K) :
    (insertAll f l).lookup k = (m k).or (f.lookup k) := by
  induction l generalizing m f with
  | nil =>
    have hnone : m k = none := h.eq_none_iff.2 List.not_mem_nil
    rw [hnone]
    rfl
  | cons e l ih =>
    obtain ⟨k', v⟩ := e
    change (insertAll (f.insert k' v) l).lookup k = _
    rw [ih h.tail]
    by_cases hk : k = k'
    · subst hk
      rw [Function.update_self, Finmap.lookup_insert, (h.mem_iff k v).1 List.mem_cons_self]
      rfl
    · rw [Function.update_of_ne hk, Finmap.lookup_insert_of_ne _ hk]

/-- The pairs of a finite map make the map. -/
theorem Lists.insertAll_eq (h : Lists l fun k => f.lookup k) : insertAll ∅ l = f :=
  Finmap.ext_lookup fun k => by rw [h.lookup_insertAll ∅ k, Finmap.lookup_empty, Option.or_none]

theorem Lists.mem_keys_iff (h : Lists l fun k => f.lookup k) : k ∈ f.keys ↔ k ∈ l.map Prod.fst := by
  rw [Finmap.mem_keys, Finmap.mem_iff]
  constructor
  · rintro ⟨v, hv⟩
    exact List.mem_map.2 ⟨(k, v), (h.mem_iff k v).2 hv, rfl⟩
  · intro hk
    obtain ⟨⟨k', v⟩, hmem, rfl⟩ := List.mem_map.1 hk
    exact ⟨v, (h.mem_iff k' v).1 hmem⟩

theorem Lists.length_eq_card (h : Lists l fun k => f.lookup k) : l.length = f.keys.card := by
  have hkeys : f.keys = (l.map Prod.fst).toFinset := by
    ext k
    rw [List.mem_toFinset, h.mem_keys_iff]
  rw [hkeys, List.toFinset_card_of_nodup h.nodup, List.length_map]

theorem Lists.eq_nil_iff (h : Lists l fun k => f.lookup k) : l = [] ↔ f = ∅ := by
  constructor
  · rintro rfl
    refine Finmap.ext_lookup fun k => ?_
    rw [Finmap.lookup_empty]
    exact h.eq_none_iff.2 (by simp)
  · rintro rfl
    refine List.eq_nil_iff_forall_not_mem.2 fun e he => ?_
    have := (h.mem_iff e.1 e.2).1 he
    rw [Finmap.lookup_empty] at this
    cases this

end

/-! ## Buckets -/

variable {α : Type} {buckets : List (List α)} {i : ℕ}

theorem getD_sublist_flatten (buckets : List (List α)) (i : ℕ) :
    (buckets.getD i []).Sublist buckets.flatten := by
  rw [List.getD_eq_getElem?_getD]
  cases hi : buckets[i]? with
  | none => exact List.nil_sublist _
  | some b => exact List.sublist_flatten_of_mem (List.mem_of_getElem? hi)

theorem mem_flatten_iff_getD {x : α} : x ∈ buckets.flatten ↔ ∃ i, x ∈ buckets.getD i [] := by
  refine ⟨fun h => ?_, fun ⟨i, h⟩ => (getD_sublist_flatten _ _).subset h⟩
  obtain ⟨b, hb, hx⟩ := List.mem_flatten.1 h
  obtain ⟨i, hi⟩ := List.mem_iff_getElem?.1 hb
  exact ⟨i, by rw [List.getD_eq_getElem?_getD, hi]; exact hx⟩

theorem getD_set (hi : i < buckets.length) (b : List α) (j : ℕ) :
    (buckets.set i b).getD j [] = if j = i then b else buckets.getD j [] := by
  rw [List.getD_eq_getElem?_getD, List.getD_eq_getElem?_getD, List.getElem?_set]
  by_cases hj : j = i
  · subst hj
    simp [hi]
  · simp [hj, Ne.symm hj]

/-- **One bucket is set**: what was in it is exchanged for what is. -/
theorem flatten_set_perm (hi : i < buckets.length) (b : List α) :
    ((buckets.set i b).flatten ++ buckets.getD i []).Perm (buckets.flatten ++ b) := by
  induction buckets generalizing i with
  | nil => cases hi
  | cons c buckets ih =>
    cases i with
    | zero =>
      simp only [List.set_cons_zero, List.flatten_cons, List.getD_cons_zero]
      refine List.perm_append_comm.trans ?_
      rw [List.append_assoc]
      exact List.perm_append_comm.append_left c
    | succ i =>
      have hi : i < buckets.length := Nat.lt_of_succ_lt_succ hi
      simp only [List.set_cons_succ, List.flatten_cons, List.getD_cons_succ, List.append_assoc]
      exact (ih hi).append_left c

end Coms4111.Store
