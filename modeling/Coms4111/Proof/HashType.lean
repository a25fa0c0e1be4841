import Coms4111.Proof.Dict
import Coms4111.Proof.ZiplistWalk
import Coms4111.Spec.Hash

/-!
# The two encodings of a hash

* `Holds`: the object has the fields of a finite map, in a ziplist or in a dict.
* `convert_spec`: the conversion from a ziplist to a dict keeps the fields.
* `getValue_spec`, `set_spec`, `hashDelete_spec`, `entries_spec`: the operations of the hash type
  are those of the map, in either encoding.
-/

namespace Coms4111.Server

open Store

/-- Fields and their values. -/
abbrev Fields := Finmap fun _ : Bytes => Bytes

/-- The texts of a ziplist for pairs: fields and values in turn. -/
def texts : List (Bytes × Bytes) → List Bytes
  | [] => []
  | (field, value) :: l => field :: value :: texts l

variable {S : Settings} {zl field value s : Bytes} {l l' l₁ l₂ : List (Bytes × Bytes)} {n : ℕ} {f : Fields}
  {items items' : List (Bool × Bytes)} {w : Bool}

theorem texts_append (l l' : List (Bytes × Bytes)) : texts (l ++ l') = texts l ++ texts l' := by
  induction l with
  | nil => rfl
  | cons e l ih => rw [List.cons_append, texts, ih, texts, List.cons_append, List.cons_append]

theorem length_texts (l : List (Bytes × Bytes)) : (texts l).length = 2 * l.length := by
  induction l with
  | nil => rfl
  | cons e l ih =>
    rw [texts, List.length_cons, List.length_cons, ih, List.length_cons]
    omega

theorem room_texts_cons (field value : Bytes) (l : List (Bytes × Bytes)) :
    room (texts ((field, value) :: l)) = room (texts l) + (44 + field.length + value.length) := by
  rw [texts, room, room]
  omega

/-- The order of the pairs does not matter for the room. -/
theorem room_texts_perm (h : l.Perm l') : room (texts l) = room (texts l') := by
  induction h with
  | nil => rfl
  | cons e _ ih => rw [room_texts_cons, room_texts_cons, ih]
  | swap e e' l =>
    rw [room_texts_cons, room_texts_cons, room_texts_cons, room_texts_cons]
    omega
  | trans _ _ ih ih' => rw [ih, ih']

theorem length_le_room (l : List (Bytes × Bytes)) : 44 * l.length + 11 ≤ room (texts l) := by
  induction l with
  | nil => exact Nat.le_refl _
  | cons e l ih =>
    rw [room_texts_cons, List.length_cons]
    omega

/-! ## In a ziplist -/

/-- **The ziplist has the pairs**, in this order. -/
def InZiplist (zl : Bytes) (l : List (Bytes × Bytes)) : Prop :=
  ∃ items, items.map Prod.snd = texts l ∧ Represents zl items

theorem findSkip_texts_none (h : field ∉ l.map Prod.fst) : findSkip field 1 0 (texts l) = none := by
  induction l with
  | nil => rfl
  | cons e l ih =>
    obtain ⟨field', value⟩ := e
    rw [List.map_cons, List.mem_cons, not_or] at h
    rw [texts, findSkip, if_neg (Ne.symm h.1), findSkip, ih h.2]
    rfl

theorem findSkip_texts_some (h : field ∉ l₁.map Prod.fst) (value : Bytes) (l₂ : List (Bytes × Bytes)) :
    findSkip field 1 0 (texts (l₁ ++ (field, value) :: l₂)) = some (texts l₁).length := by
  induction l₁ with
  | nil =>
    change findSkip field 1 0 (field :: value :: texts l₂) = some 0
    rw [findSkip, if_pos rfl]
  | cons e l ih =>
    obtain ⟨field', value'⟩ := e
    rw [List.map_cons, List.mem_cons, not_or] at h
    change findSkip field 1 0 (field' :: value' :: texts (l ++ (field, value) :: l₂)) =
      some ((texts l).length + 1 + 1)
    rw [findSkip, if_neg (Ne.symm h.1), findSkip, ih h.2]
    rfl

theorem findField_eq (field : Bytes) (h : Represents zl items) :
    findField zl field =
      some ((findSkip field 1 0 (items.map Prod.snd)).map fun i => place (items.take i)) := by
  unfold findField
  rw [h.index, if_pos (Int.le_refl 0), Option.bind_eq_bind, Option.bind_some]
  by_cases hnil : items = []
  · subst hnil
    rfl
  · have hpos : (0 : ℤ).toNat < items.length := List.length_pos_iff.2 hnil
    have hall : Represents zl ([] ++ items) := h
    have hfind := hall.find field 1
    rw [if_pos hpos]
    exact hfind

theorem findField_none (hitems : items.map Prod.snd = texts l) (h : Represents zl items)
    (hfield : field ∉ l.map Prod.fst) : findField zl field = some none := by
  rw [findField_eq field h, hitems, findSkip_texts_none hfield]
  rfl

/-- **The entries of a field and its value.** -/
theorem findField_some (h : InZiplist zl (l₁ ++ (field, value) :: l₂)) (hfield : field ∉ l₁.map Prod.fst) :
    ∃ items w w' items', items.map Prod.snd = texts l₁ ∧ items'.map Prod.snd = texts l₂ ∧
      Represents zl (items ++ (w, field) :: (w', value) :: items') ∧
      findField zl field = some (some (place items)) := by
  obtain ⟨all, hall, hrep⟩ := h
  have hfind := findField_eq field hrep
  rw [hall, findSkip_texts_some hfield value l₂] at hfind
  rw [texts_append, texts] at hall
  obtain ⟨items, rest, rfl, hitems, hrest⟩ := List.map_eq_append_iff.1 hall
  obtain ⟨⟨w, field'⟩, rest', rfl, rfl, hrest'⟩ := List.map_eq_cons_iff.1 hrest
  obtain ⟨⟨w', value'⟩, items', rfl, rfl, hitems'⟩ := List.map_eq_cons_iff.1 hrest'
  refine ⟨items, w, w', items', hitems, hitems', hrep, ?_⟩
  have hlen : (texts l₁).length = items.length := by rw [← hitems, List.length_map]
  rw [hfind, Option.map_some, hlen, List.take_left]

/-- **A value is read.** -/
theorem getFromZiplist_some (h : InZiplist zl (l₁ ++ (field, value) :: l₂)) (hfield : field ∉ l₁.map Prod.fst) :
    hashTypeGetFromZiplist zl field = some (some (valueOf value)) := by
  obtain ⟨items, w, w', items', -, -, hrep, hfind⟩ := findField_some h hfield
  simp only [hashTypeGetFromZiplist, hfind, hrep.next, List.cons_ne_nil, if_false, Option.bind_eq_bind,
    Option.bind_some, hrep.shift.get, Option.pure_def]

theorem getFromZiplist_none (h : InZiplist zl l) (hfield : field ∉ l.map Prod.fst) :
    hashTypeGetFromZiplist zl field = some none := by
  obtain ⟨items, hitems, hrep⟩ := h
  rw [hashTypeGetFromZiplist, findField_none hitems hrep hfield]
  rfl

/-- **A value is exchanged.** -/
theorem setInZiplist_update (h : InZiplist zl (l₁ ++ (field, value) :: l₂)) (hfield : field ∉ l₁.map Prod.fst)
    (value' : Bytes) (hroom : room (texts (l₁ ++ (field, value') :: l₂)) < 2 ^ 32) :
    ∃ zl', setInZiplist zl field value' = some (true, zl') ∧ InZiplist zl' (l₁ ++ (field, value') :: l₂) := by
  obtain ⟨items, w, w', items', hitems, hitems', hrep, hfind⟩ := findField_some h hfield
  obtain ⟨zl₁, rest, hdelete, hrest, hrep₁⟩ := zipDelete_spec hrep.shift (List.cons_ne_nil _ _) 1
  rw [List.map_cons, List.drop_one, List.tail_cons, hitems'] at hrest
  have hnew : (items ++ [(w, field)]).map Prod.snd ++ value' :: rest.map Prod.snd =
      texts (l₁ ++ (field, value') :: l₂) := by
    rw [List.map_append, hitems, hrest, texts_append, texts, List.append_assoc]
    rfl
  obtain ⟨zl₂, w'', items'', hinsert, htext, hrep₂⟩ :=
    zipInsert_spec hrep₁ (s := value') (by rw [hnew]; exact hroom)
  refine ⟨zl₂, ?_, _, ?_, hrep₂⟩
  · rw [← place] at hdelete hinsert
    simp only [setInZiplist, hfind, hrep.next, List.cons_ne_nil, if_false, ziplistDelete, hdelete, hinsert,
      Option.bind_eq_bind, Option.bind_some, Option.pure_def]
  · rw [List.map_append, List.map_cons, htext, hnew]

/-- A text at the tail. -/
theorem push_tail (h : Represents zl items) (hroom : room (items.map Prod.snd ++ [s]) < 2 ^ 32) :
    ∃ zl' items', ziplistPush zl s false = some zl' ∧ items'.map Prod.snd = items.map Prod.snd ++ [s] ∧
      Represents zl' items' := by
  have hend : Represents zl (items ++ []) := by
    rw [List.append_nil]
    exact h
  obtain ⟨zl', w, items', hinsert, htext, hrep⟩ := zipInsert_spec hend hroom
  have hplace : ziplistBytes zl - 1 = 10 + (layout 0 items).length := by
    rw [h.ziplistBytes_eq]
    omega
  refine ⟨zl', items ++ (w, s) :: items', ?_, by rw [List.map_append, List.map_cons, htext]; rfl, hrep⟩
  rw [ziplistPush, if_neg Bool.false_ne_true, hplace]
  exact hinsert

/-- **A new pair is put at the tail.** -/
theorem setInZiplist_new (h : InZiplist zl l) (hfield : field ∉ l.map Prod.fst) (value : Bytes)
    (hroom : room (texts (l ++ [(field, value)])) < 2 ^ 32) :
    ∃ zl', setInZiplist zl field value = some (false, zl') ∧ InZiplist zl' (l ++ [(field, value)]) := by
  obtain ⟨items, hitems, hrep⟩ := h
  have htexts : texts (l ++ [(field, value)]) = (items.map Prod.snd ++ [field]) ++ [value] := by
    rw [texts_append, hitems, List.append_assoc]
    rfl
  rw [htexts] at hroom
  have hfirst : room (items.map Prod.snd ++ [field]) < 2 ^ 32 := by
    have := room_insert (items.map Prod.snd ++ [field]) value []
    rw [List.append_nil] at this
    omega
  obtain ⟨zl₁, items₁, hpush₁, h₁, hrep₁⟩ := push_tail hrep hfirst
  obtain ⟨zl₂, items₂, hpush₂, h₂, hrep₂⟩ := push_tail hrep₁ (s := value) (by rw [h₁]; exact hroom)
  refine ⟨zl₂, ?_, items₂, by rw [h₂, h₁, htexts], hrep₂⟩
  simp only [setInZiplist, findField_none hitems hrep hfield, hpush₁, hpush₂, Option.bind_eq_bind,
    Option.bind_some, Option.pure_def]

/-- **A pair is deleted**, the field first and then what is at its place. -/
theorem deleteFromZiplist (h : InZiplist zl (l₁ ++ (field, value) :: l₂)) (hfield : field ∉ l₁.map Prod.fst) :
    ∃ fptr zl₁ zl₂, findField zl field = some (some fptr) ∧ ziplistDelete zl fptr = some zl₁ ∧
      ziplistDelete zl₁ fptr = some zl₂ ∧ InZiplist zl₂ (l₁ ++ l₂) := by
  obtain ⟨items, w, w', items', hitems, hitems', hrep, hfind⟩ := findField_some h hfield
  obtain ⟨zl₁, rest, hdelete, hrest, hrep₁⟩ := zipDelete_spec hrep (List.cons_ne_nil _ _) 1
  rw [List.map_cons, List.drop_one, List.tail_cons, List.map_cons] at hrest
  have hne : rest ≠ [] := by
    rintro rfl
    cases hrest
  obtain ⟨zl₂, rest', hdelete', hrest', hrep₂⟩ := zipDelete_spec hrep₁ hne 1
  refine ⟨place items, zl₁, zl₂, hfind, hdelete, hdelete', items ++ rest', ?_, hrep₂⟩
  rw [List.map_append, hitems, hrest', hrest, texts_append, ← hitems']
  rfl

/-- The pairs that an iterator gives. -/
theorem nextPairs_eq (k : ℕ) (hitems : items'.map Prod.snd = texts l) (h : Represents zl (items ++ items'))
    (hk : l.length ≤ k) :
    nextPairs zl k (if items' = [] then none else some (place items)) =
      some (l.map fun e => (valueOf e.1, valueOf e.2)) := by
  induction l generalizing items items' k with
  | nil =>
    have hnil : items' = [] := List.map_eq_nil_iff.1 hitems
    rw [if_pos hnil]
    cases k <;> rfl
  | cons e l ih =>
    obtain ⟨field, value⟩ := e
    obtain ⟨⟨w, field'⟩, rest, rfl, rfl, hrest⟩ := List.map_eq_cons_iff.1 hitems
    obtain ⟨⟨w', value'⟩, items', rfl, rfl, hitems'⟩ := List.map_eq_cons_iff.1 hrest
    obtain ⟨k, rfl⟩ : ∃ k', k = k' + 1 := ⟨k - 1, by rw [List.length_cons] at hk; omega⟩
    have hnext := ih k hitems' h.shift.shift (by rw [List.length_cons] at hk; omega)
    rw [if_neg (List.cons_ne_nil _ _)]
    simp only [nextPairs, h.next, List.cons_ne_nil, if_false, Option.bind_eq_bind, Option.bind_some, h.get,
      h.shift.get, h.shift.next, hnext, Option.pure_def, List.map_cons]

theorem ziplistPairs_eq (h : InZiplist zl l) :
    ziplistPairs zl = some (l.map fun e => (valueOf e.1, valueOf e.2)) := by
  obtain ⟨items, hitems, hrep⟩ := h
  have hindex : ziplistIndex zl 0 = some (if items = [] then none else some (place [])) := by
    rw [hrep.index]
    cases items <;> rfl
  have hlen : 2 * l.length = items.length := by rw [← length_texts, ← hitems, List.length_map]
  have hbytes := length_items_le 0 items
  rw [ziplistPairs, hindex, Option.bind_eq_bind, Option.bind_some]
  have hall : Represents zl ([] ++ items) := hrep
  refine nextPairs_eq _ hitems hall ?_
  rw [hrep.ziplistBytes_eq]
  omega

theorem ziplistLen_eq (h : InZiplist zl l) :
    ∃ zl', ziplistLen zl = some (2 * l.length, zl') ∧ InZiplist zl' l := by
  obtain ⟨items, hitems, hrep⟩ := h
  obtain ⟨zl', hlen, hrep'⟩ := hrep.len
  have htwo : items.length = 2 * l.length := by rw [← length_texts, ← hitems, List.length_map]
  rw [htwo] at hlen
  exact ⟨zl', hlen, items, hitems, hrep'⟩

/-! ## In either encoding -/

/-- The object has the pairs. The order is that of the ziplist; in a dict there is none. -/
def Encodes (S : Settings) : HashObject → List (Bytes × Bytes) → Prop
  | .ziplist zl, l => InZiplist zl l
  | .ht dict, l => dict.Valid S.hashFunction ∧ dict.toList.Perm l

/-- **The object holds the fields**, and there is still room for `n` bytes. -/
def Holds (S : Settings) (n : ℕ) (o : HashObject) (f : Fields) : Prop :=
  ∃ l, Lists l (fun field => f.lookup field) ∧ n + room (texts l) < 2 ^ 32 ∧ Encodes S o l

variable {o : HashObject} {dict : Dict Bytes Bytes}

theorem holds_create (hn : n + 11 < 2 ^ 32) : Holds S n createHashObject ∅ :=
  ⟨[], by simpa only [Finmap.lookup_empty] using Lists.nil, hn, [], rfl, represents_new⟩

theorem Holds.mono {k : ℕ} (h : Holds S (n + k) o f) : Holds S n o f := by
  obtain ⟨l, hl, hroom, ho⟩ := h
  exact ⟨l, hl, by omega, ho⟩

theorem Holds.ht_iff :
    Holds S n (.ht dict) f ↔ dict.Valid S.hashFunction ∧ Lists dict.toList (fun field => f.lookup field) ∧
      n + room (texts dict.toList) < 2 ^ 32 := by
  constructor
  · rintro ⟨l, hl, hroom, hv, hperm⟩
    exact ⟨hv, hl.perm hperm.symm, by rw [room_texts_perm hperm]; exact hroom⟩
  · rintro ⟨hv, hl, hroom⟩
    exact ⟨dict.toList, hl, hroom, hv, List.Perm.refl _⟩

/-- A dict that holds fields is far from the limits of dicts. -/
theorem size_lt_of_room (hv : dict.Valid S.hashFunction) (hroom : room (texts dict.toList) < 2 ^ 32) :
    dict.size < 2 ^ 61 := by
  have := length_le_room dict.toList
  rw [size_eq_length hv]
  omega

/-- **The value of a field is found**, as a text or as a number that has this text. -/
theorem getValue_spec (h : Holds S n o f) (field : Bytes) :
    ∃ value o', hashTypeGetValue S o field = some (value, o') ∧ Holds S n o' f ∧
      (value = (f.lookup field).map valueOf ∨ value = (f.lookup field).map .str) := by
  cases o with
  | ziplist zl =>
    obtain ⟨l, hl, hroom, hin⟩ := h
    refine ⟨(f.lookup field).map valueOf, .ziplist zl, ?_, ⟨l, hl, hroom, hin⟩, Or.inl rfl⟩
    cases hfield : f.lookup field with
    | none =>
      simp only [hashTypeGetValue, getFromZiplist_none hin (hl.eq_none_iff.1 hfield), Option.bind_eq_bind,
        Option.bind_some, Option.pure_def, Option.map_none]
    | some value =>
      obtain ⟨l₁, l₂, rfl, hnot, -⟩ := hl.split hfield
      simp only [hashTypeGetValue, getFromZiplist_some hin hnot, Option.bind_eq_bind, Option.bind_some,
        Option.pure_def, Option.map_some]
  | ht dict =>
    obtain ⟨hv, hl, hroom⟩ := Holds.ht_iff.1 h
    obtain ⟨dict', hfind, hkept⟩ := find_spec hv hl field
    refine ⟨(f.lookup field).map .str, .ht dict', ?_, ?_, Or.inr rfl⟩
    · simp only [hashTypeGetValue, hfind, Option.bind_eq_bind, Option.bind_some, Option.pure_def]
    · exact Holds.ht_iff.2 ⟨hkept.valid, hl.perm hkept.perm.symm, by rw [room_texts_perm hkept.perm]; exact hroom⟩

/-- The room after a field has been set. -/
theorem room_update_le {m : Bytes → Option Bytes} (h : Lists l m)
    (h' : Lists l' (Function.update m field (some value))) :
    room (texts l') ≤ room (texts l) + (44 + field.length + value.length) := by
  cases hfield : m field with
  | none => rw [room_texts_perm (h'.unique (h.cons hfield value)), room_texts_cons]
  | some old =>
    obtain ⟨l₁, l₂, rfl, -, hnew, -⟩ := h.split hfield
    have hmid : ∀ v, room (texts (l₁ ++ (field, v) :: l₂)) =
        room (texts (l₁ ++ l₂)) + (44 + field.length + v.length) :=
      fun v => by rw [room_texts_perm List.perm_middle, room_texts_cons]
    rw [room_texts_perm (h'.unique (hnew value)), hmid, hmid]
    omega

/-- The room after a field has been removed. -/
theorem room_erase_le {m : Bytes → Option Bytes} (h : Lists l m) (h' : Lists l' (Function.update m field none)) :
    room (texts l') ≤ room (texts l) := by
  cases hfield : m field with
  | none =>
    rw [← hfield, Function.update_eq_self] at h'
    rw [room_texts_perm (h'.unique h)]
  | some old =>
    obtain ⟨l₁, l₂, rfl, -, -, hnew⟩ := h.split hfield
    rw [room_texts_perm (h'.unique hnew), room_texts_perm List.perm_middle, room_texts_cons]
    omega

/-- **The pairs of a ziplist are put into a dict.** -/
theorem addPairs_spec (canResize : Bool) (hv : dict.Valid S.hashFunction)
    (hnodup : ((l ++ dict.toList).map Prod.fst).Nodup) (hroom : room (texts (l ++ dict.toList)) < 2 ^ 32) :
    ∃ dict', addPairs S canResize dict (l.map fun e => (valueOf e.1, valueOf e.2)) = some dict' ∧
      dict'.Valid S.hashFunction ∧ dict'.toList.Perm (l ++ dict.toList) := by
  induction l generalizing dict with
  | nil => exact ⟨dict, rfl, hv, List.Perm.refl _⟩
  | cons e l ih =>
    obtain ⟨field, value⟩ := e
    have hmid : ((field, value) :: l ++ dict.toList).Perm (l ++ (field, value) :: dict.toList) :=
      List.perm_middle.symm
    have hkeys : (((field, value) :: dict.toList).map Prod.fst).Nodup := by
      have := (hmid.map Prod.fst).nodup_iff.1 hnodup
      rw [List.map_append] at this
      exact this.of_append_right
    rw [List.map_cons, List.nodup_cons] at hkeys
    obtain ⟨m, hl⟩ : ∃ m, Lists dict.toList m := ⟨_, lists_lookup hkeys.2⟩
    have hnone : m field = none := hl.eq_none_iff.2 hkeys.1
    have hsmall : dict.size < 2 ^ 61 := by
      refine size_lt_of_room hv ?_
      have := room_append (texts ((field, value) :: l)) (texts dict.toList)
      have := eleven_le_room (texts ((field, value) :: l))
      rw [texts_append] at hroom
      omega
    obtain ⟨dict₁, hadd, hv', hl'⟩ := add_spec canResize hv hl hsmall field value
    rw [if_pos hnone] at hl'
    rw [hnone] at hadd
    have hperm : dict₁.toList.Perm ((field, value) :: dict.toList) := hl'.unique (hl.cons hnone value)
    have hall := hmid.trans (hperm.symm.append_left l)
    obtain ⟨dict', hrun, hv'', hperm'⟩ := ih hv' ((hall.map Prod.fst).nodup_iff.1 hnodup)
      (by rw [← room_texts_perm hall]; exact hroom)
    refine ⟨dict', ?_, hv'', hperm'.trans hall.symm⟩
    rw [List.map_cons, addPairs, sds_eq_text, sds_eq_text, text_valueOf, text_valueOf, hadd]
    exact hrun

/-- **The conversion keeps the fields**, and no two are the same. -/
theorem convert_spec (canResize : Bool) (h : Holds S n (.ziplist zl) f) :
    ∃ o', hashTypeConvert S canResize (.ziplist zl) = some o' ∧ Holds S n o' f := by
  obtain ⟨l, hl, hroom, hin⟩ := h
  obtain ⟨dict, hrun, hv, hperm⟩ := addPairs_spec (S := S) (l := l) canResize valid_create
    (by rw [show l ++ (Dict.create : Dict Bytes Bytes).toList = l from List.append_nil l]; exact hl.nodup)
    (by rw [show l ++ (Dict.create : Dict Bytes Bytes).toList = l from List.append_nil l]; omega)
  refine ⟨.ht dict, ?_, l, hl, hroom, hv, ?_⟩
  · simp only [hashTypeConvert, ziplistPairs_eq hin, Option.bind_eq_bind, Option.bind_some, hrun, Option.pure_def]
  · rw [show l ++ (Dict.create : Dict Bytes Bytes).toList = l from List.append_nil l] at hperm
    exact hperm

theorem tryConversion_spec (canResize : Bool) (h : Holds S n o f) (argv : List Bytes) :
    ∃ o', hashTypeTryConversion S canResize o argv = some o' ∧ Holds S n o' f := by
  cases o with
  | ht dict => exact ⟨.ht dict, rfl, h⟩
  | ziplist zl =>
    unfold hashTypeTryConversion
    by_cases hlong : argv.any fun arg => S.hashMaxZiplistValue < arg.length
    · simp only [hlong, if_true]
      exact convert_spec canResize h
    · simp only [hlong, Bool.false_eq_true, if_false]
      exact ⟨.ziplist zl, rfl, h⟩

theorem length_ziplist_spec (h : Holds S n (.ziplist zl) f) :
    ∃ zl', hashTypeLength (.ziplist zl) = some (f.keys.card, .ziplist zl') ∧ Holds S n (.ziplist zl') f := by
  obtain ⟨l, hl, hroom, hin⟩ := h
  obtain ⟨zl', hlen, hin'⟩ := ziplistLen_eq hin
  refine ⟨zl', ?_, l, hl, hroom, hin'⟩
  simp only [hashTypeLength, hlen, Option.bind_eq_bind, Option.bind_some, Option.pure_def, hl.length_eq_card,
    Nat.mul_div_cancel_left _ Nat.two_pos]

theorem length_spec (h : Holds S n o f) : ∃ o', hashTypeLength o = some (f.keys.card, o') ∧ Holds S n o' f := by
  cases o with
  | ziplist zl =>
    obtain ⟨zl', hlen, hzl'⟩ := length_ziplist_spec h
    exact ⟨.ziplist zl', hlen, hzl'⟩
  | ht dict =>
    obtain ⟨hv, hl, -⟩ := Holds.ht_iff.1 h
    refine ⟨.ht dict, ?_, h⟩
    rw [hashTypeLength, size_eq_length hv, hl.length_eq_card]

/-- **A field is set**, in a ziplist that may become a dict, or in a dict. -/
theorem set_spec (canResize : Bool) (h : Holds S (n + (44 + field.length + value.length)) o f) :
    ∃ o', hashTypeSet S canResize o field value = some ((f.lookup field).isSome, o') ∧
      Holds S n o' (f.insert field value) := by
  cases o with
  | ziplist zl =>
    have hset : ∃ zl', setInZiplist zl field value = some ((f.lookup field).isSome, zl') ∧
        Holds S n (.ziplist zl') (f.insert field value) := by
      obtain ⟨l, hl, hroom, hin⟩ := h
      cases hfield : f.lookup field with
      | none =>
        have hnew := (hl.cons hfield value).perm (List.perm_append_singleton _ _).symm
        have hle := room_update_le hl hnew
        obtain ⟨zl', hrun, hin'⟩ := setInZiplist_new hin (hl.eq_none_iff.1 hfield) value (by omega)
        exact ⟨zl', hrun, l ++ [(field, value)], by rw [lookup_insert_eq]; exact hnew, by omega, hin'⟩
      | some old =>
        obtain ⟨l₁, l₂, rfl, hnot, hnew, -⟩ := hl.split hfield
        have hle := room_update_le hl (hnew value)
        obtain ⟨zl', hrun, hin'⟩ := setInZiplist_update hin hnot value (by omega)
        exact ⟨zl', hrun, l₁ ++ (field, value) :: l₂, by rw [lookup_insert_eq]; exact hnew value, by omega, hin'⟩
    obtain ⟨zl', hrun, hzl'⟩ := hset
    obtain ⟨zl'', hlen, hzl''⟩ := length_ziplist_spec hzl'
    simp only [hashTypeSet, hrun, Option.bind_eq_bind, Option.bind_some, hlen]
    by_cases hlong : S.hashMaxZiplistEntries < (f.insert field value).keys.card
    · obtain ⟨o', hconvert, ho'⟩ := convert_spec canResize hzl''
      simp only [hlong, if_true, hconvert, Option.bind_some, Option.pure_def]
      exact ⟨o', rfl, ho'⟩
    · simp only [hlong, if_false, Option.pure_def]
      exact ⟨.ziplist zl'', rfl, hzl''⟩
  | ht dict =>
    obtain ⟨hv, hl, hroom⟩ := Holds.ht_iff.1 h
    obtain ⟨dict', hfind, hkept⟩ := find_spec hv hl field
    have hl' := hl.perm hkept.perm.symm
    have hroom' := hroom
    rw [← room_texts_perm hkept.perm] at hroom'
    simp only [hashTypeSet, hfind, Option.bind_eq_bind, Option.bind_some]
    cases hfield : f.lookup field with
    | none =>
      obtain ⟨dict'', hadd, hv'', hl''⟩ :=
        add_spec canResize hkept.valid hl' (size_lt_of_room hkept.valid (by omega)) field value
      rw [if_pos hfield] at hl''
      have hle := room_update_le hl' hl''
      simp only [hadd, Option.bind_some]
      exact ⟨.ht dict'', rfl, Holds.ht_iff.2 ⟨hv'', by rw [lookup_insert_eq]; exact hl'', by omega⟩⟩
    | some old =>
      obtain ⟨hv'', hl''⟩ := setVal_spec hkept.valid hl' hfield value
      have hle := room_update_le hl' hl''
      exact ⟨_, rfl, Holds.ht_iff.2 ⟨hv'', by rw [lookup_insert_eq]; exact hl'', by omega⟩⟩

/-- **A field is deleted.** -/
theorem hashDelete_spec (canResize : Bool) (h : Holds S n o f) (field : Bytes) :
    ∃ o', hashTypeDelete S canResize o field = some ((f.lookup field).isSome, o') ∧
      Holds S n o' (f.erase field) := by
  cases o with
  | ziplist zl =>
    obtain ⟨l, hl, hroom, hin⟩ := h
    cases hfield : f.lookup field with
    | none =>
      obtain ⟨items, hitems, hrep⟩ := hin
      refine ⟨.ziplist zl, ?_, l, ?_, hroom, items, hitems, hrep⟩
      · simp only [hashTypeDelete, findField_none hitems hrep (hl.eq_none_iff.1 hfield), Option.bind_eq_bind,
          Option.bind_some, Option.pure_def, Option.isSome_none]
      · rw [lookup_erase_eq, ← hfield, Function.update_eq_self]
        exact hl
    | some old =>
      obtain ⟨l₁, l₂, rfl, hnot, -, hnew⟩ := hl.split hfield
      have hle := room_erase_le hl hnew
      obtain ⟨fptr, zl₁, zl₂, hfind, hdelete, hdelete', hin'⟩ := deleteFromZiplist hin hnot
      refine ⟨.ziplist zl₂, ?_, l₁ ++ l₂, ?_, by omega, hin'⟩
      · simp only [hashTypeDelete, hfind, hdelete, hdelete', Option.bind_eq_bind, Option.bind_some,
          Option.pure_def, Option.isSome_some]
      · rw [lookup_erase_eq]
        exact hnew
  | ht dict =>
    obtain ⟨hv, hl, hroom⟩ := Holds.ht_iff.1 h
    obtain ⟨dict', hdel, hv', hl'⟩ := delete_spec hv hl field
    have hle := room_erase_le hl hl'
    simp only [hashTypeDelete, hdel, Option.bind_eq_bind, Option.bind_some]
    have hdict' : Holds S n (.ht dict') (f.erase field) :=
      Holds.ht_iff.2 ⟨hv', by rw [lookup_erase_eq]; exact hl', by omega⟩
    cases hfield : (f.lookup field).isSome with
    | false => exact ⟨.ht dict', rfl, hdict'⟩
    | true =>
      have hkept := resize_kept canResize hv'
      refine ⟨.ht (if dict'.needsResize then (dict'.resize canResize).getD dict' else dict'), rfl, ?_⟩
      split_ifs
      · obtain ⟨hv₁, hl₁, hroom₁⟩ := Holds.ht_iff.1 hdict'
        exact Holds.ht_iff.2
          ⟨hkept.valid, hl₁.perm hkept.perm.symm, by rw [room_texts_perm hkept.perm]; exact hroom₁⟩
      · exact hdict'

/-- **The entries are the fields and values**, each once. -/
theorem entries_spec (h : Holds S n o f) :
    ∃ l, hashTypeEntries o = some l ∧ Lists l (fun field => f.lookup field) := by
  cases o with
  | ziplist zl =>
    obtain ⟨l, hl, -, hin⟩ := h
    refine ⟨l, ?_, hl⟩
    have hid : (fun e : Bytes × Bytes => ((valueOf e.1).text, (valueOf e.2).text)) = id := by
      funext e
      rw [text_valueOf, text_valueOf]
      rfl
    simp only [hashTypeEntries, ziplistPairs_eq hin, Option.bind_eq_bind, Option.bind_some, Option.pure_def,
      List.map_map]
    rw [show ((fun p : ZipValue × ZipValue => (p.1.text, p.2.text)) ∘
      fun e : Bytes × Bytes => (valueOf e.1, valueOf e.2)) = id from hid, List.map_id]
  | ht dict =>
    obtain ⟨hv, hl, -⟩ := Holds.ht_iff.1 h
    exact ⟨dict.entries, rfl, by rw [entries_eq hv]; exact hl⟩

end Coms4111.Server
