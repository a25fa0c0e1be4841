import Coms4111.Proof.ZiplistWalk
import Coms4111.Store.Refinement

/-!
# A ziplist is a list

* `ziplist_refines_list`: whatever is inserted into a ziplist and deleted from it, in any place,
  no assertion fails, the operations return what they would on a list, and walking through it in
  either direction gives the texts of the list.
-/

namespace Coms4111.Server

open Store

/-- The operations on a ziplist. An insertion is before the entry with an index. -/
inductive ZipOp
  | push (s : Bytes) (head : Bool)
  | insert (index : ℤ) (s : Bytes)
  | deleteRange (index : ℤ) (num : ℕ)
  | get (index : ℤ)
  | len
  deriving DecidableEq

inductive ZipReply
  | done
  | text (o : Option Bytes)
  | length (n : ℕ)
  deriving DecidableEq

/-- The text of the entry at an offset. -/
def textAt (zl : Bytes) (p : ℕ) : Option (Option Bytes) := (ziplistGet zl p).map (Option.map ZipValue.text)

def ZipOp.run : ZipOp → Bytes → Option (ZipReply × Bytes)
  | push s head, zl => (ziplistPush zl s head).map fun zl => (.done, zl)
  | insert index s, zl => do
    match ← ziplistIndex zl index with
    | none => some (.done, zl)
    | some p => (ziplistInsert zl p s).map fun zl => (.done, zl)
  | deleteRange index num, zl => (ziplistDeleteRange zl index num).map fun zl => (.done, zl)
  | get index, zl => do
    match ← ziplistIndex zl index with
    | none => some (.text none, zl)
    | some p => (textAt zl p).map fun o => (.text o, zl)
  | len, zl => (ziplistLen zl).map fun r => (.length r.1, r.2)

/-- Where an index points in a list: from the tail if it is negative. -/
def listIndex (ss : List Bytes) (index : ℤ) : Option ℕ :=
  if 0 ≤ index then if index.toNat < ss.length then some index.toNat else none
  else if (-index).toNat ≤ ss.length then some (ss.length - (-index).toNat) else none

/-- What an operation does to a list. -/
def ZipOp.spec : ZipOp → List Bytes → ZipReply × List Bytes
  | push s head, ss => (.done, if head then s :: ss else ss ++ [s])
  | insert index s, ss => (.done, match listIndex ss index with
      | none => ss
      | some i => ss.take i ++ s :: ss.drop i)
  | deleteRange index num, ss => (.done, match listIndex ss index with
      | none => ss
      | some i => ss.take i ++ ss.drop (i + num))
  | get index, ss => (.text ((listIndex ss index).bind fun i => ss[i]?), ss)
  | len, ss => (.length ss.length, ss)

/-- The bytes that an operation may take. -/
def ZipOp.cost : ZipOp → ℕ
  | push s _ | insert _ s => 22 + s.length
  | deleteRange _ _ | get _ | len => 0

/-- The texts from an entry on, as a function leads from one to the next, for so many entries at
most. -/
def textsBy (zl : Bytes) (step : ℕ → Option (Option ℕ)) : ℕ → Option ℕ → Option (List Bytes)
  | _, none => some []
  | 0, some _ => none
  | n + 1, some p => do
    let text ← (← textAt zl p)
    let texts ← textsBy zl step n (← step p)
    return text :: texts

/-- The texts from the head to the tail, by `ziplistNext`. -/
def textsForward (zl : Bytes) : Option (List Bytes) :=
  (ziplistIndex zl 0).bind (textsBy zl (ziplistNext zl) (ziplistBytes zl))

/-- The texts from the tail to the head, by `ziplistPrev`. -/
def textsBackward (zl : Bytes) : Option (List Bytes) :=
  (ziplistIndex zl (-1)).bind (textsBy zl (ziplistPrev zl) (ziplistBytes zl))

variable {zl s : Bytes} {w : Bool} {items items' : List (Bool × Bytes)}

theorem Represents.textAt (h : Represents zl (items ++ (w, s) :: items')) :
    textAt zl (place items) = some (some s) := by
  rw [Server.textAt, h.get, Option.map_some, Option.map_some, text_valueOf]

@[simp] theorem textsBy_none (step : ℕ → Option (Option ℕ)) (n : ℕ) : textsBy zl step n none = some [] := by
  cases n <;> rfl

theorem textsBy_some {step : ℕ → Option (Option ℕ)} {n p : ℕ} {next : Option ℕ} {texts : List Bytes}
    (htext : Server.textAt zl p = some (some s)) (hstep : step p = some next)
    (hrest : textsBy zl step n next = some texts) : textsBy zl step (n + 1) (some p) = some (s :: texts) := by
  simp only [textsBy, htext, hstep, hrest, Option.bind_eq_bind, Option.bind_some, Option.pure_def]

theorem textsForward_from (n : ℕ) (h : Represents zl (items ++ items')) (hn : items'.length ≤ n) :
    textsBy zl (ziplistNext zl) n (if items' = [] then none else some (place items)) =
      some (items'.map Prod.snd) := by
  induction items' generalizing items n with
  | nil => exact textsBy_none _ n
  | cons item items' ih =>
    obtain ⟨w, s⟩ := item
    obtain ⟨n, rfl⟩ : ∃ k, n = k + 1 := ⟨n - 1, by rw [List.length_cons] at hn; omega⟩
    rw [if_neg (List.cons_ne_nil _ _)]
    exact textsBy_some h.textAt h.next (ih n h.shift (by rw [List.length_cons] at hn; omega))

theorem textsBackward_from (n : ℕ) (h : Represents zl (items ++ (w, s) :: items')) (hn : items.length < n) :
    textsBy zl (ziplistPrev zl) n (some (place items)) = some (s :: (items.map Prod.snd).reverse) := by
  induction n generalizing items w s items' with
  | zero => omega
  | succ n ih =>
    rcases List.eq_nil_or_concat items with rfl | ⟨init, ⟨w', s'⟩, hitems⟩
    · exact textsBy_some h.textAt h.prev_first (textsBy_none _ n)
    · rw [List.concat_eq_append] at hitems
      subst hitems
      have htext := h.textAt
      rw [List.append_assoc] at h
      rw [List.length_append, List.length_singleton] at hn
      rw [List.map_append, List.reverse_append]
      exact textsBy_some htext h.prev (ih h (by omega))

theorem texts_eq (h : Represents zl items) :
    textsForward zl = some (items.map Prod.snd) ∧ textsBackward zl = some (items.map Prod.snd).reverse := by
  have hbytes := h.ziplistBytes_eq
  have hlen := length_items_le 0 items
  refine ⟨?_, ?_⟩
  · have hindex : ziplistIndex zl 0 = some (if items = [] then none else some (place [])) := by
      rw [h.index]
      cases items <;> rfl
    have hall : Represents zl ([] ++ items) := h
    rw [textsForward, hindex]
    exact textsForward_from _ hall (by omega)
  · rw [textsBackward, h.index, if_neg (by decide), Option.bind_some]
    rcases List.eq_nil_or_concat items with rfl | ⟨init, ⟨w, s⟩, hitems⟩
    · exact textsBy_none _ _
    · rw [List.concat_eq_append] at hitems
      subst hitems
      rw [List.length_append, List.length_singleton] at hlen ⊢
      have htake : (init ++ [(w, s)]).take (init.length + 1 - (- -1 : ℤ).toNat) = init := by
        rw [show init.length + 1 - (- -1 : ℤ).toNat = init.length from rfl, List.take_left]
      rw [if_pos (show (- -1 : ℤ).toNat ≤ init.length + 1 from Nat.le_add_left 1 _), htake,
        textsBackward_from _ h (by omega), List.map_append, List.reverse_append]
      rfl

/-- The ziplist holds the texts, and there is still room for `n` bytes. -/
def ListedFor (n : ℕ) (zl : Bytes) (ss : List Bytes) : Prop :=
  ∃ items, items.map Prod.snd = ss ∧ Represents zl items ∧ n + room ss < 2 ^ 32

/-- An index, in the list and in the ziplist. -/
theorem Represents.index_eq (h : Represents zl items) (index : ℤ) :
    ziplistIndex zl index =
      some ((listIndex (items.map Prod.snd) index).map fun i => place (items.take i)) := by
  rw [h.index, listIndex, List.length_map]
  split_ifs <;> rfl

theorem lt_of_listIndex {ss : List Bytes} {index : ℤ} {i : ℕ} (h : listIndex ss index = some i) :
    i < ss.length := by
  unfold listIndex at h
  split_ifs at h with h1 h2 h3 <;> cases h
  · exact h2
  · omega

/-- An insertion at an index of the list. -/
theorem ListedFor.insert {n i : ℕ} {ss : List Bytes} (h : Represents zl items) (hss : items.map Prod.snd = ss)
    (hroom : n + (22 + s.length) + room ss < 2 ^ 32) :
    ∃ zl', ziplistInsert zl (place (items.take i)) s = some zl' ∧
      ListedFor n zl' (ss.take i ++ s :: ss.drop i) := by
  subst hss
  have hcut : (items.map Prod.snd).take i ++ (items.map Prod.snd).drop i = items.map Prod.snd :=
    List.take_append_drop ..
  have hnew := room_insert ((items.map Prod.snd).take i) s ((items.map Prod.snd).drop i)
  rw [hcut] at hnew
  have hsplit : Represents zl (items.take i ++ items.drop i) := by
    rw [List.take_append_drop]
    exact h
  obtain ⟨zl', w, items'', hinsert, htext, hrep⟩ :=
    zipInsert_spec (s := s) hsplit (by rw [List.map_take, List.map_drop, hnew]; omega)
  refine ⟨zl', hinsert, items.take i ++ (w, s) :: items'', ?_, hrep, by rw [hnew]; omega⟩
  rw [List.map_append, List.map_cons, htext, List.map_take, List.map_drop]

/-- A deletion from an index of the list on. -/
theorem ListedFor.delete {n i : ℕ} {ss : List Bytes} (h : Represents zl items) (hss : items.map Prod.snd = ss)
    (hi : i < ss.length) (hroom : n + room ss < 2 ^ 32) (num : ℕ) :
    ∃ zl', ziplistDeleteAt zl (place (items.take i)) num = some zl' ∧
      ListedFor n zl' (ss.take i ++ ss.drop (i + num)) := by
  subst hss
  rw [List.length_map] at hi
  have hsplit : Represents zl (items.take i ++ items.drop i) := by
    rw [List.take_append_drop]
    exact h
  have hne : items.drop i ≠ [] := by
    rw [ne_eq, List.drop_eq_nil_iff]
    omega
  obtain ⟨zl', items'', hdelete, htext, hrep⟩ := zipDelete_spec hsplit hne num
  have hle := room_drop_le ((items.map Prod.snd).take i) ((items.map Prod.snd).drop i) num
  rw [List.take_append_drop, List.drop_drop] at hle
  refine ⟨zl', hdelete, items.take i ++ items'', ?_, hrep, Nat.lt_of_le_of_lt (Nat.add_le_add_left hle n) hroom⟩
  rw [List.map_append, htext, List.map_take, List.map_drop, List.drop_drop]

/-- The text at an index of the list. -/
theorem Represents.textAt_index {i : ℕ} (h : Represents zl items) (hi : i < (items.map Prod.snd).length) :
    Server.textAt zl (place (items.take i)) = some ((items.map Prod.snd)[i]?) := by
  have hi' : i < items.length := by
    rw [List.length_map] at hi
    exact hi
  have hsplit : Represents zl (items.take i ++ (items[i].1, items[i].2) :: items.drop (i + 1)) := by
    rw [Prod.eta, ← List.drop_eq_getElem_cons hi', List.take_append_drop]
    exact h
  rw [hsplit.textAt, List.getElem?_map, List.getElem?_eq_getElem hi']
  rfl

/-- **Every operation on a ziplist is one on the list that it holds.** -/
theorem ziplist_refines : RefinesFor ZipOp.cost ListedFor ZipOp.run ZipOp.spec := by
  intro n op zl ss h
  obtain ⟨items, hss, hrep, hroom⟩ := h
  have hindex := hrep.index_eq
  rw [hss] at hindex
  cases op with
  | push s head =>
    simp only [ZipOp.run, ZipOp.spec, ziplistPush]
    cases head with
    | true =>
      obtain ⟨zl', hinsert, hlist⟩ := ListedFor.insert (i := 0) hrep hss hroom
      exact ⟨zl', congrArg (Option.map _) hinsert, hlist⟩
    | false =>
      have hend : ziplistBytes zl - 1 = place (items.take ss.length) := by
        rw [hrep.ziplistBytes_eq, ← hss, List.length_map, List.take_length, place]
        omega
      obtain ⟨zl', hinsert, hlist⟩ := ListedFor.insert (i := ss.length) hrep hss hroom
      rw [List.take_length, List.drop_length] at hlist
      rw [← hend] at hinsert
      exact ⟨zl', congrArg (Option.map _) hinsert, hlist⟩
  | insert index s =>
    simp only [ZipOp.run, ZipOp.spec, hindex, Option.bind_eq_bind, Option.bind_some]
    cases listIndex ss index with
    | none =>
      have hroom' : n + room ss < 2 ^ 32 := by
        simp only [ZipOp.cost] at hroom
        omega
      exact ⟨zl, rfl, items, hss, hrep, hroom'⟩
    | some i =>
      obtain ⟨zl', hinsert, hlist⟩ := ListedFor.insert (i := i) hrep hss hroom
      exact ⟨zl', congrArg (Option.map _) hinsert, hlist⟩
  | deleteRange index num =>
    simp only [ZipOp.run, ZipOp.spec, ziplistDeleteRange, hindex, Option.bind_eq_bind, Option.bind_some]
    cases hi : listIndex ss index with
    | none => exact ⟨zl, rfl, items, hss, hrep, hroom⟩
    | some i =>
      obtain ⟨zl', hdelete, hlist⟩ := ListedFor.delete hrep hss (lt_of_listIndex hi) hroom num
      exact ⟨zl', congrArg (Option.map _) hdelete, hlist⟩
  | get index =>
    refine ⟨zl, ?_, items, hss, hrep, hroom⟩
    simp only [ZipOp.run, ZipOp.spec, hindex, Option.bind_eq_bind, Option.bind_some]
    cases hi : listIndex ss index with
    | none => rfl
    | some i =>
      subst hss
      exact congrArg (Option.map _) (hrep.textAt_index (lt_of_listIndex hi))
  | len =>
    obtain ⟨zl', hlen, hrep'⟩ := hrep.len
    refine ⟨zl', ?_, items, hss, hrep', hroom⟩
    rw [ZipOp.run, hlen, ZipOp.spec, ← hss, List.length_map]
    rfl

/-- **A ziplist is a list.** Whatever is inserted and deleted in any place, with the lengths of
entries cascading, no assertion fails and no encoding is unknown, the operations return what they
would on a list of texts, and the entries are the same from either end. All texts together, with
22 bytes more for each, are shorter than four gigabytes. -/
theorem ziplist_refines_list (ops : List ZipOp) (hsize : 11 + total ZipOp.cost ops < 2 ^ 32) :
    ∃ zl, runAll ZipOp.run ops ziplistNew = some (answers ZipOp.spec ops [], zl) ∧
      textsForward zl = some (after ZipOp.spec ops []) ∧
      textsBackward zl = some (after ZipOp.spec ops []).reverse := by
  have hstart : ListedFor (0 + total ZipOp.cost ops) ziplistNew [] :=
    ⟨[], rfl, represents_new, by rw [Nat.zero_add, Nat.add_comm]; exact hsize⟩
  obtain ⟨zl, hrun, items, hss, hrep, -⟩ := ziplist_refines.run ops hstart
  obtain ⟨hforward, hbackward⟩ := texts_eq hrep
  exact ⟨zl, hrun, by rw [hforward, hss], by rw [hbackward, hss]⟩

/-- Two entries of 253 bytes, and then a longer one in front of them: the length of each becomes
one of five bytes, which makes the next longer. -/
theorem ziplist_refines_list_cascading :
    let ops : List ZipOp := [.push (List.replicate 250 97) false, .push (List.replicate 250 98) false,
      .push (List.replicate 300 99) true, .push [49, 50] true, .get (-1), .deleteRange 1 2, .len]
    ∃ zl, runAll ZipOp.run ops ziplistNew = some (answers ZipOp.spec ops [], zl) ∧
      textsForward zl = some (after ZipOp.spec ops []) ∧
      textsBackward zl = some (after ZipOp.spec ops []).reverse :=
  ziplist_refines_list _ (by decide +kernel)

end Coms4111.Server
