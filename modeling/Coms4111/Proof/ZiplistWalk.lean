import Coms4111.Proof.ZiplistDelete

/-!
# Walking through a ziplist

The offset of an entry is that of the bytes before it (`place`), and the moves of the code lead
from one such offset to the next.

* `Represents.next`, `Represents.prev`: one entry forward, and one back.
* `Represents.index`: the entry with an index, from the head or from the tail.
* `Represents.find`: `ziplistFind` finds the first entry that has the text, encoded or not.
* `Represents.len`: the number of entries.
-/

namespace Coms4111.Server

open Store

variable {zl s vstr : Bytes} {w : Bool} {items items' : List (Bool × Bytes)}

/-- The offset behind entries. -/
def place (items : List (Bool × Bytes)) : ℕ := 10 + (layout 0 items).length

theorem place_append_one (items : List (Bool × Bytes)) (w : Bool) (s : Bytes) :
    place (items ++ [(w, s)]) = place items + entrySize w s := by
  simp only [place, layout_append, layout, List.append_nil, List.length_append, length_entryBytes, Nat.add_assoc]

theorem lastSize_eq_zero_iff : lastSize 0 items = 0 ↔ items = [] := by
  rcases List.eq_nil_or_concat items with rfl | ⟨init, ⟨w, s⟩, hitems⟩
  · exact ⟨fun _ => rfl, fun _ => rfl⟩
  · rw [List.concat_eq_append] at hitems
    subst hitems
    have := two_le_entrySize w s
    rw [lastSize_append]
    simp only [lastSize]
    exact ⟨fun h => by omega, fun h => absurd h (List.append_ne_nil_of_right_ne_nil _ (List.cons_ne_nil _ _))⟩

/-- **The bytes around an offset.** -/
theorem Represents.split (h : Represents zl (items ++ items')) :
    ∃ a : Bytes, zl = a ++ (layout (lastSize 0 items) items' ++ [zipEnd]) ∧ a.length = place items ∧
      Fits (lastSize 0 items) items' := by
  obtain ⟨⟨t, n, hzl, -⟩, hfits, -⟩ := h
  refine ⟨header (11 + (layout 0 (items ++ items')).length) t n ++ layout 0 items, ?_, ?_,
    (fits_append.1 hfits).2⟩
  · rw [hzl, layout_append, List.append_assoc, List.append_assoc]
  · rw [List.length_append, length_header, place]

/-- The bytes around an entry. -/
theorem Represents.entry (h : Represents zl (items ++ (w, s) :: items')) :
    ∃ a c : Bytes, zl = a ++ (entryBytes w (lastSize 0 items) s ++ c) ∧ a.length = place items ∧
      PrevFits w (lastSize 0 items) ∧ s.length < 2 ^ 32 := by
  obtain ⟨a, hzl, ha, hw, hs, -⟩ := h.split
  exact ⟨a, layout (entrySize w s) items' ++ [zipEnd], by rw [hzl, layout, List.append_assoc], ha, hw, hs⟩

theorem Represents.atEnd (h : Represents zl (items ++ items')) :
    byteAt zl (place items) = zipEnd ↔ items' = [] := by
  obtain ⟨a, rfl, ha, hfits⟩ := h.split
  exact byteAt_layout hfits ha

theorem Represents.get (h : Represents zl (items ++ (w, s) :: items')) :
    ziplistGet zl (place items) = some (some (valueOf s)) := by
  obtain ⟨a, c, rfl, ha, hw, hs⟩ := h.entry
  exact ziplistGet_eq hw hs ha

theorem Represents.rawlen (h : Represents zl (items ++ (w, s) :: items')) :
    zipRawEntryLength zl (place items) = some (entrySize w s) := by
  obtain ⟨a, c, rfl, ha, hw, hs⟩ := h.entry
  exact zipRawEntryLength_eq hw hs ha

theorem Represents.prevlen (h : Represents zl (items ++ (w, s) :: items')) :
    zipDecodePrevlen zl (place items) = lastSize 0 items := by
  obtain ⟨a, c, rfl, ha, hw, hs⟩ := h.entry
  rw [entry_append]
  exact (decodePrevlen_eq hw ha).2.1

theorem Represents.ne_end (h : Represents zl (items ++ (w, s) :: items')) : byteAt zl (place items) ≠ zipEnd :=
  fun hend => List.cons_ne_nil _ _ (h.atEnd.1 hend)

theorem Represents.shift (h : Represents zl (items ++ (w, s) :: items')) :
    Represents zl ((items ++ [(w, s)]) ++ items') := by
  rw [List.append_assoc]
  exact h

/-- The offset of the last entry. -/
theorem Represents.tail (h : Represents zl (items ++ [(w, s)])) : ziplistTailOffset zl = place items := by
  obtain ⟨⟨t, n, rfl, ht, -⟩, -, hsmall⟩ := h
  have hlong := length_layout_le 0 (items ++ [(w, s)])
  simp only [layout_append, lastSize_append, layout, lastSize, List.append_nil, List.length_append,
    length_entryBytes] at ht hlong
  rw [ziplistTailOffset_header _ (by omega), place]
  omega

theorem Represents.tail_nil (h : Represents zl []) : ziplistTailOffset zl = 10 := by
  obtain ⟨⟨t, n, rfl, ht, -⟩, -, -⟩ := h
  simp only [layout, lastSize, List.length_nil] at ht
  rw [ziplistTailOffset_header _ (by omega)]
  omega

theorem Represents.ziplistBytes_eq (h : Represents zl items) :
    ziplistBytes zl = 11 + (layout 0 items).length := by
  obtain ⟨⟨t, n, rfl, -⟩, -, hsmall⟩ := h
  have hlong := length_layout_le 0 items
  exact ziplistBytes_header (by omega) t n _

/-! ## Forwards and backwards -/

/-- **The next entry.** -/
theorem Represents.next (h : Represents zl (items ++ (w, s) :: items')) :
    ziplistNext zl (place items) = some (if items' = [] then none else some (place (items ++ [(w, s)]))) := by
  unfold ziplistNext
  simp only [h.ne_end, if_false, h.rawlen, Option.bind_eq_bind, Option.bind_some, Option.pure_def,
    ← place_append_one, h.shift.atEnd]

/-- **The entry before**, from an entry or from the end. -/
theorem Represents.prev (h : Represents zl (items ++ (w, s) :: items')) :
    ziplistPrev zl (place (items ++ [(w, s)])) = some (some (place items)) := by
  unfold ziplistPrev
  have hplace := place_append_one items w s
  have hpos := two_le_entrySize w s
  cases items' with
  | nil =>
    rw [if_pos (h.shift.atEnd.2 rfl), h.tail, if_neg h.ne_end]
  | cons item items' =>
    obtain ⟨w', s'⟩ := item
    have h10 : place (items ++ [(w, s)]) ≠ ziplistHeaderSize := by
      have : ziplistHeaderSize ≤ place items := Nat.le_add_right _ _
      omega
    -- the length of the entry before is not zero, as the code asserts
    have hlast : lastSize 0 (items ++ [(w, s)]) = entrySize w s := by
      rw [lastSize_append]
      rfl
    rw [if_neg h.shift.ne_end, if_neg h10, h.shift.prevlen, hlast, if_neg (by omega), hplace, Nat.add_sub_cancel]

/-- There is none before the first. -/
theorem Represents.prev_first (h : Represents zl items) : ziplistPrev zl (place []) = some none := by
  unfold ziplistPrev
  cases items with
  | nil =>
    have hnone : Represents zl ([] ++ []) := h
    have hend : byteAt zl (place []) = zipEnd := hnone.atEnd.2 rfl
    rw [if_pos hend, h.tail_nil, if_pos (by exact hend)]
  | cons item items =>
    have hfirst : Represents zl ([] ++ item :: items) := h
    have hne : byteAt zl (place []) ≠ zipEnd := hfirst.ne_end
    rw [if_neg hne, if_pos (show place [] = ziplistHeaderSize from rfl)]

/-! ## By index -/

theorem indexForward_eq (i : ℕ) (h : Represents zl (items ++ items')) :
    indexForward zl i (place items) = some (place (items ++ items'.take i)) := by
  induction i generalizing items items' with
  | zero => rw [indexForward, List.take_zero, List.append_nil]
  | succ i ih =>
    cases items' with
    | nil => rw [indexForward, if_pos (h.atEnd.2 rfl), List.take_nil, List.append_nil]
    | cons item items' =>
      obtain ⟨w, s⟩ := item
      rw [indexForward, if_neg h.ne_end, h.rawlen, Option.bind_eq_bind, Option.bind_some,
        ← place_append_one, ih h.shift, List.take_succ_cons, List.append_assoc]
      rfl

theorem indexBackward_eq (i : ℕ) (h : Represents zl (items ++ (w, s) :: items')) :
    indexBackward zl i (place items) = (i - items.length, place (items.take (items.length - i))) := by
  induction i generalizing items w s items' with
  | zero => rw [indexBackward, Nat.zero_sub, Nat.sub_zero, List.take_length]
  | succ i ih =>
    rw [indexBackward, h.prevlen]
    rcases List.eq_nil_or_concat items with rfl | ⟨init, ⟨w', s'⟩, hitems⟩
    · rw [if_pos (lastSize_eq_zero_iff.2 rfl), List.take_nil, List.length_nil, Nat.sub_zero]
    · rw [List.concat_eq_append] at hitems
      subst hitems
      have hlast : lastSize 0 (init ++ [(w', s')]) ≠ 0 := fun h0 =>
        List.append_ne_nil_of_right_ne_nil _ (List.cons_ne_nil _ _) (lastSize_eq_zero_iff.1 h0)
      have hback : place (init ++ [(w', s')]) - lastSize 0 (init ++ [(w', s')]) = place init := by
        rw [place_append_one, lastSize_append]
        simp only [lastSize, Nat.add_sub_cancel]
      have hinit : Represents zl (init ++ (w', s') :: (w, s) :: items') := by
        rw [List.append_assoc] at h
        exact h
      rw [if_neg hlast, hback, ih hinit, List.length_append, List.length_singleton,
        List.take_append_of_le_length (by omega), Nat.add_sub_add_right, Nat.add_sub_add_right]

/-- **The index of an entry**, from the head or, if it is negative, from the tail. -/
theorem Represents.index (h : Represents zl items) (i : ℤ) :
    ziplistIndex zl i = some
      (if 0 ≤ i then if i.toNat < items.length then some (place (items.take i.toNat)) else none
      else if (-i).toNat ≤
        items.length then some (place (items.take (items.length - (-i).toNat))) else none) := by
  have hat : ∀ j, byteAt zl (place (items.take j)) = zipEnd ↔ items.length ≤ j := by
    intro j
    have hcut : Represents zl (items.take j ++ items.drop j) := by
      rw [List.take_append_drop]
      exact h
    rw [hcut.atEnd, List.drop_eq_nil_iff]
  unfold ziplistIndex
  by_cases hi : 0 ≤ i
  · have hall : Represents zl ([] ++ items) := h
    have hfwd : indexForward zl i.toNat ziplistHeaderSize = some (place (items.take i.toNat)) :=
      indexForward_eq i.toNat hall
    rw [if_neg (by omega), if_pos hi, hfwd]
    simp only [Option.bind_eq_bind, Option.bind_some, Option.pure_def, hat]
    by_cases hlen : i.toNat < items.length
    · rw [if_pos hlen, if_neg (by omega)]
    · rw [if_neg hlen, if_pos (by omega)]
  · rw [if_pos (by omega), if_neg hi]
    obtain ⟨k, hk⟩ : ∃ k, (-i - 1).toNat = k := ⟨_, rfl⟩
    rw [hk, show (-i).toNat = k + 1 by omega]
    rcases List.eq_nil_or_concat items with rfl | ⟨init, ⟨w, s⟩, hitems⟩
    · have hend : byteAt zl 10 = zipEnd := (hat 0).2 (Nat.zero_le _)
      simp only [h.tail_nil, hend, ne_eq, not_true_eq_false, if_false, true_or, if_true, List.length_nil]
      rw [if_neg (by omega)]
    · rw [List.concat_eq_append] at hitems
      subst hitems
      have hentry := hat (init.length - k)
      rw [List.take_append_of_le_length (by omega), List.length_append, List.length_singleton] at hentry
      simp only [h.tail, h.ne_end, ne_eq, not_false_eq_true, if_true, indexBackward_eq k h, hentry,
        List.length_append, List.length_singleton, Nat.add_sub_add_right]
      rw [List.take_append_of_le_length (by omega)]
      by_cases hlen : k ≤ init.length
      · rw [if_neg (by omega), if_pos (by omega)]
      · rw [if_pos (by omega), if_neg (by omega)]

/-! ## By content -/

/-- The first of the texts that are compared, each after `skip` others, that is the one looked
for. -/
def findSkip (vstr : Bytes) (skip : ℕ) : ℕ → List Bytes → Option ℕ
  | _, [] => none
  | 0, s :: ss => if s = vstr then some 0 else (findSkip vstr skip skip ss).map (· + 1)
  | skipcnt + 1, _ :: ss => (findSkip vstr skip skipcnt ss).map (· + 1)

/-- What `ziplistFind` reads at an entry, and that its comparison is one of texts: a number is
compared as such, but has only one text. -/
theorem Represents.compare (h : Represents zl (items ++ (w, s) :: items')) (vstr : Bytes) :
    ∃ encoding lensize len,
      zipDecodeLength zl (place items + zipDecodePrevlensize zl (place items)) = some (encoding, lensize, len) ∧
      place items + zipDecodePrevlensize zl (place items) + lensize + len = place (items ++ [(w, s)]) ∧
      zipMatches zl (place items + zipDecodePrevlensize zl (place items) + lensize) encoding len vstr =
        some (decide (s = vstr)) := by
  obtain ⟨a, c, rfl, ha, hw, hs⟩ := h.entry
  obtain ⟨hsize, -, -⟩ := decodePrevlen_eq (c := lengthBytes s ++ (contentBytes s ++ c)) hw ha
  have hlen : (a ++ prevlenBytes w (lastSize 0 items)).length = place items + prevlenSize w := by
    rw [List.length_append, ha, length_prevlenBytes]
  have hq : (a ++ (prevlenBytes w (lastSize 0 items) ++ lengthBytes s)).length =
      place items + prevlenSize w + (lengthBytes s).length := by
    rw [← List.append_assoc, List.length_append, hlen]
  obtain ⟨e, hdec, henc⟩ := decodeLength_eq (c := contentBytes s ++ c) hs hlen
  have hsplit : a ++ (entryBytes w (lastSize 0 items) s ++ c) =
      (a ++ (prevlenBytes w (lastSize 0 items) ++ lengthBytes s)) ++ (contentBytes s ++ c) := by
    simp only [entryBytes, List.append_assoc]
  rw [List.append_assoc, ← entry_append] at hdec
  rw [← entry_append] at hsize
  rw [hsize]
  refine ⟨e, (lengthBytes s).length, (contentBytes s).length, hdec, ?_, ?_⟩
  · rw [place_append_one, entrySize]
    omega
  · unfold zipMatches
    cases hz : zipTryEncoding s with
    | none =>
      rw [hz] at henc
      rw [if_pos henc, hsplit, contentBytes_none hz]
      refine congrArg some (decide_eq_decide.2 ⟨fun h => ?_, fun h => ?_⟩)
      · obtain ⟨hlen, heq⟩ := h
        rw [slice_append hq hlen] at heq
        exact heq
      · subst h
        exact ⟨rfl, slice_append hq rfl⟩
    | some p =>
      obtain ⟨v, e'⟩ := p
      rw [hz] at henc
      obtain ⟨rfl, hint⟩ := henc
      rw [if_neg (by rw [hint.not_str]; exact Bool.false_ne_true), hsplit, ← hq, hint.load]
      -- a text that is looked for stands for the same number only if it is the same text
      cases hv : zipTryEncoding vstr with
      | none =>
        refine congrArg some (decide_eq_false fun h => ?_).symm
        rw [h, hv] at hz
        cases hz
      | some p' =>
        obtain ⟨v', e'⟩ := p'
        simp only [(intEncoding_content hv).ne_zero, if_false, Option.map_some]
        refine congrArg some (decide_eq_decide.2 ⟨fun h => ?_, fun h => ?_⟩)
        · rw [← (tryEncoding_spec hz).1, ← (tryEncoding_spec hv).1, h]
        · rw [h, hv] at hz
          cases hz
          rfl

theorem findLoop_eq (vstr : Bytes) (skip n skipcnt : ℕ) (h : Represents zl (items ++ items'))
    (hn : items'.length < n) :
    ziplistFindLoop zl vstr skip n skipcnt (place items) =
      some ((findSkip vstr skip skipcnt (items'.map Prod.snd)).map fun i => place (items ++ items'.take i)) := by
  induction items' generalizing items n skipcnt with
  | nil =>
    obtain ⟨n, rfl⟩ : ∃ k, n = k + 1 := ⟨n - 1, by rw [List.length_nil] at hn; omega⟩
    rw [ziplistFindLoop, if_pos (h.atEnd.2 rfl), List.map_nil, findSkip]
    rfl
  | cons item items' ih =>
    obtain ⟨w, s⟩ := item
    obtain ⟨n, rfl⟩ : ∃ k, n = k + 1 := ⟨n - 1, by rw [List.length_cons] at hn; omega⟩
    obtain ⟨encoding, lensize, len, hdec, hnext, hmatch⟩ := h.compare vstr
    have hrest : ∀ cnt, ziplistFindLoop zl vstr skip n cnt (place (items ++ [(w, s)])) =
        some (((findSkip vstr skip cnt (items'.map Prod.snd)).map (· + 1)).map fun i =>
          place (items ++ ((w, s) :: items').take i)) := by
      intro cnt
      rw [ih n cnt h.shift (by rw [List.length_cons] at hn; omega), Option.map_map]
      congr 2
      funext i
      simp only [Function.comp, List.take_succ_cons, List.append_assoc, List.singleton_append]
    rw [ziplistFindLoop, if_neg h.ne_end]
    simp only [hdec, Option.bind_eq_bind, Option.bind_some, hnext, hmatch, hrest, decide_eq_true_eq]
    cases skipcnt with
    | zero =>
      by_cases hs : s = vstr
      · simp only [List.map_cons, findSkip, hs, if_true, Option.map_some, List.take_zero, List.append_nil]
      · simp only [List.map_cons, findSkip, hs, if_true, if_false]
    | succ skipcnt =>
      rw [if_neg (Nat.succ_ne_zero _)]
      simp only [List.map_cons, findSkip, Nat.add_sub_cancel]

/-- **Finding a text.** -/
theorem Represents.find (h : Represents zl (items ++ items')) (vstr : Bytes) (skip : ℕ) :
    ziplistFind zl (place items) vstr skip =
      some ((findSkip vstr skip 0 (items'.map Prod.snd)).map fun i => place (items ++ items'.take i)) := by
  refine findLoop_eq vstr skip _ 0 h ?_
  have := length_items_le 0 (items ++ items')
  rw [h.ziplistBytes_eq]
  rw [List.length_append] at this
  omega

/-! ## The number of entries -/

theorem countEntries_eq (n : ℕ) (h : Represents zl (items ++ items')) (hn : items'.length < n) :
    countEntries zl n (place items) = some items'.length := by
  induction items' generalizing items n with
  | nil =>
    obtain ⟨n, rfl⟩ : ∃ k, n = k + 1 := ⟨n - 1, by rw [List.length_nil] at hn; omega⟩
    rw [countEntries, if_pos (h.atEnd.2 rfl), List.length_nil]
  | cons item items' ih =>
    obtain ⟨w, s⟩ := item
    obtain ⟨n, rfl⟩ : ∃ k, n = k + 1 := ⟨n - 1, by rw [List.length_cons] at hn; omega⟩
    rw [countEntries, if_neg h.ne_end, h.rawlen, Option.bind_eq_bind, Option.bind_some, ← place_append_one,
      ih n h.shift (by rw [List.length_cons] at hn; omega), List.length_cons]
    rfl

/-- **The number of entries**, counted if the header does not have it. -/
theorem Represents.len (h : Represents zl items) :
    ∃ zl', ziplistLen zl = some (items.length, zl') ∧ Represents zl' items := by
  have hall : Represents zl ([] ++ items) := h
  have henough : items.length < ziplistBytes zl := by
    have := length_items_le 0 items
    rw [h.ziplistBytes_eq]
    omega
  have hcount : countEntries zl (ziplistBytes zl) ziplistHeaderSize = some items.length :=
    countEntries_eq _ hall henough
  have hrep := h
  obtain ⟨⟨t, n, hzl, ht, hn, hlen⟩, hfits, hsmall⟩ := h
  have hstored : ziplistLength zl = n := by rw [hzl, ziplistLength_header _ _ hn]
  unfold ziplistLen
  rw [hstored]
  by_cases hlt : n < 2 ^ 16 - 1
  · rw [if_pos hlt, hlen hlt]
    exact ⟨zl, rfl, hrep⟩
  · rw [if_neg hlt, hcount]
    refine ⟨_, rfl, ?_⟩
    by_cases hsize : items.length < 2 ^ 16 - 1
    · rw [if_pos hsize, hzl, writeLength_header]
      exact ⟨⟨t, items.length, rfl, ht, by omega, fun _ => rfl⟩, hfits, hsmall⟩
    · rw [if_neg hsize]
      exact hrep

end Coms4111.Server
