import Coms4111.Proof.ZiplistLayout

/-!
# Inserting into a ziplist

* `Represents`: the bytes are those of a list of texts, and have room.
* `insert_width`: the entry after the new one gets a length as wide as it needs, or keeps a wide
  one where the list would become shorter.
* `zipInsert_spec`: a text is inserted before the entries from an offset on.
-/

namespace Coms4111.Server

open Store

variable {a r s s' : Bytes} {b t n p q prev : ℕ} {w w' : Bool} {items items' : List (Bool × Bytes)}

/-! ## What a ziplist holds -/

/-- Bytes that are enough for texts, however the lengths are written. -/
def room : List Bytes → ℕ
  | [] => 11
  | s :: ss => room ss + (22 + s.length)

theorem eleven_le_room (ss : List Bytes) : 11 ≤ room ss := by
  induction ss with
  | nil => exact Nat.le_refl _
  | cons s ss ih => rw [room]; omega

theorem room_append (ss ss' : List Bytes) : room (ss ++ ss') + 11 = room ss + room ss' := by
  induction ss with
  | nil => exact Nat.add_comm _ _
  | cons s ss ih =>
    rw [List.cons_append, room, room]
    omega

theorem room_insert (ss : List Bytes) (s : Bytes) (ss' : List Bytes) :
    room (ss ++ s :: ss') = room (ss ++ ss') + (22 + s.length) := by
  have h1 := room_append ss ss'
  have h2 := room_append ss (s :: ss')
  rw [room] at h2
  omega

theorem room_drop_le (ss ss' : List Bytes) (num : ℕ) : room (ss ++ ss'.drop num) ≤ room (ss ++ ss') := by
  have h1 := room_append ss ss'
  have h2 := room_append ss (ss'.drop num)
  have h3 := room_append (ss'.take num) (ss'.drop num)
  have h4 := eleven_le_room (ss'.take num)
  rw [List.take_append_drop] at h3
  omega

theorem zipIntSize_le {e : UInt8} {k : ℕ} (h : zipIntSize e = some k) : k ≤ 8 := by
  unfold zipIntSize at h
  split_ifs at h <;> cases h <;> decide

theorem length_contentBytes_le (s : Bytes) : (contentBytes s).length ≤ s.length + 8 := by
  cases h : zipTryEncoding s with
  | none =>
    rw [contentBytes_none h]
    exact Nat.le_add_right _ _
  | some p =>
    have := zipIntSize_le (intEncoding_content h).size
    omega

theorem entrySize_le (w : Bool) (s : Bytes) : entrySize w s ≤ 18 + s.length := by
  have h1 := length_lengthBytes_le s
  have h2 := length_contentBytes_le s
  cases w <;> simp only [entrySize, prevlenSize_true, prevlenSize_false] <;> omega

theorem length_layout_le (prev : ℕ) (items : List (Bool × Bytes)) :
    11 + (layout prev items).length + 4 * items.length ≤ room (items.map Prod.snd) := by
  induction items generalizing prev with
  | nil => exact Nat.le_refl _
  | cons item items ih =>
    have hsize := entrySize_le item.1 item.2
    have hrest := ih (entrySize item.1 item.2)
    simp only [layout, List.length_append, length_entryBytes, List.length_cons, List.map_cons, room]
    omega

/-- **The ziplist holds the items**: their bytes, between a header with the right number of
bytes and the offset of the last entry, and the end. The header counts the entries while there
are fewer than `2^16 - 1`. -/
structure Represents (zl : Bytes) (items : List (Bool × Bytes)) : Prop where
  bytes : ∃ t n, zl = header (11 + (layout 0 items).length) t n ++ (layout 0 items ++ [zipEnd]) ∧
    t + lastSize 0 items = 10 + (layout 0 items).length ∧ n < 2 ^ 16 ∧ (n < 2 ^ 16 - 1 → n = items.length)
  fits : Fits 0 items
  small : room (items.map Prod.snd) < 2 ^ 32

theorem represents_new : Represents ziplistNew [] :=
  ⟨⟨10, 0, rfl, rfl, by decide, fun _ => rfl⟩, trivial, by decide⟩

/-- The count after an insertion. -/
theorem incrLength_one (b t : ℕ) (r : Bytes) {m : ℕ} (hn : n < 2 ^ 16) (hm : n < 2 ^ 16 - 1 → n = m) :
    ∃ n', ziplistIncrLength (header b t n ++ r) 1 = header b t n' ++ r ∧ n' < 2 ^ 16 ∧
      (n' < 2 ^ 16 - 1 → n' = m + 1) := by
  unfold ziplistIncrLength
  rw [ziplistLength_header b t hn]
  by_cases h : n < 2 ^ 16 - 1
  · rw [if_pos h]
    refine ⟨n + 1, ?_, by omega, fun _ => by rw [hm h]⟩
    rw [← writeLength_header b t n (n + 1), ← signedBytes_natCast]
    rfl
  · rw [if_neg h]
    exact ⟨n, rfl, hn, fun h' => absurd h' h⟩

/-- Behind the entries is the end, and only there. -/
theorem byteAt_layout (hfits : Fits prev items) {off : ℕ} (ha : a.length = off) :
    byteAt (a ++ (layout prev items ++ [zipEnd])) off = zipEnd ↔ items = [] := by
  cases items with
  | nil => exact ⟨fun _ => rfl, fun _ => byteAt_end ha⟩
  | cons item items =>
    refine ⟨fun h => absurd h ?_, fun h => by cases h⟩
    rw [layout, List.append_assoc]
    exact byteAt_entry hfits.1 ha

/-! ## The insertion in steps -/

theorem zipEncode_bytes (s : Bytes) (prevlen : ℕ) :
    zipStorePrevEntryLength prevlen ++ zipStoreEntryEncoding (encodingOf s) s.length ++ contentBytes s =
      entryBytes (decide (zipBigPrevlen ≤ prevlen)) prevlen s := by
  rw [storePrevEntryLength_eq, List.append_assoc]
  rfl

/-- The size that the code computes for the new entry. -/
theorem reqlen_eq (s : Bytes) (prevlen : ℕ) :
    (contentBytes s).length + (zipStorePrevEntryLength prevlen).length +
      (zipStoreEntryEncoding (encodingOf s) s.length).length =
        entrySize (decide (zipBigPrevlen ≤ prevlen)) s := by
  rw [length_storePrevEntryLength, entrySize, lengthBytes]
  omega

/-- **The insertion**, with the size of the new entry and by how much the next one changes. -/
theorem ziplistInsert_eq {zl moved cascaded : Bytes} {p prevlen len curlen : ℕ} {diff nextdiff : ℤ}
    {forcelarge : Bool} (s : Bytes) (hbytes : ziplistBytes zl = curlen) (hprev : prevlenAt zl p = some prevlen)
    (hlen : entrySize (decide (zipBigPrevlen ≤ prevlen)) s = len)
    (hdiff : (if byteAt zl p ≠ zipEnd then zipPrevLenByteDiff zl p len else 0) = diff)
    (hforce : decide (diff = -4 ∧ len < 4) = forcelarge) (hnext : (if forcelarge then 0 else diff) = nextdiff)
    (hmoved : moveTail (ziplistResize zl ((curlen : ℤ) + len + nextdiff).toNat) p curlen len nextdiff forcelarge =
      some moved)
    (hcascaded : (if nextdiff ≠ 0 then cascadeUpdate moved (p + len) else some moved) = some cascaded) :
    ziplistInsert zl p s =
      some (ziplistIncrLength
        (write cascaded p (entryBytes (decide (zipBigPrevlen ≤ prevlen)) prevlen s)) 1) := by
  simp only [ziplistInsert, hprev, zipEncode_eq, Option.bind_eq_bind, Option.bind_some, hbytes, reqlen_eq,
    hlen, hdiff, hforce, hnext, hmoved, hcascaded, zipEncode_bytes, Option.pure_def]

/-! ## At the end -/

/-- The length of the last entry, as the code reads it. -/
theorem prevlen_tail (hfits : Fits 0 items) (ht : t + lastSize 0 items = 10 + (layout 0 items).length) (b n : ℕ) :
    let zl := header b t n ++ (layout 0 items ++ [zipEnd])
    (if byteAt zl t ≠ zipEnd then zipRawEntryLength zl t else some 0) = some (lastSize 0 items) := by
  intro zl
  rcases List.eq_nil_or_concat items with rfl | ⟨init, ⟨w, s⟩, hitems⟩
  · have : byteAt zl t = zipEnd := byteAt_end (by rw [length_header]; exact ht.symm)
    rw [if_neg (not_not.2 this)]
    rfl
  · rw [List.concat_eq_append] at hitems
    subst hitems
    have hzl : zl = (header b t n ++ layout 0 init) ++ (entryBytes w (lastSize 0 init) s ++ [zipEnd]) := by
      simp only [zl, layout_append, layout, List.append_nil, List.append_assoc]
    simp only [layout_append, lastSize_append, layout, lastSize, List.append_nil, List.length_append,
      length_entryBytes] at ht
    obtain ⟨-, hw, hs, -⟩ := fits_append.1 hfits
    have hat : (header b t n ++ layout 0 init).length = t := by rw [List.length_append, length_header]; omega
    rw [hzl, if_pos (byteAt_entry hw hat), zipRawEntryLength_eq hw hs hat, lastSize_append]
    rfl

/-- **An entry at the end.** -/
theorem insert_end (hfits : Fits 0 items) (ht : t + lastSize 0 items = 10 + (layout 0 items).length)
    (hb : b = 11 + (layout 0 items).length) (hb' : b < 2 ^ 32) (n : ℕ) (s : Bytes) :
    let wide := decide (zipBigPrevlen ≤ lastSize 0 items)
    ziplistInsert (header b t n ++ (layout 0 items ++ [zipEnd])) (10 + (layout 0 items).length) s =
      some (ziplistIncrLength (header (b + entrySize wide s) (10 + (layout 0 items).length) n ++
        (layout 0 items ++ (entryBytes wide (lastSize 0 items) s ++ [zipEnd]))) 1) := by
  intro wide
  have hp : ∀ b t, (header b t n ++ layout 0 items).length = 10 + (layout 0 items).length := by
    intro b t
    rw [List.length_append, length_header]
  have hend : byteAt (header b t n ++ (layout 0 items ++ [zipEnd])) (10 + (layout 0 items).length) = zipEnd := by
    rw [← List.append_assoc]
    exact byteAt_end (hp b t)
  have htail := ziplistTailOffset_header b (by omega : t < 2 ^ 32) n (layout 0 items ++ [zipEnd])
  obtain ⟨g, h, hg, hgh, hgrow⟩ := ziplistResize_grow b t n (layout 0 items) (entrySize wide s)
  rw [← hb] at hgrow
  have hmove : moveTail (header (b + entrySize wide s) t n ++ (layout 0 items ++ (g ++ [zipEnd])))
      (10 + (layout 0 items).length) b (entrySize wide s) 0 false =
      some (header (b + entrySize wide s) (10 + (layout 0 items).length) n ++
        (layout 0 items ++ (g ++ [zipEnd]))) := by
    have hat : byteAt (header (b + entrySize wide s) t n ++ (layout 0 items ++ (g ++ [zipEnd])))
        (10 + (layout 0 items).length) = zipEnd := by
      rw [hgh, ← List.append_assoc]
      exact byteAt_append (hp _ t)
    rw [moveTail, if_neg (not_not.2 hat)]
    exact congrArg some (setTailOffset_header _ t n _ _)
  have hforce : decide ((0 : ℤ) = -4 ∧ entrySize wide s < 4) = false := by simp
  have hprev : prevlenAt (header b t n ++ (layout 0 items ++ [zipEnd])) (10 + (layout 0 items).length) =
      some (lastSize 0 items) := by
    rw [prevlenAt, if_neg (not_not.2 hend), htail]
    exact prevlen_tail hfits ht b n
  have hsize : ((b : ℤ) + entrySize wide s + 0).toNat = b + entrySize wide s := by omega
  rw [ziplistInsert_eq s (ziplistBytes_header hb' t n _) hprev rfl (if_neg (not_not.2 hend)) hforce rfl
    (by rw [if_neg Bool.false_ne_true, hsize, hgrow]; exact hmove) (if_neg (not_not.2 rfl)), ← List.append_assoc,
    write_append (hp _ _) (by rw [length_entryBytes, hg]), List.append_assoc]

/-! ## Before an entry -/

/-- **How wide the next entry's field becomes**: as wide as the new length needs, or still wide
where the new entry would be too small for the shift. -/
theorem insert_width (w : Bool) (len : ℕ) (hlen : len < 2 ^ 32) :
    let diff : ℤ := prevlenSize (decide (zipBigPrevlen ≤ len)) - (prevlenSize w : ℤ)
    let forcelarge := decide (diff = -4 ∧ len < 4)
    ∃ w', PrevFits w' len ∧ prevlenSize w ≤ len + prevlenSize w' ∧
      (if forcelarge then (0 : ℤ) else diff) = prevlenSize w' - (prevlenSize w : ℤ) ∧
      (if forcelarge then zipStorePrevEntryLengthLarge len else zipStorePrevEntryLength len) =
        prevlenBytes w' len := by
  intro diff forcelarge
  by_cases h : diff = -4 ∧ len < 4
  · have hforce : forcelarge = true := decide_eq_true h
    rw [hforce]
    cases w with
    | false =>
      have : diff = prevlenSize (decide (zipBigPrevlen ≤ len)) - (1 : ℤ) := rfl
      omega
    | true =>
      refine ⟨true, ⟨hlen, Bool.noConfusion⟩, ?_, ?_, rfl⟩
      · exact Nat.le_add_left _ _
      · exact (Int.sub_self _).symm
  · have hforce : forcelarge = false := decide_eq_false h
    rw [hforce]
    refine ⟨decide (zipBigPrevlen ≤ len), prevFits_store hlen, ?_, rfl, storePrevEntryLength_eq len⟩
    have hdiff : diff = prevlenSize (decide (zipBigPrevlen ≤ len)) - (prevlenSize w : ℤ) := rfl
    cases w <;> cases hd : decide (zipBigPrevlen ≤ len) <;> rw [hd] at hdiff <;>
      simp only [prevlenSize_true, prevlenSize_false] at hdiff ⊢ <;> omega

/-- The offset of the last entry, where the next entry may be the last. -/
def movedTail (t len : ℕ) (w w' : Bool) (items : List (Bool × Bytes)) : ℕ :=
  if items = [] then t + len else t + len + prevlenSize w' - prevlenSize w

/-- **The entries behind are moved**, and the next one has the length of the new one. -/
theorem moveTail_eq {len : ℕ} {g : Bytes} {forcelarge : Bool} (b' n : ℕ) (hq : PrevFits w q)
    (hs' : s'.length < 2 ^ 32) (hfits : Fits prev items) (hw' : PrevFits w' len)
    (hb : b = 11 + (a.length + (entrySize w s' + (layout prev items).length)))
    (hg : g.length + prevlenSize w = len + prevlenSize w') (ht : 10 ≤ t) (ht' : t + len + 4 < 2 ^ 32)
    (hstore : (if forcelarge then zipStorePrevEntryLengthLarge len else zipStorePrevEntryLength len) =
      prevlenBytes w' len) :
    ∃ j : Bytes, j.length = len ∧
      moveTail (header b' t n ++ (a ++ (entryBytes w q s' ++ (layout prev items ++ (g ++ [zipEnd])))))
        (10 + a.length) b
          len (prevlenSize w' - prevlenSize w) forcelarge =
        some (header b' (movedTail t len w w' items) n ++
          ((a ++ j) ++ (entryBytes w' len s' ++ (layout prev items ++ [zipEnd])))) := by
  have hsizes : 1 ≤ prevlenSize w ∧ prevlenSize w ≤ 5 ∧ 1 ≤ prevlenSize w' ∧ prevlenSize w' ≤ 5 := by
    cases w <;> cases w' <;> decide
  have hp : (header b' t n ++ a).length = 10 + a.length := by rw [List.length_append, length_header]
  have hne : byteAt (header b' t n ++ (a ++ (entryBytes w q s' ++ (layout prev items ++ (g ++ [zipEnd])))))
      (10 + a.length) ≠ zipEnd := by
    rw [← List.append_assoc]
    exact byteAt_entry hq hp
  have hsplit : header b' t n ++ (a ++ (entryBytes w q s' ++ (layout prev items ++ (g ++ [zipEnd])))) =
      (header b' t n ++ a) ++ (prevlenBytes w q ++
        ((lengthBytes s' ++ contentBytes s' ++ layout prev items) ++ (g ++ [zipEnd]))) := by
    simp only [entryBytes, List.append_assoc]
  have hsrc :
      (((10 + a.length : ℕ) : ℤ) - (prevlenSize w' - prevlenSize w)).toNat + (prevlenBytes w' len).length =
      10 + a.length + (prevlenBytes w q).length := by
    rw [length_prevlenBytes, length_prevlenBytes]
    omega
  obtain ⟨j, hj, hgap⟩ :=
    gap_eq (prevlenBytes w q) (lengthBytes s' ++ contentBytes s' ++ layout prev items) g [zipEnd]
      (prevlenBytes w' len) hp (Nat.le_add_right _ len) hsrc
      (by rw [length_prevlenBytes, length_prevlenBytes]; omega)
  have hcount : ((b : ℤ) - (10 + a.length : ℕ) - 1 + (prevlenSize w' - prevlenSize w)).toNat =
      (prevlenBytes w' len).length + (lengthBytes s' ++ contentBytes s' ++ layout prev items).length := by
    simp only [length_prevlenBytes, List.length_append, hb, entrySize]
    omega
  have hbytes : (header b' t n ++ a) ++ (j ++ (prevlenBytes w' len ++
      ((lengthBytes s' ++ contentBytes s' ++ layout prev items) ++ [zipEnd]))) =
      header b' t n ++ ((a ++ j) ++ (entryBytes w' len s' ++ (layout prev items ++ [zipEnd]))) := by
    simp only [entryBytes, List.append_assoc]
  rw [hbytes, ← hcount, ← hsplit] at hgap
  refine ⟨j, by omega, ?_⟩
  have hat : (header b' (t + len) n ++ (a ++ j)).length = 10 + a.length + len := by
    simp only [List.length_append, length_header]
    omega
  obtain ⟨entry, hentry, hlen⟩ := rawlen_eq (r := layout prev items ++ [zipEnd]) hw' hs' hat
  have hafter : (header b' (t + len) n ++ ((a ++ j) ++ entryBytes w' len s')).length =
      10 + a.length + len + entrySize w' s' := by
    rw [← List.append_assoc, List.length_append, hat, length_entryBytes]
  have hlast := byteAt_layout hfits hafter
  simp only [List.append_assoc] at hentry hlast hgap ⊢
  rw [moveTail, if_pos hne]
  simp only [hstore, hgap]
  rw [ziplistTailOffset_header _ (by omega), ← Int.natCast_add, setTailOffset_header, hentry]
  simp only [Option.bind_eq_bind, Option.bind_some, Option.pure_def, Option.some.injEq,
    Nat.add_assoc _ (ZlEntry.headersize _)]
  rw [hlen, ziplistTailOffset_header _ (by omega)]
  simp only [movedTail]
  by_cases hnil : items = []
  · rw [if_neg (not_not.2 (hlast.2 hnil)), if_pos hnil]
  · rw [if_pos (fun h => hnil (hlast.1 h)), if_neg hnil,
      show ((t + len : ℕ) : ℤ) + (prevlenSize w' - prevlenSize w) =
        ((t + len + prevlenSize w' - prevlenSize w : ℕ) : ℤ) by omega, setTailOffset_header]

theorem movedTail_eq {b' len : ℕ} (ht' : 10 ≤ t)
    (hs : entrySize w s' + prevlenSize w' = entrySize w' s' + prevlenSize w)
    (ht : t + lastSize (entrySize w s') items + 1 = b) (hb : b' + prevlenSize w = b + len + prevlenSize w') :
    movedTail t len w w' items + lastSize (entrySize w' s') items + 1 = b' := by
  have hsizes : prevlenSize w ≤ 5 := by cases w <;> decide
  unfold movedTail
  cases items with
  | nil =>
    simp only [lastSize, if_true] at ht ⊢
    omega
  | cons item items =>
    rw [if_neg (List.cons_ne_nil _ _)]
    simp only [lastSize] at ht ⊢
    omega

/-- The cascade from an entry whose size may have changed. -/
theorem cascadeUpdate_spec (b t n q : ℕ) (a : Bytes) (h : PrevFits w q) (hs : s.length < 2 ^ 32)
    (hfits : Fits prev items) (hb : b = 11 + (a.length + (entrySize w s + (layout prev items).length)))
    (hb' : b + 4 * items.length < 2 ^ 32) (ht : t + lastSize (entrySize w s) items + 1 = b) (changed : Prop)
    [Decidable changed] (hchanged : ¬changed → prev = entrySize w s) :
    let zl := header b t n ++ (a ++ (entryBytes w q s ++ (layout prev items ++ [zipEnd])))
    ∃ items' t' b', items'.map Prod.snd = items.map Prod.snd ∧ Fits (entrySize w s) items' ∧
      b' = 11 + (a.length + (entrySize w s + (layout (entrySize w s) items').length)) ∧
      t' + lastSize (entrySize w s) items' + 1 = b' ∧
      (if changed then cascadeUpdate zl (10 + a.length) else some zl) =
        some (header b' t' n ++ (a ++ (entryBytes w q s ++ (layout (entrySize w s) items' ++ [zipEnd])))) := by
  intro zl
  by_cases hc : changed
  · have hm : items.length < b := by
      have := length_items_le prev items
      omega
    obtain ⟨items', t', b', htext, hfits', hlen, -, htail, hrun⟩ :=
      cascade_spec b b t n q a h hs hfits hm hb hb' ht
    refine ⟨items', t', b', htext, hfits', hlen, htail, ?_⟩
    rw [if_pos hc, cascadeUpdate, ziplistBytes_header (by omega), hrun]
  · obtain rfl := hchanged hc
    exact ⟨items, t, b, rfl, hfits, hb, ht, if_neg hc⟩

/-- **An entry before another.** -/
theorem insert_before (n : ℕ) (hq : PrevFits w q) (hs' : s'.length < 2 ^ 32)
    (hfits : Fits (entrySize w s') items)
    (hb : b = 11 + (a.length + (entrySize w s' + (layout (entrySize w s') items).length)))
    (ht : t + lastSize (entrySize w s') items + 1 = b)
    (hb' : b + 22 + s.length + 4 * (items.length + 1) < 2 ^ 32) :
    let wide := decide (zipBigPrevlen ≤ q)
    ∃ w' items' t' b', items'.map Prod.snd = items.map Prod.snd ∧ PrevFits w' (entrySize wide s) ∧
      Fits (entrySize w' s') items' ∧
      b' = 11 + (a.length + (entrySize wide s + (entrySize w' s' + (layout (entrySize w' s') items').length))) ∧
      t' + lastSize (entrySize w' s') items' + 1 = b' ∧
      ziplistInsert (header b t n ++ (a ++ (entryBytes w q s' ++ (layout (entrySize w s') items ++ [zipEnd]))))
          (10 + a.length) s =
        some (ziplistIncrLength
          (header b' t' n ++ (a ++ (entryBytes wide q s ++ (entryBytes w' (entrySize wide s) s' ++
          (layout (entrySize w' s') items' ++ [zipEnd]))))) 1) := by
  intro wide
  have hsize := entrySize_le wide s
  generalize hlen : entrySize wide s = len at *
  obtain ⟨w', hw', hshift, hnext, hstore⟩ := insert_width w len (by omega)
  generalize hforce : decide (((prevlenSize (decide (zipBigPrevlen ≤ len)) : ℤ) - prevlenSize w) = -4 ∧ len < 4) =
    forcelarge at hnext hstore
  have hsizes : entrySize w s' + prevlenSize w' = entrySize w' s' + prevlenSize w ∧ prevlenSize w' ≤ 5 := by
    refine ⟨by simp only [entrySize]; omega, by cases w' <;> decide⟩
  -- the reads before the insertion
  have hp : (header b t n ++ a).length = 10 + a.length := by rw [List.length_append, length_header]
  have hzl : header b t n ++ (a ++ (entryBytes w q s' ++ (layout (entrySize w s') items ++ [zipEnd]))) =
      (header b t n ++ a) ++ (prevlenBytes w q ++ (lengthBytes s' ++ (contentBytes s' ++
        (layout (entrySize w s') items ++ [zipEnd])))) := by
    simp only [entryBytes, List.append_assoc]
  obtain ⟨hsize', hprev, hne⟩ := decodePrevlen_eq (c := lengthBytes s' ++ (contentBytes s' ++
    (layout (entrySize w s') items ++ [zipEnd]))) hq hp
  rw [← hzl] at hsize' hprev hne
  have hdiff : zipPrevLenByteDiff
      (header b t n ++ (a ++ (entryBytes w q s' ++ (layout (entrySize w s') items ++ [zipEnd]))))
        (10 + a.length) len =
      prevlenSize (decide (zipBigPrevlen ≤ len)) - (prevlenSize w : ℤ) := by
    rw [zipPrevLenByteDiff, hsize', length_storePrevEntryLength]
  -- growing, and moving what follows
  have hbody : a ++ (entryBytes w q s' ++ (layout (entrySize w s') items ++ [zipEnd])) =
      (a ++ (entryBytes w q s' ++ layout (entrySize w s') items)) ++ [zipEnd] := by
    simp only [List.append_assoc]
  obtain ⟨g, -, hg, -, hgrow⟩ :=
    ziplistResize_grow b t n (a ++ (entryBytes w q s' ++ layout (entrySize w s') items))
      (len + prevlenSize w' - prevlenSize w)
  have hnew : ((b : ℤ) + len + (prevlenSize w' - prevlenSize w)).toNat =
      11 + (a ++ (entryBytes w q s' ++ layout (entrySize w s') items)).length +
        (len + prevlenSize w' - prevlenSize w) := by
    simp only [List.length_append, length_entryBytes, hb]
    omega
  rw [← hbody, ← hnew] at hgrow
  obtain ⟨b', hb''⟩ : ∃ b' : ℕ, ((b : ℤ) + len + (prevlenSize w' - prevlenSize w)).toNat = b' := ⟨_, rfl⟩
  have hlast := lastSize_le (entrySize w s') items
  obtain ⟨j, hj, hmove⟩ := moveTail_eq (t := t) (g := g) b' n hq hs' hfits hw' hb (by omega) (by omega)
    (by omega) hstore
  simp only [List.append_assoc] at hgrow hmove ⊢
  rw [hb''] at hgrow
  rw [← hgrow] at hmove
  -- the cascade, and the new entry
  have hplace : 10 + a.length + len = 10 + (a ++ j).length := by rw [List.length_append, hj, Nat.add_assoc]
  obtain ⟨items', t', b1, htext, hfits', hlen', htail', hrun⟩ :=
    cascadeUpdate_spec b' (movedTail t len w w' items) n len (a ++ j) hw' hs' hfits
      (by rw [List.length_append, hj]; omega) (by omega)
      (movedTail_eq (by omega) hsizes.1 ht (by omega)) (((prevlenSize w' : ℤ) - prevlenSize w) ≠ 0)
    (fun hc => by rw [not_not] at hc; omega)
  refine ⟨w', items', t', b1, htext, hw', hfits', ?_, htail', ?_⟩
  · rw [hlen', List.length_append, hj, Nat.add_assoc a.length]
  · simp only [List.append_assoc] at hrun
    rw [← hplace] at hrun
    rw [ziplistInsert_eq s (ziplistBytes_header (by omega) t n _) ((if_pos hne).trans (congrArg some hprev)) hlen
      ((if_pos hne).trans hdiff) hforce hnext (by rw [hb'']; exact hmove) hrun,
      ← List.append_assoc (header b1 t' n),
      write_append (by rw [List.length_append, length_header]) (by rw [length_entryBytes, hlen, hj]),
      List.append_assoc]

theorem represents_incr {m : ℕ} (hb : b = 11 + (layout 0 items).length)
    (ht : t + lastSize 0 items = 10 + (layout 0 items).length) (hn : n < 2 ^ 16) (hcount : n < 2 ^ 16 - 1 → n = m)
    (hm : items.length = m + 1) (hfits : Fits 0 items) (hsmall : room (items.map Prod.snd) < 2 ^ 32) :
    Represents (ziplistIncrLength (header b t n ++ (layout 0 items ++ [zipEnd])) 1) items := by
  obtain ⟨n', heq, hn', hcount'⟩ := incrLength_one b t (layout 0 items ++ [zipEnd]) hn hcount
  exact ⟨⟨t, n', by rw [heq, hb], ht, hn', fun h => by rw [hcount' h, hm]⟩, hfits, hsmall⟩

/-- **A text is inserted** before the entries from an offset on; those before it are as they
were. -/
theorem zipInsert_spec {zl : Bytes} (h : Represents zl (items ++ items'))
    (hsmall : room (items.map Prod.snd ++ s :: items'.map Prod.snd) < 2 ^ 32) :
    ∃ zl' w items'', ziplistInsert zl (10 + (layout 0 items).length) s = some zl' ∧
      items''.map Prod.snd = items'.map Prod.snd ∧ Represents zl' (items ++ (w, s) :: items'') := by
  obtain ⟨⟨t, n, rfl, ht, hn, hcount⟩, hfits, -⟩ := h
  have hlong := length_layout_le 0 (items ++ items')
  have hroom := hsmall
  rw [room_insert, ← List.map_append] at hroom
  have hs : s.length < 2 ^ 32 := by omega
  obtain ⟨hfits1, hfits2⟩ := fits_append.1 hfits
  have hlast : lastSize 0 items < 2 ^ 32 := by
    rw [layout_append, List.length_append] at hlong
    rcases lastSize_le 0 items with ⟨-, h⟩ | h <;> omega
  have hwide := prevFits_store hlast
  cases items' with
  | nil =>
    rw [List.append_nil] at *
    have hbytes : ∀ r, layout 0 items ++
        (entryBytes (decide (zipBigPrevlen ≤ lastSize 0 items)) (lastSize 0 items) s ++ r) =
        layout 0 (items ++ [(decide (zipBigPrevlen ≤ lastSize 0 items), s)]) ++ r := by
      intro r
      simp only [layout_append, layout, List.append_nil, List.append_assoc]
    have hinsert := insert_end hfits ht rfl (by omega) n s
    simp only [hbytes] at hinsert
    refine ⟨_, decide (zipBigPrevlen ≤ lastSize 0 items), [], hinsert, rfl, ?_⟩
    refine represents_incr ?_ ?_ hn hcount (List.length_append ..) (fits_append.2 ⟨hfits1, hwide, hs, trivial⟩) ?_
    · simp only [layout_append, layout, List.append_nil, List.length_append, length_entryBytes, Nat.add_assoc]
    · simp only [layout_append, lastSize_append, layout, lastSize, List.append_nil, List.length_append,
        length_entryBytes, Nat.add_assoc]
    · rw [List.map_append]
      exact hsmall
  | cons item items' =>
    obtain ⟨w, s'⟩ := item
    obtain ⟨hw, hs', hrest⟩ := hfits2
    simp only [layout_append, lastSize_append, layout, lastSize, List.append_assoc, List.length_append,
      length_entryBytes, List.length_cons] at ht hlong hroom ⊢
    obtain ⟨w', items'', t', b', htext, hw', hfits', hlen, htail, hinsert⟩ :=
      insert_before (a := layout 0 items) (t := t) n hw hs' hrest rfl (by omega) (s := s) (by omega)
    have hnew :
        ∀ r, layout 0 items ++ (entryBytes (decide (zipBigPrevlen ≤ lastSize 0 items)) (lastSize 0 items) s ++
            (entryBytes w' (entrySize (decide (zipBigPrevlen ≤ lastSize 0 items)) s) s' ++
              (layout (entrySize w' s') items'' ++ r))) =
          layout 0 (items ++ (decide (zipBigPrevlen ≤ lastSize 0 items), s) :: (w', s') :: items'') ++ r := by
      intro r
      simp only [layout_append, layout, List.append_assoc]
    rw [hnew] at hinsert
    refine ⟨_, decide (zipBigPrevlen ≤ lastSize 0 items), (w', s') :: items'', hinsert,
      by rw [List.map_cons, List.map_cons, htext], ?_⟩
    refine represents_incr ?_ ?_ hn hcount ?_ (fits_append.2 ⟨hfits1, hwide, hs, hw', hs', hfits'⟩) ?_
    · rw [hlen]
      simp only [layout_append, layout, List.length_append, length_entryBytes]
    · simp only [layout_append, lastSize_append, layout, lastSize, List.length_append, length_entryBytes]
      omega
    · have hsame := congrArg List.length htext
      simp only [List.length_map] at hsame
      simp only [List.length_append, List.length_cons, hsame]
      omega
    · rw [List.map_append, List.map_cons, List.map_cons, htext]
      exact hsmall

end Coms4111.Server
