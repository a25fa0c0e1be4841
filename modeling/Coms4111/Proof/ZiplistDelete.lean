import Coms4111.Proof.ZiplistInsert

/-!
# Deleting from a ziplist

* `closeGap_eq`: the entry after the gap gets its new length before it is moved, at an offset
  where the old one ends.
* `zipDelete_spec`: a number of entries is deleted from an offset on.
-/

namespace Coms4111.Server

open Store

variable {a c d r s s' : Bytes} {b t n p q prev : ℕ} {w w' : Bool} {items items' : List (Bool × Bytes)}

/-- The count after a deletion. -/
theorem incrLength_neg (b t : ℕ) (r : Bytes) {m k : ℕ} (hn : n < 2 ^ 16) (hm : n < 2 ^ 16 - 1 → n = m)
    (hk : k ≤ m) :
    ∃ n', ziplistIncrLength (header b t n ++ r) (-k) = header b t n' ++ r ∧ n' < 2 ^ 16 ∧
      (n' < 2 ^ 16 - 1 → n' = m - k) := by
  unfold ziplistIncrLength
  rw [ziplistLength_header b t hn]
  by_cases h : n < 2 ^ 16 - 1
  · have hnm := hm h
    rw [if_pos h]
    refine ⟨n - k, ?_, by omega, fun _ => by rw [hnm]⟩
    rw [show ((n : ℤ) + -k) = ((n - k : ℕ) : ℤ) by omega, signedBytes_natCast, writeLength_header]
  · rw [if_neg h]
    exact ⟨n, rfl, hn, fun h' => absurd h' h⟩

/-- **The entries that are passed**: as many as are asked for, or all that there are. -/
theorem skipEntries_eq (hfits : Fits prev items) (num : ℕ) (ha : a.length = p) :
    skipEntries (a ++ (layout prev items ++ [zipEnd])) num p =
      some (p + (layout prev (items.take num)).length, (items.take num).length) := by
  induction num generalizing prev items a p with
  | zero => rfl
  | succ num ih =>
    cases items with
    | nil =>
      rw [skipEntries, if_pos ((byteAt_layout hfits ha).2 rfl)]
      rfl
    | cons item items =>
      obtain ⟨hw, hs, hrest⟩ := hfits
      have hsplit : a ++ (layout prev (item :: items) ++ [zipEnd]) =
          (a ++ entryBytes item.1 prev item.2) ++ (layout (entrySize item.1 item.2) items ++ [zipEnd]) := by
        simp only [layout, List.append_assoc]
      have hnext := ih hrest (a := a ++ entryBytes item.1 prev item.2) (p := p + entrySize item.1 item.2)
        (by rw [List.length_append, ha, length_entryBytes])
      rw [← hsplit] at hnext
      have hlen : zipRawEntryLength (a ++ (layout prev (item :: items) ++ [zipEnd])) p =
          some (entrySize item.1 item.2) := by
        rw [layout, List.append_assoc]
        exact zipRawEntryLength_eq hw hs ha
      have hne : byteAt (a ++ (layout prev (item :: items) ++ [zipEnd])) p ≠ zipEnd := by
        rw [layout, List.append_assoc]
        exact byteAt_entry hw ha
      rw [skipEntries, if_neg hne, hlen, Option.bind_eq_bind, Option.bind_some, hnext]
      simp only [Option.bind_eq_bind, Option.bind_some, Option.pure_def, List.take_succ_cons, layout,
        List.length_append, length_entryBytes, List.length_cons, Nat.add_assoc]

section

variable {zl closed : Bytes} {first num bytes totlen deleted prevrawlen : ℕ} {nextdiff : ℤ}

/-- **The deletion**, up to the end. -/
theorem ziplistDeleteAt_end (hfirst : (zipEntry zl first).map ZlEntry.prevrawlen = some prevrawlen)
    (hskip : skipEntries zl num first = some (first + totlen, deleted)) (hpos : 0 < totlen)
    (hbytes : ziplistBytes zl = bytes) (hend : byteAt zl (first + totlen) = zipEnd) :
    ziplistDeleteAt zl first num = some (ziplistIncrLength
      (ziplistResize (setTailOffset zl ((first : ℤ) - prevrawlen)) (bytes - totlen)) (-deleted)) := by
  obtain ⟨entry, hentry, hprev⟩ := Option.map_eq_some_iff.1 hfirst
  unfold ziplistDeleteAt
  simp only [hentry, hskip, Option.bind_eq_bind, Option.bind_some, Nat.add_sub_cancel_left, hpos, if_true,
    hend, hprev, hbytes]
  rfl

/-- The deletion, where there is an entry behind. -/
theorem ziplistDeleteAt_inside (hfirst : (zipEntry zl first).map ZlEntry.prevrawlen = some prevrawlen)
    (hskip : skipEntries zl num first = some (first + totlen, deleted)) (hpos : 0 < totlen)
    (hbytes : ziplistBytes zl = bytes) (hend : byteAt zl (first + totlen) ≠ zipEnd)
    (hnext : zipPrevLenByteDiff zl (first + totlen) prevrawlen = nextdiff)
    (hclose : closeGap zl first (first + totlen) bytes totlen prevrawlen nextdiff = some closed) :
    let shrunk := ziplistIncrLength (ziplistResize closed ((bytes : ℤ) - totlen + nextdiff).toNat) (-deleted)
    ziplistDeleteAt zl first num = if nextdiff ≠ 0 then cascadeUpdate shrunk first else some shrunk := by
  obtain ⟨entry, hentry, hprev⟩ := Option.map_eq_some_iff.1 hfirst
  intro shrunk
  unfold ziplistDeleteAt
  simp only [hentry, hskip, Option.bind_eq_bind, Option.bind_some, Nat.add_sub_cancel_left, hpos, if_true,
    hprev, hbytes, hnext]
  rw [if_pos hend, hclose, Option.bind_some]

/-- The deletion of no entry. -/
theorem ziplistDeleteAt_none (hfirst : (zipEntry zl first).map ZlEntry.prevrawlen = some prevrawlen)
    (hskip : skipEntries zl num first = some (first, deleted)) : ziplistDeleteAt zl first num = some zl := by
  obtain ⟨entry, hentry, -⟩ := Option.map_eq_some_iff.1 hfirst
  unfold ziplistDeleteAt
  simp only [hentry, hskip, Option.bind_eq_bind, Option.bind_some, Nat.sub_self, Nat.lt_irrefl, if_false]

end

/-- The offset of the last entry, where the entry behind the gap may be the last. -/
def closedTail (t len : ℕ) (w w' : Bool) (items : List (Bool × Bytes)) : ℕ :=
  if items = [] then t - len else t - len + prevlenSize w' - prevlenSize w

/-- **The gap is closed**, and the entry behind it has the length of the one before it. -/
theorem closeGap_eq {len : ℕ} (n : ℕ) (hs' : s'.length < 2 ^ 32) (hfits : Fits prev items)
    (hlen : len < 2 ^ 32) (hw' : w' = decide (zipBigPrevlen ≤ len))
    (hgap : prevlenSize w' ≤ d.length + prevlenSize w)
    (hb : b = 11 + (a.length + (d.length + (entrySize w s' + (layout prev items).length))))
    (ht : 10 + a.length + d.length ≤ t) (ht' : t < 2 ^ 32) :
    ∃ j : Bytes, 0 < j.length ∧
      closeGap (header b t n ++ (a ++ (d ++ (entryBytes w q s' ++ (layout prev items ++ [zipEnd])))))
        (10 + a.length)
          (10 + a.length + d.length) b d.length len (prevlenSize w' - prevlenSize w) =
        some (header b (closedTail t d.length w w' items) n ++
          ((a ++ (entryBytes w' len s' ++ layout prev items)) ++ j)) := by
  have hsizes : 1 ≤ prevlenSize w ∧ prevlenSize w ≤ 5 ∧ 1 ≤ prevlenSize w' ∧ prevlenSize w' ≤ 5 := by
    cases w <;> cases w' <;> decide
  have hfitsw : PrevFits w' len := by rw [hw']; exact prevFits_store hlen
  obtain ⟨p', hp'⟩ :
      ∃ p' : ℕ, (((10 + a.length + d.length : ℕ) : ℤ) - (prevlenSize w' - prevlenSize w)).toNat = p' :=
    ⟨_, rfl⟩
  -- the length, ending where the old one did
  have hsplit : header b t n ++ (a ++ (d ++ (entryBytes w q s' ++ (layout prev items ++ [zipEnd])))) =
      (header b t n ++ a) ++ ((d ++ prevlenBytes w q) ++
        (lengthBytes s' ++ (contentBytes s' ++ (layout prev items ++ [zipEnd])))) := by
    simp only [entryBytes, List.append_assoc]
  have hstart : (header b t n ++ a).length ≤ p' := by
    rw [List.length_append, length_header]
    omega
  obtain ⟨d', hd', hwrite⟩ := write_ending (header b t n ++ a) (d ++ prevlenBytes w q)
    (lengthBytes s' ++ (contentBytes s' ++ (layout prev items ++ [zipEnd]))) (prevlenBytes w' len) hstart
    (by simp only [List.length_append, length_header, length_prevlenBytes]; omega)
  rw [← hsplit] at hwrite
  rw [List.length_append, length_header] at hd'
  have hentry : ∀ t, (header b t n ++ a) ++ (d' ++ (prevlenBytes w' len ++
      (lengthBytes s' ++ (contentBytes s' ++ (layout prev items ++ [zipEnd]))))) =
      header b t n ++ (a ++ (d' ++ (entryBytes w' len s' ++ (layout prev items ++ [zipEnd])))) := by
    intro t
    simp only [entryBytes, List.append_assoc]
  rw [hentry] at hwrite
  -- the offset of the last entry
  have hat : (header b (t - d.length) n ++ (a ++ d')).length = p' := by
    simp only [List.length_append, length_header]
    omega
  obtain ⟨entry, hentry', hraw⟩ := rawlen_eq (r := layout prev items ++ [zipEnd]) hfitsw hs' hat
  have hafter : (header b (t - d.length) n ++ ((a ++ d') ++ entryBytes w' len s')).length =
      p' + entrySize w' s' := by
    rw [← List.append_assoc, List.length_append, hat, length_entryBytes]
  have hlast := byteAt_layout hfits hafter
  simp only [List.append_assoc] at hentry' hlast
  -- moving what follows
  have hfront : (header b (closedTail t d.length w w' items) n ++ a).length = 10 + a.length := by
    rw [List.length_append, length_header]
  obtain ⟨j, hj, hmove⟩ := memmove_back d' (entryBytes w' len s' ++ layout prev items) [zipEnd] hfront
  refine ⟨j, by rw [hj]; exact Nat.succ_pos _, ?_⟩
  have hcount : b - p' - 1 = (entryBytes w' len s' ++ layout prev items).length := by
    simp only [List.length_append, length_entryBytes, hb, entrySize]
    omega
  rw [← hcount, hd'] at hmove
  simp only [List.append_assoc] at hmove ⊢
  have htail : closeGap (header b t n ++ (a ++ (d ++ (entryBytes w q s' ++ (layout prev items ++ [zipEnd])))))
      (10 + a.length) (10 + a.length + d.length) b d.length len (prevlenSize w' - prevlenSize w) =
      some (memmove (header b (closedTail t d.length w w' items) n ++
        (a ++ (d' ++ (entryBytes w' len s' ++ (layout prev items ++ [zipEnd]))))) (10 + a.length) p'
          (b - p' - 1)) := by
    unfold closeGap
    simp only [hp', storePrevEntryLength_eq, ← hw', hwrite]
    rw [ziplistTailOffset_header _ ht',
      show (t : ℤ) - d.length = ((t - d.length : ℕ) : ℤ) by omega, setTailOffset_header, hentry']
    simp only [Option.bind_eq_bind, Option.bind_some, Option.pure_def, Nat.add_assoc _ (ZlEntry.headersize _)]
    rw [hraw, ziplistTailOffset_header _ (by omega)]
    simp only [closedTail]
    by_cases hnil : items = []
    · rw [if_neg (not_not.2 (hlast.2 hnil)), if_pos hnil]
    · rw [if_pos (fun h => hnil (hlast.1 h)), if_neg hnil,
        show ((t - d.length : ℕ) : ℤ) + (prevlenSize w' - prevlenSize w) =
          ((t - d.length + prevlenSize w' - prevlenSize w : ℕ) : ℤ) by omega, setTailOffset_header]
  rw [htail, hmove]

theorem closedTail_eq {b' len : ℕ} (hs : entrySize w s' + prevlenSize w' = entrySize w' s' + prevlenSize w)
    (ht : t + lastSize (entrySize w s') items + 1 = b) (hlow : 10 + len ≤ t)
    (hb : b' + len + prevlenSize w = b + prevlenSize w') :
    closedTail t len w w' items + lastSize (entrySize w' s') items + 1 = b' := by
  have hsizes : prevlenSize w ≤ 5 := by cases w <;> decide
  unfold closedTail
  cases items with
  | nil =>
    simp only [lastSize, if_true] at ht ⊢
    omega
  | cons item items =>
    rw [if_neg (List.cons_ne_nil _ _)]
    simp only [lastSize] at ht ⊢
    omega

/-- **Entries at the end are deleted.** -/
theorem delete_end {num : ℕ} (hw : PrevFits w q) (hs : s.length < 2 ^ 32) (hq : q ≤ a.length)
    (hskip : skipEntries (header b t n ++ (a ++ (entryBytes w q s ++ (r ++ [zipEnd])))) num (10 + a.length) =
      some (10 + a.length + (entrySize w s + r.length), p))
    (hb : b = 11 + (a.length + (entrySize w s + r.length))) (hb' : b < 2 ^ 32) :
    ziplistDeleteAt (header b t n ++ (a ++ (entryBytes w q s ++ (r ++ [zipEnd])))) (10 + a.length) num =
      some (ziplistIncrLength (header (11 + a.length) (10 + a.length - q) n ++ (a ++ [zipEnd])) (-p)) := by
  have hat : (header b t n ++ a).length = 10 + a.length := by rw [List.length_append, length_header]
  obtain ⟨entry, hentry, -, hprev, -⟩ := zipEntry_eq (c := r ++ [zipEnd]) hw hs hat
  have hafter : (header b t n ++ (a ++ (entryBytes w q s ++ r))).length =
      10 + a.length + (entrySize w s + r.length) := by
    simp only [List.length_append, length_header, length_entryBytes]
    omega
  have hend := byteAt_end hafter
  have hpos := two_le_entrySize w s
  have hshrink := ziplistResize_shrink (r := entryBytes w q s ++ (r ++ [zipEnd])) b (10 + a.length - q) n a
    (by rw [List.length_append, length_entryBytes]; omega)
  simp only [List.append_assoc] at hentry hend
  rw [ziplistDeleteAt_end (Option.map_eq_some_iff.2 ⟨entry, hentry, hprev⟩) hskip (by omega)
      (ziplistBytes_header hb' t n _) hend,
    show ((10 + a.length : ℕ) : ℤ) - q = ((10 + a.length - q : ℕ) : ℤ) by omega, setTailOffset_header,
    show b - (entrySize w s + r.length) = 11 + a.length by omega, hshrink]

/-- **Entries before another are deleted.** -/
theorem delete_inside {num len k : ℕ}
    (hfirst : (zipEntry (header b t n ++ (a ++ (d ++ (entryBytes w q s' ++
      (layout (entrySize w s') items ++ [zipEnd]))))) (10 + a.length)).map ZlEntry.prevrawlen = some len)
    (hskip : skipEntries (header b t n ++ (a ++ (d ++ (entryBytes w q s' ++
      (layout (entrySize w s') items ++ [zipEnd]))))) num (10 + a.length) = some (10 + a.length + d.length, k))
    (hq : PrevFits w q) (hs' : s'.length < 2 ^ 32) (hfits : Fits (entrySize w s') items) (hlen : len < 2 ^ 32)
    (hd : 0 < d.length) (hgap : zipBigPrevlen ≤ len → 4 ≤ d.length)
    (hb : b = 11 + (a.length + (d.length + (entrySize w s' + (layout (entrySize w s') items).length))))
    (ht : t + lastSize (entrySize w s') items + 1 = b) (hb' : b + 4 * (items.length + 1) < 2 ^ 32)
    {m : ℕ} (hn : n < 2 ^ 16) (hm : n < 2 ^ 16 - 1 → n = m) (hk : k ≤ m) :
    ∃ w' items' t' b' n', items'.map Prod.snd = items.map Prod.snd ∧ PrevFits w' len ∧
      Fits (entrySize w' s') items' ∧
      b' = 11 + (a.length + (entrySize w' s' + (layout (entrySize w' s') items').length)) ∧
      t' + lastSize (entrySize w' s') items' + 1 = b' ∧ n' < 2 ^ 16 ∧ (n' < 2 ^ 16 - 1 → n' = m - k) ∧
      ziplistDeleteAt (header b t n ++ (a ++ (d ++ (entryBytes w q s' ++
          (layout (entrySize w s') items ++ [zipEnd]))))) (10 + a.length) num =
        some (header b' t' n' ++
          (a ++ (entryBytes w' len s' ++ (layout (entrySize w' s') items' ++ [zipEnd])))) := by
  obtain ⟨w', hw'⟩ : ∃ w', w' = decide (zipBigPrevlen ≤ len) := ⟨_, rfl⟩
  have hfitsw : PrevFits w' len := by rw [hw']; exact prevFits_store hlen
  have hsizes : entrySize w s' + prevlenSize w' = entrySize w' s' + prevlenSize w ∧ prevlenSize w ≤ 5 ∧
      prevlenSize w' ≤ 5 := by
    refine ⟨by simp only [entrySize]; omega, by cases w <;> decide, by cases w' <;> decide⟩
  have hgap' : prevlenSize w' ≤ d.length + prevlenSize w := by
    cases w' with
    | false => simp only [prevlenSize_false]; omega
    | true =>
      have := hgap (of_decide_eq_true hw'.symm)
      cases w <;> simp only [prevlenSize_true, prevlenSize_false] <;> omega
  have hp : (header b t n ++ (a ++ d)).length = 10 + a.length + d.length := by
    simp only [List.length_append, length_header, Nat.add_assoc]
  have hzl : header b t n ++ (a ++ (d ++ (entryBytes w q s' ++ (layout (entrySize w s') items ++ [zipEnd])))) =
      (header b t n ++ (a ++ d)) ++ (prevlenBytes w q ++ (lengthBytes s' ++ (contentBytes s' ++
        (layout (entrySize w s') items ++ [zipEnd])))) := by
    simp only [entryBytes, List.append_assoc]
  obtain ⟨hsize, -, hne⟩ := decodePrevlen_eq (c := lengthBytes s' ++ (contentBytes s' ++
    (layout (entrySize w s') items ++ [zipEnd]))) hq hp
  rw [← hzl] at hsize hne
  have hlast := lastSize_le (entrySize w s') items
  obtain ⟨j, hj, hclose⟩ := closeGap_eq (q := q) (t := t) n hs' hfits hlen hw' hgap' hb (by omega) (by omega)
  have hshrink := ziplistResize_shrink b (closedTail t d.length w w' items) n
    (a ++ (entryBytes w' len s' ++ layout (entrySize w s') items)) hj
  obtain ⟨b1, hb1⟩ : ∃ b1, b1 = 11 + (a ++ (entryBytes w' len s' ++ layout (entrySize w s') items)).length :=
    ⟨_, rfl⟩
  have hb1' : b1 = 11 + (a.length + (entrySize w' s' + (layout (entrySize w s') items).length)) := by
    rw [hb1]
    simp only [List.length_append, length_entryBytes]
  rw [← hb1] at hshrink
  obtain ⟨n', hincr, hn', hcount⟩ := incrLength_neg b1 (closedTail t d.length w w' items)
    ((a ++ (entryBytes w' len s' ++ layout (entrySize w s') items)) ++ [zipEnd]) hn hm hk
  have hdiff : zipPrevLenByteDiff (header b t n ++ (a ++ (d ++ (entryBytes w q s' ++
      (layout (entrySize w s') items ++ [zipEnd]))))) (10 + a.length + d.length) len =
      (prevlenSize w' : ℤ) - prevlenSize w := by
    rw [zipPrevLenByteDiff, hsize, length_storePrevEntryLength, hw']
  rw [ziplistDeleteAt_inside hfirst hskip hd (ziplistBytes_header (by omega) t n _) hne hdiff hclose,
    show ((b : ℤ) - d.length + (prevlenSize w' - prevlenSize w)).toNat = b1 by omega, hshrink, hincr]
  obtain ⟨items', t', b2, htext, hfits', hlen', htail', hrun⟩ := cascadeUpdate_spec b1
    (closedTail t d.length w w' items) n' len a hfitsw hs' hfits hb1' (by omega)
    (closedTail_eq hsizes.1 ht (by omega) (by omega)) (((prevlenSize w' : ℤ) - prevlenSize w) ≠ 0)
    (fun hc => by rw [not_not] at hc; omega)
  refine ⟨w', items', t', b2, n', htext, hfitsw, hfits', hlen', htail', hn', hcount, ?_⟩
  simp only [List.append_assoc] at hrun ⊢
  exact hrun

theorem four_le_layout (hfits : Fits prev items) (hne : items ≠ []) (hbig : zipBigPrevlen ≤ prev) :
    4 ≤ (layout prev items).length := by
  cases items with
  | nil => exact absurd rfl hne
  | cons item items =>
    obtain ⟨⟨w, s⟩, hw⟩ : ∃ item', item' = item := ⟨_, rfl⟩
    subst hw
    -- the first of the deleted entries has the long length too
    have hwide : w = true := by
      cases w with
      | true => rfl
      | false => exact absurd (hfits.1.2 rfl) (Nat.not_lt.2 hbig)
    subst hwide
    simp only [layout, List.length_append, length_entryBytes, entrySize, prevlenSize_true]
    omega

/-- The length before the first of some entries. -/
theorem prevrawlen_layout (hfits : Fits prev items) (hne : items ≠ []) (ha : a.length = p) (c : Bytes) :
    (zipEntry (a ++ (layout prev items ++ c)) p).map ZlEntry.prevrawlen = some prev := by
  obtain ⟨item, items, rfl⟩ := List.exists_cons_of_ne_nil hne
  rw [layout, List.append_assoc]
  obtain ⟨entry, hentry, -, hprev, -⟩ := zipEntry_eq hfits.1 hfits.2.1 ha
  exact Option.map_eq_some_iff.2 ⟨entry, hentry, hprev⟩

theorem delete_some {zl : Bytes} {ds ys : List (Bool × Bytes)} {num : ℕ} (h : Represents zl (items ++ (ds ++ ys)))
    (hds : ds ≠ []) (hskip : skipEntries zl num (10 + (layout 0 items).length) =
      some (10 + (layout 0 items).length + (layout (lastSize 0 items) ds).length, ds.length))
    (hsmall : room (items.map Prod.snd ++ ys.map Prod.snd) < 2 ^ 32) :
    ∃ zl' ys', ziplistDeleteAt zl (10 + (layout 0 items).length) num = some zl' ∧
      ys'.map Prod.snd = ys.map Prod.snd ∧ Represents zl' (items ++ ys') := by
  obtain ⟨⟨t, n, rfl, ht, hn, hcount⟩, hfits, hroom⟩ := h
  have hlong := length_layout_le 0 (items ++ (ds ++ ys))
  obtain ⟨hfits1, hfits⟩ := fits_append.1 hfits
  obtain ⟨hfits2, hfits3⟩ := fits_append.1 hfits
  have hlast : lastSize 0 items ≤ (layout 0 items).length := by
    rcases lastSize_le 0 items with ⟨-, h⟩ | h <;> omega
  simp only [layout_append, lastSize_append, List.append_assoc, List.length_append] at hskip ht hlong hcount ⊢
  have hk : ds.length ≤ items.length + (ds.length + ys.length) := by omega
  cases ys with
  | nil =>
    obtain ⟨⟨w0, s0⟩, ds, rfl⟩ := List.exists_cons_of_ne_nil hds
    obtain ⟨hw0, hs0, -⟩ := hfits2
    simp only [layout, lastSize, List.nil_append, List.append_assoc, List.length_append, length_entryBytes,
      List.length_nil, Nat.add_zero] at hskip ht hlong hcount hk ⊢
    have hdelete := delete_end hw0 hs0 hlast hskip rfl (by omega)
    obtain ⟨n', hincr, hn', hcount'⟩ := incrLength_neg (11 + (layout 0 items).length)
      (10 + (layout 0 items).length - lastSize 0 items) (layout 0 items ++ [zipEnd]) hn hcount hk
    refine ⟨_, [], hdelete, rfl, ⟨_, n', by rw [hincr, List.append_nil], ?_, hn', fun h => ?_⟩, ?_, ?_⟩
    · rw [List.append_nil]
      omega
    · rw [hcount' h, List.append_nil]
      omega
    · rw [List.append_nil]
      exact hfits1
    · rw [List.map_append]
      exact hsmall
  | cons item ys =>
    obtain ⟨w, s'⟩ := item
    obtain ⟨hw, hs', hrest⟩ := hfits3
    have hfirst := prevrawlen_layout (p := 10 + (layout 0 items).length)
      (a := header (11 + ((layout 0 items).length + ((layout (lastSize 0 items) ds).length + (entrySize w s' +
        (layout (entrySize w s') ys).length)))) t n ++ layout 0 items) hfits2 hds
      (by rw [List.length_append, length_header]) (entryBytes w (lastSize (lastSize 0 items) ds) s' ++
        (layout (entrySize w s') ys ++ [zipEnd]))
    simp only [layout, lastSize, List.append_assoc, List.length_append, length_entryBytes, List.length_cons]
      at hskip ht hlong hcount hk hfirst ⊢
    have hd : 0 < (layout (lastSize 0 items) ds).length := by
      have := length_items_le (lastSize 0 items) ds
      have := List.length_pos_iff.2 hds
      omega
    obtain ⟨w', items', t', b', n', htext, hw', hfits', hlen, htail, hn', hcount', hdelete⟩ :=
      delete_inside hfirst hskip hw hs' hrest (by omega) hd (fun hbig => four_le_layout hfits2 hds hbig)
        rfl (by omega) (by omega) hn hcount hk
    have hbytes :
        ∀ r, layout 0 items ++ (entryBytes w' (lastSize 0 items) s' ++ (layout (entrySize w' s') items' ++ r)) =
          layout 0 (items ++ (w', s') :: items') ++ r := by
      intro r
      simp only [layout_append, layout, List.append_assoc]
    have hsize : (layout 0 (items ++ (w', s') :: items')).length =
        (layout 0 items).length + (entrySize w' s' + (layout (entrySize w' s') items').length) := by
      simp only [layout_append, layout, List.length_append, length_entryBytes]
    refine ⟨_, (w', s') :: items', hdelete, by rw [List.map_cons, List.map_cons, htext],
      ⟨t', n', ?_, ?_, hn', fun h => ?_⟩, fits_append.2 ⟨hfits1, hw', hs', hfits'⟩, ?_⟩
    · rw [hbytes, hsize, hlen]
    · rw [hsize, lastSize_append]
      simp only [lastSize]
      omega
    · have hsame := congrArg List.length htext
      simp only [List.length_map] at hsame
      rw [hcount' h, List.length_append, List.length_cons, hsame]
      omega
    · rw [List.map_append, List.map_cons, htext]
      exact hsmall

/-- **Entries are deleted** from an offset on where there is one; those before it are as they
were. -/
theorem zipDelete_spec {zl : Bytes} (h : Represents zl (items ++ items')) (hne : items' ≠ []) (num : ℕ) :
    ∃ zl' items'', ziplistDeleteAt zl (10 + (layout 0 items).length) num = some zl' ∧
      items''.map Prod.snd = (items'.map Prod.snd).drop num ∧ Represents zl' (items ++ items'') := by
  obtain ⟨t, n, hzl, -⟩ := h.bytes
  have hat : ∀ b, (header b t n ++ layout 0 items).length = 10 + (layout 0 items).length := by
    intro b
    rw [List.length_append, length_header]
  have hskip := skipEntries_eq (fits_append.1 h.fits).2 num (hat (11 + (layout 0 (items ++ items')).length))
  rw [List.append_assoc, ← List.append_assoc (layout 0 items), ← layout_append, ← hzl] at hskip
  rw [← List.map_drop]
  have htake := List.take_append_drop num items'
  by_cases hds : items'.take num = []
  · -- nothing is asked for
    have hfirst :=
      prevrawlen_layout (fits_append.1 h.fits).2 hne (hat (11 + (layout 0 (items ++ items')).length)) [zipEnd]
    rw [List.append_assoc, ← List.append_assoc (layout 0 items), ← layout_append, ← hzl] at hfirst
    rw [hds] at hskip htake
    exact ⟨zl, items', ziplistDeleteAt_none hfirst hskip, by rw [show items'.drop num = items' from htake], h⟩
  · refine delete_some (by rw [htake]; exact h) hds hskip ?_
    have hsmall := h.small
    rw [List.map_append] at hsmall
    rw [List.map_drop]
    exact Nat.lt_of_le_of_lt (room_drop_le _ _ num) hsmall

end Coms4111.Server
