import Coms4111.Proof.ZiplistEntry

/-!
# The layout of a ziplist

The bytes of a ziplist are a header, the entries one after the other (`layout`), and the end.
Whether the length of the previous entry takes one byte or five is up to each entry, as long as
the length fits (`Fits`).

* `cascade_spec`: after a change of the first length, `__ziplistCascadeUpdate` makes the lengths
  fit again, with the same texts and the offset of the last entry where it belongs.
-/

namespace Coms4111.Server

open Store

variable {a c r s : Bytes} {b t n off : ℕ}

/-! ## The header -/

/-- The header's ten bytes. -/
def header (b t n : ℕ) : Bytes := leBytes 4 b ++ (leBytes 4 t ++ leBytes 2 n)

@[simp] theorem length_header (b t n : ℕ) : (header b t n).length = 10 := by simp [header]

theorem ziplistBytes_header (hb : b < 2 ^ 32) (t n : ℕ) (r : Bytes) : ziplistBytes (header b t n ++ r) = b := by
  have hsplit : header b t n ++ r = [] ++ (leBytes 4 b ++ (leBytes 4 t ++ leBytes 2 n ++ r)) := by
    simp [header]
  rw [ziplistBytes, hsplit, slice_append List.length_nil (length_leBytes 4 b), ofLe_leBytes_of_lt hb]

theorem ziplistTailOffset_header (b : ℕ) (ht : t < 2 ^ 32) (n : ℕ) (r : Bytes) :
    ziplistTailOffset (header b t n ++ r) = t := by
  have hsplit : header b t n ++ r = leBytes 4 b ++ (leBytes 4 t ++ (leBytes 2 n ++ r)) := by
    simp [header]
  rw [ziplistTailOffset, hsplit, slice_append (length_leBytes 4 b) (length_leBytes 4 t), ofLe_leBytes_of_lt ht]

theorem ziplistLength_header (b t : ℕ) (hn : n < 2 ^ 16) (r : Bytes) : ziplistLength (header b t n ++ r) = n := by
  have hsplit : header b t n ++ r = (leBytes 4 b ++ leBytes 4 t) ++ (leBytes 2 n ++ r) := by
    simp [header]
  rw [ziplistLength, hsplit, slice_append (by simp) (length_leBytes 2 n), ofLe_leBytes_of_lt hn]

theorem setTailOffset_header (b t n t' : ℕ) (r : Bytes) :
    setTailOffset (header b t n ++ r) (t' : ℕ) = header b t' n ++ r := by
  have hsplit : ∀ t, header b t n ++ r = leBytes 4 b ++ (leBytes 4 t ++ (leBytes 2 n ++ r)) := by
    intro t
    simp [header]
  rw [setTailOffset, signedBytes_natCast, hsplit, write_append (length_leBytes 4 b) (by simp), ← hsplit]

theorem writeLength_header (b t n n' : ℕ) (r : Bytes) :
    write (header b t n ++ r) 8 (leBytes 2 n') = header b t n' ++ r := by
  have hsplit : ∀ n, header b t n ++ r = (leBytes 4 b ++ leBytes 4 t) ++ (leBytes 2 n ++ r) := by
    intro n
    simp [header]
  rw [hsplit, write_append (by simp) (by simp), ← hsplit]

/-- The number of bytes is stored by `ziplistResize`. -/
theorem writeBytes_header (b t n b' : ℕ) (r : Bytes) :
    write (header b t n ++ r) 0 (leBytes 4 b') = header b' t n ++ r := by
  have hsplit : ∀ b, header b t n ++ r = [] ++ (leBytes 4 b ++ (leBytes 4 t ++ leBytes 2 n ++ r)) := by
    intro b
    simp [header]
  rw [hsplit, write_append List.length_nil (by simp), ← hsplit]

/-- **Growing**: the old bytes, the end's included, some more, and the end. -/
theorem ziplistResize_grow (b t n : ℕ) (body : Bytes) (k : ℕ) :
    ∃ g h : Bytes, g.length = k ∧ g ++ [zipEnd] = zipEnd :: h ∧
      ziplistResize (header b t n ++ (body ++ [zipEnd])) (11 + body.length + k) =
        header (11 + body.length + k) t n ++ (body ++ (g ++ [zipEnd])) := by
  have hlen : (header b t n ++ (body ++ [zipEnd])).length = 11 + body.length := by
    simp only [List.length_append, length_header, List.length_singleton]; omega
  have hrealloc : realloc (header b t n ++ (body ++ [zipEnd])) (11 + body.length + k) =
      header b t n ++ (body ++ ([zipEnd] ++ List.replicate k 0)) := by
    rw [realloc, List.take_of_length_le (by rw [hlen]; omega), hlen,
      show 11 + body.length + k - (11 + body.length) = k by omega]
    simp only [List.append_assoc]
  have hsplit : ∃ g h x, g.length = k ∧ g ++ [zipEnd] = zipEnd :: h ∧
      [zipEnd] ++ List.replicate k (0 : UInt8) = g ++ [x] := by
    cases k with
    | zero => exact ⟨[], [], zipEnd, rfl, rfl, rfl⟩
    | succ k =>
      refine ⟨[zipEnd] ++ List.replicate k 0, List.replicate k 0 ++ [zipEnd], 0, by simp, rfl, ?_⟩
      rw [List.replicate_succ', List.append_assoc]
  obtain ⟨g, h, x, hg, hgh, hgx⟩ := hsplit
  refine ⟨g, h, hg, hgh, ?_⟩
  rw [ziplistResize, hrealloc, writeBytes_header, hgx]
  have happ : ∀ y, header (11 + body.length + k) t n ++ (body ++ (g ++ [y])) =
      (header (11 + body.length + k) t n ++ (body ++ g)) ++ ([y] ++ []) := by
    intro y
    simp
  have hat : (header (11 + body.length + k) t n ++ (body ++ g)).length = 11 + body.length + k - 1 := by
    simp only [List.length_append, length_header, hg]; omega
  rw [happ, write_append hat (by rfl), ← happ]

/-- **Shrinking**: the bytes up to the new end. -/
theorem ziplistResize_shrink (b t n : ℕ) (body : Bytes) (hr : 0 < r.length) :
    ziplistResize (header b t n ++ (body ++ r)) (11 + body.length) =
      header (11 + body.length) t n ++ (body ++ [zipEnd]) := by
  obtain ⟨x, r, rfl⟩ := List.exists_cons_of_length_pos hr
  have hrealloc : realloc (header b t n ++ (body ++ x :: r)) (11 + body.length) =
      header b t n ++ (body ++ [x]) := by
    have hcut : 11 + body.length = (header b t n ++ (body ++ [x])).length := by
      simp only [List.length_append, length_header, List.length_singleton]; omega
    have hsplit : header b t n ++ (body ++ x :: r) = (header b t n ++ (body ++ [x])) ++ r := by simp
    rw [realloc, hcut, hsplit, List.take_left, Nat.sub_eq_zero_of_le (by simp), List.replicate_zero,
      List.append_nil]
  have happ : ∀ y, header (11 + body.length) t n ++ (body ++ [y]) =
      (header (11 + body.length) t n ++ body) ++ ([y] ++ []) := by
    intro y
    simp
  have hat : (header (11 + body.length) t n ++ body).length = 11 + body.length - 1 := by
    simp only [List.length_append, length_header]; omega
  rw [ziplistResize, hrealloc, writeBytes_header, happ, write_append hat (by rfl), ← happ]

/-! ## Entries one after the other -/

/-- **The entries of a list**, each with the length of the one before it. An item says how
the length is written, and has the text. -/
def layout (prev : ℕ) : List (Bool × Bytes) → Bytes
  | [] => []
  | (wide, s) :: items => entryBytes wide prev s ++ layout (entrySize wide s) items

/-- The lengths can be written so. -/
def Fits (prev : ℕ) : List (Bool × Bytes) → Prop
  | [] => True
  | (wide, s) :: items => PrevFits wide prev ∧ s.length < 2 ^ 32 ∧ Fits (entrySize wide s) items

/-- The length of the last entry, or of the one before if there is none. -/
def lastSize (prev : ℕ) : List (Bool × Bytes) → ℕ
  | [] => prev
  | (wide, s) :: items => lastSize (entrySize wide s) items

variable {prev prev' : ℕ} {items items' : List (Bool × Bytes)}

theorem layout_append (prev : ℕ) (items items' : List (Bool × Bytes)) :
    layout prev (items ++ items') = layout prev items ++ layout (lastSize prev items) items' := by
  induction items generalizing prev with
  | nil => rfl
  | cons item items ih => simp only [List.cons_append, layout, ih, lastSize, List.append_assoc]

theorem fits_append : Fits prev (items ++ items') ↔ Fits prev items ∧ Fits (lastSize prev items) items' := by
  induction items generalizing prev with
  | nil => simp [Fits, lastSize]
  | cons item items ih => simp only [List.cons_append, Fits, ih, lastSize, and_assoc]

theorem lastSize_append (prev : ℕ) (items items' : List (Bool × Bytes)) :
    lastSize prev (items ++ items') = lastSize (lastSize prev items) items' := by
  induction items generalizing prev with
  | nil => rfl
  | cons item items ih => exact ih _

theorem lastSize_le (prev : ℕ) (items : List (Bool × Bytes)) :
    items = [] ∧ lastSize prev items = prev ∨ lastSize prev items ≤ (layout prev items).length := by
  induction items generalizing prev with
  | nil => exact Or.inl ⟨rfl, rfl⟩
  | cons item items ih =>
    refine Or.inr ?_
    simp only [layout, lastSize, List.length_append, length_entryBytes]
    rcases ih (entrySize item.1 item.2) with ⟨-, h⟩ | h <;> omega

theorem two_le_entrySize (wide : Bool) (s : Bytes) : 2 ≤ entrySize wide s := by
  have := length_lengthBytes_pos s
  cases wide <;> simp only [entrySize, prevlenSize_true, prevlenSize_false] <;> omega

theorem length_items_le (prev : ℕ) (items : List (Bool × Bytes)) :
    2 * items.length ≤ (layout prev items).length := by
  induction items generalizing prev with
  | nil => exact Nat.le_refl _
  | cons item items ih =>
    have h2 := two_le_entrySize item.1 item.2
    have := ih (entrySize item.1 item.2)
    simp only [layout, List.length_append, length_entryBytes, List.length_cons]
    omega

/-! ## The cascade -/

variable {w w' : Bool} {q q' : ℕ} {s' : Bytes}

theorem byteAt_end (ha : a.length = off) : byteAt (a ++ [zipEnd]) off = zipEnd := byteAt_append ha

/-- The whole size of an entry is read back. -/
theorem rawlen_eq (h : PrevFits w q) (hs : s.length < 2 ^ 32) (ha : a.length = off) :
    ∃ entry, zipEntry (a ++ (entryBytes w q s ++ r)) off = some entry ∧
      entry.headersize + entry.len = entrySize w s := by
  obtain ⟨entry, hentry, -, -, h3, h4, -⟩ := zipEntry_eq (c := r) h hs ha
  exact ⟨entry, hentry, by simp only [h3, h4, entrySize, Nat.add_assoc]⟩

/-- The length of the entry before, exchanged for another in as many bytes. -/
theorem write_prevlen (ha : a.length = off) (w : Bool) (q q' : ℕ) (s r : Bytes) :
    write (a ++ (entryBytes w q s ++ r)) off (prevlenBytes w q') = a ++ (entryBytes w q' s ++ r) := by
  rw [entry_append, write_append ha (by rw [length_prevlenBytes, length_prevlenBytes]), ← entry_append]

/-- The entry at `p` gets five bytes for the length of the entry before. -/
def widenEntry (zl : Bytes) (p len : ℕ) : Bytes :=
  let curlen := ziplistBytes zl
  let zl := ziplistResize zl (curlen + 4)
  let zl := if ziplistTailOffset zl ≠ p then setTailOffset zl (ziplistTailOffset zl + 4) else zl
  write (memmove zl (p + 5) (p + 1) (curlen - p - 1 - 1)) p (prevlenBytes true len)

/-- **One round of the cascade**: it is over, or the length is stored in the next entry, which
is widened for it if need be. Only then is there another round. -/
theorem cascade_round {zl : Bytes} {p len : ℕ} {cur next : ZlEntry} (m : ℕ) (hp : byteAt zl p ≠ zipEnd)
    (hcur : zipEntry zl p = some cur) (hlen : cur.headersize + cur.len = len)
    (hne : byteAt zl (p + len) ≠ zipEnd) (hnext : zipEntry zl (p + len) = some next) (hq : next.prevrawlen = q)
    (hw : next.prevrawlensize = prevlenSize w) :
    ziplistCascadeUpdate (m + 1) zl p =
      if q = len then some zl
      else if w = false ∧ zipBigPrevlen ≤ len then ziplistCascadeUpdate m (widenEntry zl (p + len) len) (p + len)
      else some (write zl (p + len) (prevlenBytes w len)) := by
  rw [ziplistCascadeUpdate]
  simp only [hp, if_false, hcur, Option.bind_eq_bind, Option.bind_some, hlen, hne, hnext, hq, hw,
    storePrevEntryLength_eq, length_prevlenBytes]
  by_cases hqlen : q = len
  · rw [if_pos hqlen, if_pos hqlen]
  rw [if_neg hqlen, if_neg hqlen]
  by_cases hbig : zipBigPrevlen ≤ len
  · cases w with
    | false => simp [hbig, widenEntry]
    | true => simp [hbig]
  · cases w with
    | false => simp [hbig]
    | true => simp [hbig, prevlenBytes]

/-- **Widening an entry.** The offset of the last entry moves with it, unless it is the last. -/
theorem widenEntry_eq (b t n q len : ℕ) (a s r : Bytes) {p : ℕ} (hp : 10 + a.length = p)
    (hb : b = 11 + (a.length + (entrySize false s + r.length))) (hb' : b < 2 ^ 32) (ht : t < 2 ^ 32) :
    widenEntry (header b t n ++ (a ++ (entryBytes false q s ++ (r ++ [zipEnd])))) p len =
      header (b + 4) (if t = p then t else t + 4) n ++ (a ++ (entryBytes true len s ++ (r ++ [zipEnd]))) := by
  have hbody : a ++ (entryBytes false q s ++ (r ++ [zipEnd])) =
      (a ++ (entryBytes false q s ++ r)) ++ [zipEnd] := by
    simp only [List.append_assoc]
  have hlen : b + 4 = 11 + (a ++ (entryBytes false q s ++ r)).length + 4 := by
    simp only [List.length_append, length_entryBytes, hb]
  obtain ⟨g, -, hg, -, hgrow⟩ := ziplistResize_grow b t n (a ++ (entryBytes false q s ++ r)) 4
  rw [← hbody, ← hlen] at hgrow
  have htail :
      (if ziplistTailOffset (header (b + 4) t n ++ ((a ++ (entryBytes false q s ++ r)) ++ (g ++ [zipEnd]))) ≠ p
      then setTailOffset (header (b + 4) t n ++ ((a ++ (entryBytes false q s ++ r)) ++ (g ++ [zipEnd])))
        (ziplistTailOffset (header (b + 4) t n ++ ((a ++ (entryBytes false q s ++ r)) ++ (g ++ [zipEnd]))) + 4)
      else header (b + 4) t n ++ ((a ++ (entryBytes false q s ++ r)) ++ (g ++ [zipEnd]))) =
      header (b + 4) (if t = p then t else t + 4) n ++
        ((a ++ (entryBytes false q s ++ r)) ++ (g ++ [zipEnd])) := by
    rw [ziplistTailOffset_header _ ht]
    by_cases h : t = p
    · rw [if_neg (not_not.2 h), if_pos h]
    · rw [if_pos h, if_neg h, ← setTailOffset_header (b + 4) t n (t + 4)]
      rfl
  simp only [widenEntry]
  rw [ziplistBytes_header hb', hgrow, htail]
  generalize hH : header (b + 4) (if t = p then t else t + 4) n = H
  have hHlen : H.length = 10 := by rw [← hH, length_header]
  have hsplit : H ++ ((a ++ (entryBytes false q s ++ r)) ++ (g ++ [zipEnd])) =
      (H ++ a) ++ (prevlenBytes false q ++ ((lengthBytes s ++ contentBytes s ++ r) ++ (g ++ [zipEnd]))) := by
    simp only [entryBytes, List.append_assoc]
  have hcount : b - p - 1 - 1 = (lengthBytes s ++ contentBytes s ++ r).length := by
    simp only [List.length_append, hb, entrySize, prevlenSize_false]
    omega
  have hat : (H ++ a).length = p := by rw [List.length_append, hHlen, hp]
  have hwide :=
    widen_eq (prevlenBytes false q) (lengthBytes s ++ contentBytes s ++ r) g [zipEnd] (prevlenBytes true len)
      hat (by rw [hg]; simp [length_prevlenBytes])
  rw [hsplit, hcount]
  simp only [length_prevlenBytes, prevlenSize_true, prevlenSize_false] at hwide
  rw [hwide]
  simp only [entryBytes, List.append_assoc]

/-- A round where there is a next entry, on the bytes. -/
theorem cascade_pair (m b t n : ℕ) (a r : Bytes) (h : PrevFits w q) (hs : s.length < 2 ^ 32) (h' : PrevFits w' q')
    (hs' : s'.length < 2 ^ 32) (hb : b = 11 + (a.length + (entrySize w s + (entrySize w' s' + r.length))))
    (hb' : b < 2 ^ 32) (ht : t < 2 ^ 32) :
    ziplistCascadeUpdate (m + 1)
        (header b t n ++ (a ++ (entryBytes w q s ++ (entryBytes w' q' s' ++ (r ++ [zipEnd]))))) (10 + a.length) =
      if q' = entrySize w s then
        some (header b t n ++ (a ++ (entryBytes w q s ++ (entryBytes w' q' s' ++ (r ++ [zipEnd])))))
      else if w' = false ∧ zipBigPrevlen ≤ entrySize w s then
        ziplistCascadeUpdate m
          (header (b + 4) (if t = 10 + (a ++ entryBytes w q s).length then t else t + 4) n ++
            ((a ++ entryBytes w q s) ++ (entryBytes true (entrySize w s) s' ++ (r ++ [zipEnd]))))
          (10 + (a ++ entryBytes w q s).length)
      else some (header b t n ++ (a ++ (entryBytes w q s ++
        (entryBytes w' (entrySize w s) s' ++ (r ++ [zipEnd]))))) := by
  have hp : (header b t n ++ a).length = 10 + a.length := by rw [List.length_append, length_header]
  have hpL : (header b t n ++ (a ++ entryBytes w q s)).length = 10 + a.length + entrySize w s := by
    rw [← List.append_assoc, List.length_append, hp, length_entryBytes]
  have hcur : header b t n ++ (a ++ (entryBytes w q s ++ (entryBytes w' q' s' ++ (r ++ [zipEnd])))) =
      (header b t n ++ a) ++ (entryBytes w q s ++ (entryBytes w' q' s' ++ (r ++ [zipEnd]))) := by
    rw [List.append_assoc]
  have hnext : ∀ q', header b t n ++ (a ++ (entryBytes w q s ++ (entryBytes w' q' s' ++ (r ++ [zipEnd])))) =
      (header b t n ++ (a ++ entryBytes w q s)) ++ (entryBytes w' q' s' ++ (r ++ [zipEnd])) := by
    intro q'
    simp only [List.append_assoc]
  obtain ⟨cur, hentry, hlen⟩ := rawlen_eq (r := entryBytes w' q' s' ++ (r ++ [zipEnd])) h hs hp
  obtain ⟨next, hentry', hw, hq, -⟩ := zipEntry_eq (c := r ++ [zipEnd]) h' hs' hpL
  rw [← hcur] at hentry
  rw [← hnext] at hentry'
  rw [cascade_round m (by rw [hcur]; exact byteAt_entry h hp) hentry hlen
    (by rw [hnext]; exact byteAt_entry h' hpL) hentry' hq hw]
  have hplace : 10 + a.length + entrySize w s = 10 + (a ++ entryBytes w q s).length := by
    rw [List.length_append, length_entryBytes, Nat.add_assoc]
  by_cases hsame : q' = entrySize w s
  · rw [if_pos hsame, if_pos hsame]
  rw [if_neg hsame, if_neg hsame]
  by_cases hwide : w' = false ∧ zipBigPrevlen ≤ entrySize w s
  · obtain ⟨rfl, -⟩ := id hwide
    rw [if_pos hwide, if_pos hwide]
    have hlen : b = 11 + ((a ++ entryBytes w q s).length + (entrySize false s' + r.length)) := by
      rw [hb, List.length_append, length_entryBytes, Nat.add_assoc a.length]
    have hwidened := widenEntry_eq b t n q' (entrySize w s) (a ++ entryBytes w q s) s' r rfl hlen hb' ht
    rw [← hwidened, hplace, List.append_assoc a]
  · rw [if_neg hwide, if_neg hwide, hnext, write_prevlen hpL, ← hnext]

theorem entrySize_true (s : Bytes) : entrySize true s = entrySize false s + 4 := by
  simp only [entrySize, prevlenSize_true, prevlenSize_false]
  omega

/-- The offset of the last entry after the one at `p` has got four bytes more. -/
theorem tail_widened {p size t : ℕ} (prev : ℕ) (s : Bytes) (items : List (Bool × Bytes))
    (hsize : (layout prev items).length = size)
    (ht : t + lastSize (entrySize false s) items = p + entrySize false s + size) :
    (if t = p then t else t + 4) + lastSize (entrySize true s) items = p + entrySize true s + size := by
  have htrue := entrySize_true s
  cases items with
  | nil =>
    simp only [lastSize] at ht ⊢
    have : size = 0 := hsize.symm
    rw [if_pos (by omega)]
    omega
  | cons item items =>
    -- the last entry is not the one that is widened
    have hlast : lastSize prev (item :: items) ≤ size := by
      rcases lastSize_le prev (item :: items) with ⟨h, -⟩ | h
      · cases h
      · rw [← hsize]; exact h
    have hpos := two_le_entrySize false s
    simp only [lastSize] at hlast ht ⊢
    rw [if_neg (by omega)]
    omega

/-- **The cascade mends the lengths.** The entries behind the one at `p` may have another
length for it; then they have the right one, with the same texts, and the header is right. -/
theorem cascade_spec (m b t n q : ℕ) (a : Bytes) (h : PrevFits w q) (hs : s.length < 2 ^ 32)
    (hfits : Fits prev items) (hm : items.length < m)
    (hb : b = 11 + (a.length + (entrySize w s + (layout prev items).length)))
    (hb' : b + 4 * items.length < 2 ^ 32) (ht : t + lastSize (entrySize w s) items + 1 = b) :
    ∃ items' t' b', items'.map Prod.snd = items.map Prod.snd ∧ Fits (entrySize w s) items' ∧
      b' = 11 + (a.length + (entrySize w s + (layout (entrySize w s) items').length)) ∧
      b' ≤ b + 4 * items.length ∧ t' + lastSize (entrySize w s) items' + 1 = b' ∧
      ziplistCascadeUpdate m (header b t n ++ (a ++ (entryBytes w q s ++ (layout prev items ++ [zipEnd]))))
          (10 + a.length) =
        some (header b' t' n ++ (a ++ (entryBytes w q s ++ (layout (entrySize w s) items' ++ [zipEnd])))) := by
  induction items generalizing m b t a w q s prev with
  | nil =>
    refine ⟨[], t, b, rfl, trivial, hb, by omega, ht, ?_⟩
    have hp : (header b t n ++ a).length = 10 + a.length := by rw [List.length_append, length_header]
    have hpL : (header b t n ++ (a ++ entryBytes w q s)).length = 10 + a.length + entrySize w s := by
      rw [← List.append_assoc, List.length_append, hp, length_entryBytes]
    obtain ⟨m, rfl⟩ : ∃ k, m = k + 1 := ⟨m - 1, by rw [List.length_nil] at hm; omega⟩
    obtain ⟨entry, hentry, hlen⟩ := rawlen_eq (r := [zipEnd]) h hs hp
    have hend := byteAt_end hpL
    simp only [List.append_assoc] at hentry hend
    simp only [layout, List.nil_append]
    rw [ziplistCascadeUpdate]
    simp only [hentry, Option.bind_eq_bind, Option.bind_some, hlen, hend, if_true, ite_self]
  | cons item items ih =>
    obtain ⟨w', s'⟩ := item
    obtain ⟨h', hs', hrest⟩ := hfits
    obtain ⟨m, rfl⟩ : ∃ k, m = k + 1 := ⟨m - 1, by rw [List.length_cons] at hm; omega⟩
    simp only [layout, lastSize, List.length_append, length_entryBytes, List.length_cons] at hm hb hb' ht ⊢
    have hlast := lastSize_le (entrySize w' s') items
    simp only [List.append_assoc]
    rw [cascade_pair m b t n a _ h hs h' hs' hb (by omega) (by omega)]
    have hlong : entrySize w s < 2 ^ 32 := by omega
    by_cases hsame : prev = entrySize w s
    · refine ⟨(w', s') :: items, t, b, rfl, ⟨hsame ▸ h', hs', hrest⟩, ?_, by omega, ht, ?_⟩
      · simp only [layout, List.length_append, length_entryBytes, hb]
      · rw [if_pos hsame, layout, hsame, List.append_assoc]
    rw [if_neg hsame]
    by_cases hwide : w' = false ∧ zipBigPrevlen ≤ entrySize w s
    · obtain ⟨rfl, -⟩ := id hwide
      rw [if_pos hwide]
      have htrue := entrySize_true s'
      obtain ⟨items', t', b', htext, hfits', hlen', hle', htail', hrun⟩ :=
        ih (w := true) (q := entrySize w s) (s := s') m (b + 4)
          (if t = 10 + (a ++ entryBytes w q s).length then t else t + 4) (a ++ entryBytes w q s)
          ⟨hlong, Bool.noConfusion⟩ hs' hrest (by omega)
          (by rw [List.length_append, length_entryBytes]; omega) (by omega)
          (by
            have := tail_widened (p := 10 + (a ++ entryBytes w q s).length) (t := t) (entrySize false s') s' items
              rfl (by rw [List.length_append, length_entryBytes]; omega)
            rw [this, List.length_append, length_entryBytes]
            omega)
      refine ⟨(true, s') :: items', t', b', by rw [List.map_cons, List.map_cons, htext],
        ⟨⟨hlong, Bool.noConfusion⟩, hs', hfits'⟩, ?_, by omega, htail', ?_⟩
      · rw [hlen']
        simp only [layout, List.length_append, length_entryBytes, Nat.add_assoc]
      · rw [hrun]
        simp only [layout, List.append_assoc]
    · rw [if_neg hwide]
      refine ⟨(w', s') :: items, t, b, rfl, ⟨⟨hlong, fun hw => ?_⟩, hs', hrest⟩, ?_, by omega, ht, ?_⟩
      · exact Nat.not_le.1 fun hbig => hwide ⟨hw, hbig⟩
      · simp only [layout, List.length_append, length_entryBytes, hb]
      · simp only [layout, List.append_assoc]

end Coms4111.Server
