import Coms4111.Proof.Decimal

/-!
# Entries of a ziplist

What is written for an entry (`entryBytes`) is read back, with any bytes before and after it.

* `zipEntry_eq`: the header of an entry.
* `ziplistGet_eq`: its content, as the text that was stored or as the number whose text that is.
-/

namespace Coms4111.Server

open Store

variable {a c s : Bytes} {off : ℕ} {v : ℤ} {e : UInt8}

/-! ## Numbers -/

theorem drop_signedBytes (v : ℤ) : 0 :: (signedBytes 4 (v * 2 ^ 8)).drop 1 = signedBytes 4 (v * 2 ^ 8) := by
  have hlow : UInt8.ofNat (v * 2 ^ 8 % (256 ^ 4 : ℕ)).toNat = 0 := by
    rw [← UInt8.toNat_inj, UInt8.toNat_ofNat']
    change (v * 2 ^ 8 % (256 ^ 4 : ℕ)).toNat % 256 = 0
    omega
  rw [signedBytes, leBytes, hlow]
  rfl

/-- **What an encoding of a number comes with**: it is no string's, its size is the number of
bytes that are stored, and they are read back. -/
structure IntEncoding (v : ℤ) (e : UInt8) (x : Bytes) : Prop where
  not_str : zipIsStr e = false
  not_lt : ¬e < 0xc0
  save : zipSaveInteger v e = some x
  size : zipIntSize e = some x.length
  load : ∀ (a c : Bytes), zipLoadInteger (a ++ (x ++ c)) a.length e = some v

theorem IntEncoding.ne_zero {e : UInt8} {x : Bytes} (h : IntEncoding v e x) : e ≠ 0 := by
  rintro rfl
  exact h.not_lt (by decide)

theorem intEncoding_immediate (h0 : 0 ≤ v) (h12 : v ≤ 12) : IntEncoding v (0xf1 + UInt8.ofNat v.toNat) [] := by
  have hall : ∀ n : Fin 13, let e := (0xf1 : UInt8) + UInt8.ofNat n.val
      zipIsStr e = false ∧ ¬e < 0xc0 ∧ zipIsImmediate e = true ∧ (e &&& 0x0f).toNat = n.val + 1 ∧
      e ≠ 0xfe ∧ e ≠ 0xc0 ∧ e ≠ 0xf0 ∧ e ≠ 0xd0 ∧ e ≠ 0xe0 := by decide +kernel
  obtain ⟨h1, h2, h3, h4, n1, n2, n3, n4, n5⟩ := hall ⟨v.toNat, by omega⟩
  simp only at h1 h2 h3 h4 n1 n2 n3 n4 n5
  refine ⟨h1, h2, ?_, ?_, fun a c => ?_⟩
  · rw [zipSaveInteger, if_neg n1, if_neg n2, if_neg n3, if_neg n4, if_neg n5, if_pos h3]
  · rw [zipIntSize, if_neg n1, if_neg n2, if_neg n3, if_neg n4, if_neg n5, if_pos h3]
    rfl
  · rw [zipLoadInteger, if_neg n1, if_neg n2, if_neg n4, if_neg n3, if_neg n5, if_pos h3, h4]
    congr 1
    omega

theorem intEncoding_8 (h1 : -2 ^ 7 ≤ v) (h2 : v < 2 ^ 7) : IntEncoding v 0xfe (signedBytes 1 v) := by
  refine ⟨by decide, by decide, rfl, rfl, fun a c => ?_⟩
  change some (ofSigned (slice (a ++ (signedBytes 1 v ++ c)) a.length 1)) = some v
  rw [slice_append rfl (length_signedBytes 1 v), ofSigned_signedBytes (by omega) (by omega)]

theorem intEncoding_16 (h1 : -2 ^ 15 ≤ v) (h2 : v < 2 ^ 15) : IntEncoding v 0xc0 (signedBytes 2 v) := by
  refine ⟨by decide, by decide, rfl, rfl, fun a c => ?_⟩
  change some (ofSigned (slice (a ++ (signedBytes 2 v ++ c)) a.length 2)) = some v
  rw [slice_append rfl (length_signedBytes 2 v), ofSigned_signedBytes (by omega) (by omega)]

/-- Three bytes are those of the number times 256, without the lowest. -/
theorem intEncoding_24 (h1 : -2 ^ 23 ≤ v) (h2 : v < 2 ^ 23) :
    IntEncoding v 0xf0 ((signedBytes 4 (v * 2 ^ 8)).drop 1) := by
  refine ⟨by decide, by decide, rfl, rfl, fun a c => ?_⟩
  change some (ofSigned (0 :: slice (a ++ ((signedBytes 4 (v * 2 ^ 8)).drop 1 ++ c)) a.length 3) / 2 ^ 8) = some v
  rw [slice_append rfl (by rw [List.length_drop, length_signedBytes]), drop_signedBytes,
    ofSigned_signedBytes (by omega) (by omega)]
  congr 1
  omega

theorem intEncoding_32 (h1 : -2 ^ 31 ≤ v) (h2 : v < 2 ^ 31) : IntEncoding v 0xd0 (signedBytes 4 v) := by
  refine ⟨by decide, by decide, rfl, rfl, fun a c => ?_⟩
  change some (ofSigned (slice (a ++ (signedBytes 4 v ++ c)) a.length 4)) = some v
  rw [slice_append rfl (length_signedBytes 4 v), ofSigned_signedBytes (by omega) (by omega)]

theorem intEncoding_64 (h1 : -2 ^ 63 ≤ v) (h2 : v < 2 ^ 63) : IntEncoding v 0xe0 (signedBytes 8 v) := by
  refine ⟨by decide, by decide, rfl, rfl, fun a c => ?_⟩
  change some (ofSigned (slice (a ++ (signedBytes 8 v ++ c)) a.length 8)) = some v
  rw [slice_append rfl (length_signedBytes 8 v), ofSigned_signedBytes (by omega) (by omega)]

/-- **The smallest encoding that holds the number.** -/
theorem tryEncoding_spec (h : zipTryEncoding s = some (v, e)) : ll2string v = s ∧ ∃ x, IntEncoding v e x := by
  unfold zipTryEncoding at h
  split_ifs at h
  cases hs : string2ll s with
  | none => rw [hs] at h; cases h
  | some value =>
    obtain ⟨htext, hlow, hhigh⟩ := text_of_string2ll hs
    rw [hs] at h
    simp only at h
    split_ifs at h with h1 h2 h3 h4 h5 <;> cases h
    · exact ⟨htext, _, intEncoding_immediate h1.1 h1.2⟩
    · exact ⟨htext, _, intEncoding_8 h2.1 h2.2⟩
    · exact ⟨htext, _, intEncoding_16 h3.1 h3.2⟩
    · exact ⟨htext, _, intEncoding_24 h4.1 h4.2⟩
    · exact ⟨htext, _, intEncoding_32 h5.1 h5.2⟩
    · exact ⟨htext, _, intEncoding_64 hlow hhigh⟩

/-! ## Texts -/

/-- The encoding of a text. -/
def encodingOf (s : Bytes) : UInt8 := ((zipTryEncoding s).map Prod.snd).getD 0

/-- The bytes for the encoding and the length of a text. -/
def lengthBytes (s : Bytes) : Bytes := zipStoreEntryEncoding (encodingOf s) s.length

/-- The bytes for its content. -/
def contentBytes (s : Bytes) : Bytes :=
  match zipTryEncoding s with
  | some (value, encoding) => (zipSaveInteger value encoding).getD []
  | none => s

theorem contentBytes_none (h : zipTryEncoding s = none) : contentBytes s = s := by
  rw [contentBytes, h]

theorem intEncoding_content (h : zipTryEncoding s = some (v, e)) : IntEncoding v e (contentBytes s) := by
  obtain ⟨-, x, hx⟩ := tryEncoding_spec h
  have hcontent : contentBytes s = x := by
    simp only [contentBytes, h, hx.save, Option.getD_some]
  rwa [hcontent]

/-- **Every text can be encoded.** -/
theorem zipEncode_eq (s : Bytes) :
    zipEncode s = some (encodingOf s, (contentBytes s).length, contentBytes s) := by
  unfold zipEncode encodingOf
  cases h : zipTryEncoding s with
  | none => rw [contentBytes_none h, Option.map_none, Option.getD_none]
  | some p =>
    have hint := intEncoding_content h
    simp only [hint.size, hint.save, Option.bind_eq_bind, Option.bind_some, Option.pure_def, Option.map_some,
      Option.getD_some]

/-- The value that is read for a text. -/
def valueOf (s : Bytes) : ZipValue :=
  match zipTryEncoding s with
  | some (v, _) => .int v
  | none => .str s

theorem text_valueOf (s : Bytes) : (valueOf s).text = s := by
  unfold valueOf
  cases h : zipTryEncoding s with
  | none => rfl
  | some p => exact (tryEncoding_spec h).1

theorem sds_eq_text (v : ZipValue) : v.sds = v.text := by
  cases v with
  | str s => rfl
  | int v => exact sdsfromlonglong_eq v

theorem length_lengthBytes_pos (s : Bytes) : 0 < (lengthBytes s).length := by
  unfold lengthBytes zipStoreEntryEncoding
  split_ifs <;> exact Nat.succ_pos _

theorem length_lengthBytes_le (s : Bytes) : (lengthBytes s).length ≤ 5 := by
  unfold lengthBytes zipStoreEntryEncoding
  split_ifs <;> simp

theorem byteAt_append_add (ha : a.length = off) (d : Bytes) {x : UInt8} {b : Bytes} :
    byteAt (a ++ (d ++ x :: b)) (off + d.length) = x := by
  rw [← List.append_assoc]
  exact byteAt_append (by rw [List.length_append, ha])

theorem byteAt_five (ha : a.length = off) (c : Bytes) (b0 b1 b2 b3 b4 : UInt8) :
    let buf := a ++ ([b0, b1, b2, b3, b4] ++ c)
    byteAt buf off = b0 ∧ byteAt buf (off + 1) = b1 ∧ byteAt buf (off + 2) = b2 ∧ byteAt buf (off + 3) = b3 ∧
      byteAt buf (off + 4) = b4 :=
  ⟨byteAt_append ha, byteAt_append_add ha [b0], byteAt_append_add ha [b0, b1], byteAt_append_add ha [b0, b1, b2],
    byteAt_append_add ha [b0, b1, b2, b3]⟩

/-- The three ways to write the length of a text that is no number. -/
theorem decodeLength_str (n : ℕ) (hn : n < 2 ^ 32) (ha : a.length = off) :
    ∃ e, zipIsStr e = true ∧
      zipDecodeLength (a ++ (zipStoreEntryEncoding 0 n ++ c)) off =
        some (e, (zipStoreEntryEncoding 0 n).length, n) := by
  have hstr : zipIsStr 0 = true := by decide
  unfold zipStoreEntryEncoding
  rw [if_pos hstr]
  split_ifs with h6 h14
  · have hall : ∀ k : Fin 64, let b := UInt8.ofNat k.val
        b < 0xc0 ∧ b &&& 0xc0 = 0 ∧ (b &&& 0x3f).toNat = k.val := by decide +kernel
    obtain ⟨h1, h2, h3⟩ := hall ⟨n, by omega⟩
    simp only at h1 h2 h3
    refine ⟨0, by decide, ?_⟩
    have hb : byteAt (a ++ ([UInt8.ofNat n] ++ c)) off = UInt8.ofNat n := byteAt_append ha
    rw [zipDecodeLength, hb]
    simp only [h1, if_true, h2, h3]
    rfl
  · have hall : ∀ k : Fin 64, let b := 0x40 ||| (UInt8.ofNat k.val &&& 0x3f)
        b < 0xc0 ∧ b &&& 0xc0 = 0x40 ∧ (b &&& 0x3f).toNat = k.val := by decide +kernel
    obtain ⟨h1, h2, h3⟩ := hall ⟨n / 2 ^ 8, by omega⟩
    simp only at h1 h2 h3
    refine ⟨0x40, by decide, ?_⟩
    generalize 0x40 ||| (UInt8.ofNat (n / 2 ^ 8) &&& 0x3f) = b at h1 h2 h3
    have hb : byteAt (a ++ ([b, UInt8.ofNat n] ++ c)) off = b := byteAt_append ha
    have hb1 : byteAt (a ++ ([b, UInt8.ofNat n] ++ c)) (off + 1) = UInt8.ofNat n :=
      byteAt_append_add ha [b]
    rw [zipDecodeLength, hb, hb1]
    simp only [h1, if_true, h2, h3, UInt8.toNat_ofNat', show (0x40 : UInt8) ≠ 0 by decide, if_false]
    rw [show n / 2 ^ 8 * 2 ^ 8 + n % 2 ^ 8 = n by omega]
    rfl
  · refine ⟨0x80, by decide, ?_⟩
    obtain ⟨hb, hb1, hb2, hb3, hb4⟩ := byteAt_five ha c 0x80 (UInt8.ofNat (n / 2 ^ 24)) (UInt8.ofNat (n / 2 ^ 16))
      (UInt8.ofNat (n / 2 ^ 8)) (UInt8.ofNat n)
    rw [zipDecodeLength, hb, hb1, hb2, hb3, hb4]
    simp only [UInt8.toNat_ofNat', show (0x80 : UInt8) < 0xc0 by decide, if_true,
      show (0x80 : UInt8) &&& 0xc0 = 0x80 by decide, show (0x80 : UInt8) ≠ 0 by decide,
      show (0x80 : UInt8) ≠ 0x40 by decide, if_false]
    have hsum : n / 2 ^ 24 % 2 ^ 8 * 2 ^ 24 + n / 2 ^ 16 % 2 ^ 8 * 2 ^ 16 + n / 2 ^ 8 % 2 ^ 8 * 2 ^ 8 +
        n % 2 ^ 8 = n := by omega
    rw [hsum]
    rfl

/-- **The encoding and the length of a text are read back.** -/
theorem decodeLength_eq (hs : s.length < 2 ^ 32) (ha : a.length = off) :
    ∃ e, zipDecodeLength (a ++ (lengthBytes s ++ c)) off =
        some (e, (lengthBytes s).length, (contentBytes s).length) ∧
      match zipTryEncoding s with
      | some (v, e') => e = e' ∧ IntEncoding v e (contentBytes s)
      | none => zipIsStr e = true := by
  unfold lengthBytes encodingOf
  cases h : zipTryEncoding s with
  | none =>
    obtain ⟨e, hstr, hdec⟩ := decodeLength_str s.length hs ha
    exact ⟨e, by rw [contentBytes_none h]; exact hdec, hstr⟩
  | some p =>
    obtain ⟨v, e⟩ := p
    have he := intEncoding_content h
    refine ⟨e, ?_, rfl, he⟩
    have hstore : zipStoreEntryEncoding e s.length = [e] := by
      rw [zipStoreEntryEncoding, if_neg (by rw [he.not_str]; decide)]
    have hb : byteAt (a ++ ([e] ++ c)) off = e := byteAt_append ha
    rw [Option.map_some, Option.getD_some, hstore, zipDecodeLength, hb]
    simp only [he.not_lt, if_false, he.size, Option.map_some]
    rfl

/-! ## Entries -/

/-- **The bytes for the length of the entry before**, in five bytes if `wide`. -/
def prevlenBytes (wide : Bool) (prev : ℕ) : Bytes :=
  if wide then zipStorePrevEntryLengthLarge prev else [UInt8.ofNat prev]

/-- How many they are. -/
def prevlenSize (wide : Bool) : ℕ := if wide then 5 else 1

@[simp] theorem prevlenSize_true : prevlenSize true = 5 := rfl

@[simp] theorem prevlenSize_false : prevlenSize false = 1 := rfl

/-- The length of the entry before can be written so. -/
def PrevFits (wide : Bool) (prev : ℕ) : Prop := prev < 2 ^ 32 ∧ (wide = false → prev < zipBigPrevlen)

/-- The bytes of an entry. -/
def entryBytes (wide : Bool) (prev : ℕ) (s : Bytes) : Bytes :=
  prevlenBytes wide prev ++ (lengthBytes s ++ contentBytes s)

/-- How many bytes an entry takes. -/
def entrySize (wide : Bool) (s : Bytes) : ℕ :=
  prevlenSize wide + ((lengthBytes s).length + (contentBytes s).length)

variable {wide : Bool} {prev : ℕ}

theorem length_prevlenBytes (wide : Bool) (prev : ℕ) : (prevlenBytes wide prev).length = prevlenSize wide := by
  cases wide
  · rfl
  · simp [prevlenBytes, zipStorePrevEntryLengthLarge]

theorem length_entryBytes (wide : Bool) (prev : ℕ) (s : Bytes) :
    (entryBytes wide prev s).length = entrySize wide s := by
  simp only [entryBytes, List.length_append, length_prevlenBytes, entrySize]

/-- The bytes that the code stores: five only where one is not enough. -/
theorem storePrevEntryLength_eq (len : ℕ) :
    zipStorePrevEntryLength len = prevlenBytes (decide (zipBigPrevlen ≤ len)) len := by
  unfold zipStorePrevEntryLength prevlenBytes
  by_cases h : len < zipBigPrevlen
  · simp [h, Nat.not_le.2 h]
  · simp [h, Nat.not_lt.1 h]

theorem prevFits_store {len : ℕ} (h : len < 2 ^ 32) : PrevFits (decide (zipBigPrevlen ≤ len)) len :=
  ⟨h, fun hd => by simpa using hd⟩

theorem length_storePrevEntryLength (len : ℕ) :
    (zipStorePrevEntryLength len).length = prevlenSize (decide (zipBigPrevlen ≤ len)) := by
  rw [storePrevEntryLength_eq, length_prevlenBytes]

/-- **The length of the entry before is read back**, and its first byte is not the end's. -/
theorem decodePrevlen_eq (h : PrevFits wide prev) (ha : a.length = off) :
    zipDecodePrevlensize (a ++ (prevlenBytes wide prev ++ c)) off = prevlenSize wide ∧
      zipDecodePrevlen (a ++ (prevlenBytes wide prev ++ c)) off = prev ∧
      byteAt (a ++ (prevlenBytes wide prev ++ c)) off ≠ zipEnd := by
  cases wide with
  | false =>
    have hlt : prev < zipBigPrevlen := h.2 rfl
    have hlt' : prev < 254 := hlt
    have hb : byteAt (a ++ (prevlenBytes false prev ++ c)) off = UInt8.ofNat prev := byteAt_append ha
    have hnat : (UInt8.ofNat prev).toNat = prev := by
      rw [UInt8.toNat_ofNat', Nat.mod_eq_of_lt (by omega)]
    have hsize : zipDecodePrevlensize (a ++ (prevlenBytes false prev ++ c)) off = 1 := by
      rw [zipDecodePrevlensize, hb, hnat, if_pos hlt]
    refine ⟨hsize, ?_, fun hend => ?_⟩
    · rw [zipDecodePrevlen, hsize, if_pos rfl, hb, hnat]
    · rw [hb] at hend
      rw [hend] at hnat
      have : zipEnd.toNat = 255 := rfl
      omega
  | true =>
    have hb : byteAt (a ++ (prevlenBytes true prev ++ c)) off = 254 := byteAt_append ha
    have hsize : zipDecodePrevlensize (a ++ (prevlenBytes true prev ++ c)) off = 5 := by
      rw [zipDecodePrevlensize, hb]
      rfl
    refine ⟨hsize, ?_, fun hend => ?_⟩
    · rw [zipDecodePrevlen, hsize, if_neg (by decide)]
      have hsplit : a ++ (prevlenBytes true prev ++ c) = (a ++ [254]) ++ (leBytes 4 prev ++ c) := by
        simp [prevlenBytes, zipStorePrevEntryLengthLarge, zipBigPrevlen]
      rw [hsplit, slice_append (by rw [List.length_append, ha]; rfl) (length_leBytes 4 prev),
        ofLe_leBytes_of_lt h.1]
    · rw [hb] at hend
      exact absurd hend (by decide)

theorem entry_append (wide : Bool) (prev : ℕ) (s : Bytes) :
    a ++ (entryBytes wide prev s ++ c) =
      a ++ (prevlenBytes wide prev ++ (lengthBytes s ++ (contentBytes s ++ c))) := by
  simp only [entryBytes, List.append_assoc]

/-- **The header of an entry is read back.** -/
theorem zipEntry_eq (h : PrevFits wide prev) (hs : s.length < 2 ^ 32) (ha : a.length = off) :
    ∃ entry, zipEntry (a ++ (entryBytes wide prev s ++ c)) off = some entry ∧
      entry.prevrawlensize = prevlenSize wide ∧ entry.prevrawlen = prev ∧
      entry.headersize = prevlenSize wide + (lengthBytes s).length ∧ entry.len = (contentBytes s).length ∧
      match zipTryEncoding s with
      | some (v, e) => entry.encoding = e ∧ IntEncoding v e (contentBytes s)
      | none => zipIsStr entry.encoding = true := by
  obtain ⟨h1, h2, -⟩ := decodePrevlen_eq (c := lengthBytes s ++ (contentBytes s ++ c)) h ha
  have hlen : (a ++ prevlenBytes wide prev).length = off + prevlenSize wide := by
    rw [List.length_append, ha, length_prevlenBytes]
  obtain ⟨e, hdec, henc⟩ := decodeLength_eq (c := contentBytes s ++ c) hs hlen
  rw [List.append_assoc] at hdec
  simp only [entry_append, zipEntry, h1, h2, hdec, Option.bind_eq_bind, Option.bind_some, Option.pure_def]
  refine ⟨_, rfl, rfl, rfl, rfl, rfl, ?_⟩
  cases hz : zipTryEncoding s with
  | none => rw [hz] at henc; exact henc
  | some p =>
    rw [hz] at henc
    obtain ⟨rfl, hint⟩ := henc
    exact ⟨rfl, hint⟩

theorem zipRawEntryLength_eq (h : PrevFits wide prev) (hs : s.length < 2 ^ 32) (ha : a.length = off) :
    zipRawEntryLength (a ++ (entryBytes wide prev s ++ c)) off = some (entrySize wide s) := by
  obtain ⟨h1, -, -⟩ := decodePrevlen_eq (c := lengthBytes s ++ (contentBytes s ++ c)) h ha
  have hlen : (a ++ prevlenBytes wide prev).length = off + prevlenSize wide := by
    rw [List.length_append, ha, length_prevlenBytes]
  obtain ⟨e, hdec, -⟩ := decodeLength_eq (c := contentBytes s ++ c) hs hlen
  rw [List.append_assoc] at hdec
  simp only [entry_append, zipRawEntryLength, h1, hdec, entrySize, Nat.add_assoc, Option.bind_eq_bind,
    Option.bind_some, Option.pure_def]

theorem byteAt_entry (h : PrevFits wide prev) (ha : a.length = off) :
    byteAt (a ++ (entryBytes wide prev s ++ c)) off ≠ zipEnd := by
  rw [entry_append]
  exact (decodePrevlen_eq h ha).2.2

/-- **The content of an entry is read back.** -/
theorem ziplistGet_eq (h : PrevFits wide prev) (hs : s.length < 2 ^ 32) (ha : a.length = off) :
    ziplistGet (a ++ (entryBytes wide prev s ++ c)) off = some (some (valueOf s)) := by
  obtain ⟨entry, hentry, -, -, h3, h4, h5⟩ := zipEntry_eq (c := c) h hs ha
  have hlen : (a ++ (prevlenBytes wide prev ++ lengthBytes s)).length =
      off + (prevlenSize wide + (lengthBytes s).length) := by
    rw [List.length_append, List.length_append, ha, length_prevlenBytes]
  have hsplit : a ++ (entryBytes wide prev s ++ c) =
      (a ++ (prevlenBytes wide prev ++ lengthBytes s)) ++ (contentBytes s ++ c) := by
    simp only [entryBytes, List.append_assoc]
  unfold ziplistGet
  rw [if_neg (byteAt_entry h ha)]
  simp only [hentry, h3, h4, Option.bind_eq_bind, Option.bind_some]
  unfold valueOf
  cases hz : zipTryEncoding s with
  | none =>
    rw [hz] at h5
    simp only [h5, if_true]
    rw [hsplit, slice_append hlen rfl, contentBytes_none hz]
  | some p =>
    obtain ⟨v, e⟩ := p
    rw [hz] at h5
    obtain ⟨henc, hint⟩ := h5
    simp only [henc, hint.not_str, Bool.false_eq_true, if_false]
    rw [hsplit, ← hlen, hint.load]
    rfl

end Coms4111.Server
