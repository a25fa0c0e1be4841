import Coms4111.Store.Bytes

/-!
# Ziplists of the Redis server (`hw5/redis-4.0.6/src/ziplist.c`)

A ziplist is a block of memory: the number of its bytes, the offset of its last entry, the
number of entries, the entries, and the byte 255. Each entry starts with the length of the
one before it, in one byte or in five, so that the list can be walked in both directions.

A ziplist is the list of its bytes, and a pointer into it an offset. An `assert` that fails and a
`panic` at an encoding that no entry has end the server: the whole operation is `none` then. A
pointer that may be `NULL` is an `Option` within that. A loop that goes on to the end of the list
has a bound on its rounds here, the number of bytes, and would be `none` if it were not enough.
Memory that `realloc` adds is zero here, which makes no difference. The cache for the search text's
encoding in `ziplistFind` is left out. From `util.c` and `sds.c` come the conversions between
numbers and their texts.
-/

namespace Coms4111.Server

open Store

/-! ## Numbers and their texts -/

/-- The digit as a byte. -/
def digit (n : ℕ) : UInt8 := UInt8.ofNat (48 + n)

def isDigit (c : UInt8) : Bool := 48 ≤ c ∧ c ≤ 57

/-- `ULLONG_MAX`. -/
def ullongMax : ℕ := 2 ^ 64 - 1

/-- The loop of `string2ll`, and the check that it has used all bytes. -/
def string2llLoop (v : ℕ) : Bytes → Option ℕ
  | [] => some v
  | c :: cs =>
    if isDigit c then
      if ullongMax / 10 < v then none
      else if ullongMax - (c.toNat - 48) < v * 10 then none
      else string2llLoop (v * 10 + (c.toNat - 48)) cs
    else none

/-- **`string2ll`**: the number that a text stands for, if it is written as the server would
write it. -/
def string2ll (s : Bytes) : Option ℤ :=
  if s.length = 0 then none
  else if s = [48] then some 0
  else
    let negative := byteAt s 0 = 45
    match (if negative then s.drop 1 else s) with
    | [] => none
    | c :: cs =>
      if 49 ≤ c ∧ c ≤ 57 then
        match string2llLoop (c.toNat - 48) cs with
        | none => none
        | some v =>
          if negative then (if 2 ^ 63 < v then none else some (-(v : ℤ)))
          else if 2 ^ 63 - 1 < v then none else some v
      else none

/-- `digits10`. -/
def digits10 (v : ℕ) : ℕ :=
  if v < 10 then 1
  else if v < 100 then 2
  else if v < 1000 then 3
  else if v < 10 ^ 12 then
    if v < 10 ^ 8 then
      if v < 10 ^ 6 then if v < 10 ^ 4 then 4 else 5 + if 10 ^ 5 ≤ v then 1 else 0
      else 7 + if 10 ^ 7 ≤ v then 1 else 0
    else if v < 10 ^ 10 then 9 + if 10 ^ 9 ≤ v then 1 else 0
    else 11 + if 10 ^ 11 ≤ v then 1 else 0
  else 12 + digits10 (v / 10 ^ 12)
  termination_by v

/-- `sdigits10`. -/
def sdigits10 (v : ℤ) : ℕ := if v < 0 then digits10 v.natAbs + 1 else digits10 v.natAbs

/-- The loop of `ll2string`: two digits at a time, from the right. -/
def ll2stringLoop (value : ℕ) (dst : Bytes) : Bytes :=
  if value < 100 then
    if value < 10 then digit value :: dst else digit (value / 10) :: digit (value % 10) :: dst
  else ll2stringLoop (value / 100) (digit (value % 100 / 10) :: digit (value % 100 % 10) :: dst)
  termination_by value

/-- **`ll2string`**. -/
def ll2string (svalue : ℤ) : Bytes :=
  if svalue < 0 then 45 :: ll2stringLoop svalue.natAbs [] else ll2stringLoop svalue.natAbs []

/-- The loop of `sdsll2str`: the digits in reverse. -/
def sdsll2strLoop (v : ℕ) : Bytes :=
  digit (v % 10) :: if v / 10 = 0 then [] else sdsll2strLoop (v / 10)
  termination_by v

/-- **`sdsfromlonglong`**, by `sdsll2str`. -/
def sdsfromlonglong (value : ℤ) : Bytes :=
  (sdsll2strLoop value.natAbs ++ if value < 0 then [45] else []).reverse

/-! ## The fields of an entry -/

/-- `ZIP_END`. -/
def zipEnd : UInt8 := 255

/-- `ZIP_BIG_PREVLEN`. -/
def zipBigPrevlen : ℕ := 254

/-- `ZIP_IS_STR`. -/
def zipIsStr (encoding : UInt8) : Bool := encoding &&& 0xc0 < 0xc0

/-- An encoding from `ZIP_INT_IMM_MIN` to `ZIP_INT_IMM_MAX`, which has the number in it. -/
def zipIsImmediate (encoding : UInt8) : Bool := 0xf1 ≤ encoding ∧ encoding ≤ 0xfd

/-- `zipIntSize`, with a panic for an encoding that there is not. -/
def zipIntSize (encoding : UInt8) : Option ℕ :=
  if encoding = 0xfe then some 1
  else if encoding = 0xc0 then some 2
  else if encoding = 0xf0 then some 3
  else if encoding = 0xd0 then some 4
  else if encoding = 0xe0 then some 8
  else if zipIsImmediate encoding then some 0
  else none

/-- `zipStoreEntryEncoding`: the bytes that it stores. -/
def zipStoreEntryEncoding (encoding : UInt8) (rawlen : ℕ) : Bytes :=
  if zipIsStr encoding then
    if rawlen ≤ 0x3f then [UInt8.ofNat rawlen]
    else if rawlen ≤ 0x3fff then [0x40 ||| (UInt8.ofNat (rawlen / 2 ^ 8) &&& 0x3f), UInt8.ofNat rawlen]
    else [0x80, UInt8.ofNat (rawlen / 2 ^ 24), UInt8.ofNat (rawlen / 2 ^ 16), UInt8.ofNat (rawlen / 2 ^ 8),
      UInt8.ofNat rawlen]
  else [encoding]

/-- `ZIP_DECODE_LENGTH`: the encoding, and how many bytes it and the content take. -/
def zipDecodeLength (zl : Bytes) (p : ℕ) : Option (UInt8 × ℕ × ℕ) :=
  let b := byteAt zl p
  if b < 0xc0 then
    let encoding := b &&& 0xc0
    if encoding = 0 then some (encoding, 1, (b &&& 0x3f).toNat)
    else if encoding = 0x40 then some (encoding, 2, (b &&& 0x3f).toNat * 2 ^ 8 + (byteAt zl (p + 1)).toNat)
    else if encoding = 0x80 then
      some (encoding, 5, (byteAt zl (p + 1)).toNat * 2 ^ 24 + (byteAt zl (p + 2)).toNat * 2 ^ 16 +
        (byteAt zl (p + 3)).toNat * 2 ^ 8 + (byteAt zl (p + 4)).toNat)
    else none
  else (zipIntSize b).map fun len => (b, 1, len)

/-- `zipStorePrevEntryLengthLarge`: the bytes that it stores. -/
def zipStorePrevEntryLengthLarge (len : ℕ) : Bytes := UInt8.ofNat zipBigPrevlen :: leBytes 4 len

/-- `zipStorePrevEntryLength`: the bytes that it stores. -/
def zipStorePrevEntryLength (len : ℕ) : Bytes :=
  if len < zipBigPrevlen then [UInt8.ofNat len] else zipStorePrevEntryLengthLarge len

/-- `ZIP_DECODE_PREVLENSIZE`. -/
def zipDecodePrevlensize (zl : Bytes) (p : ℕ) : ℕ := if (byteAt zl p).toNat < zipBigPrevlen then 1 else 5

/-- `ZIP_DECODE_PREVLEN`. -/
def zipDecodePrevlen (zl : Bytes) (p : ℕ) : ℕ :=
  if zipDecodePrevlensize zl p = 1 then (byteAt zl p).toNat else ofLe (slice zl (p + 1) 4)

/-- `zipPrevLenByteDiff`. -/
def zipPrevLenByteDiff (zl : Bytes) (p len : ℕ) : ℤ :=
  (zipStorePrevEntryLength len).length - (zipDecodePrevlensize zl p : ℤ)

/-- `zipRawEntryLength`. -/
def zipRawEntryLength (zl : Bytes) (p : ℕ) : Option ℕ := do
  let prevlensize := zipDecodePrevlensize zl p
  let (_, lensize, len) ← zipDecodeLength zl (p + prevlensize)
  return prevlensize + lensize + len

/-- `zipTryEncoding`: the number that a text stands for, and its encoding. -/
def zipTryEncoding (entry : Bytes) : Option (ℤ × UInt8) :=
  if 32 ≤ entry.length ∨ entry.length = 0 then none
  else match string2ll entry with
    | none => none
    | some value =>
      if 0 ≤ value ∧ value ≤ 12 then some (value, 0xf1 + UInt8.ofNat value.toNat)
      else if -2 ^ 7 ≤ value ∧ value < 2 ^ 7 then some (value, 0xfe)
      else if -2 ^ 15 ≤ value ∧ value < 2 ^ 15 then some (value, 0xc0)
      else if -2 ^ 23 ≤ value ∧ value < 2 ^ 23 then some (value, 0xf0)
      else if -2 ^ 31 ≤ value ∧ value < 2 ^ 31 then some (value, 0xd0)
      else some (value, 0xe0)

/-- `zipSaveInteger`: the bytes that it stores. -/
def zipSaveInteger (value : ℤ) (encoding : UInt8) : Option Bytes :=
  if encoding = 0xfe then some (signedBytes 1 value)
  else if encoding = 0xc0 then some (signedBytes 2 value)
  else if encoding = 0xf0 then some ((signedBytes 4 (value * 2 ^ 8)).drop 1)
  else if encoding = 0xd0 then some (signedBytes 4 value)
  else if encoding = 0xe0 then some (signedBytes 8 value)
  else if zipIsImmediate encoding then some []
  else none

/-- `zipLoadInteger`. -/
def zipLoadInteger (zl : Bytes) (p : ℕ) (encoding : UInt8) : Option ℤ :=
  if encoding = 0xfe then some (ofSigned (slice zl p 1))
  else if encoding = 0xc0 then some (ofSigned (slice zl p 2))
  else if encoding = 0xd0 then some (ofSigned (slice zl p 4))
  else if encoding = 0xf0 then some (ofSigned (0 :: slice zl p 3) / 2 ^ 8)
  else if encoding = 0xe0 then some (ofSigned (slice zl p 8))
  else if zipIsImmediate encoding then some (((encoding &&& 0x0f).toNat : ℤ) - 1)
  else none

/-- The encoding of a text, how many bytes its content takes, and these: a number if the text
stands for one. -/
def zipEncode (s : Bytes) : Option (UInt8 × ℕ × Bytes) :=
  match zipTryEncoding s with
  | some (value, encoding) => do
    let reqlen ← zipIntSize encoding
    let content ← zipSaveInteger value encoding
    return (encoding, reqlen, content)
  | none => some (0, s.length, s)

/-- `zlentry`. -/
structure ZlEntry where
  prevrawlensize : ℕ
  prevrawlen : ℕ
  lensize : ℕ
  len : ℕ
  headersize : ℕ
  encoding : UInt8

/-- `zipEntry`. -/
def zipEntry (zl : Bytes) (p : ℕ) : Option ZlEntry := do
  let prevrawlensize := zipDecodePrevlensize zl p
  let (encoding, lensize, len) ← zipDecodeLength zl (p + prevrawlensize)
  return ⟨prevrawlensize, zipDecodePrevlen zl p, lensize, len, prevrawlensize + lensize, encoding⟩

/-! ## The header -/

/-- `ZIPLIST_HEADER_SIZE`. -/
def ziplistHeaderSize : ℕ := 10

/-- `ZIPLIST_BYTES`. -/
def ziplistBytes (zl : Bytes) : ℕ := ofLe (slice zl 0 4)

/-- `ZIPLIST_TAIL_OFFSET`. -/
def ziplistTailOffset (zl : Bytes) : ℕ := ofLe (slice zl 4 4)

/-- `ZIPLIST_LENGTH`. -/
def ziplistLength (zl : Bytes) : ℕ := ofLe (slice zl 8 2)

def setTailOffset (zl : Bytes) (offset : ℤ) : Bytes := write zl 4 (signedBytes 4 offset)

/-- `ZIPLIST_INCR_LENGTH`. -/
def ziplistIncrLength (zl : Bytes) (incr : ℤ) : Bytes :=
  if ziplistLength zl < 2 ^ 16 - 1 then write zl 8 (signedBytes 2 (ziplistLength zl + incr)) else zl

/-- `ziplistNew`. -/
def ziplistNew : Bytes :=
  leBytes 4 (ziplistHeaderSize + 1) ++ leBytes 4 ziplistHeaderSize ++ leBytes 2 0 ++ [zipEnd]

/-- `ziplistResize`. -/
def ziplistResize (zl : Bytes) (len : ℕ) : Bytes :=
  write (write (realloc zl len) 0 (leBytes 4 len)) (len - 1) [zipEnd]

/-! ## Inserting and deleting -/

/-- **`__ziplistCascadeUpdate`**, with a bound on its rounds. -/
def ziplistCascadeUpdate : ℕ → Bytes → ℕ → Option Bytes
  | 0, _, _ => none
  | n + 1, zl, p =>
    let curlen := ziplistBytes zl
    if byteAt zl p = zipEnd then some zl
    else do
      let cur ← zipEntry zl p
      let rawlen := cur.headersize + cur.len
      let rawlensize := (zipStorePrevEntryLength rawlen).length
      if byteAt zl (p + rawlen) = zipEnd then some zl
      else do
        let next ← zipEntry zl (p + rawlen)
        if next.prevrawlen = rawlen then some zl
        else if next.prevrawlensize < rawlensize then
          let extra := rawlensize - next.prevrawlensize
          let zl := ziplistResize zl (curlen + extra)
          let np := p + rawlen
          let zl := if ziplistTailOffset zl ≠ np then setTailOffset zl (ziplistTailOffset zl + extra) else zl
          let zl :=
            memmove zl (np + rawlensize) (np + next.prevrawlensize) (curlen - np - next.prevrawlensize - 1)
          let zl := write zl np (zipStorePrevEntryLength rawlen)
          ziplistCascadeUpdate n zl (p + rawlen)
        else if rawlensize < next.prevrawlensize then
          some (write zl (p + rawlen) (zipStorePrevEntryLengthLarge rawlen))
        else some (write zl (p + rawlen) (zipStorePrevEntryLength rawlen))

/-- A ziplist has fewer entries than bytes. -/
def cascadeUpdate (zl : Bytes) (p : ℕ) : Option Bytes := ziplistCascadeUpdate (ziplistBytes zl) zl p

/-- The loop of `__ziplistDelete`: where it gets, and how many entries it has passed. -/
def skipEntries (zl : Bytes) : ℕ → ℕ → Option (ℕ × ℕ)
  | 0, p => some (p, 0)
  | num + 1, p =>
    if byteAt zl p = zipEnd then some (p, 0)
    else do
      let len ← zipRawEntryLength zl p
      let (p, deleted) ← skipEntries zl num (p + len)
      return (p, deleted + 1)

/-- The part of `__ziplistDelete` that closes the gap where there is an entry behind it. -/
def closeGap (zl : Bytes) (first p bytes totlen prevrawlen : ℕ) (nextdiff : ℤ) : Option Bytes := do
  let p := ((p : ℤ) - nextdiff).toNat
  let zl := write zl p (zipStorePrevEntryLength prevrawlen)
  let zl := setTailOffset zl (ziplistTailOffset zl - totlen)
  let tail ← zipEntry zl p
  let zl := if byteAt zl (p + tail.headersize + tail.len) ≠ zipEnd then
      setTailOffset zl (ziplistTailOffset zl + nextdiff)
    else zl
  return memmove zl first p (bytes - p - 1)

/-- **`__ziplistDelete`**. -/
def ziplistDeleteAt (zl : Bytes) (first : ℕ) (num : ℕ) : Option Bytes := do
  let firstEntry ← zipEntry zl first
  let (p, deleted) ← skipEntries zl num first
  let totlen := p - first
  if 0 < totlen then
    let bytes := ziplistBytes zl
    if byteAt zl p ≠ zipEnd then
      let nextdiff := zipPrevLenByteDiff zl p firstEntry.prevrawlen
      let zl ← closeGap zl first p bytes totlen firstEntry.prevrawlen nextdiff
      let zl := ziplistResize zl ((bytes : ℤ) - totlen + nextdiff).toNat
      let zl := ziplistIncrLength zl (-deleted)
      if nextdiff ≠ 0 then cascadeUpdate zl first else some zl
    else
      let zl := setTailOffset zl ((first : ℤ) - firstEntry.prevrawlen)
      let zl := ziplistResize zl (bytes - totlen)
      some (ziplistIncrLength zl (-deleted))
  else some zl

/-- The part of `__ziplistInsert` that moves what follows, and stores the length of the new
entry there. `curlen` is the number of bytes before the insertion. -/
def moveTail (zl : Bytes) (p curlen reqlen : ℕ) (nextdiff : ℤ) (forcelarge : Bool) : Option Bytes :=
  if byteAt zl p ≠ zipEnd then do
    let zl := memmove zl (p + reqlen) ((p : ℤ) - nextdiff).toNat ((curlen : ℤ) - p - 1 + nextdiff).toNat
    let zl := write zl (p + reqlen)
      (if forcelarge then zipStorePrevEntryLengthLarge reqlen else zipStorePrevEntryLength reqlen)
    let zl := setTailOffset zl (ziplistTailOffset zl + reqlen)
    let tail ← zipEntry zl (p + reqlen)
    return if byteAt zl (p + reqlen + tail.headersize + tail.len) ≠ zipEnd then
        setTailOffset zl (ziplistTailOffset zl + nextdiff)
      else zl
  else some (setTailOffset zl p)

/-- The length of the entry before a new one at `p`. -/
def prevlenAt (zl : Bytes) (p : ℕ) : Option ℕ :=
  if byteAt zl p ≠ zipEnd then some (zipDecodePrevlen zl p)
  else if byteAt zl (ziplistTailOffset zl) ≠ zipEnd then zipRawEntryLength zl (ziplistTailOffset zl)
  else some 0

/-- **`__ziplistInsert`**. -/
def ziplistInsert (zl : Bytes) (p : ℕ) (s : Bytes) : Option Bytes := do
  let curlen := ziplistBytes zl
  let prevlen ← prevlenAt zl p
  let (encoding, contentlen, content) ← zipEncode s
  let reqlen := contentlen + (zipStorePrevEntryLength prevlen).length +
    (zipStoreEntryEncoding encoding s.length).length
  let diff := if byteAt zl p ≠ zipEnd then zipPrevLenByteDiff zl p reqlen else 0
  let forcelarge := decide (diff = -4 ∧ reqlen < 4)
  let nextdiff := if forcelarge then 0 else diff
  let zl := ziplistResize zl ((curlen : ℤ) + reqlen + nextdiff).toNat
  let zl ← moveTail zl p curlen reqlen nextdiff forcelarge
  let zl ← (if nextdiff ≠ 0 then cascadeUpdate zl (p + reqlen) else some zl)
  let zl := write zl p (zipStorePrevEntryLength prevlen ++ zipStoreEntryEncoding encoding s.length ++ content)
  return ziplistIncrLength zl 1

/-- `ziplistPush`, at the head or at the tail. -/
def ziplistPush (zl : Bytes) (s : Bytes) (head : Bool) : Option Bytes :=
  ziplistInsert zl (if head then ziplistHeaderSize else ziplistBytes zl - 1) s

/-! ## Walking -/

/-- The forward loop of `ziplistIndex`. -/
def indexForward (zl : Bytes) : ℕ → ℕ → Option ℕ
  | 0, p => some p
  | index + 1, p =>
    if byteAt zl p = zipEnd then some p
    else do
      let len ← zipRawEntryLength zl p
      indexForward zl index (p + len)

/-- The backward loop of `ziplistIndex`: the index that is left, and where it gets. -/
def indexBackward (zl : Bytes) : ℕ → ℕ → ℕ × ℕ
  | 0, p => (0, p)
  | index + 1, p =>
    if zipDecodePrevlen zl p = 0 then (index + 1, p) else indexBackward zl index (p - zipDecodePrevlen zl p)

/-- **`ziplistIndex`**. Negative indices count from the tail. -/
def ziplistIndex (zl : Bytes) (index : ℤ) : Option (Option ℕ) :=
  if index < 0 then
    let p := ziplistTailOffset zl
    let r := if byteAt zl p ≠ zipEnd then indexBackward zl (-index - 1).toNat p else ((-index - 1).toNat, p)
    some (if byteAt zl r.2 = zipEnd ∨ 0 < r.1 then none else some r.2)
  else do
    let p ← indexForward zl index.toNat ziplistHeaderSize
    return if byteAt zl p = zipEnd then none else some p

/-- `ziplistNext`. -/
def ziplistNext (zl : Bytes) (p : ℕ) : Option (Option ℕ) :=
  if byteAt zl p = zipEnd then some none
  else do
    let len ← zipRawEntryLength zl p
    return if byteAt zl (p + len) = zipEnd then none else some (p + len)

/-- `ziplistPrev`. -/
def ziplistPrev (zl : Bytes) (p : ℕ) : Option (Option ℕ) :=
  if byteAt zl p = zipEnd then
    some (if byteAt zl (ziplistTailOffset zl) = zipEnd then none else some (ziplistTailOffset zl))
  else if p = ziplistHeaderSize then some none
  else if zipDecodePrevlen zl p = 0 then none
  else some (some (p - zipDecodePrevlen zl p))

/-- What `ziplistGet` gives: a text or a number. -/
inductive ZipValue
  | str (s : Bytes)
  | int (v : ℤ)
  deriving DecidableEq

/-- The text of a value in a reply: `addReplyBulkCBuffer` or `addReplyBulkLongLong`. -/
def ZipValue.text : ZipValue → Bytes
  | str s => s
  | int v => ll2string v

/-- The text of a value that is copied: `sdsnewlen` or `sdsfromlonglong`. -/
def ZipValue.sds : ZipValue → Bytes
  | str s => s
  | int v => sdsfromlonglong v

/-- `ziplistGet`. At the end there is nothing to get. -/
def ziplistGet (zl : Bytes) (p : ℕ) : Option (Option ZipValue) :=
  if byteAt zl p = zipEnd then some none
  else do
    let entry ← zipEntry zl p
    if zipIsStr entry.encoding then some (some (.str (slice zl (p + entry.headersize) entry.len)))
    else do
      let value ← zipLoadInteger zl (p + entry.headersize) entry.encoding
      return some (.int value)

/-- `ziplistDelete`. The entry that follows is at the same offset then. -/
def ziplistDelete (zl : Bytes) (p : ℕ) : Option Bytes := ziplistDeleteAt zl p 1

/-- `ziplistDeleteRange`. -/
def ziplistDeleteRange (zl : Bytes) (index : ℤ) (num : ℕ) : Option Bytes := do
  match ← ziplistIndex zl index with
  | none => some zl
  | some p => ziplistDeleteAt zl p num

/-- The comparison in `ziplistFind`: of bytes, or of numbers if the entry is stored as one. The
encoding of the search text is asserted not to be zero. -/
def zipMatches (zl : Bytes) (q : ℕ) (encoding : UInt8) (len : ℕ) (vstr : Bytes) : Option Bool :=
  if zipIsStr encoding then some (len = vstr.length ∧ slice zl q vstr.length = vstr)
  else match zipTryEncoding vstr with
    | some (vll, vencoding) =>
      if vencoding = 0 then none else (zipLoadInteger zl q encoding).map fun ll => decide (ll = vll)
    | none => some false

/-- The loop of `ziplistFind`. -/
def ziplistFindLoop (zl vstr : Bytes) (skip : ℕ) : ℕ → ℕ → ℕ → Option (Option ℕ)
  | 0, _, _ => none
  | n + 1, skipcnt, p =>
    if byteAt zl p = zipEnd then some none
    else do
      let prevlensize := zipDecodePrevlensize zl p
      let (encoding, lensize, len) ← zipDecodeLength zl (p + prevlensize)
      let q := p + prevlensize + lensize
      if skipcnt = 0 then do
        let found ← zipMatches zl q encoding len vstr
        if found then some (some p) else ziplistFindLoop zl vstr skip n skip (q + len)
      else ziplistFindLoop zl vstr skip n (skipcnt - 1) (q + len)

/-- **`ziplistFind`**. A ziplist has fewer entries than bytes. -/
def ziplistFind (zl : Bytes) (p : ℕ) (vstr : Bytes) (skip : ℕ) : Option (Option ℕ) :=
  ziplistFindLoop zl vstr skip (ziplistBytes zl) 0 p

/-- The loop of `ziplistLen`. -/
def countEntries (zl : Bytes) : ℕ → ℕ → Option ℕ
  | 0, _ => none
  | n + 1, p =>
    if byteAt zl p = zipEnd then some 0
    else do
      let len ← zipRawEntryLength zl p
      let count ← countEntries zl n (p + len)
      return count + 1

/-- **`ziplistLen`**, and the ziplist with the length stored anew. -/
def ziplistLen (zl : Bytes) : Option (ℕ × Bytes) :=
  if ziplistLength zl < 2 ^ 16 - 1 then some (ziplistLength zl, zl)
  else do
    let len ← countEntries zl (ziplistBytes zl) ziplistHeaderSize
    return (len, if len < 2 ^ 16 - 1 then write zl 8 (leBytes 2 len) else zl)

end Coms4111.Server
