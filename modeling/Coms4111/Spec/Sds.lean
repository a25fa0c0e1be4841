import Coms4111.Store.Bytes

/-!
# Arguments in a line (`redis-4.0.6/src/sds.c`)

`sdscatrepr` writes a text in quotes, with escapes for what cannot be printed, and `sdssplitargs`
splits a line into arguments that may be written so. Lines of the configuration file and inline
requests are read that way.

`isspace` and `isprint` are those of the C locale.
-/

namespace Coms4111.Server

open Store

/-- A text of the source as bytes. -/
def ascii (s : String) : Bytes := s.toList.map fun c => UInt8.ofNat c.toNat

def isspace (c : UInt8) : Bool := c = 32 ∨ 9 ≤ c ∧ c ≤ 13

def isprint (c : UInt8) : Bool := 32 ≤ c ∧ c ≤ 126

/-! ## Writing -/

/-- A digit of `%02x`. -/
def hexDigit (n : ℕ) : UInt8 := if n < 10 then UInt8.ofNat (48 + n) else UInt8.ofNat (87 + n)

/-- One round of the loop of `sdscatrepr`. -/
def reprByte (c : UInt8) : Bytes :=
  if c = 92 ∨ c = 34 then [92, c]
  else if c = 10 then ascii "\\n"
  else if c = 13 then ascii "\\r"
  else if c = 9 then ascii "\\t"
  else if c = 7 then ascii "\\a"
  else if c = 8 then ascii "\\b"
  else if isprint c then [c]
  else ascii "\\x" ++ [hexDigit (c.toNat / 16), hexDigit (c.toNat % 16)]

/-- **`sdscatrepr`**. -/
def sdscatrepr (s p : Bytes) : Bytes := s ++ [34] ++ p.flatMap reprByte ++ [34]

/-! ## Reading -/

/-- `is_hex_digit`. -/
def isHexDigit (c : UInt8) : Bool := 48 ≤ c ∧ c ≤ 57 ∨ 97 ≤ c ∧ c ≤ 102 ∨ 65 ≤ c ∧ c ≤ 70

/-- `hex_digit_to_int`. -/
def hexDigitToInt (c : UInt8) : ℕ :=
  if 48 ≤ c ∧ c ≤ 57 then c.toNat - 48
  else if 97 ≤ c ∧ c ≤ 102 then c.toNat - 87
  else if 65 ≤ c ∧ c ≤ 70 then c.toNat - 55
  else 0

/-- What a letter behind a backslash stands for. -/
def unescape (c : UInt8) : UInt8 :=
  if c = 110 then 10
  else if c = 114 then 13
  else if c = 116 then 9
  else if c = 98 then 8
  else if c = 97 then 7
  else c

/-- A closing quote must be followed by a space or nothing at all. -/
def closed (current p : Bytes) : Option (Bytes × Bytes) :=
  match p with
  | [] => some (current, [])
  | c :: _ => if isspace c then some (current, p) else none

/-- Where the token is: in quotes (`inq`), in single quotes (`insq`), or in neither. -/
inductive Quotes
  | bare
  | inq
  | insq
  deriving DecidableEq

/-- **A token of `sdssplitargs`**, from `current` on: the token and what comes behind it. -/
def splitToken : Quotes → Bytes → Bytes → Option (Bytes × Bytes)
  | .bare, current, [] => some (current, [])
  | .bare, current, c :: p =>
    if c = 32 ∨ c = 10 ∨ c = 13 ∨ c = 9 then some (current, p)
    else if c = 34 then splitToken .inq current p
    else if c = 39 then splitToken .insq current p
    else splitToken .bare (current ++ [c]) p
  | .inq, current, 92 :: 120 :: h :: l :: p =>
    if isHexDigit h && isHexDigit l then
      splitToken .inq (current ++ [UInt8.ofNat (hexDigitToInt h * 16 + hexDigitToInt l)]) p
    else splitToken .inq (current ++ [unescape 120]) (h :: l :: p)
  | .inq, current, 92 :: c :: p => splitToken .inq (current ++ [unescape c]) p
  | .inq, current, c :: p => if c = 34 then closed current p else splitToken .inq (current ++ [c]) p
  | .inq, _, [] => none
  | .insq, current, 92 :: 39 :: p => splitToken .insq (current ++ [39]) p
  | .insq, current, c :: p => if c = 39 then closed current p else splitToken .insq (current ++ [c]) p
  | .insq, _, [] => none

/-- The loop of `sdssplitargs`, for at most `n` rounds. -/
def splitLoop : ℕ → Bytes → Option (List Bytes)
  | 0, _ => none
  | n + 1, p =>
    match p.dropWhile isspace with
    | [] => some []
    | c :: p => do
      let (current, p) ← splitToken .bare [] (c :: p)
      let vector ← splitLoop n p
      return current :: vector

/-- **`sdssplitargs`**. A line is a C string. Each round but the last takes a byte. -/
def sdssplitargs (line : Bytes) : Option (List Bytes) := splitLoop (line.length + 1) (line.takeWhile (· ≠ 0))

end Coms4111.Server
