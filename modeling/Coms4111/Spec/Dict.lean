import Mathlib.Algebra.Group.Nat.Defs
import Mathlib.Data.Nat.Bits

/-!
# Hash tables of the Redis server (`hw5/redis-4.0.6/src/dict.c`)

A `dict` has two tables of chained buckets. While it is resized, its entries are moved from
`ht[0]` to `ht[1]`, a bucket at a time, by the operations that happen to run.

The hash function is a parameter, keys are compared for equality, and an entry's `next` is
the rest of its bucket. An operation in which the assertion of `dictRehash` fails is `none`. Tables
of more than `2^31` buckets are left out: there the `int` that `_dictKeyIndex` returns would
overflow.
-/

namespace Coms4111.Server

variable {K V : Type}

/-- `DICT_HT_INITIAL_SIZE`. -/
def initialSize : ℕ := 4

/-- `LONG_MAX`. -/
def longMax : ℕ := 2 ^ 63 - 1

/-- `dict_force_resize_ratio`. -/
def forceResizeRatio : ℕ := 5

/-- **`dictht`**: the buckets, and how many entries they have. -/
structure Table (K V : Type) where
  table : List (List (K × V))
  used : ℕ
  deriving DecidableEq

namespace Table

/-- `_dictReset`: the table is `NULL`. -/
def reset : Table K V := ⟨[], 0⟩

def size (t : Table K V) : ℕ := t.table.length

def sizemask (t : Table K V) : ℕ := t.size - 1

def bucket (t : Table K V) (i : ℕ) : List (K × V) := t.table.getD i []

/-- `zcalloc`: `n` buckets that are `NULL`. -/
def calloc (n : ℕ) : Table K V := ⟨List.replicate n [], 0⟩

/-- An entry on top of its bucket. -/
def push (t : Table K V) (i : ℕ) (e : K × V) : Table K V := ⟨t.table.set i (e :: t.bucket i), t.used + 1⟩

variable [DecidableEq K]

/-- The walk along a bucket. -/
def find (t : Table K V) (i : ℕ) (key : K) : Option V := (t.bucket i).lookup key

/-- The walk along a bucket, where the entry that it finds gets the value. -/
def setVal (t : Table K V) (i : ℕ) (key : K) (val : V) : Table K V :=
  { t with table := t.table.set i ((t.bucket i).replaceF fun e => if e.1 = key then some (e.1, val) else none) }

/-- The walk along a bucket, where the entry that it finds is unlinked. -/
def unlink (t : Table K V) (i : ℕ) (key : K) : Table K V :=
  ⟨t.table.set i ((t.bucket i).eraseP fun e => e.1 = key), t.used - 1⟩

end Table

/-- **`dict`**. `rehashidx` is `none` where the source has -1. -/
structure Dict (K V : Type) where
  ht0 : Table K V
  ht1 : Table K V
  rehashidx : Option ℕ
  iterators : ℕ
  deriving DecidableEq

namespace Dict

/-- `dictCreate`. -/
def create : Dict K V := ⟨.reset, .reset, none, 0⟩

/-- `dictIsRehashing`. -/
def isRehashing (d : Dict K V) : Bool := d.rehashidx.isSome

/-- `dictSize`. -/
def size (d : Dict K V) : ℕ := d.ht0.used + d.ht1.used

/-- `dictSlots`. -/
def slots (d : Dict K V) : ℕ := d.ht0.size + d.ht1.size

end Dict

/-! ## Resizing -/

/-- The loop of `_dictNextPower`. -/
def nextPowerFrom (i size : ℕ) : ℕ :=
  if i = 0 ∨ size ≤ i then i else nextPowerFrom (i * 2) size
  termination_by size - i

/-- `_dictNextPower`. -/
def nextPower (size : ℕ) : ℕ := if longMax ≤ size then longMax + 1 else nextPowerFrom initialSize size

namespace Dict

/-- `dictExpand`; `none` is `DICT_ERR`. -/
def expand (d : Dict K V) (size : ℕ) : Option (Dict K V) :=
  let realsize := nextPower size
  if d.isRehashing ∨ size < d.ht0.used then none
  else if realsize = d.ht0.size then none
  else if d.ht0.size = 0 then some { d with ht0 := .calloc realsize }
  else some { d with ht1 := .calloc realsize, rehashidx := some 0 }

/-- `dictResize`. -/
def resize (canResize : Bool) (d : Dict K V) : Option (Dict K V) :=
  if !canResize ∨ d.isRehashing then none
  else d.expand (if d.ht0.used < initialSize then initialSize else d.ht0.used)

/-- `_dictExpandIfNeeded`. -/
def expandIfNeeded (canResize : Bool) (d : Dict K V) : Option (Dict K V) :=
  if d.isRehashing then some d
  else if d.ht0.size = 0 then d.expand initialSize
  else if d.ht0.size ≤ d.ht0.used ∧ (canResize ∨ forceResizeRatio < d.ht0.used / d.ht0.size) then
    d.expand (d.ht0.used * 2)
  else some d

/-- `htNeedsResize`: less than a tenth of the slots is used. -/
def needsResize (d : Dict K V) : Bool := initialSize < d.slots ∧ d.size * 100 / d.slots < 10

end Dict

/-! ## Rehashing -/

section

variable (hashFunction : K → UInt64)

/-- `h & sizemask`, where `h` is an `unsigned int`. -/
def index (t : Table K V) (key : K) : ℕ := (hashFunction key).toNat % 2 ^ 32 &&& t.sizemask

/-- The index as `dictRehash` computes it, cut to an `unsigned int` in the end. -/
def newIndex (t : Table K V) (key : K) : ℕ := ((hashFunction key).toNat &&& t.sizemask) % 2 ^ 32

/-- The inner loop of `dictRehash`: empty buckets are skipped, until `visits` of them have
been. The index that is reached, and the visits that are left. -/
def skipEmpty (t : Table K V) : ℕ → ℕ → ℕ × ℕ
  | 0, idx => (idx, 0)
  | visits + 1, idx => if (t.bucket idx).isEmpty then skipEmpty t visits (idx + 1) else (idx, visits + 1)

namespace Dict

/-- An entry goes from `ht[0]` to its bucket of `ht[1]`. -/
def moveEntry (d : Dict K V) (e : K × V) : Dict K V :=
  { d with
    ht0 := { d.ht0 with used := d.ht0.used - 1 }
    ht1 := d.ht1.push (newIndex hashFunction d.ht1 e.1) e }

/-- The bucket at `idx`, entry by entry. -/
def moveBucket (d : Dict K V) (idx : ℕ) : Dict K V :=
  let d := (d.ht0.bucket idx).foldl (moveEntry hashFunction) d
  { d with ht0 := { d.ht0 with table := d.ht0.table.set idx [] } }

/-- What `dictRehash` does after its loop: if nothing is left, `ht[1]` becomes `ht[0]`. -/
def finishRehash (d : Dict K V) (idx : ℕ) : Bool × Dict K V :=
  if d.ht0.used = 0 then (false, { d with ht0 := d.ht1, ht1 := .reset, rehashidx := none })
  else (true, { d with rehashidx := some idx })

/-- The loop of `dictRehash`. As long as there are entries, the index has to be one of `ht[0]`. -/
def rehashLoop : ℕ → ℕ → ℕ → Dict K V → Option (Bool × Dict K V)
  | 0, _, idx, d => some (d.finishRehash idx)
  | n + 1, visits, idx, d =>
    if d.ht0.used = 0 then some (d.finishRehash idx)
    else if d.ht0.size ≤ idx then none
    else match skipEmpty d.ht0 visits idx with
      | (idx, 0) => some (true, { d with rehashidx := some idx })
      | (idx, visits + 1) => rehashLoop n (visits + 1) (idx + 1) (d.moveBucket hashFunction idx)

/-- **`dictRehash`**. -/
def rehash (n : ℕ) (d : Dict K V) : Option (Bool × Dict K V) :=
  match d.rehashidx with
  | none => some (false, d)
  | some idx => d.rehashLoop hashFunction n (n * 10) idx

/-- `if (dictIsRehashing(d)) _dictRehashStep(d)`: there must be no safe iterator. -/
def rehashStep (d : Dict K V) : Option (Dict K V) :=
  if d.isRehashing ∧ d.iterators = 0 then (d.rehash hashFunction 1).map Prod.snd else some d

end Dict

/-! ## Operations -/

variable [DecidableEq K]

namespace Dict

/-- The loop over the tables. The second one counts while the dict is rehashing. -/
def lookup (d : Dict K V) (key : K) : Option V :=
  match d.ht0.find (index hashFunction d.ht0 key) key with
  | some val => some val
  | none => if d.isRehashing then d.ht1.find (index hashFunction d.ht1 key) key else none

/-- **`dictFind`**. -/
def find (d : Dict K V) (key : K) : Option (Option V × Dict K V) :=
  if d.ht0.used + d.ht1.used = 0 then some (none, d)
  else do
    let d ← d.rehashStep hashFunction
    return (d.lookup hashFunction key, d)

/-- `_dictKeyIndex`; `none` is -1. -/
def keyIndex (canResize : Bool) (d : Dict K V) (key : K) : Option ℕ × Dict K V :=
  match d.expandIfNeeded canResize with
  | none => (none, d)
  | some d => match d.lookup hashFunction key with
    | some _ => (none, d)
    | none => (some (if d.isRehashing then index hashFunction d.ht1 key else index hashFunction d.ht0 key), d)

/-- **`dictAdd`**: whether the key is new, and the dict with the entry. -/
def add (canResize : Bool) (d : Dict K V) (key : K) (val : V) : Option (Bool × Dict K V) := do
  let d ← d.rehashStep hashFunction
  match d.keyIndex hashFunction canResize key with
  | (none, d) => return (false, d)
  | (some idx, d) =>
    if d.isRehashing then return (true, { d with ht1 := d.ht1.push idx (key, val) })
    else return (true, { d with ht0 := d.ht0.push idx (key, val) })

/-- The value of an entry that has been found is set. -/
def setVal (d : Dict K V) (key : K) (val : V) : Dict K V :=
  match d.ht0.find (index hashFunction d.ht0 key) key with
  | some _ => { d with ht0 := d.ht0.setVal (index hashFunction d.ht0 key) key val }
  | none => { d with ht1 := d.ht1.setVal (index hashFunction d.ht1 key) key val }

/-- **`dictReplace`**: whether the key is new. -/
def replace (canResize : Bool) (d : Dict K V) (key : K) (val : V) : Option (Bool × Dict K V) := do
  match ← d.add hashFunction canResize key val with
  | (true, d) => return (true, d)
  | (false, d) => return (false, d.setVal hashFunction key val)

/-- **`dictDelete`**: whether the key has been there. -/
def delete (d : Dict K V) (key : K) : Option (Bool × Dict K V) :=
  if d.ht0.used = 0 ∧ d.ht1.used = 0 then some (false, d)
  else do
    let d ← d.rehashStep hashFunction
    match d.ht0.find (index hashFunction d.ht0 key) key with
    | some _ => return (true, { d with ht0 := d.ht0.unlink (index hashFunction d.ht0 key) key })
    | none =>
      if d.isRehashing then
        match d.ht1.find (index hashFunction d.ht1 key) key with
        | some _ => return (true, { d with ht1 := d.ht1.unlink (index hashFunction d.ht1 key) key })
        | none => return (false, d)
      else return (false, d)

end Dict

end

/-! ## Iterators -/

/-- `dictIterator`: the table, the bucket that comes next, and what is left of the current
one. -/
structure Iterator (K V : Type) where
  second : Bool
  index : ℕ
  pending : List (K × V)

/-- **`dictNext`**. -/
def Iterator.next (d : Dict K V) (it : Iterator K V) : Option ((K × V) × Iterator K V) :=
  match it.pending with
  | e :: rest => some (e, { it with pending := rest })
  | [] =>
    if it.second then
      if it.index < d.ht1.size then Iterator.next d ⟨true, it.index + 1, d.ht1.bucket it.index⟩ else none
    else if it.index < d.ht0.size then Iterator.next d ⟨false, it.index + 1, d.ht0.bucket it.index⟩
    else if d.isRehashing then Iterator.next d ⟨true, 1, d.ht1.bucket 0⟩
    else none
  termination_by if it.second then d.ht1.size - it.index else (d.ht0.size - it.index) + d.ht1.size + 1
  decreasing_by all_goals simp_all <;> omega

/-- `while ((de = dictNext(di)) != NULL)`, for at most `n` entries. -/
def Iterator.collect (d : Dict K V) : ℕ → Iterator K V → List (K × V)
  | 0, _ => []
  | n + 1, it => match it.next d with
    | none => []
    | some (e, it) => e :: Iterator.collect d n it

/-- The entries that an iterator gives. -/
def Dict.entries (d : Dict K V) : List (K × V) := Iterator.collect d (d.size + 1) ⟨false, 0, []⟩

/-! ## Runs -/

/-- What is done with a dict. A safe iterator is opened or closed around other operations;
`resize` and `rehash` are what the server does on its own. -/
inductive DictOp (K V : Type)
  | add (key : K) (val : V)
  | replace (key : K) (val : V)
  | find (key : K)
  | delete (key : K)
  | resize
  | rehash (n : ℕ)
  | enableResize
  | disableResize
  | openIterator
  | closeIterator

/-- What an operation returns, as far as it is about the keys. -/
inductive DictReply (V : Type)
  | status (ok : Bool)
  | value (val : Option V)
  | done
  deriving DecidableEq

/-- A dict, and `dict_can_resize`. -/
structure DictState (K V : Type) where
  dict : Dict K V
  canResize : Bool

def DictState.start : DictState K V := ⟨.create, true⟩

/-- **One operation.** -/
def DictOp.run [DecidableEq K] (hashFunction : K → UInt64) :
    DictOp K V → DictState K V → Option (DictReply V × DictState K V)
  | add key val, s => do
    let (ok, dict) ← s.dict.add hashFunction s.canResize key val
    return (.status ok, { s with dict })
  | replace key val, s => do
    let (ok, dict) ← s.dict.replace hashFunction s.canResize key val
    return (.status ok, { s with dict })
  | find key, s => do
    let (val, dict) ← s.dict.find hashFunction key
    return (.value val, { s with dict })
  | delete key, s => do
    let (ok, dict) ← s.dict.delete hashFunction key
    return (.status ok, { s with dict })
  | resize, s => some (.done, { s with dict := (s.dict.resize s.canResize).getD s.dict })
  | rehash n, s => do
    let (_, dict) ← s.dict.rehash hashFunction n
    return (.done, { s with dict })
  | enableResize, s => some (.done, { s with canResize := true })
  | disableResize, s => some (.done, { s with canResize := false })
  | openIterator, s => some (.done, { s with dict := { s.dict with iterators := s.dict.iterators + 1 } })
  | closeIterator, s => some (.done, { s with dict := { s.dict with iterators := s.dict.iterators - 1 } })

/-! ## Scanning -/

/-- One round of `rev`. -/
def revRound (p : BitVec 64 × BitVec 64) (s : ℕ) : BitVec 64 × BitVec 64 :=
  let mask := p.1 ^^^ (p.1 <<< s)
  (mask, ((p.2 >>> s) &&& mask) ||| ((p.2 <<< s) &&& ~~~mask))

/-- `rev`: the bits in reverse order. -/
def rev (v : BitVec 64) : BitVec 64 := ([32, 16, 8, 4, 2, 1].foldl revRound (BitVec.allOnes 64, v)).2

def Table.mask (t : Table K V) : BitVec 64 := BitVec.ofNat 64 t.sizemask

/-- The bucket at a cursor. -/
def Table.atCursor (t : Table K V) (v : BitVec 64) : List (K × V) := t.bucket (v &&& t.mask).toNat

/-- The loop of `dictScan` over the larger table: the entries, and the cursor. -/
def scanLarger (t1 : Table K V) (m0 : BitVec 64) : ℕ → BitVec 64 → List (K × V) × BitVec 64
  | 0, v => ([], v)
  | n + 1, v =>
    let v' := (((v ||| m0) + 1) &&& ~~~m0) ||| (v &&& m0)
    if v' &&& (m0 ^^^ t1.mask) = 0 then (t1.atCursor v, v')
    else
      let rest := scanLarger t1 m0 n v'
      (t1.atCursor v ++ rest.1, rest.2)

/-- The next cursor: the reversed one plus one, on the bits of the mask. -/
def nextCursor (m0 v : BitVec 64) : BitVec 64 := rev (rev (v ||| ~~~m0) + 1)

/-- **`dictScan`**: the entries that are reported, and the next cursor. -/
def Dict.scan (d : Dict K V) (v : BitVec 64) : List (K × V) × BitVec 64 :=
  if d.size = 0 then ([], 0)
  else if !d.isRehashing then (d.ht0.atCursor v, nextCursor d.ht0.mask v)
  else
    let t0 := if d.ht1.size < d.ht0.size then d.ht1 else d.ht0
    let t1 := if d.ht1.size < d.ht0.size then d.ht0 else d.ht1
    let larger := scanLarger t1 t0.mask t1.size v
    (t0.atCursor v ++ larger.1, nextCursor t0.mask larger.2)

end Coms4111.Server
