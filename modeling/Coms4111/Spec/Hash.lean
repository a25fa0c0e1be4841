import Coms4111.Spec.Dict
import Coms4111.Spec.Ziplist

/-!
# The hash commands (`redis-4.0.6/src/t_hash.c`)

A hash is a ziplist of fields and values in turn while it is small, and a dict after that. A
failed `serverAssert` and a `serverPanic` end the server, here as `none`, and so do those of the
ziplist and of the dict.

The keyspace is a function from keys to objects. What is left out: expiry, notifications and
replication, `HINCRBYFLOAT`, and objects that are no hashes except that they are there.
-/

namespace Coms4111.Server

open Store

/-! ## The hash type -/

/-- The object of a hash, in one of its two encodings. -/
inductive HashObject
  | ziplist (zl : Bytes)
  | ht (dict : Dict Bytes Bytes)

/-- What the hash type reads of the server: `hash-max-ziplist-entries`, `hash-max-ziplist-value`
and the hash function of dicts, which is seeded when the server starts. -/
structure Settings where
  hashMaxZiplistEntries : ℕ
  hashMaxZiplistValue : ℕ
  hashFunction : Bytes → UInt64

/-- `createHashObject`. -/
def createHashObject : HashObject := .ziplist ziplistNew

/-- The field in a ziplist: every other entry is one. -/
def findField (zl field : Bytes) : Option (Option ℕ) := do
  match ← ziplistIndex zl 0 with
  | none => some none
  | some fptr => ziplistFind zl fptr field 1

/-- `hashTypeGetFromZiplist`: there is a value if there is the field. -/
def hashTypeGetFromZiplist (zl field : Bytes) : Option (Option ZipValue) := do
  match ← findField zl field with
  | none => some none
  | some fptr =>
    let vptr ← (← ziplistNext zl fptr)
    let value ← (← ziplistGet zl vptr)
    return some value

/-- The loop over `hashTypeNext` for a ziplist, with the fields and the values that it gives, for
at most `n` pairs. -/
def nextPairs (zl : Bytes) : ℕ → Option ℕ → Option (List (ZipValue × ZipValue))
  | _, none => some []
  | 0, some _ => none
  | n + 1, some fptr => do
    let vptr ← (← ziplistNext zl fptr)
    let field ← (← ziplistGet zl fptr)
    let value ← (← ziplistGet zl vptr)
    let pairs ← nextPairs zl n (← ziplistNext zl vptr)
    return (field, value) :: pairs

/-- All pairs of a ziplist. It has fewer of them than bytes. -/
def ziplistPairs (zl : Bytes) : Option (List (ZipValue × ZipValue)) := do
  nextPairs zl (ziplistBytes zl) (← ziplistIndex zl 0)

section

variable (S : Settings) (canResize : Bool)

/-- `hashTypeGetValue`. Looking into a dict may move a bucket of it. -/
def hashTypeGetValue (o : HashObject) (field : Bytes) : Option (Option ZipValue × HashObject) :=
  match o with
  | .ziplist zl => do
    let value ← hashTypeGetFromZiplist zl field
    return (value, o)
  | .ht dict => do
    let (value, dict) ← dict.find S.hashFunction field
    return (value.map .str, .ht dict)

/-- `hashTypeGetValueLength`, of the value that has been found. -/
def valueLength : Option ZipValue → ℕ
  | none => 0
  | some (.str s) => s.length
  | some (.int v) => sdigits10 v

/-- `hashTypeLength`. The length of a ziplist may be stored anew. -/
def hashTypeLength : HashObject → Option (ℕ × HashObject)
  | .ziplist zl => do
    let (length, zl) ← ziplistLen zl
    return (length / 2, .ziplist zl)
  | .ht dict => some (dict.size, .ht dict)

/-- The fields and values that an iterator gives, as texts. -/
def hashTypeEntries : HashObject → Option (List (Bytes × Bytes))
  | .ziplist zl => do
    let pairs ← ziplistPairs zl
    return pairs.map fun p => (p.1.text, p.2.text)
  | .ht dict => some dict.entries

/-- The loop of `hashTypeConvertZiplist`: two equal fields would be a corruption. -/
def addPairs (dict : Dict Bytes Bytes) : List (ZipValue × ZipValue) → Option (Dict Bytes Bytes)
  | [] => some dict
  | (key, value) :: pairs => do
    match ← dict.add S.hashFunction canResize key.sds value.sds with
    | (true, dict) => addPairs dict pairs
    | (false, _) => none

/-- **`hashTypeConvert`** to a dict. -/
def hashTypeConvert : HashObject → Option HashObject
  | .ziplist zl => do
    let pairs ← ziplistPairs zl
    let dict ← addPairs S canResize .create pairs
    return .ht dict
  | .ht _ => none

/-- `hashTypeTryConversion`. -/
def hashTypeTryConversion (o : HashObject) (argv : List Bytes) : Option HashObject :=
  match o with
  | .ziplist _ =>
    if argv.any fun arg => S.hashMaxZiplistValue < arg.length then hashTypeConvert S canResize o else some o
  | .ht _ => some o

/-- The ziplist part of `hashTypeSet`: a value is exchanged, or a pair put at the tail. -/
def setInZiplist (zl field value : Bytes) : Option (Bool × Bytes) := do
  match ← findField zl field with
  | some fptr =>
    let vptr ← (← ziplistNext zl fptr)
    let zl ← ziplistDelete zl vptr
    let zl ← ziplistInsert zl vptr value
    return (true, zl)
  | none =>
    let zl ← ziplistPush zl field false
    let zl ← ziplistPush zl value false
    return (false, zl)

/-- **`hashTypeSet`**: whether the field has been there. -/
def hashTypeSet (o : HashObject) (field value : Bytes) : Option (Bool × HashObject) :=
  match o with
  | .ziplist zl => do
    let (update, zl) ← setInZiplist zl field value
    let (length, o) ← hashTypeLength (.ziplist zl)
    if S.hashMaxZiplistEntries < length then
      let o ← hashTypeConvert S canResize o
      return (update, o)
    else return (update, o)
  | .ht dict => do
    match ← dict.find S.hashFunction field with
    | (some _, dict) => return (true, .ht (dict.setVal S.hashFunction field value))
    | (none, dict) =>
      let (_, dict) ← dict.add S.hashFunction canResize field value
      return (false, .ht dict)

/-- **`hashTypeDelete`**: whether the field has been there. A dict that is almost empty shrinks. -/
def hashTypeDelete (o : HashObject) (field : Bytes) : Option (Bool × HashObject) :=
  match o with
  | .ziplist zl => do
    match ← findField zl field with
    | some fptr =>
      let zl ← ziplistDelete zl fptr
      let zl ← ziplistDelete zl fptr
      return (true, .ziplist zl)
    | none => return (false, o)
  | .ht dict => do
    match ← dict.delete S.hashFunction field with
    | (true, dict) => return (true, .ht (if dict.needsResize then (dict.resize canResize).getD dict else dict))
    | (false, dict) => return (false, .ht dict)

end

/-! ## Commands -/

/-- What a key has: a hash, or an object of another type. -/
inductive Object
  | hash (o : HashObject)
  | other

/-- The keyspace, and `dict_can_resize`, which is off while a child process saves the data. -/
structure RedisServer where
  db : Bytes → Option Object
  canResize : Bool

inductive Reply
  | ok
  | null
  | integer (n : ℤ)
  | bulk (s : Bytes)
  | multi (l : List (Option Bytes))
  | wrongType
  | error (msg : String)
  deriving DecidableEq

/-- The commands, with their arguments behind the name. -/
inductive Command
  | hset (argv : List Bytes)
  | hmset (argv : List Bytes)
  | hsetnx (key field value : Bytes)
  | hincrby (key field incr : Bytes)
  | hget (key field : Bytes)
  | hmget (key : Bytes) (fields : List Bytes)
  | hdel (key : Bytes) (fields : List Bytes)
  | hlen (key : Bytes)
  | hstrlen (key field : Bytes)
  | hexists (key field : Bytes)
  | hgetall (key : Bytes)
  | exists (keys : List Bytes)
  | del (keys : List Bytes)
  | updateDictResizePolicy (canResize : Bool)

namespace RedisServer

def put (s : RedisServer) (key : Bytes) (o : HashObject) : RedisServer :=
  { s with db := Function.update s.db key (some (.hash o)) }

/-- `dbDelete`. -/
def remove (s : RedisServer) (key : Bytes) : RedisServer := { s with db := Function.update s.db key none }

/-- `hashTypeLookupWriteOrCreate`; `none` for an object of another type. -/
def hashTypeLookupWriteOrCreate (s : RedisServer) (key : Bytes) : Option HashObject :=
  match s.db key with
  | none => some createHashObject
  | some (.hash o) => some o
  | some .other => none

/-- A command that reads a hash: the reply if the key is missing, and what is done with the
hash. -/
def onHash (s : RedisServer) (key : Bytes) (missing : Reply) (f : HashObject → Option (Reply × HashObject)) :
    Option (Reply × RedisServer) :=
  match s.db key with
  | none => some (missing, s)
  | some .other => some (.wrongType, s)
  | some (.hash o) => do
    let (reply, o) ← f o
    return (reply, s.put key o)

variable (S : Settings)

/-- The loop of `hsetCommand`: how many fields are new. -/
def setPairs (canResize : Bool) : HashObject → List Bytes → ℕ → Option (ℕ × HashObject)
  | o, field :: value :: argv, created => do
    let (update, o) ← hashTypeSet S canResize o field value
    setPairs canResize o argv (if update then created else created + 1)
  | o, _, created => some (created, o)

/-- **`hsetCommand`**, for `HSET` and `HMSET`. -/
def hsetCommand (s : RedisServer) (key : Bytes) (argv : List Bytes) (reply : ℕ → Reply) :
    Option (Reply × RedisServer) :=
  if argv.length % 2 = 1 then some (.error "wrong number of arguments for HMSET", s)
  else match s.hashTypeLookupWriteOrCreate key with
    | none => some (.wrongType, s)
    | some o => do
      let o ← hashTypeTryConversion S s.canResize o argv
      let (created, o) ← setPairs S s.canResize o argv 0
      return (reply created, s.put key o)

/-- `hsetnxCommand`. -/
def hsetnxCommand (s : RedisServer) (key field value : Bytes) : Option (Reply × RedisServer) :=
  match s.hashTypeLookupWriteOrCreate key with
  | none => some (.wrongType, s)
  | some o => do
    let o ← hashTypeTryConversion S s.canResize o [field, value]
    let (found, o) ← hashTypeGetValue S o field
    if found.isSome then return (.integer 0, s.put key o)
    else
      let (_, o) ← hashTypeSet S s.canResize o field value
      return (.integer 1, s.put key o)

/-- The old value in `hincrbyCommand`, if it is a number. -/
def oldValue : Option ZipValue → Option ℤ
  | none => some 0
  | some (.str s) => string2ll s
  | some (.int v) => some v

/-- **`hincrbyCommand`**. -/
def hincrbyCommand (s : RedisServer) (key field incr : Bytes) : Option (Reply × RedisServer) :=
  match string2ll incr with
  | none => some (.error "value is not an integer or out of range", s)
  | some incr =>
    match s.hashTypeLookupWriteOrCreate key with
    | none => some (.wrongType, s)
    | some o => do
      let (found, o) ← hashTypeGetValue S o field
      match oldValue found with
      | none => return (.error "hash value is not an integer", s.put key o)
      | some oldvalue =>
        if incr < 0 ∧ oldvalue < 0 ∧ incr < -2 ^ 63 - oldvalue ∨
            0 < incr ∧ 0 < oldvalue ∧ 2 ^ 63 - 1 - oldvalue < incr then
          return (.error "increment or decrement would overflow", s.put key o)
        else
          let value := oldvalue + incr
          let (_, o) ← hashTypeSet S s.canResize o field (sdsfromlonglong value)
          return (.integer value, s.put key o)

/-- The loop of `hmgetCommand`. -/
def getFields : HashObject → List Bytes → Option (List (Option Bytes) × HashObject)
  | o, [] => some ([], o)
  | o, field :: fields => do
    let (value, o) ← hashTypeGetValue S o field
    let (values, o) ← getFields o fields
    return (value.map ZipValue.text :: values, o)

/-- The loop of `hdelCommand`: how many fields have been deleted, and the object unless it is
empty then. -/
def deleteFields (canResize : Bool) : HashObject → List Bytes → ℕ → Option (ℕ × Option HashObject)
  | o, [], deleted => some (deleted, some o)
  | o, field :: fields, deleted => do
    match ← hashTypeDelete S canResize o field with
    | (true, o) =>
      match ← hashTypeLength o with
      | (0, _) => some (deleted + 1, none)
      | (_ + 1, o) => deleteFields canResize o fields (deleted + 1)
    | (false, o) => deleteFields canResize o fields deleted

/-- **`hdelCommand`**. -/
def hdelCommand (s : RedisServer) (key : Bytes) (fields : List Bytes) : Option (Reply × RedisServer) :=
  match s.db key with
  | none => some (.integer 0, s)
  | some .other => some (.wrongType, s)
  | some (.hash o) => do
    match ← deleteFields S s.canResize o fields 0 with
    | (deleted, some o) => return (.integer deleted, s.put key o)
    | (deleted, none) => return (.integer deleted, s.remove key)

/-- **`genericHgetallCommand`** for fields and values. Their number is sent before them. -/
def hgetallCommand (s : RedisServer) (key : Bytes) : Option (Reply × RedisServer) :=
  s.onHash key (.multi []) fun o => do
    let (length, o) ← hashTypeLength o
    let entries ← hashTypeEntries o
    if 2 * entries.length = 2 * length then
      return (.multi (entries.flatMap fun e => [some e.1, some e.2]), o)
    else none

/-- The loop of `existsCommand`. -/
def countKeys (s : RedisServer) (keys : List Bytes) : ℕ := keys.countP fun key => (s.db key).isSome

/-- The loop of `delCommand`. -/
def delKeys (s : RedisServer) : List Bytes → ℕ → ℕ × RedisServer
  | [], deleted => (deleted, s)
  | key :: keys, deleted => delKeys (s.remove key) keys (if (s.db key).isSome then deleted + 1 else deleted)

/-- The check of `processCommand` on the number of arguments. -/
def wrongArity (name : String) : Reply := .error ("wrong number of arguments for '" ++ name ++ "' command")

/-- **A command.** -/
def execute : Command → RedisServer → Option (Reply × RedisServer)
  | .hset (key :: argv), s =>
    if argv.length < 2 then some (wrongArity "hset", s) else s.hsetCommand S key argv fun created =>
      .integer created
  | .hset [], s => some (wrongArity "hset", s)
  | .hmset (key :: argv), s =>
    if argv.length < 2 then some (wrongArity "hmset", s) else s.hsetCommand S key argv fun _ => .ok
  | .hmset [], s => some (wrongArity "hmset", s)
  | .hsetnx key field value, s => s.hsetnxCommand S key field value
  | .hincrby key field incr, s => s.hincrbyCommand S key field incr
  | .hget key field, s => s.onHash key .null fun o => do
    let (value, o) ← hashTypeGetValue S o field
    return (match value with | none => .null | some v => .bulk v.text, o)
  | .hmget key fields, s =>
    if fields = [] then some (wrongArity "hmget", s)
    else s.onHash key (.multi (fields.map fun _ => none)) fun o => do
      let (values, o) ← getFields S o fields
      return (.multi values, o)
  | .hdel key fields, s => if fields = [] then some (wrongArity "hdel", s) else s.hdelCommand S key fields
  | .hlen key, s => s.onHash key (.integer 0) fun o => do
    let (length, o) ← hashTypeLength o
    return (.integer length, o)
  | .hstrlen key field, s => s.onHash key (.integer 0) fun o => do
    let (value, o) ← hashTypeGetValue S o field
    return (.integer (valueLength value), o)
  | .hexists key field, s => s.onHash key (.integer 0) fun o => do
    let (value, o) ← hashTypeGetValue S o field
    return (.integer (if value.isSome then 1 else 0), o)
  | .hgetall key, s => s.hgetallCommand key
  | .exists keys, s => if keys = [] then some (wrongArity "exists", s) else some (.integer (s.countKeys keys), s)
  | .del keys, s =>
    if keys = [] then some (wrongArity "del", s)
    else
      let (deleted, s) := s.delKeys keys 0
      some (.integer deleted, s)
  | .updateDictResizePolicy canResize, s => some (.ok, { s with canResize })

end RedisServer

end Coms4111.Server
