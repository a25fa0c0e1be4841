import Coms4111.Spec.Hash
import Coms4111.Spec.Players
import Coms4111.Store.Listing

/-!
# Players, with the server behind Jedis

`find_by_id` of `hw5/hw5func1.java` again, but with the Redis server of `redis-4.0.6/` in the
place of the maps. Jedis is what stands between: it encodes texts, sends the pairs of a map in the
order in which the map gives them, and makes a map of a reply. If the server ends, or replies in
another kind, the call does not return; that is `none`.
-/

namespace Coms4111.Players

open Sql Store Server

/-- **Jedis**, as far as the code relies on it: how a `String` is encoded, and in which order the
pairs of a `HashMap` come. -/
structure Jedis where
  encode : Text → Bytes
  decode : Bytes → Text
  decode_encode : ∀ t, decode (encode t) = t
  entries : JMap → List (Text × Option Text)
  entries_lists : ∀ m, Lists (entries m) fun field => m.lookup field

namespace Jedis

variable (J : Jedis) (S : Settings)

/-- The map of a reply that has fields and values in turn. -/
def readMap : List (Option Bytes) → JMap → JMap
  | some field :: some value :: l, m => readMap l (m.insert (J.decode field) (some (J.decode value)))
  | _, m => m

/-- `hgetAll`. -/
def hgetAll (key : Text) (s : RedisServer) : Option (JMap × RedisServer) :=
  match s.execute S (.hgetall (J.encode key)) with
  | some (.multi l, s) => some (J.readMap l ∅, s)
  | _ => none

/-- The pairs as arguments of a command. There is no way to send `null`. -/
def arguments : List (Text × Option Text) → Option (List Bytes)
  | [] => some []
  | (_, none) :: _ => none
  | (field, some value) :: l => (arguments l).map fun argv => J.encode field :: J.encode value :: argv

/-- `hmset`. -/
def hmset (key : Text) (hash : JMap) (s : RedisServer) : Option (Except JedisException RedisServer) :=
  match J.arguments (J.entries hash) with
  | none => some (.error .nullValue)
  | some argv => match s.execute S (.hmset (J.encode key :: argv)) with
    | some (.ok, s) => some (.ok s)
    | some (.error _, _) => some (.error .wrongNumberOfArguments)
    | _ => none

variable {D : Type} (M : Mysql D)

/-- **`find_by_id`** with the server: what it returns or throws, and the server after that. -/
def findById (d : D) (id : Text) (s : RedisServer) : Option (Except JedisException JMap × RedisServer) := do
  let (result, s) ← J.hgetAll S (playerKey id) s
  if result = ∅ then
    match ← J.hmset S (playerKey id) (findMysqlById M id d) s with
    | .ok s' => return (.ok (findMysqlById M id d), s')
    | .error e => return (.error e, s)
  else return (.ok result, s)

end Jedis

end Coms4111.Players
