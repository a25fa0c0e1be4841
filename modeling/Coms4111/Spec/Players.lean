import Coms4111.Sql.Text
import Mathlib.Data.Finmap

/-!
# Players and their cache (`hw5/hw5func1.java`)

`find_by_id` looks a player up in Redis, and in MySQL if Redis has nothing. The two
servers are parameters, as far as the code relies on them: MySQL answers a query text with
rows or an `SQLException`, over whatever databases `D` it may hold; Redis keeps a hash under
every key, and a key that is missing has the empty one.

What the code prints is left out.
-/

namespace Coms4111.Players

open Sql

/-- `Map<String,String>`. A value may be `null`. -/
abbrev JMap := Finmap fun _ : Text => Option Text

/-- A row of `Master`, with the columns that the code reads, as `getString` gives them. -/
structure Row where
  playerID : Option Text
  nameLast : Option Text
  nameFirst : Option Text
  birthYear : Option Text
  birthCountry : Option Text
  deriving DecidableEq

/-! ## MySQL -/

inductive SqlException
  | refused
  | emptyResultSet
  deriving DecidableEq

/-- **MySQL**: the answer to a query text, in the database as it is. -/
structure Mysql (D : Type) where
  executeQuery : Text → D → Except SqlException (List Row)

/-- `"SELECT * FROM Master WHERE playerID='" + id + "'"`. -/
def selectById (id : Text) : Text := "SELECT * FROM Master WHERE playerID='".toList ++ id ++ "'".toList

/-- `rs.first()` and the `getString`s, which throw on an empty result set. -/
def firstRow : List Row → Except SqlException Row
  | [] => .error .emptyResultSet
  | row :: _ => .ok row

/-- The five `map.put`s. -/
def Row.toMap (row : Row) : JMap :=
  ((((Finmap.insert "playerID".toList row.playerID ∅).insert "nameLast".toList row.nameLast).insert
    "nameFirst".toList row.nameFirst).insert "birthYear".toList row.birthYear).insert
    "birthCountry".toList row.birthCountry

variable {D : Type} (M : Mysql D)

/-- The row that the query for the id finds first. -/
def selectRow (id : Text) (d : D) : Except SqlException Row := do
  let rs ← M.executeQuery (selectById id) d
  firstRow rs

/-- `find_mysql_by_id`. An `SQLException` is caught, and the map is still empty then. -/
def findMysqlById (id : Text) (d : D) : JMap :=
  match selectRow M id d with
  | .ok row => row.toMap
  | .error _ => ∅

/-! ## Redis -/

inductive JedisException
  | wrongNumberOfArguments
  | nullValue
  deriving DecidableEq

/-- **Redis**: the hash under every key. -/
abbrev Redis := Text → JMap

def Redis.hgetAll (r : Redis) (key : Text) : JMap := r key

/-- `hmset`: there must be a field to set, and no value may be `null`. -/
def Redis.hmset (r : Redis) (key : Text) (hash : JMap) : Except JedisException Redis :=
  if hash = ∅ then .error .wrongNumberOfArguments
  else if ∃ field ∈ hash.keys, hash.lookup field = some none then .error .nullValue
  else .ok (Function.update r key (hash ∪ r key))

def playerKey (id : Text) : Text := "players:".toList ++ id

/-- `find_redis_by_id`. -/
def findRedisById (id : Text) (r : Redis) : JMap := r.hgetAll (playerKey id)

/-- `add_to_redis`. -/
def addToRedis (id : Text) (data : JMap) (r : Redis) : Except JedisException Redis := r.hmset (playerKey id) data

/-! ## `find_by_id` -/

/-- **`find_by_id`**: what it returns or throws, and what it leaves in Redis. -/
def findById (d : D) (id : Text) (r : Redis) : Except JedisException JMap × Redis :=
  let result := findRedisById id r
  if result = ∅ then
    let result := findMysqlById M id d
    -- what is stored is queried anew
    match addToRedis id (findMysqlById M id d) r with
    | .ok r' => (.ok result, r')
    | .error e => (.error e, r)
  else (.ok result, r)

/-- How far a call has come. -/
inductive Progress
  | start
  | missed
  | selected (result : JMap)
  | loaded (result data : JMap)
  | returned (result : JMap)
  | thrown (e : JedisException)
  deriving DecidableEq

/-- **`find_by_id` in steps**: the lookup in Redis, the two queries and the write are one
step each. -/
def Progress.step (id : Text) (d : D) (r : Redis) : Progress → Progress × Redis
  | start =>
    let result := findRedisById id r
    (if result = ∅ then missed else returned result, r)
  | missed => (selected (findMysqlById M id d), r)
  | selected result => (loaded result (findMysqlById M id d), r)
  | loaded result data => match addToRedis id data r with
    | .ok r' => (returned result, r')
    | .error e => (thrown e, r)
  | returned result => (returned result, r)
  | thrown e => (thrown e, r)

/-- A call among other sessions of MySQL: the database, Redis and the call. -/
structure World (D : Type) where
  db : D
  redis : Redis
  call : Progress

/-- What happens next: the call goes on, or another session leaves the database `d`. -/
inductive Event (D : Type)
  | call
  | update (d : D)

def World.step (id : Text) (w : World D) : Event D → World D
  | .call => { w with call := (w.call.step M id w.db w.redis).1, redis := (w.call.step M id w.db w.redis).2 }
  | .update d => { w with db := d }

/-- The call among other sessions, in the order of the events. -/
def World.run (id : Text) (w : World D) (events : List (Event D)) : World D := events.foldl (World.step M id) w

end Coms4111.Players
