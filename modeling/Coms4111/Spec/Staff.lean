import Coms4111.Sql.Proc

/-!
# Employees (`ec1/ec1_ddl.sql`)

The table `Employee`, the table `user_prefix_count` that holds, for every first and last
name, the last number given out, and the two triggers on `Employee`. A row's values are
cut to their columns before the triggers see them, and `NULL` is refused after them.

An insertion is a `Proc` with the statements of its trigger, so that the statements of
two insertions can be interleaved; as one statement it is `Proc.atomic`. An update is
given by the rows it selects and the values it computes from each.
-/

namespace Coms4111.Staff

open Sql

/-- The value of a `datetime`, in seconds. -/
abbrev Datetime := ℕ

/-- A row of `Employee`. -/
structure Employee where
  userId : Text
  firstName : Text
  lastName : Text
  email : Text
  created : Option Datetime
  deriving DecidableEq

/-- A row of `user_prefix_count`. -/
structure PrefixCount where
  prefixName : Text
  maxValue : ℕ
  deriving DecidableEq

/-- The values that a statement gives to the columns of `Employee`. -/
structure Values where
  userId : Option Text
  firstName : Option Text
  lastName : Option Text
  email : Option Text
  created : Option Datetime
  deriving DecidableEq

/-- `PRIMARY KEY (user_id)` and `UNIQUE (email)`. -/
def Employee.keys (C : Collation) : Sql.Unique Employee :=
  (Unique.key fun e : Employee => C.key e.userId).or (Unique.key fun e : Employee => C.key e.email)

/-- The tables. -/
structure State (C : Collation) where
  employee : Table Employee (Employee.keys C)
  userPrefixCount : Table PrefixCount (Unique.key fun r => C.key r.prefixName)

variable {C : Collation}

def State.empty : State C := ⟨.empty, .empty⟩

/-! ## `INSERT INTO Employee` -/

/-- `exists (select * from user_prefix_count where prefix = prefix_name)`. -/
def State.existed (s : State C) (prefixName : Option Text) : Bool :=
  s.userPrefixCount.rows.any fun r => C.eqN (some r.prefixName) prefixName

/-- `select max_value from user_prefix_count where prefix = prefix_name`. -/
def State.maxValue (s : State C) (prefixName : Option Text) : Option ℕ :=
  (s.userPrefixCount.rows.find? fun r => C.eqN (some r.prefixName) prefixName).map PrefixCount.maxValue

/-- `UPDATE user_prefix_count SET max_value = count where prefix = prefix_name`. -/
def updateCount (prefixName : Option Text) (count : Option ℕ) (s : State C) : Except SqlError (State C) := do
  let T ← s.userPrefixCount.update (fun r => C.eqN (some r.prefixName) prefixName) fun r => do
    return { r with maxValue := ← notNull "max_value" count }
  return { s with userPrefixCount := T }

/-- `INSERT INTO user_prefix_count (prefix,max_value) VALUES (prefix_name,1)`. -/
def insertCount (prefixName : Option Text) (s : State C) : Except SqlError (State C) := do
  let T ← s.userPrefixCount.insert ⟨← notNull "prefix" prefixName, 1⟩
  return { s with userPrefixCount := T }

/-- The statements of an insertion. -/
inductive Stmt
  | existed
  | selectMaxValue
  | updateCount
  | insertCount
  | insertEmployee
  deriving DecidableEq, Repr

/-- `CONCAT(first_name, '.', last_name)`. -/
def concatName (firstName lastName : Text) : Text := firstName ++ '.' :: lastName

/-- `CONCAT(first_name, '.', last_name, '.', count)`. -/
def concatUserId (firstName lastName : Text) (count : ℕ) : Text :=
  concatName firstName lastName ++ ['.'] ++ Nat.toDigits 10 count

/-- The `IF` of `trigger_insert_employee`: the next number of the name, which is written
down. -/
def nextCount (prefixName : Option Text) (existed : Bool) : Proc Stmt (State C) (Option ℕ) :=
  if existed then do
    -- the number is read into a variable and written back in a second statement
    let count ← Proc.query .selectMaxValue fun s => ((s.maxValue prefixName).map (· + 1)).mapM (int "count")
    Proc.exec .updateCount (updateCount prefixName count)
    return count
  else do
    Proc.exec .insertCount (insertCount prefixName)
    return some 1

/-- `trigger_insert_employee`, which gives the new row its `user_id`. -/
def triggerInsertEmployee (firstName lastName : Option Text) : Proc Stmt (State C) (Option Text) := do
  let prefixName ← Proc.value ((Option.map₂ concatName firstName lastName).mapM (varchar 32 "prefix_name"))
  let existed ← Proc.query .existed fun s => .ok (s.existed prefixName)
  let count ← nextCount prefixName existed
  let userId := (Option.map₂ concatUserId firstName lastName).bind fun f => count.map f
  Proc.value (userId.mapM (varchar 32 "user_id"))

/-- `INSERT INTO Employee`, at the time `now`. The `user_id` and the `created` that it is
given are overwritten. -/
def insertEmployee (now : Datetime) (v : Values) : Proc Stmt (State C) Unit := do
  -- the values are stored in the new row first, also the `user_id` to be overwritten
  let _ ← Proc.value (v.userId.mapM (varchar 32 "user_id"))
  let firstName ← Proc.value (v.firstName.mapM (varchar 32 "first_name"))
  let lastName ← Proc.value (v.lastName.mapM (varchar 32 "last_name"))
  let email ← Proc.value (v.email.mapM (varchar 32 "email"))
  let userId ← triggerInsertEmployee firstName lastName
  Proc.exec .insertEmployee fun s => do
    let userId ← notNull "user_id" userId
    let firstName ← notNull "first_name" firstName
    let lastName ← notNull "last_name" lastName
    let email ← notNull "email" email
    let T ← s.employee.insert ⟨userId, firstName, lastName, email, some now⟩
    return { s with employee := T }

/-! ## `UPDATE Employee` and `DELETE FROM Employee` -/

/-- `trigger_update_employee`. A `NULL` is not told from the old `user_id`. -/
def triggerUpdateEmployee (C : Collation) (old : Employee) (new : Values) : Except SqlError Values := do
  let new := { new with created := old.created }
  signalIf (new.userId.any fun u => !C.eq u old.userId) "45001" "Cannot change user_id"
  return new

/-- What a row becomes. -/
def setEmployee (C : Collation) (set : Employee → Values) (old : Employee) : Except SqlError Employee := do
  let userId ← (set old).userId.mapM (varchar 32 "user_id")
  let firstName ← (set old).firstName.mapM (varchar 32 "first_name")
  let lastName ← (set old).lastName.mapM (varchar 32 "last_name")
  let email ← (set old).email.mapM (varchar 32 "email")
  -- the trigger sees the values as they were cut
  let new ← triggerUpdateEmployee C old ⟨userId, firstName, lastName, email, (set old).created⟩
  let userId ← notNull "user_id" new.userId
  let firstName ← notNull "first_name" new.firstName
  let lastName ← notNull "last_name" new.lastName
  let email ← notNull "email" new.email
  return ⟨userId, firstName, lastName, email, new.created⟩

/-- `UPDATE Employee SET ... WHERE p`. -/
def updateEmployee (p : Employee → Bool) (set : Employee → Values) (s : State C) : Except SqlError (State C) := do
  let T ← s.employee.update p (setEmployee C set)
  return { s with employee := T }

/-- `DELETE FROM Employee WHERE p`. -/
def deleteEmployee (p : Employee → Bool) (s : State C) : State C :=
  { s with employee := s.employee.delete p }

/-! ## Runs -/

/-- A statement on `Employee`. -/
inductive Op
  | insert (now : Datetime) (v : Values)
  | update (p : Employee → Bool) (set : Employee → Values)
  | delete (p : Employee → Bool)

def Op.exec : Op → State C → Except SqlError (State C)
  | insert now v, s => (insertEmployee now v).atomic s
  | update p set, s => updateEmployee p set s
  | delete p, s => .ok (deleteEmployee p s)

/-- The tables after the statement: a refused one changes nothing. -/
def Op.run (s : State C) (o : Op) : State C :=
  match o.exec s with
  | .ok s' => s'
  | .error _ => s

def run (ops : List Op) (s : State C) : State C := ops.foldl Op.run s

end Coms4111.Staff
