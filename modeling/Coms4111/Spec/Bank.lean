import Coms4111.Sql.Proc

/-!
# Bank accounts and transfers (`ec3/ec3.sql`)

Two account tables, a log, the triggers that give new accounts their ids, and the
procedure `transfer_commit`. Balances, limits and amounts are exact rationals, and
`none` is `NULL`. The two tables have the same shape and the procedure treats them
the same way, so each of its halves is written once, over the `Kind` of table.

Arguments are the values bound to the parameters, so they are as long as the
parameters allow. `AUTO_INCREMENT` is left to the caller: an insertion is given the
`id_count` its row gets.
-/

namespace Coms4111.Bank

open Sql

/-- Which account table: `ec3_checking` or `ec3_savings`. -/
inductive Kind
  | checking
  | savings
  deriving DecidableEq, Repr

/-- A row of an account table. `limit` is the table's last column: `overdraft_limit`
in `ec3_checking`, `minimum_balance` in `ec3_savings`. -/
structure Account where
  idCount : ℤ
  accountId : Option Text
  balance : ℚ
  limit : ℚ
  deriving DecidableEq

/-- A row of `ec3_log`, without its number and its time. -/
structure LogRow where
  sourceId : Option Text
  targetId : Option Text
  amount : Option ℚ
  resultCode : ℤ
  deriving DecidableEq

abbrev Accounts := Table Account (Unique.key Account.idCount)

/-- The tables. -/
structure State where
  accounts : Kind → Accounts
  log : List LogRow

def State.empty : State := ⟨fun _ => Table.empty, []⟩

def State.set (s : State) (k : Kind) (T : Accounts) : State :=
  { s with accounts := Function.update s.accounts k T }

/-- What ids of the table begin with. -/
def Kind.stem : Kind → Text
  | .checking => "CH-".toList
  | .savings => "SV-".toList

/-- `"CH-%"`, `"SV-%"`. -/
def Kind.pattern (k : Kind) : Text := k.stem ++ ['%']

/-- What the limit is multiplied by in the source-side test. -/
def Kind.sign : Kind → ℚ
  | .checking => -1
  | .savings => 1

/-! ## New accounts -/

/-- The id of a new row: `first` in an empty table, else one more than the greatest
`id_count`. -/
def newAccountId (stem first : Text) (T : Accounts) : Text :=
  match (T.rows.map Account.idCount).max? with
  | none => first
  | some m => stem ++ decimal (m + 1)

/-- `trigger_insert_checking`. -/
def triggerInsertChecking : Accounts → Text := newAccountId "CH-".toList "CH-14".toList

/-- `trigger_insert_saving`. -/
def triggerInsertSaving : Accounts → Text := newAccountId "SV-".toList "SV-1".toList

def triggerInsert : Kind → Accounts → Text
  | .checking => triggerInsertChecking
  | .savings => triggerInsertSaving

/-- `INSERT INTO` an account table: the trigger overwrites the id. -/
def insertAccount (k : Kind) (idCount : ℤ) (balance limit : ℚ) (s : State) : Except SqlError State := do
  let id ← varchar 12 "account_id" (triggerInsert k (s.accounts k))
  let T ← (s.accounts k).insert ⟨idCount, some id, balance, limit⟩
  return s.set k T

/-- `DELETE FROM` an account table. -/
def deleteAccounts (k : Kind) (p : Account → Bool) (s : State) : State :=
  s.set k ((s.accounts k).delete p)

/-! ## `transfer_commit` -/

/-- The statements of `transfer_commit`, by what they touch. -/
inductive Stmt
  | test (k : Kind) (id : Option Text)
  | read (k : Kind) (id : Option Text)
  | write (k : Kind) (id : Option Text)
  | log (rc : ℤ)
  deriving DecidableEq

variable (C : Collation)

/-- The rows with the given `account_id`. -/
def State.named (s : State) (k : Kind) (id : Option Text) : List Account :=
  (s.accounts k).rows.filter fun a => C.eqN a.accountId id

/-- `(select balance from ... where account_id = id)`. -/
def selectBalance (k : Kind) (id : Option Text) (s : State) : Except SqlError (Option ℚ) :=
  scalar ((s.named C k id).map Account.balance)

/-- `(select overdraft_limit ...)`, `(select minimum_balance ...)`. -/
def selectLimit (k : Kind) (id : Option Text) (s : State) : Except SqlError (Option ℚ) :=
  scalar ((s.named C k id).map Account.limit)

/-- The test on the source account: `balance - amount > -1.0 * overdraft_limit`, or
`> 1.0 * minimum_balance`. With a `NULL` on either side it is not true. -/
def sourceTest (k : Kind) (source : Option Text) (amount : Option ℚ) (s : State) :
    Except SqlError Bool := do
  let balance ← selectBalance C k source s
  let limit ← selectLimit C k source s
  let left := Option.map₂ (· - ·) balance amount
  let right := limit.map (k.sign * ·)
  return Option.map₂ (fun x y => decide (x > y)) left right == some true

/-- `update ... set balance = value where account_id = id`. -/
def updateBalance (k : Kind) (id : Option Text) (value : Option ℚ) (s : State) : Except SqlError State := do
  let T ← (s.accounts k).update (fun a => C.eqN a.accountId id) fun a =>
    (notNull "balance" value).map fun b => { a with balance := b }
  return s.set k T

/-- `INSERT INTO ec3_log`. -/
def insertLog (row : LogRow) (s : State) : Except SqlError State :=
  .ok { s with log := s.log ++ [row] }

/-- Debit the balance in the source account. -/
def debit (k : Kind) (source : Option Text) (amount : Option ℚ) : Proc Stmt State Unit := do
  let tempBalance ← Proc.query (.read k source) (selectBalance C k source)
  Proc.exec (.write k source) (updateBalance C k source (Option.map₂ (· - ·) tempBalance amount))

/-- Increase the balance in the target account, if it is in this table. -/
def credit (k : Kind) (target : Option Text) (amount : Option ℚ) : Proc Stmt State Unit :=
  if C.likeN k.pattern target then do
    -- no test: for an id that no account has, `NULL` is read and no row is written
    let tempBalance ← Proc.query (.read k target) (selectBalance C k target)
    Proc.exec (.write k target) (updateBalance C k target (Option.map₂ (· + ·) tempBalance amount))
  else pure ()

/-- One half of `transfer_commit`: the source is in table `k`. -/
def transferFrom (k : Kind) (source target : Option Text) (amount : Option ℚ) :
    Proc Stmt State (Option ℤ) := do
  if ← Proc.query (.test k source) (sourceTest C k source amount) then
    debit C k source amount
    credit C .checking target amount
    credit C .savings target amount
    -- logged as paid, whether a target was found or not
    Proc.exec (.log 1) (insertLog ⟨source, target, amount, 1⟩)
    return some 1
  else
    Proc.exec (.log (-1)) (insertLog ⟨source, target, amount, -1⟩)
    return some (-1)

/-- **`transfer_commit`.** The result is the value of `rc` at the end, `NULL` if the
procedure has not set it. -/
def transferCommit (source target : Option Text) (amount : Option ℚ) : Proc Stmt State (Option ℤ) :=
  if C.likeN Kind.checking.pattern source then transferFrom C .checking source target amount
  else if C.likeN Kind.savings.pattern source then transferFrom C .savings source target amount
  else return none

/-! ## Runs -/

/-- What a session does. -/
inductive Op
  | insert (k : Kind) (idCount : ℤ) (balance limit : ℚ)
  | delete (k : Kind) (p : Account → Bool)
  | transfer (source target : Option Text) (amount : Option ℚ)

/-- The tables after one operation, accepted or refused. -/
def Op.run : Op → State → State
  | .insert k idCount balance limit, s => match insertAccount k idCount balance limit s with
    | .ok s' => s'
    | .error _ => s
  | .delete k p, s => deleteAccounts k p s
  | .transfer source target amount, s => ((transferCommit C source target amount).run s).2

/-- The tables after a run. -/
def run (ops : List Op) (s : State) : State := ops.foldl (fun s op => op.run C s) s

end Coms4111.Bank
