import Coms4111.Sql.Text
import Mathlib.Data.Finmap

/-!
# CSV tables on the command line (`hw1`)

`hw1a.py` finds rows in `customers.csv` and `orders.csv` and appends rows to them. A file
is given by its records, as the `csv` module reads them: appending a row and reading the
file again gives the old records and the new one. The program is that of Python 2.7:
strings are lists of characters, `lower` knows ASCII only, and a dictionary lists its keys
in an order that the program does not control.
-/

namespace Coms4111.Csv

open Sql (Text)

/-- `str.lower`. -/
def lower (t : Text) : Text := t.map Char.toLower

inductive TableName
  | customer
  | order
  deriving DecidableEq, Repr

namespace TableName

/-- The name on the command line; the file has an `s.csv` after it. -/
def name : TableName → Text
  | customer => "customer".toList
  | order => "order".toList

/-- The number of entries of a row. -/
def entries : TableName → ℕ
  | customer => 11
  | order => 14

def idColumn : TableName → Text
  | customer => "CustomerID".toList
  | order => "OrderID".toList

def parse (table : Text) : Option TableName :=
  if lower table = "order".toList then some order
  else if lower table = "customer".toList then some customer
  else none

end TableName

inductive Operation
  | find
  | insert
  deriving DecidableEq, Repr

def Operation.parse (operation : Text) : Option Operation :=
  if lower operation = "find".toList then some find
  else if lower operation = "insert".toList then some insert
  else none

/-! ## How the program ends -/

inductive PyException
  | indexError
  | keyError (key : Text)
  | attributeError
  deriving DecidableEq

/-- The end of the script, `sys.exit` with a message, or an exception that is not caught. -/
inductive Ending
  | done
  | exit (message : Text)
  | exception (e : PyException)
  deriving DecidableEq

/-! ## Reading (`findClass.py`) -/

/-- The records of a file. The first one is the header. -/
abbrev File := List (List Text)

abbrev Files := TableName → File

/-- A row, as `DictReader` gives it: a value for every column, and the values that have
none. -/
structure Line where
  fields : Finmap fun _ : Text => Option Text
  rest : Option (List Text)
  deriving DecidableEq

/-- `DictReader.next`, for a record that is not blank. -/
def toLine (fieldnames row : List Text) : Line :=
  let d := (fieldnames.zip row).foldl (fun d c => d.insert c.1 (some c.2)) ∅
  -- the columns that the row does not reach get `None`
  ⟨(fieldnames.drop row.length).foldl (fun d key => d.insert key none) d,
    if fieldnames.length < row.length then some (row.drop fieldnames.length) else none⟩

def File.header (f : File) : List Text := f.headD []

def File.rows (f : File) : List (List Text) := f.tail

/-- What a `DictReader` reads: blank records are left out. -/
def File.lines (f : File) : List Line := (f.rows.filter (· ≠ [])).map (toLine f.header)

/-- A dictionary of conditions. -/
abbrev Dict := AList fun _ : Text => Text

/-- The order in which `dictionary.keys()` lists the keys. -/
structure KeyOrder where
  keys : Dict → List Text
  perm : ∀ d, (keys d).Perm d.keys

/-- The loop over the keys: whether the line has the value of every condition. -/
def matchLine (dictionary : Dict) (line : Line) : List Text → Except Ending Bool
  | [] => .ok true
  | key :: dictKeys => match line.fields.lookup key with
    | none => .error (.exit ("Your input column name ".toList ++ key ++
      " is not a valid column name.\nMake sure it is spelled correct and it is case sensitive!".toList))
    | some v => if v ≠ dictionary.lookup key then .ok false else matchLine dictionary line dictKeys

def noMatchMessage : Text := "Done searching but find no match result".toList

/-- The loop over the lines: what is printed, and the end. -/
def searchLines (dictionary : Dict) (dictKeys : List Text) (find : Bool) : List Line → List Line × Ending
  | [] => ([], if find then .done else .exit noMatchMessage)
  | line :: lines => match matchLine dictionary line dictKeys with
    | .error e => ([], e)
    | .ok true =>
      let (printed, ending) := searchLines dictionary dictKeys true lines
      (line :: printed, ending)
    | .ok false => searchLines dictionary dictKeys find lines

/-- `Find.search`. -/
def search (O : KeyOrder) (dictionary : Dict) (f : File) : List Line × Ending :=
  searchLines dictionary (O.keys dictionary) false f.lines

/-- `Find.repeatItem`. -/
def repeatItem (id tableID : Text) : List Line → Except PyException Bool
  | [] => .ok false
  | line :: lines => match line.fields.lookup tableID with
    | none => .error (.keyError tableID)
    | some none => .error .attributeError
    | some (some v) => if lower v = lower id then .ok true else repeatItem id tableID lines

/-! ## The command line (`hw1a.py`) -/

/-- `word.split("=",1)`, if there are two tokens. -/
def splitEq (word : Text) : Option (Text × Text) :=
  match word.span (· != '=') with
  | (key, _ :: value) => some (key, value)
  | (_, []) => none

/-- The conditions, from the third argument on. Each but the last ends in a comma. -/
def findTerms (dictionary : Dict) : List Text → Except Ending Dict
  | [] => .ok dictionary
  | [last] => match splitEq last with
    | none => .error (.exit "Invalid input, each searching term must contain one and only one '=' sign".toList)
    | some (key, value) => .ok (dictionary.insert key value)
  | arg :: args => match arg.getLast? with
    | none => .error (.exception .indexError)
    | some c =>
      if c ≠ ',' then
        .error (.exit "Invalid input, please use comma and space to seperate searching terms".toList)
      else match splitEq arg.dropLast with
        | none => .error (.exit "Invalid input, each searching term must contain '=' sign".toList)
        | some (key, value) => findTerms (dictionary.insert key value) args

/-- The message for a wrong number of entries. -/
def TableName.entriesMessage : TableName → Text
  | customer => "The customer table requires 11 entries ".toList
  | order => "The order table requires 14 entries ".toList

/-- The checks of a row: the number of its entries, and its id. -/
def checkTokens (t : TableName) (f : File) (tokens : List Text) : Except Ending (List Text) :=
  if tokens.length ≠ t.entries then .error (.exit t.entriesMessage)
  else match repeatItem (tokens.headD []) t.idColumn f.lines with
    | .error e => .error (.exception e)
    | .ok true => .error (.exit "This inserted data has a same ID as an existed data ".toList)
    | .ok false => .ok tokens

/-- The row to be inserted, from the third argument on. -/
def insertTokens (t : TableName) (f : File) : List Text → Except Ending (List Text)
  | [arg] => match arg.head?, arg.getLast? with
    | some first, some last =>
      if first ≠ '(' ∨ last ≠ ')' then
        .error (.exit "Please make sure the inserted data is inside the parentheses".toList)
      else checkTokens t f (arg.tail.dropLast.splitOn ',')
    | _, _ => .error (.exception .indexError)
  | _ => .error (.exit "For insert operation, please do not leave any space between entries".toList)

/-- What an invocation prints, how it ends, and the files it leaves behind. -/
structure Result where
  printed : List Line
  ending : Ending
  files : Files

def find (O : KeyOrder) (t : TableName) (args : List Text) (files : Files) : Result :=
  match findTerms ∅ args with
  | .error e => ⟨[], e, files⟩
  | .ok dictionary => ⟨(search O dictionary (files t)).1, (search O dictionary (files t)).2, files⟩

/-- The row is written at the end of the file. -/
def insert (t : TableName) (args : List Text) (files : Files) : Result :=
  match insertTokens t (files t) args with
  | .error e => ⟨[], e, files⟩
  | .ok tokens => ⟨[], .done, Function.update files t (files t ++ [tokens])⟩

/-- **`hw1a.py`**, with the arguments after its own name. -/
def hw1a (O : KeyOrder) (files : Files) : List Text → Result
  | operation :: table :: arg :: args => match Operation.parse operation, TableName.parse table with
    | none, _ => ⟨[], .exit "Invalid operation command".toList, files⟩
    | some _, none => ⟨[], .exit "Invalid table name".toList, files⟩
    | some .find, some t => find O t (arg :: args) files
    | some .insert, some t => insert t (arg :: args) files
  | _ => ⟨[], .exit "Invalid input, please refer to data operation for correct input".toList, files⟩

/-- The files after a sequence of invocations. -/
def run (O : KeyOrder) (invocations : List (List Text)) (files : Files) : Files :=
  invocations.foldl (fun files args => (hw1a O files args).files) files

/-! ## Processes -/

/-- The table of an insertion, and its arguments from the third on. -/
def insertion : List Text → Option (TableName × List Text)
  | operation :: table :: arg :: args => match Operation.parse operation, TableName.parse table with
    | some .insert, some t => some (t, arg :: args)
    | _, _ => none
  | _ => none

/-- How far a process has come. -/
inductive Process
  | started (args : List Text)
  | checked (t : TableName) (tokens : List Text)
  | ended (printed : List Line) (ending : Ending)

/-- **`hw1a.py` in steps.** An insertion opens its file twice, to look for the id and to append. A
file is read in one step: as rows are only appended, what is read is what is there when the
end is reached. -/
def Process.step (O : KeyOrder) : Process → Files → Process × Files
  | started args, files => match insertion args with
    | none => (ended (hw1a O files args).printed (hw1a O files args).ending, files)
    | some (t, args) => match insertTokens t (files t) args with
      | .error e => (ended [] e, files)
      | .ok tokens => (checked t tokens, files)
  | checked t tokens, files => (ended [] .done, Function.update files t (files t ++ [tokens]))
  | ended printed ending, files => (ended printed ending, files)

end Coms4111.Csv
