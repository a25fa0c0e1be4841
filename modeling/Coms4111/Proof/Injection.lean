import Coms4111.Proof.Players
import Coms4111.Sql.Lexer

/-!
# The id in the text of the query

`find_mysql_by_id` puts the id between quotes as it is.

* `id_stays_literal_iff`: the text is the query for one string that is the id, and then
  what is found is that player, **exactly when** the id has no quote, and `\\` only before
  `%` and `_`.
* `quoted_id_finds_another`: an id that ends the string and goes on with a condition of its
  own. A player with another id is found, and is cached under the id that was asked for.
-/

namespace Coms4111.Players

open Sql Lexer

variable {D : Type} {M : Mysql D} {C : Collation} {id : Text}

/-! ## The query for one string -/

/-- `SELECT * FROM Master WHERE`. -/
def selectTokens : List Token :=
  [.word "SELECT".toList, .symbol '*', .word "FROM".toList, .word "Master".toList, .word "WHERE".toList]

/-- The query up to its string. -/
def queryTokens : List Token := selectTokens ++ [.word "playerID".toList, .symbol '=']

/-- **The text is the query for `v`.** Strings that stand next to each other are one. -/
def SelectsById (text v : Text) : Prop :=
  ∃ strings : List Text, strings ≠ [] ∧ lex text = some (queryTokens ++ strings.map .string) ∧ strings.flatten = v

/-- A server that answers the query for a string, if at all, with the rows of `Master` whose
`playerID` compares equal to it. What it makes of another text is left open. -/
def Answers (C : Collation) (M : Mysql D) (master : D → List Row) : Prop :=
  ∀ text v d rows, SelectsById text v → M.executeQuery text d = .ok rows →
    rows = (master d).filter fun row => C.eqN row.playerID (some v)

/-- **The id stays a literal**: the text is the query for the id, and what is found is
nothing or a player with that id, on every server and in every table. -/
structure StaysLiteral (C : Collation) (id : Text) : Prop where
  literal : SelectsById (selectById id) id
  found : ∀ (D : Type) (M : Mysql D) (master : D → List Row), Answers C M master → ∀ d,
    findMysqlById M id d = ∅ ∨
      ∃ p, (findMysqlById M id d).lookup "playerID".toList = some (some p) ∧ C.eq p id = true

theorem run_select :
    run ⟨[], .blank⟩ "SELECT * FROM Master WHERE playerID='".toList = ⟨queryTokens, .quoted '\'' []⟩ := by
  decide +kernel

/-- The id is read from between quotes. -/
theorem lex_selectById (id : Text) :
    lex (selectById id) = finish (run ⟨queryTokens, .quoted '\'' []⟩ (id ++ ['\''])) := by
  have htext : selectById id = "SELECT * FROM Master WHERE playerID='".toList ++ (id ++ ['\'']) :=
    List.append_assoc _ _ _
  rw [lex, htext, run_append, run_select]

/-- The text is the query for the id exactly when the id is plain: otherwise the strings are
shorter than the id. -/
theorem selectsById_iff : SelectsById (selectById id) id ↔ Plain id := by
  have hlex := lex_selectById id
  constructor
  · rintro ⟨strings, -, hread, hid⟩
    rw [hlex] at hread
    rcases finish_run_quoted hread with ⟨hplain, -⟩ | hlt
    · exact hplain
    · rw [stringLength_append, stringLength_map_string, hid] at hlt
      omega
  · intro hplain
    rw [run_append, run_plain hplain] at hlex
    exact ⟨[id], List.cons_ne_nil _ _, hlex, by simp⟩

/-- Where the text is the query for the id, the player that is found has it. -/
theorem found_of_selectsById (hid : SelectsById (selectById id) id) {master : D → List Row}
    (hM : Answers C M master) (d : D) :
    findMysqlById M id d = ∅ ∨
      ∃ p, (findMysqlById M id d).lookup "playerID".toList = some (some p) ∧ C.eq p id = true := by
  unfold findMysqlById selectRow
  cases hrows : M.executeQuery (selectById id) d with
  | error e => exact .inl rfl
  | ok rows =>
    rcases rows with _ | ⟨row, rows⟩
    · exact .inl rfl
    have hmem : row ∈ (master d).filter fun row => C.eqN row.playerID (some id) := by
      rw [← hM _ _ _ _ hid hrows]
      exact List.mem_cons_self
    have heq := (List.mem_filter.1 hmem).2
    cases hp : row.playerID with
    | none =>
      rw [hp] at heq
      cases heq
    | some p =>
      rw [hp] at heq
      have hcolumn : row.toMap.lookup "playerID".toList = some (some p) := by
        rw [lookup_toMap, ← hp]
        rfl
      exact .inr ⟨p, hcolumn, heq⟩

/-- **The id stays a literal** if and only if it has no quote, and `\\` only before `%` and
`_`. -/
theorem id_stays_literal_iff (C : Collation) (id : Text) : StaysLiteral C id ↔ Plain id := by
  constructor
  · intro h
    exact selectsById_iff.1 h.literal
  · intro h
    have hid := selectsById_iff.2 h
    exact ⟨hid, fun D M master hM d => found_of_selectsById hid hM d⟩

/-! ## A server that knows `OR` -/

/-- What a token stands for in a row. -/
def operand (row : Row) : Token → Option Text
  | .word w => (row.column w).join
  | .string v => some v
  | _ => none

/-- Equalities, joined by `OR`. -/
def condition (C : Collation) : List Token → Option (Row → Bool)
  | [a, .symbol '=', b] => some fun row => C.eqN (operand row a) (operand row b)
  | a :: .symbol '=' :: b :: .word w :: rest =>
    if w = "OR".toList then
      (condition C rest).map fun others row => C.eqN (operand row a) (operand row b) || others row
    else none
  | _ => none

/-- A server with the one table `Master`, which refuses what it does not know. -/
def orMysql (C : Collation) : Mysql (List Row) where
  executeQuery text rows :=
    match (lex text).bind fun tokens =>
      if tokens.take 5 = selectTokens then condition C (tokens.drop 5) else none with
    | some holds => .ok (rows.filter holds)
    | none => .error .refused

theorem orMysql_answers (C : Collation) : Answers C (orMysql C) fun rows => rows := by
  rintro text v d rows ⟨strings, hne, hlex, rfl⟩ hrows
  simp only [orMysql, hlex, Option.bind_some] at hrows
  have htake : (queryTokens ++ strings.map Token.string).take 5 = selectTokens := rfl
  have hdrop : (queryTokens ++ strings.map Token.string).drop 5 =
      .word "playerID".toList :: .symbol '=' :: strings.map Token.string := rfl
  rw [if_pos htake, hdrop] at hrows
  match strings with
  | [] => exact absurd rfl hne
  | [x] =>
    have hcolumn : ∀ row : Row, operand row (.word "playerID".toList) = row.playerID := fun _ => rfl
    simp only [List.map_cons, List.map_nil, condition, hcolumn] at hrows
    rw [← Except.ok.inj hrows, List.flatten_singleton]
    rfl
  | x :: y :: strings => cases hrows

theorem findMysqlById_quoted_id :
    findMysqlById (orMysql asciiCi) "' OR '1'='1".toList [player (some "USA".toList)] =
      (player (some "USA".toList)).toMap := by
  decide +kernel

/-- An id with quotes becomes a condition that holds in every row: the player that is found
has another id, and is cached under the one that was asked for. -/
theorem quoted_id_finds_another :
    let id := "' OR '1'='1".toList
    let d := [player (some "USA".toList)]
    lex (selectById id) = some (queryTokens ++
        [.string [], .word "OR".toList, .string "1".toList, .symbol '=', .string "1".toList]) ∧
      Answers asciiCi (orMysql asciiCi) (fun rows => rows) ∧
      findMysqlById (orMysql asciiCi) id d = (player (some "USA".toList)).toMap ∧
      (player (some "USA".toList)).playerID = some "napolmi01".toList ∧ asciiCi.eq "napolmi01".toList id = false ∧
      findRedisById id (findById (orMysql asciiCi) d id fun _ => ∅).2 = (player (some "USA".toList)).toMap ∧
      ¬StaysLiteral asciiCi id := by
  refine ⟨by decide +kernel, orMysql_answers asciiCi, findMysqlById_quoted_id, rfl, by decide +kernel,
    by decide +kernel, ?_⟩
  intro h
  have hfound := h.found _ _ _ (orMysql_answers asciiCi) [player (some "USA".toList)]
  rw [findMysqlById_quoted_id] at hfound
  rcases hfound with hempty | ⟨p, hp, heq⟩
  · exact toMap_ne_empty _ hempty
  · obtain rfl : "napolmi01".toList = p := Option.some.inj (Option.some.inj ((lookup_toMap _ _).symm.trans hp))
    revert heq
    decide +kernel

end Coms4111.Players
