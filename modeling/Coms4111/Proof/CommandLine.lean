import Coms4111.Proof.CsvSearch

/-!
# The command line

Which argument vectors are a `find`, which are an `insert`, and what happens to all others.
The program looks at the first and at the last character of a word without a test that it
has one.

* `hw1a_behaviour`: for **every** argument vector, one of four things happens, whatever the
  files are: a search, an attempt to insert, an exit with a message, or an index error.
* `command_line_iff`: the command line is parsed as documented, and no exception is raised,
  **exactly if** no empty word is reached.
-/

namespace Coms4111.Csv

open Sql (Text)

variable {O : KeyOrder} {files : Files} {args : List Text} {t : TableName}

/-! ## What is documented -/

/-- Every condition but the last ends in a comma, and every one contains the sign. -/
def Conditions (args : List Text) : Prop :=
  (∀ word ∈ args.dropLast, word.getLast? = some ',') ∧ ∀ word ∈ args, '=' ∈ word

/-- `find tablename condition1, condition2, ...`. -/
def FindSyntax : List Text → Prop
  | operation :: table :: args => lower operation = "find".toList ∧ (∃ t : TableName, lower table = t.name) ∧
      args ≠ [] ∧ Conditions args
  | _ => False

/-- `(entry,entry,...)`, with the right number of entries. -/
def RowSyntax (t : TableName) (row : Text) : Prop :=
  row.head? = some '(' ∧ row.getLast? = some ')' ∧ (row.tail.dropLast.splitOn ',').length = t.entries

/-- `insert tablename (entry,entry,...)`. -/
def InsertSyntax : List Text → Prop
  | [operation, table, row] =>
      lower operation = "insert".toList ∧ ∃ t : TableName, lower table = t.name ∧ RowSyntax t row
  | _ => False

/-- The file is searched for some conditions. -/
def PerformsFind (args : List Text) : Prop :=
  ∃ t d, ∀ O files, hw1a O files args = ⟨(search O d (files t)).1, (search O d (files t)).2, files⟩

/-- The row is written, unless its id is found in the file. -/
def attempt (t : TableName) (tokens : List Text) (files : Files) : Result :=
  match repeatItem (tokens.headD []) t.idColumn (files t).lines with
  | .error e => ⟨[], .exception e, files⟩
  | .ok true => ⟨[], .exit "This inserted data has a same ID as an existed data ".toList, files⟩
  | .ok false => ⟨[], .done, Function.update files t (files t ++ [tokens])⟩

/-- Some row is tried to be inserted. -/
def PerformsInsert (args : List Text) : Prop := ∃ t tokens, ∀ O files, hw1a O files args = attempt t tokens files

/-- The files have their id columns, and every row has a value in each column. -/
def WellFormed (files : Files) : Prop :=
  ∀ t, t.idColumn ∈ (files t).header ∧ ∀ row ∈ (files t).data, row.length = (files t).header.length

/-- **What is documented of an invocation.** -/
structure AsDocumented (O : KeyOrder) (files : Files) (args : List Text) : Prop where
  find : PerformsFind args ↔ FindSyntax args
  insert : PerformsInsert args ↔ InsertSyntax args
  otherwise : ¬FindSyntax args → ¬InsertSyntax args → ∃ message, hw1a O files args = ⟨[], .exit message, files⟩
  noException : ∀ e, (hw1a O files args).ending ≠ .exception e

/-- An empty word that is not the last one, after conditions without a fault. -/
def EmptyFirst (args : List Text) : Prop :=
  ∃ before after, args = before ++ [] :: after ∧ after ≠ [] ∧
    ∀ word ∈ before, word.getLast? = some ',' ∧ '=' ∈ word

/-- An empty word is reached. -/
def ReachesEmpty : List Text → Prop
  | operation :: table :: args => (∃ t : TableName, lower table = t.name) ∧
      (lower operation = "find".toList ∧ EmptyFirst args ∨ lower operation = "insert".toList ∧ args = [[]])
  | _ => False

/-! ## The parts of the command line -/

theorem parse_find_iff {operation : Text} :
    Operation.parse operation = some .find ↔ lower operation = "find".toList := by
  unfold Operation.parse
  by_cases hf : lower operation = "find".toList
  · rw [if_pos hf]
    exact ⟨fun _ => hf, fun _ => rfl⟩
  · rw [if_neg hf]
    refine ⟨fun h => ?_, fun h => absurd h hf⟩
    split at h <;> cases h

theorem parse_insert_iff {operation : Text} :
    Operation.parse operation = some .insert ↔ lower operation = "insert".toList := by
  unfold Operation.parse
  by_cases hi : lower operation = "insert".toList
  · have hf : ¬lower operation = "find".toList := by
      rw [hi]
      decide
    rw [if_neg hf, if_pos hi]
    exact ⟨fun _ => hi, fun _ => rfl⟩
  · refine ⟨fun h => ?_, fun h => absurd h hi⟩
    rw [if_neg hi] at h
    split at h <;> cases h

theorem parse_name_iff {table : Text} : TableName.parse table = some t ↔ lower table = t.name := by
  unfold TableName.parse
  by_cases ho : lower table = "order".toList
  · rw [if_pos ho, ho]
    cases t <;> decide
  · rw [if_neg ho]
    by_cases hc : lower table = "customer".toList
    · rw [if_pos hc, hc]
      cases t <;> decide
    · rw [if_neg hc]
      refine ⟨fun h => ?_, fun h => ?_⟩
      · cases h
      · cases t with
        | customer => exact absurd h hc
        | order => exact absurd h ho

theorem splitEq_eq_none {word : Text} : splitEq word = none ↔ '=' ∉ word := by
  unfold splitEq
  rw [List.span_eq_takeWhile_dropWhile]
  cases hdrop : word.dropWhile (· != '=') with
  | nil =>
    have hall := List.dropWhile_eq_nil_iff.1 hdrop
    simp only [true_iff]
    intro hmem
    exact absurd (hall '=' hmem) (by decide)
  | cons c rest =>
    simp only [reduceCtorEq, false_iff, not_not]
    have hc : ¬(c != '=') = true := by
      have hne : word.dropWhile (· != '=') ≠ [] := by rw [hdrop]; exact List.cons_ne_nil c rest
      have hhead := List.head_dropWhile_not (· != '=') hne
      simpa [hdrop] using hhead
    have hmem : c ∈ word := (List.dropWhile_suffix _).subset (by rw [hdrop]; exact List.mem_cons_self)
    rw [bne_iff_ne, not_not] at hc
    rwa [hc] at hmem

theorem mem_of_splitEq {word : Text} {c : Text × Text} (h : splitEq word = some c) : '=' ∈ word := by
  by_contra hno
  rw [splitEq_eq_none.2 hno] at h
  cases h

/-- A comma at the end does not count for the sign. -/
theorem eq_mem_dropLast {word : Text} (h : word.getLast? = some ',') : '=' ∈ word.dropLast ↔ '=' ∈ word := by
  obtain ⟨init, rfl⟩ := List.getLast?_eq_some_iff.1 h
  simp

/-- How the conditions are read. -/
inductive TermsBehaviour (d : Dict) (args : List Text) : Prop
  | accepted (d' : Dict) : Conditions args → ¬EmptyFirst args → findTerms d args = .ok d' → TermsBehaviour d args
  | refused (message : Text) : message ≠ noMatchMessage → ¬Conditions args → ¬EmptyFirst args →
      findTerms d args = .error (.exit message) → TermsBehaviour d args
  | crashed : ¬Conditions args → EmptyFirst args → findTerms d args = .error (.exception .indexError) →
      TermsBehaviour d args

theorem not_emptyFirst_singleton (word : Text) : ¬EmptyFirst [word] := by
  rintro ⟨before, after, heq, hne, -⟩
  have hlen := congrArg List.length heq
  have hpos := List.length_pos_of_ne_nil hne
  simp only [List.length_append, List.length_cons, List.length_nil] at hlen
  omega

/-- A condition without a fault, before others. -/
theorem conditions_cons (word : Text) {args : List Text} (hne : args ≠ []) :
    Conditions (word :: args) ↔ (word.getLast? = some ',' ∧ '=' ∈ word) ∧ Conditions args := by
  unfold Conditions
  rw [List.dropLast_cons_of_ne_nil hne]
  simp only [List.mem_cons, forall_eq_or_imp]
  tauto

theorem emptyFirst_cons (word : Text) {args : List Text} (hne : args ≠ []) :
    EmptyFirst (word :: args) ↔ word = [] ∨ (word.getLast? = some ',' ∧ '=' ∈ word) ∧ EmptyFirst args := by
  constructor
  · rintro ⟨before, after, heq, hafter, hbefore⟩
    rcases before with _ | ⟨w, before⟩
    · exact .inl (List.cons.inj heq).1
    · obtain ⟨rfl, rfl⟩ := List.cons.inj heq
      exact .inr ⟨hbefore word List.mem_cons_self, before, after, rfl, hafter,
        fun w hw => hbefore w (List.mem_cons_of_mem _ hw)⟩
  · rintro (rfl | ⟨hword, before, after, rfl, hafter, hbefore⟩)
    · exact ⟨[], args, rfl, hne, nofun⟩
    · refine ⟨word :: before, after, rfl, hafter, ?_⟩
      intro w hw
      rcases List.mem_cons.1 hw with rfl | hw
      · exact hword
      · exact hbefore w hw

/-! What `findTerms` does with a condition that has others after it. -/

theorem findTerms_empty {word : Text} {args : List Text} (hne : args ≠ []) (hlast : word.getLast? = none)
    (d : Dict) :
    findTerms d (word :: args) = .error (.exception .indexError) := by
  obtain ⟨arg, args, rfl⟩ := List.exists_cons_of_ne_nil hne
  rw [findTerms, hlast]
  exact hne

theorem findTerms_noComma {word : Text} {args : List Text} (hne : args ≠ []) {c : Char}
    (hlast : word.getLast? = some c) (hc : c ≠ ',') (d : Dict) : findTerms d (word :: args) =
      .error (.exit "Invalid input, please use comma and space to seperate searching terms".toList) := by
  obtain ⟨arg, args, rfl⟩ := List.exists_cons_of_ne_nil hne
  rw [findTerms, hlast]
  · exact if_pos hc
  · exact hne

theorem findTerms_noSign {word : Text} {args : List Text} (hne : args ≠ []) (hlast : word.getLast? = some ',')
    (hsplit : splitEq word.dropLast = none) (d : Dict) : findTerms d (word :: args) =
      .error (.exit "Invalid input, each searching term must contain '=' sign".toList) := by
  obtain ⟨arg, args, rfl⟩ := List.exists_cons_of_ne_nil hne
  rw [findTerms, hlast, hsplit]
  · rfl
  · exact hne

theorem findTerms_next {word : Text} {args : List Text} (hne : args ≠ []) (hlast : word.getLast? = some ',')
    {c : Text × Text} (hsplit : splitEq word.dropLast = some c) (d : Dict) :
    findTerms d (word :: args) = findTerms (d.insert c.1 c.2) args := by
  obtain ⟨arg, args, rfl⟩ := List.exists_cons_of_ne_nil hne
  rw [findTerms, hlast, hsplit]
  · rfl
  · exact hne

/-- A condition before others is stored, or ends the program: with an index error if it is
empty, and with a message if it has a fault. -/
theorem findTerms_cons (word : Text) {args : List Text} (hne : args ≠ []) :
    (word = [] ∧ ∀ d, findTerms d (word :: args) = .error (.exception .indexError)) ∨
      ((word ≠ [] ∧ ¬(word.getLast? = some ',' ∧ '=' ∈ word)) ∧
        ∃ message, message ≠ noMatchMessage ∧ ∀ d, findTerms d (word :: args) = .error (.exit message)) ∨
      ((word ≠ [] ∧ word.getLast? = some ',' ∧ '=' ∈ word) ∧
        ∃ c : Text × Text, ∀ d, findTerms d (word :: args) = findTerms (d.insert c.1 c.2) args) := by
  cases hlast : word.getLast? with
  | none => left; exact ⟨List.getLast?_eq_none_iff.1 hlast, findTerms_empty hne hlast⟩
  | some c =>
    right
    have hword : word ≠ [] := by
      rintro rfl
      cases hlast
    by_cases hc : c = ','
    · subst hc
      have hsign := eq_mem_dropLast hlast
      cases hsplit : splitEq word.dropLast with
      | none =>
        left
        have hno : '=' ∉ word := by rw [← hsign]; exact splitEq_eq_none.1 hsplit
        exact ⟨⟨hword, fun h => hno h.2⟩, _, by decide +kernel, findTerms_noSign hne hlast hsplit⟩
      | some kv =>
        right
        exact ⟨⟨hword, rfl, hsign.1 (mem_of_splitEq hsplit)⟩, kv, findTerms_next hne hlast hsplit⟩
    · left
      exact ⟨⟨hword, fun h => hc (Option.some.inj h.1)⟩, _, by decide +kernel, findTerms_noComma hne hlast hc⟩

/-- How the conditions are read, by induction on them: the last one needs no comma. -/
theorem findTerms_behaviour : ∀ {args : List Text}, args ≠ [] → ∀ d : Dict, TermsBehaviour d args := by
  intro args
  induction args with
  | nil => intro h; exact absurd rfl h
  | cons word args ih =>
    intro _ d
    by_cases hne : args = []
    · subst hne
      have hempty := not_emptyFirst_singleton word
      cases hsplit : splitEq word with
      | none =>
        have hno := splitEq_eq_none.1 hsplit
        refine .refused _ ?_ (fun h => hno (h.2 word List.mem_cons_self)) hempty (by rw [findTerms, hsplit])
        decide +kernel
      | some c =>
        have heq := mem_of_splitEq hsplit
        exact .accepted (d.insert c.1 c.2) ⟨by simp, by simpa using heq⟩ hempty (by rw [findTerms, hsplit])
    have hcond := conditions_cons word hne
    have hempty := emptyFirst_cons word hne
    rcases findTerms_cons word hne with ⟨hword, herr⟩ | ⟨⟨hword, hbad⟩, m, hm, herr⟩ | ⟨⟨hword, hgood⟩, c, hstep⟩
    · refine .crashed (fun h => ?_) (hempty.2 (.inl hword)) (herr d)
      have hlast := (hcond.1 h).1.1
      rw [hword] at hlast
      cases hlast
    · exact .refused m hm (fun h => hbad (hcond.1 h).1) (fun h => (hempty.1 h).elim hword fun h => hbad h.1)
        (herr d)
    · rcases ih hne (d.insert c.1 c.2) with ⟨d', h1, h2, h3⟩ | ⟨m, hm, h1, h2, h3⟩ | ⟨h1, h2, h3⟩
      · exact .accepted d' (hcond.2 ⟨hgood, h1⟩) (fun h => (hempty.1 h).elim hword fun h => h2 h.2)
          ((hstep d).trans h3)
      · exact .refused m hm (fun h => h1 (hcond.1 h).2) (fun h => (hempty.1 h).elim hword fun h => h2 h.2)
          ((hstep d).trans h3)
      · exact .crashed (fun h => h1 (hcond.1 h).2) (hempty.2 (.inr ⟨hgood, h2⟩)) ((hstep d).trans h3)

/-- How the row of an insertion is read. -/
theorem insert_behaviour (t : TableName) (row : Text) :
    (RowSyntax t row ∧ row ≠ [] ∧
        ∀ files, insert t [row] files = attempt t (row.tail.dropLast.splitOn ',') files) ∨
      (¬RowSyntax t row ∧ row ≠ [] ∧
        ∃ message, message ≠ noMatchMessage ∧ ∀ files, insert t [row] files = ⟨[], .exit message, files⟩) ∨
      (¬RowSyntax t row ∧ row = [] ∧ ∀ files, insert t [row] files = ⟨[], .exception .indexError, files⟩) := by
  rcases hrow : row with _ | ⟨first, rest⟩
  · right; right
    refine ⟨fun h => ?_, rfl, fun files => rfl⟩
    have hhead := h.1
    cases hhead
  rw [← hrow]
  have hne : row ≠ [] := by rw [hrow]; exact List.cons_ne_nil first rest
  have hhead : row.head? = some first := by rw [hrow]; rfl
  obtain ⟨last, hlast⟩ : ∃ last, row.getLast? = some last := ⟨_, List.getLast?_eq_some_getLast hne⟩
  by_cases hparen : first ≠ '(' ∨ last ≠ ')'
  · right; left
    have htokens : ∀ f, insertTokens t f [row] =
        .error (.exit "Please make sure the inserted data is inside the parentheses".toList) := by
      intro f
      rw [insertTokens, hhead, hlast]
      exact if_pos hparen
    refine ⟨fun h => ?_, hne, _, ?_, fun files => by rw [insert, htokens]⟩
    · rcases hparen with hf | hl
      · rw [h.1] at hhead
        exact hf (Option.some.inj hhead).symm
      · rw [h.2.1] at hlast
        exact hl (Option.some.inj hlast).symm
    · decide +kernel
  · rw [not_or, not_not, not_not] at hparen
    obtain ⟨rfl, rfl⟩ := hparen
    have htokens : ∀ f, insertTokens t f [row] = checkTokens t f (row.tail.dropLast.splitOn ',') := by
      intro f
      rw [insertTokens, hhead, hlast]
      rfl
    by_cases hlen : (row.tail.dropLast.splitOn ',').length = t.entries
    · left
      refine ⟨⟨hhead, hlast, hlen⟩, hne, fun files => ?_⟩
      rw [insert, htokens, checkTokens, if_neg (not_ne_iff.2 hlen), attempt]
      rcases repeatItem ((row.tail.dropLast.splitOn ',').headD []) t.idColumn (files t).lines with e | b
      · rfl
      · cases b <;> rfl
    · right; left
      refine ⟨fun h => hlen h.2.2, hne, t.entriesMessage, ?_, fun files => ?_⟩
      · cases t <;> decide +kernel
      · rw [insert, htokens, checkTokens, if_pos hlen]

/-! ## All argument vectors -/

/-- **What an invocation does**, whatever the files are. -/
inductive Behaviour (args : List Text) : Prop
  | finds (t : TableName) (d : Dict) : FindSyntax args → ¬InsertSyntax args → ¬ReachesEmpty args →
      (∀ O files, hw1a O files args = ⟨(search O d (files t)).1, (search O d (files t)).2, files⟩) →
        Behaviour args
  | inserts (t : TableName) (tokens : List Text) : ¬FindSyntax args → InsertSyntax args → ¬ReachesEmpty args →
      (∀ O files, hw1a O files args = attempt t tokens files) → Behaviour args
  | exits (message : Text) :
    message ≠ noMatchMessage → ¬FindSyntax args → ¬InsertSyntax args → ¬ReachesEmpty args →
      (∀ O files, hw1a O files args = ⟨[], .exit message, files⟩) → Behaviour args
  | crashes : ReachesEmpty args → (∀ O files, hw1a O files args = ⟨[], .exception .indexError, files⟩) →
      Behaviour args

section

variable {operation table arg : Text}

theorem findSyntax_iff : FindSyntax (operation :: table :: arg :: args) ↔
    Operation.parse operation = some .find ∧ (∃ t, TableName.parse table = some t) ∧
      Conditions (arg :: args) := by
  simp only [FindSyntax, parse_find_iff, parse_name_iff, ne_eq, reduceCtorEq, not_false_eq_true, true_and]

theorem insertSyntax_iff : InsertSyntax (operation :: table :: arg :: args) ↔
    Operation.parse operation = some .insert ∧ args = [] ∧ ∃ t, TableName.parse table = some t ∧
      RowSyntax t arg := by
  rcases args with _ | ⟨arg', args⟩
  · simp only [InsertSyntax, parse_insert_iff, parse_name_iff, true_and]
  · simp [InsertSyntax]

theorem reachesEmpty_iff : ReachesEmpty (operation :: table :: arg :: args) ↔
    (∃ t, TableName.parse table = some t) ∧ (Operation.parse operation = some .find ∧ EmptyFirst (arg :: args) ∨
      Operation.parse operation = some .insert ∧ arg = [] ∧ args = []) := by
  simp only [ReachesEmpty, parse_find_iff, parse_insert_iff, parse_name_iff, List.cons.injEq]

/-- A wrong operation or a wrong table. -/
theorem behaviour_of_wrong (h : Operation.parse operation = none ∨ TableName.parse table = none) :
    Behaviour (operation :: table :: arg :: args) := by
  have hboth : ∀ {o t}, Operation.parse operation = some o → ¬TableName.parse table = some t := by
    intro o t hop ht
    rcases h with h | h
    · rw [h] at hop
      cases hop
    · rw [h] at ht
      cases ht
  have hfind : ¬FindSyntax (operation :: table :: arg :: args) := by
    rw [findSyntax_iff]
    rintro ⟨hop, ⟨t, ht⟩, -⟩
    exact hboth hop ht
  have hinsert : ¬InsertSyntax (operation :: table :: arg :: args) := by
    rw [insertSyntax_iff]
    rintro ⟨hop, -, t, ht, -⟩
    exact hboth hop ht
  have hempty : ¬ReachesEmpty (operation :: table :: arg :: args) := by
    rw [reachesEmpty_iff]
    rintro ⟨⟨t, ht⟩, ⟨hop, -⟩ | ⟨hop, -⟩⟩
    · exact hboth hop ht
    · exact hboth hop ht
  cases hop : Operation.parse operation with
  | none =>
    refine .exits _ ?_ hfind hinsert hempty fun O files => by rw [hw1a, hop]
    decide +kernel
  | some o =>
    have ht : TableName.parse table = none := by
      rw [hop] at h
      exact h.resolve_left (Option.some_ne_none o)
    refine .exits _ ?_ hfind hinsert hempty fun O files => by rw [hw1a, hop, ht]
    decide +kernel

theorem behaviour_of_find (hop : Operation.parse operation = some .find) (ht : TableName.parse table = some t) :
    Behaviour (operation :: table :: arg :: args) := by
  have hinsert : ¬InsertSyntax (operation :: table :: arg :: args) := by
    rw [insertSyntax_iff, hop]
    rintro ⟨h, -⟩
    cases h
  have hempty : ReachesEmpty (operation :: table :: arg :: args) ↔ EmptyFirst (arg :: args) := by
    rw [reachesEmpty_iff, hop, ht]
    simp
  have hfind : FindSyntax (operation :: table :: arg :: args) ↔ Conditions (arg :: args) := by
    rw [findSyntax_iff, hop, ht]
    simp
  have hrun : ∀ O files, hw1a O files (operation :: table :: arg :: args) = find O t (arg :: args) files := by
    intro O files
    rw [hw1a, hop, ht]
  rcases findTerms_behaviour (List.cons_ne_nil arg args) ∅ with
    ⟨d, h1, h2, h3⟩ | ⟨m, hm, h1, h2, h3⟩ | ⟨h1, h2, h3⟩
  · exact .finds t d (hfind.2 h1) hinsert (fun h => h2 (hempty.1 h)) fun O files => by rw [hrun, find, h3]
  · exact .exits m hm (fun h => h1 (hfind.1 h)) hinsert (fun h => h2 (hempty.1 h)) fun O files => by
      rw [hrun, find, h3]
  · exact .crashes (hempty.2 h2) fun O files => by rw [hrun, find, h3]

theorem behaviour_of_insert (hop : Operation.parse operation = some .insert)
    (ht : TableName.parse table = some t) :
    Behaviour (operation :: table :: arg :: args) := by
  have hfind : ¬FindSyntax (operation :: table :: arg :: args) := by
    rw [findSyntax_iff, hop]
    rintro ⟨h, -⟩
    cases h
  have hinsert : InsertSyntax (operation :: table :: arg :: args) ↔ args = [] ∧ RowSyntax t arg := by
    rw [insertSyntax_iff, hop, ht]
    simp
  have hempty : ReachesEmpty (operation :: table :: arg :: args) ↔ arg = [] ∧ args = [] := by
    rw [reachesEmpty_iff, hop, ht]
    simp
  have hrun : ∀ O files, hw1a O files (operation :: table :: arg :: args) = insert t (arg :: args) files := by
    intro O files
    rw [hw1a, hop, ht]
  rcases args with _ | ⟨arg', args⟩
  · rcases insert_behaviour t arg with ⟨h1, h2, h3⟩ | ⟨h1, h2, m, hm, h3⟩ | ⟨h1, h2, h3⟩
    · exact .inserts t _ hfind (hinsert.2 ⟨rfl, h1⟩) (fun h => h2 (hempty.1 h).1) fun O files =>
        (hrun O files).trans (h3 files)
    · exact .exits m hm hfind (fun h => h1 (hinsert.1 h).2) (fun h => h2 (hempty.1 h).1) fun O files =>
        (hrun O files).trans (h3 files)
    · exact .crashes (hempty.2 ⟨h2, rfl⟩) fun O files => (hrun O files).trans (h3 files)
  · refine .exits _ ?_ hfind (fun h => ?_) (fun h => ?_) fun O files => (hrun O files).trans rfl
    · decide +kernel
    · cases (hinsert.1 h).1
    · cases (hempty.1 h).2

end

/-- **Every argument vector** is a search, an attempt to insert, an exit or a crash. -/
theorem hw1a_behaviour (args : List Text) : Behaviour args := by
  match args with
  | [] => exact .exits _ (by decide +kernel) nofun nofun nofun fun O files => rfl
  | [_] => exact .exits _ (by decide +kernel) nofun nofun nofun fun O files => rfl
  | [operation, table] =>
    refine .exits _ (by decide +kernel) (fun h => h.2.2.1 rfl) nofun (fun h => ?_) fun O files => rfl
    rcases h.2 with ⟨-, before, after, heq, -⟩ | ⟨-, heq⟩
    · simp at heq
    · cases heq
  | operation :: table :: arg :: args =>
    cases hop : Operation.parse operation with
    | none => exact behaviour_of_wrong (.inl hop)
    | some o =>
      cases ht : TableName.parse table with
      | none => exact behaviour_of_wrong (.inr ht)
      | some t =>
        cases o with
        | find => exact behaviour_of_find hop ht
        | insert => exact behaviour_of_insert hop ht

/-! ## The documented behaviour -/

/-- Without files to find anything in, a search ends with its message. -/
theorem PerformsFind.ending (h : PerformsFind args) :
    (hw1a insertionOrder (fun _ => []) args).ending = .exit noMatchMessage := by
  obtain ⟨t, d, h⟩ := h
  rw [h]
  rfl

/-- Without files that hold the id, an insertion succeeds. -/
theorem PerformsInsert.ending (h : PerformsInsert args) :
    (hw1a insertionOrder (fun _ => []) args).ending = .done := by
  obtain ⟨t, tokens, h⟩ := h
  rw [h]
  rfl

theorem matchLine_error {d : Dict} {line : Line} {e : Ending} : ∀ {keys : List Text},
    matchLine d line keys = .error e → ∃ message, e = .exit message := by
  intro keys
  induction keys with
  | nil => intro h; cases h
  | cons key keys ih =>
    intro h
    rw [matchLine] at h
    cases hv : line.fields.lookup key with
    | none =>
      rw [hv] at h
      cases h
      exact ⟨_, rfl⟩
    | some v =>
      rw [hv] at h
      simp only at h
      split at h
      · cases h
      · exact ih h

theorem searchLines_noException {d : Dict} {keys : List Text} (e : PyException) :
    ∀ {lines : List Line} {find : Bool}, (searchLines d keys find lines).2 ≠ .exception e := by
  intro lines
  induction lines with
  | nil =>
    intro find
    rw [searchLines]
    cases find <;> simp
  | cons line lines ih =>
    intro find
    rw [searchLines]
    cases hm : matchLine d line keys with
    | error e' =>
      obtain ⟨message, rfl⟩ := matchLine_error hm
      simp
    | ok b =>
      cases b with
      | true => exact ih
      | false => exact ih

/-- A row that is long enough has a value in every column. -/
theorem exists_cell {key : Text} : ∀ {header row : List Text}, row.length = header.length → key ∈ header →
    ∃ v, cell header row key = some v := by
  intro header
  induction header with
  | nil => intro row _ h; cases h
  | cons c header ih =>
    intro row hlen hkey
    rcases row with _ | ⟨v, row⟩
    · cases hlen
    rw [cell]
    by_cases hmem : key ∈ header
    · rw [if_pos hmem]
      exact ih (Nat.succ.inj hlen) hmem
    · have hc : c = key := ((List.mem_cons.1 hkey).resolve_right hmem).symm
      rw [if_neg hmem, if_pos hc]
      exact ⟨v, rfl⟩

theorem repeatItem_noException (id : Text) {tableID : Text} : ∀ {lines : List Line},
    (∀ line ∈ lines, ∃ v, line.fields.lookup tableID = some (some v)) →
      ∃ b, repeatItem id tableID lines = .ok b := by
  intro lines
  induction lines with
  | nil => intro _; exact ⟨false, rfl⟩
  | cons line lines ih =>
    intro h
    obtain ⟨v, hv⟩ := h line List.mem_cons_self
    rw [repeatItem, hv]
    simp only
    split
    · exact ⟨true, rfl⟩
    · exact ih fun l hl => h l (List.mem_cons_of_mem _ hl)

theorem attempt_noException (hfiles : WellFormed files) (t : TableName) (tokens : List Text) (e : PyException) :
    (attempt t tokens files).ending ≠ .exception e := by
  obtain ⟨hid, hrows⟩ := hfiles t
  have hlines : ∀ line ∈ (files t).lines, ∃ v, line.fields.lookup t.idColumn = some (some v) := by
    intro line hline
    obtain ⟨row, hrow, rfl⟩ := List.mem_map.1 hline
    obtain ⟨v, hv⟩ := exists_cell (hrows row hrow) hid
    exact ⟨v, by rw [lookup_toLine, if_pos hid, hv]⟩
  obtain ⟨b, hb⟩ := repeatItem_noException (tokens.headD []) hlines
  rw [attempt, hb]
  cases b <;> simp

/-- **The command line is parsed as documented and never crashes**, if and only if no empty
word is reached: for every argument vector and all well-formed files. -/
theorem command_line_iff (O : KeyOrder) (files : Files) (hfiles : WellFormed files) (args : List Text) :
    AsDocumented O files args ↔ ¬ReachesEmpty args := by
  constructor
  · intro h hempty
    rcases hw1a_behaviour args with ⟨_, _, _, _, hno, _⟩ | ⟨_, _, _, _, hno, _⟩ | ⟨_, _, _, _, hno, _⟩ | ⟨-, hrun⟩
    · exact hno hempty
    · exact hno hempty
    · exact hno hempty
    · exact h.noException .indexError (by rw [hrun])
  · intro hno
    rcases hw1a_behaviour args with ⟨t, d, hf, hi, -, hrun⟩ | ⟨t, tokens, hf, hi, -, hrun⟩ |
      ⟨m, hm, hf, hi, -, hrun⟩ | ⟨hempty, -⟩
    · have hfind : PerformsFind args := ⟨t, d, hrun⟩
      refine ⟨iff_of_true hfind hf, iff_of_false (fun h => ?_) hi, fun h => absurd hf h, fun e => ?_⟩
      · have hend := h.ending
        rw [hfind.ending] at hend
        cases hend
      · rw [hrun]
        exact searchLines_noException e
    · have hinsert : PerformsInsert args := ⟨t, tokens, hrun⟩
      refine ⟨iff_of_false (fun h => ?_) hf, iff_of_true hinsert hi, fun _ h => absurd hi h, fun e => ?_⟩
      · have hend := h.ending
        rw [hinsert.ending] at hend
        cases hend
      · rw [hrun]
        exact attempt_noException hfiles t tokens e
    · refine ⟨iff_of_false (fun h => ?_) hf, iff_of_false (fun h => ?_) hi,
        fun _ _ => ⟨m, hrun O files⟩, fun e => ?_⟩
      · have hend := h.ending
        rw [hrun] at hend
        exact hm (Ending.exit.inj hend)
      · have hend := h.ending
        rw [hrun] at hend
        cases hend
      · rw [hrun]
        simp
    · exact absurd hempty hno

theorem firstCustomer_wellFormed : WellFormed firstCustomer := by
  intro t
  cases t <;> exact ⟨by decide +kernel, by decide +kernel⟩

/-- A condition without its sign, after one without a fault. -/
theorem command_line_missing_sign :
    AsDocumented insertionOrder firstCustomer
      ["find".toList, "customer".toList, "City=Berlin,".toList, "Germany".toList] := by
  refine (command_line_iff insertionOrder firstCustomer firstCustomer_wellFormed _).2 ?_
  rintro ⟨-, ⟨-, before, after, heq, hafter, -⟩ | ⟨h, -⟩⟩
  · have hmem : ([] : Text) ∈ ["City=Berlin,".toList, "Germany".toList] := by
      rw [heq]
      simp
    revert hmem
    decide
  · revert h
    decide

/-- An empty argument between two conditions. -/
theorem empty_word_crashes : WellFormed firstCustomer ∧
    ¬AsDocumented insertionOrder firstCustomer ["find".toList, "customer".toList, [], "City=Berlin".toList] := by
  refine ⟨firstCustomer_wellFormed, fun h => ?_⟩
  exact h.noException .indexError (by decide +kernel)

end Coms4111.Csv
