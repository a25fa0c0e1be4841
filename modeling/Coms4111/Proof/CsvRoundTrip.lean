import Coms4111.Proof.CsvKeys

/-!
# What is inserted can be found

An inserted row is given as one argument, its fields joined by commas; the conditions of a
search are given as one argument each, `column=value`, with a comma after all but the last.

* `findTerms_termArgs`: the conditions are read as they were written.
* `search_eq`: a search for columns of the header prints the lines that satisfy all
  conditions.
* `inserted_found_iff`: a new row is accepted, and found under its own values, exactly if
  none of its fields contains a comma.
-/

namespace Coms4111.Csv

open Sql (Text length_splitOn_intercalate)

variable {t : TableName} {f : File} {O : KeyOrder}

/-! ## Conditions -/

/-- `column=value`. -/
def term (c : Text × Text) : Text := c.1 ++ '=' :: c.2

/-- The arguments for the conditions. -/
def termArgs : List (Text × Text) → List Text
  | [] => []
  | [c] => [term c]
  | c :: conditions => (term c ++ [',']) :: termArgs conditions

theorem splitEq_term {c : Text × Text} (h : '=' ∉ c.1) : splitEq (term c) = some c := by
  have hall : ∀ a ∈ c.1, (a != '=') = true := by
    intro a ha
    rw [bne_iff_ne]
    rintro rfl
    exact h ha
  unfold splitEq term
  rw [List.span_eq_takeWhile_dropWhile, List.takeWhile_append_of_pos hall, List.dropWhile_append_of_pos hall]
  simp

/-- The dictionary of the conditions. -/
def dict (d : Dict) (conditions : List (Text × Text)) : Dict := conditions.foldl (fun d c => d.insert c.1 c.2) d

theorem exists_termArgs {conditions : List (Text × Text)} (h : conditions ≠ []) :
    ∃ arg args, termArgs conditions = arg :: args := by
  match conditions with
  | [] => exact absurd rfl h
  | [c] => exact ⟨_, _, rfl⟩
  | c :: c' :: conditions => exact ⟨_, _, rfl⟩

/-- **The conditions are read as they were written.** -/
theorem findTerms_termArgs {conditions : List (Text × Text)} (h : ∀ c ∈ conditions, '=' ∉ c.1) (d : Dict) :
    findTerms d (termArgs conditions) = .ok (dict d conditions) := by
  induction conditions generalizing d with
  | nil => rfl
  | cons c conditions ih =>
    have hc := splitEq_term (h c List.mem_cons_self)
    have hrest := ih fun c hc => h c (List.mem_cons_of_mem _ hc)
    rcases conditions with _ | ⟨c', conditions⟩
    · simp only [termArgs, findTerms, hc]
      rfl
    · have hterms : termArgs (c :: c' :: conditions) = (term c ++ [',']) :: termArgs (c' :: conditions) := rfl
      obtain ⟨arg, args, hargs⟩ := exists_termArgs (List.cons_ne_nil c' conditions)
      rw [hterms, hargs, findTerms, List.getLast?_concat, List.dropLast_concat]
      · simp only [hc]
        rw [← hargs]
        exact hrest (d.insert c.1 c.2)
      · exact List.cons_ne_nil arg args

theorem lookup_dict_of_notMem {conditions : List (Text × Text)} {key : Text}
    (h : key ∉ conditions.map Prod.fst) : ∀ d : Dict, (dict d conditions).lookup key = d.lookup key := by
  unfold dict
  induction conditions with
  | nil => intro d; rfl
  | cons c conditions ih =>
    intro d
    rw [List.map_cons, List.mem_cons, not_or] at h
    rw [List.foldl_cons, ih h.2, AList.lookup_insert_ne h.1]

/-- Every condition is in the dictionary, if no column is named twice. -/
theorem lookup_dict {conditions : List (Text × Text)} (hnodup : (conditions.map Prod.fst).Nodup)
    {c : Text × Text} (hc : c ∈ conditions) (d : Dict) : (dict d conditions).lookup c.1 = some c.2 := by
  induction conditions generalizing d with
  | nil => cases hc
  | cons c' conditions ih =>
    rw [List.map_cons, List.nodup_cons] at hnodup
    rcases List.mem_cons.1 hc with rfl | hc
    · exact (lookup_dict_of_notMem hnodup.1 (d.insert c.1 c.2)).trans (AList.lookup_insert d)
    · exact ih hnodup.2 hc (d.insert c'.1 c'.2)

theorem mem_dict {conditions : List (Text × Text)} {key : Text} :
    ∀ {d : Dict}, key ∈ dict d conditions ↔ key ∈ d ∨ key ∈ conditions.map Prod.fst := by
  unfold dict
  induction conditions with
  | nil => intro d; simp
  | cons c conditions ih =>
    intro d
    rw [List.foldl_cons, ih, AList.mem_insert, List.map_cons, List.mem_cons]
    tauto

theorem KeyOrder.mem_keys (O : KeyOrder) {d : Dict} {key : Text} : key ∈ O.keys d ↔ key ∈ d := by
  rw [(O.perm d).mem_iff, AList.mem_keys]

/-! ## Searching -/

/-- The line has the value of every condition. -/
def Line.satisfies (line : Line) (dictionary : Dict) : Bool :=
  dictionary.keys.all fun key => line.fields.lookup key == some (dictionary.lookup key)

theorem matchLine_eq {d : Dict} {line : Line} {keys : List Text} (h : ∀ key ∈ keys, key ∈ line.fields) :
    matchLine d line keys = .ok (keys.all fun key => line.fields.lookup key == some (d.lookup key)) := by
  induction keys with
  | nil => rfl
  | cons key keys ih =>
    obtain ⟨v, hv⟩ := Finmap.mem_iff.1 (h key List.mem_cons_self)
    have hrest := ih fun k hk => h k (List.mem_cons_of_mem _ hk)
    rw [matchLine, List.all_cons, hv]
    by_cases he : v = d.lookup key
    · simp [he, hrest]
    · simp [he]

/-- The lines of a search for columns that they all have. -/
theorem searchLines_eq {d : Dict} {keys : List Text} (hkeys : keys.Perm d.keys) (find : Bool) {lines : List Line}
    (h : ∀ line ∈ lines, ∀ key ∈ keys, key ∈ line.fields) :
    searchLines d keys find lines = (lines.filter (·.satisfies d),
      if find || lines.any (·.satisfies d) then .done else .exit noMatchMessage) := by
  induction lines generalizing find with
  | nil => simp [searchLines]
  | cons line lines ih =>
    have hrest := fun find => ih find fun l hl => h l (List.mem_cons_of_mem _ hl)
    have hline : matchLine d line keys = .ok (line.satisfies d) := by
      rw [matchLine_eq (h line List.mem_cons_self)]
      unfold Line.satisfies
      rw [hkeys.all_eq]
    rw [searchLines, hline]
    cases hs : line.satisfies d with
    | true => simp [hrest, hs]
    | false => simp [hrest, hs]

/-- **A search for columns of the header.** -/
theorem search_eq {d : Dict} (h : ∀ line ∈ f.lines, ∀ key ∈ d, key ∈ line.fields) :
    search O d f = (f.lines.filter (·.satisfies d),
      if f.lines.any (·.satisfies d) then .done else .exit noMatchMessage) := by
  unfold search
  rw [searchLines_eq (O.perm d)]
  · simp
  · intro line hl key hk
    exact h line hl key (O.mem_keys.1 hk)

/-! ## The row that was inserted -/

/-- The columns have different names, and none contains the sign of a condition. -/
structure Columns (f : File) : Prop where
  nodup : f.header.Nodup
  plain : ∀ column ∈ f.header, '=' ∉ column

/-- The line is the row: every column of the header with the value in its place, and
nothing else. -/
structure Shows (header row : List Text) (line : Line) : Prop where
  columns : ∀ key, key ∈ line.fields ↔ key ∈ header
  values : ∀ c ∈ header.zip row, line.fields.lookup c.1 = some (some c.2)
  rest : line.rest = none

theorem shows_toLine {header row : List Text} (hnodup : header.Nodup) (hlen : row.length = header.length) :
    Shows header row (toLine header row) := by
  refine ⟨fun key => mem_toLine, ?_, ?_⟩
  · intro c hc
    rw [lookup_toLine, if_pos (List.of_mem_zip hc).1, cell_of_mem_zip hnodup c hc]
  · unfold toLine
    simp [hlen]

theorem header_grown {f g : File} (h : f <+: g) (hne : f ≠ []) : g.header = f.header := by
  obtain ⟨header, rows, rfl⟩ := List.exists_cons_of_ne_nil hne
  obtain ⟨l, rfl⟩ := h
  rfl

theorem Columns.of_header {f g : File} (h : Columns f) (hg : g.header = f.header) : Columns g := by
  refine ⟨?_, ?_⟩
  · rw [hg]; exact h.nodup
  · rw [hg]; exact h.plain

/-- **The row is found under its own values.** -/
theorem find_row (hf : Keyed t f) (hcols : Columns f) {row : List Text} (hrow : row ∈ f.rows)
    {conditions : List (Text × Text)} (hnodup : (conditions.map Prod.fst).Nodup)
    (hsub : conditions ⊆ f.header.zip row) :
    toLine f.header row ∈ (search O (dict ∅ conditions) f).1 ∧ (search O (dict ∅ conditions) f).2 = .done := by
  have hkey : ∀ {key}, key ∈ dict ∅ conditions → ∃ value, (key, value) ∈ conditions := by
    intro key hkey
    rcases mem_dict.1 hkey with h | h
    · exact absurd h (AList.notMem_empty key)
    · obtain ⟨c, hc, rfl⟩ := List.mem_map.1 h
      exact ⟨c.2, hc⟩
  have hlines : ∀ line ∈ f.lines, ∀ key ∈ dict ∅ conditions, key ∈ line.fields := by
    intro line hline key hk
    rw [hf.lines] at hline
    obtain ⟨r, hr, rfl⟩ := List.mem_map.1 hline
    obtain ⟨value, hc⟩ := hkey hk
    exact mem_toLine.2 (List.of_mem_zip (hsub hc)).1
  have hmem : toLine f.header row ∈ f.lines := by
    rw [hf.lines]
    exact List.mem_map_of_mem hrow
  have hsat : (toLine f.header row).satisfies (dict ∅ conditions) = true := by
    unfold Line.satisfies
    rw [List.all_eq_true]
    intro key hk
    obtain ⟨value, hc⟩ := hkey (AList.mem_keys.2 hk)
    have hvalue := (shows_toLine hcols.nodup (hf.rows row hrow)).values _ (hsub hc)
    have hdict := lookup_dict hnodup hc ∅
    rw [beq_iff_eq]
    exact hvalue.trans (congrArg some hdict.symm)
  rw [search_eq hlines]
  refine ⟨List.mem_filter.2 ⟨hmem, hsat⟩, ?_⟩
  rw [if_pos (List.any_eq_true.2 ⟨_, hmem, hsat⟩)]

/-! ## Inserting -/

/-- The argument of an insertion. -/
def rowArg (fields : List Text) : Text := '(' :: [','].intercalate fields ++ [')']

/-- The argument is in parentheses, so it is split. -/
theorem insertTokens_rowArg (t : TableName) (f : File) (fields : List Text) :
    insertTokens t f [rowArg fields] = checkTokens t f (([','].intercalate fields).splitOn ',') := by
  have hlast : (rowArg fields).getLast? = some ')' := List.getLast?_concat
  have hword : (rowArg fields).tail.dropLast = [','].intercalate fields := List.dropLast_concat
  rw [insertTokens, hlast, hword]
  rfl

/-- A new row without commas is accepted as it is. -/
theorem insertTokens_accepted (hf : Keyed t f) {fields : List Text} (hlen : fields.length = t.entries)
    (hid : ∀ row ∈ f.rows, lower (rowId row) ≠ lower (rowId fields)) (hcomma : ∀ v ∈ fields, ',' ∉ v) :
    insertTokens t f [rowArg fields] = .ok fields := by
  have hne : fields ≠ [] := by
    rintro rfl
    cases t <;> cases hlen
  have hfresh : (f.rows.any fun row => lower (rowId row) == lower (rowId fields)) = false := by
    rw [List.any_eq_false]
    intro row hrow
    simpa using hid row hrow
  have hrep : repeatItem (fields.headD []) t.idColumn f.lines = .ok false := by
    rw [hf.repeatItem]
    exact congrArg Except.ok hfresh
  rw [insertTokens_rowArg, List.splitOn_intercalate ',' hcomma hne, checkTokens, if_neg (not_ne_iff.2 hlen), hrep]

/-- A row with a comma has too many entries. -/
theorem insertTokens_refused {fields : List Text} (hlen : fields.length = t.entries) {v : Text} (hv : v ∈ fields)
    (hcomma : ',' ∈ v) : insertTokens t f [rowArg fields] = .error (.exit t.entriesMessage) := by
  have hpos : 0 < v.count ',' := List.count_pos_iff.2 hcomma
  have hle : v.count ',' ≤ (fields.map (List.count ',')).sum :=
    List.single_le_sum (by simp) _ (List.mem_map_of_mem hv)
  have hsplit := length_splitOn_intercalate ',' (List.ne_nil_of_mem hv)
  rw [insertTokens_rowArg, checkTokens, if_pos (by omega)]

theorem parse_insert : Operation.parse "insert".toList = some .insert := by decide

theorem parse_find : Operation.parse "find".toList = some .find := by decide

theorem parse_name (t : TableName) : TableName.parse t.name = some t := by cases t <;> decide

/-- The files of an accepted insertion. -/
theorem hw1a_insert {files : Files} {fields : List Text}
    (h : insertTokens t (files t) [rowArg fields] = .ok fields) :
    hw1a O files ["insert".toList, t.name, rowArg fields] =
      ⟨[], .done, Function.update files t (files t ++ [fields])⟩ := by
  rw [hw1a, parse_insert, parse_name]
  simp only [insert, h]

theorem hw1a_insert_refused {files : Files} {fields : List Text} {e : Ending}
    (h : insertTokens t (files t) [rowArg fields] = .error e) :
    hw1a O files ["insert".toList, t.name, rowArg fields] = ⟨[], e, files⟩ := by
  rw [hw1a, parse_insert, parse_name]
  simp only [insert, h]

theorem hw1a_find {files : Files} {conditions : List (Text × Text)} (hne : conditions ≠ [])
    (h : ∀ c ∈ conditions, '=' ∉ c.1) :
    hw1a O files ("find".toList :: t.name :: termArgs conditions) =
      ⟨(search O (dict ∅ conditions) (files t)).1, (search O (dict ∅ conditions) (files t)).2, files⟩ := by
  have hterms := findTerms_termArgs h ∅
  obtain ⟨arg, args, hargs⟩ : ∃ arg args, termArgs conditions = arg :: args := exists_termArgs hne
  rw [hargs] at hterms ⊢
  rw [hw1a, parse_find, parse_name]
  simp only [find, hterms]

/-- **What is inserted can be found**, if and only if no field contains a comma: from every
pair of files that the program can reach, a row with a new id is accepted, and a search
for any of its columns, with its own values, prints it. -/
theorem inserted_found_iff (O : KeyOrder) (start : Files) (h : ∀ t, Keyed t (start t))
    (hcols : ∀ t, Columns (start t)) (invocations : List (List Text)) (t : TableName) (fields : List Text)
    (hlen : fields.length = t.entries)
    (hid : ∀ row ∈ (run O invocations start t).rows, lower (rowId row) ≠ lower (rowId fields)) :
    let files := run O invocations start
    let inserted := hw1a O files ["insert".toList, t.name, rowArg fields]
    (inserted.ending = .done ∧ ∀ conditions : List (Text × Text), conditions ≠ [] →
        (conditions.map Prod.fst).Nodup → conditions ⊆ (files t).header.zip fields →
        let found := hw1a O inserted.files ("find".toList :: t.name :: termArgs conditions)
        found.ending = .done ∧ ∃ line ∈ found.printed, Shows (files t).header fields line) ↔
      ∀ v ∈ fields, ',' ∉ v := by
  intro files inserted
  obtain ⟨hf, hpre⟩ := keyed_run (O := O) h invocations t
  have hcols' : Columns (files t) := (hcols t).of_header (header_grown hpre (h t).ne_nil)
  constructor
  · rintro ⟨hdone, -⟩ v hv hcomma
    have hr : inserted = ⟨[], .exit t.entriesMessage, files⟩ :=
      hw1a_insert_refused (insertTokens_refused hlen hv hcomma)
    rw [hr] at hdone
    cases hdone
  · intro hcomma
    have hacc := insertTokens_accepted hf hlen hid hcomma
    have hr : inserted = ⟨[], .done, Function.update files t (files t ++ [fields])⟩ := hw1a_insert hacc
    rw [hr]
    refine ⟨rfl, ?_⟩
    intro conditions hne hnodup hsub
    -- the file with the row is keyed, with the same header
    obtain ⟨hlen', hrep⟩ := insertTokens_ok hacc
    have hf' : Keyed t (files t ++ [fields]) := hf.append hlen' hrep
    have hheader : File.header (files t ++ [fields]) = (files t).header :=
      header_grown (List.prefix_append _ _) hf.ne_nil
    have hrow : fields ∈ File.rows (files t ++ [fields]) := by
      obtain ⟨header, rows, hrows⟩ := List.exists_cons_of_ne_nil hf.ne_nil
      have hrows : files t = header :: rows := hrows
      rw [hrows]
      exact List.mem_append_right rows (List.mem_singleton_self fields)
    have hfound := find_row (O := O) hf' (hcols'.of_header hheader) hrow hnodup (by rwa [hheader])
    have hplain : ∀ c ∈ conditions, '=' ∉ c.1 := fun c hc => hcols'.plain _ (List.of_mem_zip (hsub hc)).1
    simp only [hw1a_find hne hplain, Function.update_self]
    rw [hheader] at hfound
    exact ⟨hfound.2, _, hfound.1, shows_toLine hcols'.nodup (hlen.trans hf.entries.symm)⟩

theorem firstCustomer_columns (t : TableName) : Columns (firstCustomer t) := by
  cases t <;> exact ⟨by decide +kernel, by decide +kernel⟩

/-- A customer with an equals sign, a quote and parentheses in its fields. -/
def bonApp : List Text :=
  ["BONAP", "Bon app'", "Laurence=Lebihan", "(Owner)", "12 rue des Bouchers", "Marseille", "", "13008", "France",
    "91.24.45.40", "91.24.45.41"].map String.toList

/-- It is found by its name and its title. -/
theorem inserted_found_bonApp :
    let inserted := hw1a insertionOrder (run insertionOrder [] firstCustomer)
      ["insert".toList, "customer".toList, rowArg bonApp]
    let found := hw1a insertionOrder inserted.files
      ["find".toList, "customer".toList, "ContactName=Laurence=Lebihan,".toList, "ContactTitle=(Owner)".toList]
    ∃ line ∈ found.printed, Shows (fieldnames .customer) bonApp line :=
  (((inserted_found_iff insertionOrder firstCustomer firstCustomer_keyed firstCustomer_columns [] .customer bonApp
    (by decide +kernel) (by decide +kernel)).2 (by decide +kernel)).2
    [("ContactName".toList, "Laurence=Lebihan".toList), ("ContactTitle".toList, "(Owner)".toList)]
    (by decide +kernel) (by decide +kernel) (by decide +kernel)).2

/-- A customer with a comma in the address. -/
def commaAddress : List Text :=
  ["BONAP", "Bon app'", "Laurence Lebihan", "Owner", "12, rue des Bouchers", "Marseille", "", "13008", "France",
    "91.24.45.40", "91.24.45.41"].map String.toList

/-- It has the right number of fields and a new id, and is refused. -/
theorem comma_refused :
    commaAddress.length = TableName.entries .customer ∧
      (∀ row ∈ (firstCustomer .customer).rows, lower (rowId row) ≠ lower (rowId commaAddress)) ∧
      (hw1a insertionOrder firstCustomer ["insert".toList, "customer".toList, rowArg commaAddress]).ending =
        .exit "The customer table requires 11 entries ".toList := by
  refine ⟨?_, ?_, ?_⟩ <;> decide +kernel

end Coms4111.Csv
