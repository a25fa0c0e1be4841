import Coms4111.Proof.CsvRoundTrip

/-!
# What a search prints

The conditions of a `find` go into a dictionary, so that of two conditions on one column
only the later one counts. The columns are tested one by one with the values, in the order
of the dictionary, so that a wrong column may never be looked at.

* `find_prints_matches_iff`: a search prints the conjunction of its conditions, **unless** a
  column is given two values and some row has the last ones.
* `wrong_column_reported_iff`: a wrong column is reported whatever the order of the
  dictionary, **exactly if** some row has the values of all other conditions.
-/

namespace Coms4111.Csv

open Sql (Text)

variable {f : File} {d : Dict} {header row : List Text} {conditions : List (Text × Text)}

/-! ## Conditions as they are written -/

/-- The data rows of a file. -/
def File.data (f : File) : List (List Text) := f.rows.filter (· ≠ [])

/-- The conditions, as they stand on the command line. -/
def written : List Text → List (Text × Text)
  | [] => []
  | [last] => (splitEq last).toList
  | arg :: args => (splitEq arg.dropLast).toList ++ written args

/-- What the parser accepts, it puts into the dictionary. -/
theorem findTerms_written {args : List Text} : ∀ {d d' : Dict}, findTerms d args = .ok d' →
    d' = dict d (written args) := by
  induction args with
  | nil =>
    intro d d' h
    cases h
    rfl
  | cons arg args ih =>
    intro d d' h
    rcases args with _ | ⟨arg', args⟩
    · simp only [findTerms] at h
      cases hsplit : splitEq arg with
      | none => rw [hsplit] at h; cases h
      | some c =>
        rw [hsplit] at h
        cases h
        simp [written, hsplit, dict]
    · rw [findTerms] at h
      · cases hlast : arg.getLast? with
        | none => rw [hlast] at h; cases h
        | some c =>
          rw [hlast] at h
          simp only at h
          split at h
          · cases h
          cases hsplit : splitEq arg.dropLast with
          | none => rw [hsplit] at h; cases h
          | some c =>
            rw [hsplit] at h
            have hrest := ih h
            rw [hrest]
            simp [written, hsplit, dict]
      · exact List.cons_ne_nil arg' args

/-- The conditions that no later one on their column overwrites. -/
def lastWritten : List (Text × Text) → List (Text × Text)
  | [] => []
  | c :: conditions =>
    if (conditions.map Prod.fst).contains c.1 then lastWritten conditions else c :: lastWritten conditions

theorem lastWritten_subset : ∀ conditions, lastWritten conditions ⊆ conditions := by
  intro conditions
  induction conditions with
  | nil => exact List.Subset.refl _
  | cons c conditions ih =>
    unfold lastWritten
    split
    · exact fun x hx => List.mem_cons_of_mem c (ih hx)
    · exact List.cons_subset_cons c ih

/-- Every column has a last condition. -/
theorem exists_lastWritten : ∀ {conditions : List (Text × Text)} {key : Text}, key ∈ conditions.map Prod.fst →
    ∃ value, (key, value) ∈ lastWritten conditions := by
  intro conditions
  induction conditions with
  | nil => intro key h; simp at h
  | cons c conditions ih =>
    intro key hkey
    unfold lastWritten
    by_cases hlater : key ∈ conditions.map Prod.fst
    · obtain ⟨value, hmem⟩ := ih hlater
      refine ⟨value, ?_⟩
      split
      · exact hmem
      · exact List.mem_cons_of_mem _ hmem
    · have hc : key = c.1 := by
        rw [List.map_cons, List.mem_cons] at hkey
        exact hkey.resolve_right hlater
      subst hc
      rw [if_neg (mt List.contains_iff_mem.1 hlater)]
      exact ⟨c.2, List.mem_cons_self⟩

/-- The dictionary has the last conditions. -/
theorem lookup_dict_lastWritten : ∀ {conditions : List (Text × Text)} {c : Text × Text},
    c ∈ lastWritten conditions → ∀ d : Dict, (dict d conditions).lookup c.1 = some c.2 := by
  intro conditions
  induction conditions with
  | nil => intro c h; simp [lastWritten] at h
  | cons c' conditions ih =>
    intro c hc d
    unfold lastWritten at hc
    split at hc
    · exact ih hc (d.insert c'.1 c'.2)
    · rename_i hlater
      rcases List.mem_cons.1 hc with rfl | hc
      · exact (lookup_dict_of_notMem (mt List.contains_iff_mem.2 hlater) (d.insert c.1 c.2)).trans
          (AList.lookup_insert d)
      · exact ih hc (d.insert c'.1 c'.2)

/-- No column is given two different values. -/
def Consistent (conditions : List (Text × Text)) : Prop :=
  ∀ c ∈ conditions, ∀ c' ∈ conditions, c.1 = c'.1 → c.2 = c'.2

theorem Consistent.subset_lastWritten (h : Consistent conditions) : conditions ⊆ lastWritten conditions := by
  intro c hc
  obtain ⟨value, hmem⟩ := exists_lastWritten (List.mem_map_of_mem (f := Prod.fst) hc)
  have hvalue : c.2 = value := h c hc _ (lastWritten_subset _ hmem) rfl
  rw [← hvalue] at hmem
  exact hmem

/-! ## Rows -/

/-- The row has the value in the column. -/
def holds (header row : List Text) (c : Text × Text) : Bool := cell header row c.1 == some c.2

/-- The row satisfies all conditions. -/
def satisfies (header row : List Text) (conditions : List (Text × Text)) : Bool :=
  conditions.all (holds header row)

theorem satisfies_subset {cs cs' : List (Text × Text)} (hsub : cs ⊆ cs') (h : satisfies header row cs' = true) :
    satisfies header row cs = true := by
  unfold satisfies at h ⊢
  rw [List.all_eq_true] at h ⊢
  exact fun c hc => h c (hsub hc)

/-- Nothing satisfies conditions that contradict each other. -/
theorem not_satisfies_of_not_consistent (h : ¬Consistent conditions) :
    satisfies header row conditions = false := by
  rw [Bool.eq_false_iff]
  intro hsat
  refine h fun c hc c' hc' hkey => ?_
  unfold satisfies at hsat
  rw [List.all_eq_true] at hsat
  have h1 : cell header row c.1 = some c.2 := beq_iff_eq.1 (hsat c hc)
  have h2 : cell header row c'.1 = some c'.2 := beq_iff_eq.1 (hsat c' hc')
  rw [hkey, h2] at h1
  exact (Option.some.inj h1).symm

/-- A line satisfies the dictionary exactly if its row satisfies the last conditions. -/
theorem satisfies_toLine (hcols : ∀ c ∈ conditions, c.1 ∈ header) :
    (toLine header row).satisfies (dict ∅ conditions) = satisfies header row (lastWritten conditions) := by
  have hkeys : ∀ {key}, key ∈ (dict ∅ conditions).keys ↔ key ∈ conditions.map Prod.fst := by
    intro key
    rw [← AList.mem_keys, mem_dict]
    simp [AList.notMem_empty]
  have hlookup : ∀ {key}, key ∈ conditions.map Prod.fst →
      (toLine header row).fields.lookup key = some (cell header row key) := by
    intro key hkey
    obtain ⟨c, hc, rfl⟩ := List.mem_map.1 hkey
    rw [lookup_toLine, if_pos (hcols c hc)]
  unfold Line.satisfies satisfies holds
  rw [Bool.eq_iff_iff, List.all_eq_true, List.all_eq_true]
  constructor
  · intro h c hc
    have hkey : c.1 ∈ conditions.map Prod.fst := List.mem_map_of_mem (lastWritten_subset _ hc)
    have hcell := h c.1 (hkeys.2 hkey)
    rw [hlookup hkey, lookup_dict_lastWritten hc, beq_iff_eq, Option.some.injEq] at hcell
    rw [hcell, beq_iff_eq]
  · intro h key hk
    have hkey := hkeys.1 hk
    obtain ⟨value, hmem⟩ := exists_lastWritten hkey
    have hcell := beq_iff_eq.1 (h _ hmem)
    have hvalue := lookup_dict_lastWritten hmem ∅
    rw [hlookup hkey, hcell, hvalue, beq_iff_eq]

/-! ## The conjunction of the conditions -/

/-- **The result of a search for the conjunction**: the rows that satisfy every condition
are printed, each once and in the order of the file, and there is a message exactly if
there is none. -/
structure PrintsMatches (r : Result) (f : File) (conditions : List (Text × Text)) : Prop where
  printed : r.printed = (f.data.filter fun row => satisfies f.header row conditions).map (toLine f.header)
  noMatch : r.ending = .exit noMatchMessage ↔ ∀ row ∈ f.data, satisfies f.header row conditions = false

/-- A `find` whose conditions are accepted prints the rows that satisfy the last ones. -/
theorem hw1a_find_last {O : KeyOrder} {files : Files} {operation table : Text} {t : TableName} {args : List Text}
    (hop : Operation.parse operation = some .find) (ht : TableName.parse table = some t) (hne : args ≠ [])
    (hterms : findTerms ∅ args = .ok d) (hcols : ∀ c ∈ written args, c.1 ∈ (files t).header) :
    PrintsMatches (hw1a O files (operation :: table :: args)) (files t) (lastWritten (written args)) := by
  obtain ⟨arg, args, rfl⟩ := List.exists_cons_of_ne_nil hne
  have hd := findTerms_written hterms
  have hkeys : ∀ line ∈ (files t).lines, ∀ key ∈ d, key ∈ line.fields := by
    intro line hline key hkey
    obtain ⟨row, -, rfl⟩ := List.mem_map.1 hline
    rw [hd, mem_dict] at hkey
    rcases hkey with hkey | hkey
    · exact absurd hkey (AList.notMem_empty key)
    · obtain ⟨c, hc, rfl⟩ := List.mem_map.1 hkey
      exact mem_toLine.2 (hcols c hc)
  have hsat : (fun row => (toLine (files t).header row).satisfies d) =
      fun row => satisfies (files t).header row (lastWritten (written (arg :: args))) := by
    funext row
    rw [hd]
    exact satisfies_toLine hcols
  have hr : hw1a O files (operation :: table :: arg :: args) =
      ⟨(search O d (files t)).1, (search O d (files t)).2, files⟩ := by
    rw [hw1a, hop, ht]
    simp only [find, hterms]
  have hlines : (files t).lines = (files t).data.map (toLine (files t).header) := rfl
  rw [hr, search_eq hkeys, hlines, List.filter_map, List.any_map]
  simp only [Function.comp_def, hsat]
  refine ⟨rfl, ?_⟩
  have hnone :
      (∀ row ∈ (files t).data, satisfies (files t).header row (lastWritten (written (arg :: args))) = false) ↔
      ((files t).data.any fun row => satisfies (files t).header row (lastWritten (written (arg :: args)))) =
        false := by
    simp
  rw [hnone]
  show (if _ then _ else _) = _ ↔ _
  cases (files t).data.any fun row => satisfies (files t).header row (lastWritten (written (arg :: args))) with
  | true => simp
  | false => simp

/-- **A search prints the conjunction of its conditions**, if and only if no column is given
two different values, or no row has the values that were given last. -/
theorem find_prints_matches_iff (O : KeyOrder) (files : Files) (operation table : Text) (t : TableName)
    (args : List Text) (d : Dict) (hop : Operation.parse operation = some .find)
    (ht : TableName.parse table = some t) (hne : args ≠ []) (hterms : findTerms ∅ args = .ok d)
    (hcols : ∀ c ∈ written args, c.1 ∈ (files t).header) :
    PrintsMatches (hw1a O files (operation :: table :: args)) (files t) (written args) ↔
      Consistent (written args) ∨
        ∀ row ∈ (files t).data, satisfies (files t).header row (lastWritten (written args)) = false := by
  have hlast := hw1a_find_last (O := O) hop ht hne hterms hcols
  have hsub := lastWritten_subset (written args)
  constructor
  · intro h
    by_cases hc : Consistent (written args)
    · exact .inl hc
    · -- nothing is to be printed, so no row has the last values
      right
      exact hlast.noMatch.1 (h.noMatch.2 fun row _ => not_satisfies_of_not_consistent hc)
  · intro h
    have hsame : ∀ row ∈ (files t).data, satisfies (files t).header row (written args) =
        satisfies (files t).header row (lastWritten (written args)) := by
      intro row hrow
      rw [Bool.eq_iff_iff]
      refine ⟨satisfies_subset hsub, fun hsat => ?_⟩
      rcases h with hc | hno
      · exact satisfies_subset hc.subset_lastWritten hsat
      · rw [hno row hrow] at hsat
        cases hsat
    refine ⟨?_, ?_⟩
    · rw [hlast.printed, List.filter_congr hsame]
    · rw [hlast.noMatch]
      exact forall₂_congr fun row hrow => by rw [hsame row hrow]

/-- A search for a name and a city. -/
theorem find_prints_matches_berlin :
    PrintsMatches (hw1a insertionOrder firstCustomer
        ["Find".toList, "customer".toList, "City=Berlin,".toList, "Country=Germany".toList])
      (firstCustomer .customer) [("City".toList, "Berlin".toList), ("Country".toList, "Germany".toList)] :=
  (find_prints_matches_iff insertionOrder firstCustomer "Find".toList "customer".toList .customer
    ["City=Berlin,".toList, "Country=Germany".toList]
    (dict ∅ [("City".toList, "Berlin".toList), ("Country".toList, "Germany".toList)]) (by decide) (by decide)
    (by decide) (by rfl) (by decide +kernel)).2 (.inl (by unfold Consistent; decide +kernel))

/-- Two cities: the customer in the second one is printed. -/
theorem second_city_printed :
    (∃ d, findTerms ∅ ["City=Paris,".toList, "City=Berlin".toList] = .ok d) ∧
      (∀ c ∈ written ["City=Paris,".toList, "City=Berlin".toList], c.1 ∈ (firstCustomer .customer).header) ∧
      ¬PrintsMatches (hw1a insertionOrder firstCustomer
          ["find".toList, "customer".toList, "City=Paris,".toList, "City=Berlin".toList])
        (firstCustomer .customer) (written ["City=Paris,".toList, "City=Berlin".toList]) := by
  refine ⟨⟨_, rfl⟩, by decide +kernel, fun h => ?_⟩
  have hprinted := h.printed
  have hnone : ((firstCustomer .customer).data.filter fun row => satisfies (firstCustomer .customer).header row
      (written ["City=Paris,".toList, "City=Berlin".toList])) = [] := by decide +kernel
  rw [hnone, List.map_nil] at hprinted
  revert hprinted
  decide +kernel

/-! ## Wrong columns -/

/-- The message for a wrong column. -/
def invalidColumn (key : Text) : Text := "Your input column name ".toList ++ key ++
  " is not a valid column name.\nMake sure it is spelled correct and it is case sensitive!".toList

theorem invalidColumn_ne (key : Text) : invalidColumn key ≠ noMatchMessage := by
  intro h
  have hhead : (invalidColumn key).head? = noMatchMessage.head? := congrArg List.head? h
  have hy : (invalidColumn key).head? = some 'Y' := rfl
  rw [hy] at hhead
  revert hhead
  decide

/-- A column is tested, and the next key is looked at only if it has its value. -/
theorem matchLine_column (d : Dict) (row : List Text) {key : Text} (hkey : key ∈ header) (keys : List Text) :
    matchLine d (toLine header row) (key :: keys) =
      if cell header row key = d.lookup key then matchLine d (toLine header row) keys else .ok false := by
  rw [matchLine, lookup_toLine, if_pos hkey]
  simp only [ne_eq, ite_not]

theorem matchLine_noColumn (d : Dict) (row : List Text) {key : Text} (hkey : key ∉ header) (keys : List Text) :
    matchLine d (toLine header row) (key :: keys) = .error (.exit (invalidColumn key)) := by
  rw [matchLine, lookup_toLine, if_neg hkey]
  rfl

/-- A key that is no column ends the search, or is not reached. -/
theorem matchLine_wrong (d : Dict) (row : List Text) {keys : List Text} (hwrong : ∃ key ∈ keys, key ∉ header) :
    matchLine d (toLine header row) keys = .ok false ∧
        (∃ key ∈ keys, key ∈ header ∧ cell header row key ≠ d.lookup key) ∨
      ∃ key ∈ keys, key ∉ header ∧ matchLine d (toLine header row) keys = .error (.exit (invalidColumn key)) := by
  induction keys with
  | nil =>
    obtain ⟨key, hkey, -⟩ := hwrong
    cases hkey
  | cons k keys ih =>
    by_cases hk : k ∈ header
    · rw [matchLine_column d row hk]
      by_cases hv : cell header row k = d.lookup k
      · rw [if_pos hv]
        -- the wrong key is further on
        have hrest : ∃ key ∈ keys, key ∉ header := by
          obtain ⟨key, hkey, hno⟩ := hwrong
          rcases List.mem_cons.1 hkey with rfl | hkey
          · exact absurd hk hno
          · exact ⟨key, hkey, hno⟩
        rcases ih hrest with ⟨hfalse, key, hkey, hcell⟩ | ⟨key, hkey, hno, he⟩
        · exact .inl ⟨hfalse, key, List.mem_cons_of_mem _ hkey, hcell⟩
        · exact .inr ⟨key, List.mem_cons_of_mem _ hkey, hno, he⟩
      · rw [if_neg hv]
        exact .inl ⟨rfl, k, List.mem_cons_self, hk, hv⟩
    · exact .inr ⟨k, List.mem_cons_self, hk, matchLine_noColumn d row hk keys⟩

/-- The row has the values of all conditions on columns of the header. -/
def HasOthers (header : List Text) (d : Dict) (row : List Text) : Prop :=
  ∀ key ∈ d, key ∈ header → cell header row key = d.lookup key

/-- A row with the values of all other conditions ends the search with a message. -/
theorem searchLines_reports {keys : List Text} (hkeys : ∀ key ∈ keys, key ∈ d)
    (hwrong : ∃ key ∈ keys, key ∉ header) :
    ∀ {rows : List (List Text)}, (∃ row ∈ rows, HasOthers header d row) →
      ∃ key ∈ d, key ∉ header ∧
        searchLines d keys false (rows.map (toLine header)) = ([], .exit (invalidColumn key)) := by
  intro rows
  induction rows with
  | nil =>
    rintro ⟨row, hrow, -⟩
    cases hrow
  | cons r rows ih =>
    rintro ⟨row, hrow, hothers⟩
    rw [List.map_cons, searchLines]
    rcases matchLine_wrong d r hwrong with ⟨hfalse, key, hkey, hk, hcell⟩ | ⟨key, hkey, hno, he⟩
    · rw [hfalse]
      simp only
      rcases List.mem_cons.1 hrow with rfl | hrow
      · exact absurd (hothers key (hkeys key hkey) hk) hcell
      · exact ih ⟨row, hrow, hothers⟩
    · rw [he]
      exact ⟨key, hkeys key hkey, hno, rfl⟩

/-- The keys that `p` holds for come first. -/
def keysFirst (p : Text → Bool) : KeyOrder :=
  ⟨fun d => d.keys.filter p ++ d.keys.filter (fun key => !p key), fun d => List.filter_append_perm p d.keys⟩

/-- In a row without the value of a condition on a column, that column is tested before
any wrong one, if the columns come first. -/
theorem matchLine_columns {columns rest : List Text} (hcols : ∀ key ∈ columns, key ∈ header)
    (hrow : ∃ key ∈ columns, cell header row key ≠ d.lookup key) :
    matchLine d (toLine header row) (columns ++ rest) = .ok false := by
  induction columns with
  | nil =>
    obtain ⟨key, hkey, -⟩ := hrow
    cases hkey
  | cons k columns ih =>
    rw [List.cons_append, matchLine_column d row (hcols k List.mem_cons_self)]
    by_cases hv : cell header row k = d.lookup k
    · rw [if_pos hv]
      refine ih (fun key hkey => hcols key (List.mem_cons_of_mem _ hkey)) ?_
      obtain ⟨key, hkey, hcell⟩ := hrow
      rcases List.mem_cons.1 hkey with rfl | hkey
      · exact absurd hv hcell
      · exact ⟨key, hkey, hcell⟩
    · rw [if_neg hv]

theorem searchLines_columns {columns rest : List Text} (hcols : ∀ key ∈ columns, key ∈ header)
    {rows : List (List Text)} (hrows : ∀ row ∈ rows, ∃ key ∈ columns, cell header row key ≠ d.lookup key) :
    searchLines d (columns ++ rest) false (rows.map (toLine header)) = ([], .exit noMatchMessage) := by
  induction rows with
  | nil => rfl
  | cons row rows ih =>
    rw [List.map_cons, searchLines, matchLine_columns hcols (hrows row List.mem_cons_self)]
    exact ih fun r hr => hrows r (List.mem_cons_of_mem _ hr)

/-- How a search ends. -/
inductive SearchKind
  | rows
  | invalidColumn
  | noMatch
  deriving DecidableEq

def searchKind (r : List Line × Ending) : SearchKind :=
  if r.2 = .done then .rows else if r.2 = .exit noMatchMessage then .noMatch else .invalidColumn

/-- **A wrong column is reported**, in every order of the keys, and no row is printed. -/
structure ReportsColumn (f : File) (d : Dict) : Prop where
  reported : ∀ O : KeyOrder, (search O d f).1 = [] ∧
    ∃ key ∈ d, key ∉ f.header ∧ (search O d f).2 = .exit (invalidColumn key)
  sameKind : ∀ O O' : KeyOrder, searchKind (search O d f) = searchKind (search O' d f)

/-- **A wrong column is reported whatever the order**, if and only if some row has the
values of all conditions on columns of the header. -/
theorem wrong_column_reported_iff (f : File) (d : Dict) (hwrong : ∃ key ∈ d, key ∉ f.header) :
    ReportsColumn f d ↔ ∃ row ∈ f.data, HasOthers f.header d row := by
  have hlines : f.lines = f.data.map (toLine f.header) := rfl
  constructor
  · intro h
    by_contra hno
    -- with the columns first, every row is given up before a wrong column is reached
    have hrows : ∀ row ∈ f.data, ∃ key ∈ d.keys.filter (fun key => decide (key ∈ f.header)),
        cell f.header row key ≠ d.lookup key := by
      intro row hrow
      by_contra hall
      refine hno ⟨row, hrow, fun key hkey hcol => ?_⟩
      by_contra hcell
      exact hall ⟨key, List.mem_filter.2 ⟨AList.mem_keys.1 hkey, by simpa using hcol⟩, hcell⟩
    have hsearch : search (keysFirst fun key => decide (key ∈ f.header)) d f = ([], .exit noMatchMessage) := by
      unfold search
      rw [hlines]
      exact searchLines_columns (fun key hkey => by simpa using (List.mem_filter.1 hkey).2) hrows
    obtain ⟨-, key, -, -, hend⟩ := h.reported (keysFirst fun key => decide (key ∈ f.header))
    rw [hsearch] at hend
    exact invalidColumn_ne key (Ending.exit.inj hend).symm
  · intro hrow
    have hall : ∀ O : KeyOrder, ∃ key ∈ d, key ∉ f.header ∧ search O d f = ([], .exit (invalidColumn key)) := by
      intro O
      obtain ⟨key, hkey, hno⟩ := hwrong
      unfold search
      rw [hlines]
      exact searchLines_reports (fun key hkey => O.mem_keys.1 hkey) ⟨key, O.mem_keys.2 hkey, hno⟩ hrow
    refine ⟨fun O => ?_, fun O O' => ?_⟩
    · obtain ⟨key, hkey, hno, hsearch⟩ := hall O
      rw [hsearch]
      exact ⟨rfl, key, hkey, hno, rfl⟩
    · obtain ⟨key, -, -, hsearch⟩ := hall O
      obtain ⟨key', -, -, hsearch'⟩ := hall O'
      have hkind : ∀ key, searchKind ([], .exit (invalidColumn key)) = .invalidColumn := by
        intro key
        unfold searchKind
        rw [if_neg (by simp), if_neg (fun h => invalidColumn_ne key (Ending.exit.inj h))]
      rw [hsearch, hsearch', hkind, hkind]

/-- A wrong column next to a city that is there. -/
theorem wrong_column_reported_berlin :
    ReportsColumn (firstCustomer .customer)
      (dict ∅ [("City".toList, "Berlin".toList), ("Town".toList, "Berlin".toList)]) := by
  refine (wrong_column_reported_iff _ _ ⟨"Town".toList, by decide +kernel, by decide +kernel⟩).2
    ⟨_, List.mem_singleton_self _, fun key hkey => ?_⟩
  rw [AList.mem_keys] at hkey
  revert key
  decide +kernel

/-- Next to a city that is not there, it is not reported if the city is tested first. -/
theorem wrong_column_not_reported :
    (firstCustomer .customer).data ≠ [] ∧ "Town".toList ∉ (firstCustomer .customer).header ∧
      ¬ReportsColumn (firstCustomer .customer)
        (dict ∅ [("Town".toList, "Paris".toList), ("City".toList, "Paris".toList)]) := by
  have hsearch : search insertionOrder (dict ∅ [("Town".toList, "Paris".toList), ("City".toList, "Paris".toList)])
      (firstCustomer .customer) = ([], .exit noMatchMessage) := by decide +kernel
  refine ⟨by decide +kernel, by decide +kernel, fun h => ?_⟩
  obtain ⟨-, key, -, -, hend⟩ := h.reported insertionOrder
  rw [hsearch] at hend
  exact invalidColumn_ne key (Ending.exit.inj hend).symm

end Coms4111.Csv
