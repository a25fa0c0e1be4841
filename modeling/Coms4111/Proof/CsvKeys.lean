import Coms4111.Spec.Csv

/-!
# The CSV tables keep their key

A row is inserted only if no row of its table has the same id, in either case of letters,
and only with the right number of entries. Nothing else writes to a file.

* `hw1a_files`: an invocation leaves the files as they are, or it ends without a message
  and appends the row that has passed all checks.
* `Keyed`: the ids of a file are different and its rows are as long as its header.
* `tables_keep_key`: every sequence of invocations keeps this and only appends.
-/

namespace Coms4111.Csv

open Sql (Text)

variable {t : TableName} {f : File} {O : KeyOrder}

/-! ## Lines -/

section Lines

variable {header row : List Text} {key : Text}

/-- **The value that a row has in a column.** The last column of the name counts, and a row
that does not reach it has no value there. -/
def cell : List Text → List Text → Text → Option Text
  | [], _, _ => none
  | c :: header, row, column =>
    if column ∈ header then cell header row.tail column else if c = column then row.head? else none

/-- What the two loops of `toLine` make of a dictionary. -/
theorem lookup_foldl_toLine : ∀ (header row : List Text) (d : Finmap fun _ : Text => Option Text),
    ((header.drop row.length).foldl (fun d key => d.insert key none)
      ((header.zip row).foldl (fun d c => d.insert c.1 (some c.2)) d)).lookup key =
        if key ∈ header then some (cell header row key) else d.lookup key := by
  intro header
  induction header with
  | nil => intro row d; simp
  | cons c header ih =>
    intro row d
    -- the first column is written before all others
    have hstep : ((c :: header).drop row.length).foldl (fun d key => d.insert key none)
        (((c :: header).zip row).foldl (fun d c => d.insert c.1 (some c.2)) d) =
        (header.drop row.tail.length).foldl (fun d key => d.insert key none)
          ((header.zip row.tail).foldl (fun d c => d.insert c.1 (some c.2)) (d.insert c row.head?)) := by
      cases row with
      | nil => simp
      | cons v row => simp
    rw [hstep, ih]
    by_cases hmem : key ∈ header
    · rw [if_pos hmem, if_pos (List.mem_cons_of_mem _ hmem), cell, if_pos hmem]
    · by_cases hkey : key = c
      · subst hkey
        rw [if_neg hmem, if_pos List.mem_cons_self, cell, if_neg hmem, if_pos rfl, Finmap.lookup_insert]
      · have hno : key ∉ c :: header := by simp [hkey, hmem]
        rw [if_neg hmem, if_neg hno, Finmap.lookup_insert_of_ne _ hkey]

/-- **A line has the values of its row**, in the columns of the header. -/
theorem lookup_toLine (header row : List Text) (key : Text) :
    (toLine header row).fields.lookup key = if key ∈ header then some (cell header row key) else none := by
  unfold toLine
  rw [lookup_foldl_toLine, Finmap.lookup_empty]

/-- A line has the columns of the header. -/
theorem mem_toLine : key ∈ (toLine header row).fields ↔ key ∈ header := by
  rw [Finmap.mem_iff, lookup_toLine]
  by_cases hkey : key ∈ header
  · simp [hkey]
  · simp [hkey]

/-- With different names, a column has the value in its place. -/
theorem cell_of_mem_zip : ∀ {header row : List Text}, header.Nodup → ∀ c ∈ header.zip row,
    cell header row c.1 = some c.2 := by
  intro header
  induction header with
  | nil => intro row _ c hc; simp at hc
  | cons column header ih =>
    intro row hnodup c hc
    rw [List.nodup_cons] at hnodup
    rcases row with _ | ⟨v, row⟩
    · simp at hc
    rw [List.zip_cons_cons, List.mem_cons] at hc
    rcases hc with rfl | hc
    · rw [cell, if_neg hnodup.1, if_pos rfl]
      rfl
    · rw [cell, if_pos (List.of_mem_zip hc).1]
      exact ih hnodup.2 c hc

end Lines

/-! ## The key -/

/-- The id of a row, in its first column. -/
def rowId (row : List Text) : Text := row.headD []

/-- **The key of a table**: the first column of the file, and no other, has the name of the
id, all rows are as long as the header, and no two ids are equal in lower case. -/
structure Keyed (t : TableName) (f : File) : Prop where
  idColumn : f.header.head? = some t.idColumn
  once : t.idColumn ∉ f.header.tail
  entries : f.header.length = t.entries
  rows : ∀ row ∈ f.rows, row.length = f.header.length
  ids : f.rows.Pairwise fun a b => lower (rowId a) ≠ lower (rowId b)

theorem Keyed.exists_header (h : Keyed t f) :
    ∃ columns, f.header = t.idColumn :: columns ∧ t.idColumn ∉ columns := by
  obtain ⟨columns, hc⟩ := List.head?_eq_some_iff.1 h.idColumn
  have honce := h.once
  rw [hc] at honce
  exact ⟨columns, hc, honce⟩

theorem Keyed.ne_nil (h : Keyed t f) : f ≠ [] := by
  rintro rfl
  cases h.idColumn

/-- The id is read from the first column. -/
theorem Keyed.lookup_id (h : Keyed t f) {row : List Text} (hrow : row ∈ f.rows) :
    (toLine f.header row).fields.lookup t.idColumn = some (some (rowId row)) := by
  obtain ⟨columns, hheader, honce⟩ := h.exists_header
  have hlen := h.rows row hrow
  rcases row with _ | ⟨value, values⟩
  · rw [hheader] at hlen; cases hlen
  · rw [lookup_toLine, hheader, if_pos List.mem_cons_self, cell, if_neg honce, if_pos rfl]
    rfl

/-- No row is blank. -/
theorem Keyed.lines (h : Keyed t f) : f.lines = f.rows.map (toLine f.header) := by
  unfold File.lines
  rw [List.filter_eq_self.2]
  intro row hrow
  obtain ⟨columns, hheader, -⟩ := h.exists_header
  have hlen := h.rows row hrow
  rw [hheader] at hlen
  rcases row with _ | ⟨value, values⟩
  · cases hlen
  · rfl

/-- The search for the id in the lines is one in the rows. -/
theorem repeatItem_eq {header : List Text} {id tableID : Text} {rows : List (List Text)}
    (h : ∀ row ∈ rows, (toLine header row).fields.lookup tableID = some (some (rowId row))) :
    repeatItem id tableID (rows.map (toLine header)) =
      .ok (rows.any fun row => lower (rowId row) == lower id) := by
  induction rows with
  | nil => rfl
  | cons row rows ih =>
    have hrow := h row List.mem_cons_self
    have hrest := ih fun r hr => h r (List.mem_cons_of_mem _ hr)
    rw [List.map_cons, repeatItem, hrow, List.any_cons]
    by_cases he : lower (rowId row) = lower id
    · simp [he]
    · simp [he, hrest]

theorem Keyed.repeatItem (h : Keyed t f) (id : Text) :
    repeatItem id t.idColumn f.lines = .ok (f.rows.any fun row => lower (rowId row) == lower id) := by
  rw [h.lines]
  exact repeatItem_eq fun row hrow => h.lookup_id hrow

/-! ## One invocation -/

theorem checkTokens_ok {tokens tokens' : List Text} (h : checkTokens t f tokens = .ok tokens') :
    tokens' = tokens ∧ tokens.length = t.entries ∧ repeatItem (rowId tokens) t.idColumn f.lines = .ok false := by
  unfold checkTokens at h
  split at h
  · cases h
  · rename_i hlen
    split at h
    · cases h
    · cases h
    · rename_i hrep
      cases h
      exact ⟨rfl, not_ne_iff.1 hlen, hrep⟩

/-- What has passed the checks of an insertion. -/
theorem insertTokens_ok {args tokens : List Text} (h : insertTokens t f args = .ok tokens) :
    tokens.length = t.entries ∧ repeatItem (rowId tokens) t.idColumn f.lines = .ok false := by
  unfold insertTokens at h
  split at h
  · split at h
    · split at h
      · cases h
      · obtain ⟨rfl, hok⟩ := checkTokens_ok h
        exact hok
    · cases h
  · cases h

/-- The table that an invocation names. -/
def named : List Text → Option TableName
  | _ :: table :: _ => TableName.parse table
  | _ => none

/-- **One invocation**: the files stay, or a row is appended to the named table and there
is no message. -/
theorem hw1a_files (O : KeyOrder) (files : Files) (args : List Text) :
    (hw1a O files args).files = files ∨
      ∃ t tokens, named args = some t ∧ (∃ args', insertTokens t (files t) args' = .ok tokens) ∧
        (hw1a O files args).ending = .done ∧
        (hw1a O files args).files = Function.update files t (files t ++ [tokens]) := by
  unfold hw1a
  split
  · rename_i operation table arg args
    split
    · exact .inl rfl
    · exact .inl rfl
    · left
      unfold find
      split <;> rfl
    · rename_i t _ ht
      unfold insert
      split
      · exact .inl rfl
      · rename_i tokens htokens
        exact .inr ⟨t, tokens, ht, ⟨_, htokens⟩, rfl, rfl⟩
  · exact .inl rfl

/-- A row that has passed the checks keeps the key. -/
theorem Keyed.append (h : Keyed t f) {tokens : List Text} (hlen : tokens.length = t.entries)
    (hrep : Csv.repeatItem (rowId tokens) t.idColumn f.lines = .ok false) : Keyed t (f ++ [tokens]) := by
  obtain ⟨header, rows, rfl⟩ := List.exists_cons_of_ne_nil h.ne_nil
  rw [h.repeatItem, Except.ok.injEq, List.any_eq_false] at hrep
  refine ⟨h.idColumn, h.once, h.entries, ?_, ?_⟩
  · intro row hrow
    have hrow : row ∈ rows ++ [tokens] := hrow
    rw [List.mem_append, List.mem_singleton] at hrow
    rcases hrow with hrow | rfl
    · exact h.rows row hrow
    · exact hlen.trans h.entries.symm
  · show (rows ++ [tokens]).Pairwise _
    refine List.pairwise_append.2 ⟨h.ids, List.pairwise_singleton _ _, ?_⟩
    intro a ha b hb
    rw [List.mem_singleton] at hb
    subst hb
    simpa using hrep a ha

/-- One invocation keeps the key of both tables, and appends. -/
theorem keyed_step {files : Files} (h : ∀ t, Keyed t (files t)) (args : List Text) (t : TableName) :
    Keyed t ((hw1a O files args).files t) ∧ files t <+: (hw1a O files args).files t := by
  rcases hw1a_files O files args with hf | ⟨t', tokens, -, ⟨args', htokens⟩, -, hf⟩
  · rw [hf]
    exact ⟨h t, List.prefix_refl _⟩
  · rw [hf]
    by_cases ht : t = t'
    · subst ht
      rw [Function.update_self]
      obtain ⟨hlen, hrep⟩ := insertTokens_ok htokens
      exact ⟨(h t).append hlen hrep, List.prefix_append _ _⟩
    · rw [Function.update_of_ne ht]
      exact ⟨h t, List.prefix_refl _⟩

theorem keyed_run {files : Files} (h : ∀ t, Keyed t (files t)) (invocations : List (List Text)) :
    ∀ t, Keyed t (run O invocations files t) ∧ files t <+: run O invocations files t := by
  unfold run
  induction invocations generalizing files with
  | nil => intro t; exact ⟨h t, List.prefix_refl _⟩
  | cons args invocations ih =>
    intro t
    have hstep := keyed_step (O := O) h args
    obtain ⟨hkeyed, hpre⟩ := ih (fun t => (hstep t).1) t
    exact ⟨hkeyed, (hstep t).2.trans hpre⟩

/-- **The CSV tables keep their key**, through every sequence of invocations: rows stay
where they are, an invocation appends at most one, to the table it names, and one that
ends in a message or an exception appends none. -/
theorem tables_keep_key (O : KeyOrder) (start : Files) (h : ∀ t, Keyed t (start t))
    (invocations : List (List Text)) (args : List Text) :
    let files := run O invocations start
    let r := hw1a O files args
    (∀ t, Keyed t (files t) ∧ start t <+: files t) ∧
      (∀ t, r.files t = files t ∨ named args = some t ∧ ∃ row, r.files t = files t ++ [row]) ∧
      (r.ending ≠ .done → r.files = files) := by
  intro files r
  refine ⟨keyed_run h invocations, ?_, ?_⟩
  · intro t
    rcases hw1a_files O files args with hf | ⟨t', tokens, hnamed, -, -, hf⟩
    · exact .inl (congrFun hf t)
    · have hft : r.files t = Function.update files t' (files t' ++ [tokens]) t := congrFun hf t
      by_cases ht : t = t'
      · subst ht
        rw [Function.update_self] at hft
        exact .inr ⟨hnamed, tokens, hft⟩
      · rw [Function.update_of_ne ht] at hft
        exact .inl hft
  · intro hend
    rcases hw1a_files O files args with hf | ⟨t', tokens, -, -, hdone, -⟩
    · exact hf
    · exact absurd hdone hend

/-- The columns of `customers.csv` and `orders.csv`. -/
def fieldnames : TableName → List Text
  | .customer => ["CustomerID", "CompanyName", "ContactName", "ContactTitle", "Address", "City", "Region",
    "PostalCode", "Country", "Phone", "Fax"].map String.toList
  | .order => ["OrderID", "CustomerID", "EmployeeID", "OrderDate", "RequiredDate", "ShippedDate", "ShipVia",
    "Freight", "ShipName", "ShipAddress", "ShipCity", "ShipRegion", "ShipPostalCode", "ShipCountry"].map
      String.toList

/-- The two files, with the first customer. -/
def firstCustomer : Files
  | .customer => [fieldnames .customer, ["ALFKI", "Alfreds Futterkiste", "Maria Anders", "Sales Representative",
    "Obere Str. 57", "Berlin", "", "12209", "Germany", "030-0074321", "030-0076545"].map String.toList]
  | .order => [fieldnames .order]

theorem firstCustomer_keyed (t : TableName) : Keyed t (firstCustomer t) := by
  cases t <;>
    exact ⟨by decide +kernel, by decide +kernel, by decide +kernel, by decide +kernel, by decide +kernel⟩

/-- Dictionaries that list their keys from the last insertion to the first. -/
def insertionOrder : KeyOrder := ⟨AList.keys, fun _ => List.Perm.refl _⟩

/-- A second customer is inserted, and then refused in small letters. -/
theorem tables_keep_key_refused :
    let files := run insertionOrder
      [["Insert".toList, "customer".toList, "(BONAP,Bon app',,Owner,,Marseille,,13008,France,,)".toList]]
        firstCustomer
    let r := hw1a insertionOrder files ["insert".toList, "CUSTOMER".toList, "(bonap,,,,,,,,,,)".toList]
    (files .customer).length = 3 ∧ r.ending ≠ .done ∧ r.files = files :=
  ⟨by decide +kernel, by decide +kernel,
    (tables_keep_key insertionOrder firstCustomer firstCustomer_keyed _ _).2.2 (by decide +kernel)⟩

end Coms4111.Csv
