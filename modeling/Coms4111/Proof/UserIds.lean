import Coms4111.Spec.Staff

/-!
# The ids of employees

Every name, first and last joined by a dot, has its own count of ids. The count lives in
a table of its own, so it does not go down when employees are deleted or renamed, and a
refused insertion takes its count back.

* `insertEmployee_ok`, `setEmployee_ok`: what the statements do to ids and counts.
* `History`: the tables with all `INSERT`s accepted so far, and for every live row the one it
  comes from.
* `user_ids_numbered`: along every run, the accepted `INSERT`s of a name store one row each, with
  ids that are numbered `1, 2, ...` up to its count; no two ids compare equal, and live rows keep
  their ids and their times.
-/

namespace Coms4111.Staff

open Sql

variable {C : Collation} {s s' : State C}

/-! ## Counts -/

theorem maxValue_congr {p q : Text} (h : C.eq p q = true) : s.maxValue (some p) = s.maxValue (some q) := by
  have hf : (fun r : PrefixCount => C.eqN (some r.prefixName) (some p)) =
      fun r => C.eqN (some r.prefixName) (some q) := by
    funext r
    show C.eq r.prefixName p = C.eq r.prefixName q
    rw [Collation.eq_symm, Collation.eq_congr h, Collation.eq_symm]
  unfold State.maxValue; rw [hf]

theorem existed_eq_false {p : Option Text} (h : s.existed p = false) : s.maxValue p = none := by
  unfold State.maxValue
  rw [List.find?_eq_none.2, Option.map_none]
  intro r hr
  unfold State.existed at h
  rw [List.any_eq_false] at h
  exact h r hr

/-- The count of the name `p` becomes `n`, and nothing else changes. -/
structure Counted (s s' : State C) (p : Text) (n : ℕ) : Prop where
  employee : s'.employee = s.employee
  maxValue : ∀ q, s'.maxValue (some q) = if C.eq p q then some n else s.maxValue (some q)

/-- A row of `user_prefix_count` after the trigger's `UPDATE`. -/
def recounted (C : Collation) (p : Text) (n : ℕ) (r : PrefixCount) : PrefixCount :=
  if C.eqN (some r.prefixName) (some p) then { r with maxValue := n } else r

theorem recounted_prefixName (p : Text) (n : ℕ) (r : PrefixCount) :
    (recounted C p n r).prefixName = r.prefixName := by
  unfold recounted; split <;> rfl

theorem updateCount_ok {p : Text} {n m : ℕ} (hm : s.maxValue (some p) = some m)
    (h : updateCount (some p) (some n) s = .ok s') : Counted s s' p n := by
  obtain ⟨T, hT, hrows⟩ := Table.update_eq_ok (T := s.userPrefixCount)
    (p := fun r => C.eqN (some r.prefixName) (some p))
    (f := fun r => do return { r with maxValue := ← notNull "max_value" (some n) })
    (g := fun r => { r with maxValue := n }) (fun _ _ _ => rfl) (fun _ _ _ _ => rfl)
  unfold updateCount at h
  rw [hT] at h
  cases h
  refine ⟨rfl, fun q => ?_⟩
  -- no row changes its name, so the row that is found is the same one
  have hcomp : (fun r : PrefixCount => C.eqN (some r.prefixName) (some q)) ∘ recounted C p n =
      fun r => C.eqN (some r.prefixName) (some q) := by
    funext r
    rw [Function.comp_apply, recounted_prefixName]
  have hfind : (State.mk s.employee T).maxValue (some q) =
      (s.userPrefixCount.rows.find? fun r => C.eqN (some r.prefixName) (some q)).map fun r =>
        (recounted C p n r).maxValue := by
    have hrows : T.rows = s.userPrefixCount.rows.map (recounted C p n) := hrows
    unfold State.maxValue
    simp only [hrows]
    rw [List.find?_map, hcomp, Option.map_map]
    rfl
  rw [hfind]
  cases hr : s.userPrefixCount.rows.find? fun r => C.eqN (some r.prefixName) (some q) with
  | none =>
    have hq : s.maxValue (some q) = none := by unfold State.maxValue; rw [hr]; rfl
    rw [if_neg, hq]
    · rfl
    · intro he; rw [maxValue_congr he, hq] at hm; cases hm
  | some r =>
    have hrq : C.eq r.prefixName q = true := List.find?_some (p := fun r : PrefixCount => C.eq r.prefixName q) hr
    have hrp : C.eqN (some r.prefixName) (some p) = C.eq p q := by
      show C.eq r.prefixName p = _
      rw [Collation.eq_congr hrq, Collation.eq_symm]
    have hq : s.maxValue (some q) = some r.maxValue := by unfold State.maxValue; rw [hr]; rfl
    rw [hq, Option.map_some]
    unfold recounted
    rw [hrp]
    split <;> rfl

theorem insertCount_ok {p : Text} (hm : s.maxValue (some p) = none) (h : insertCount (some p) s = .ok s') :
    Counted s s' p 1 := by
  unfold insertCount at h
  simp only [bind_eq_ok, notNull_eq_ok] at h
  obtain ⟨_, hp, T, hT, h⟩ := h
  cases hp
  cases h
  refine ⟨rfl, fun q => ?_⟩
  have hfind : (State.mk s.employee T).maxValue (some q) =
      (s.maxValue (some q)).or (if C.eq p q then some 1 else none) := by
    unfold State.maxValue
    simp only [(Table.insert_ok hT).1]
    rw [List.find?_append, Option.map_or, List.find?_singleton]
    congr 1
    show Option.map _ (if C.eq p q then _ else _) = _
    split <;> rfl
  rw [hfind]
  split
  · rename_i he
    rw [← maxValue_congr he, hm]; rfl
  · rw [Option.or_none]

/-! ## What the statements do -/

/-- The number is the next one, and it is written down. -/
theorem nextCount_ok {p : Text} {n : ℕ}
    (h : (nextCount (some p) (s.existed (some p))).run s = (.ok (some n), s')) :
    n = (s.maxValue (some p)).getD 0 + 1 ∧ n < 2 ^ 31 ∧ Counted s s' p n := by
  unfold nextCount at h
  split at h
  · simp only [Proc.run_bind_ok, Proc.run_query_ok] at h
    obtain ⟨count, _, ⟨hint, rfl⟩, _, s₁, hup, hret⟩ := h
    cases hret
    obtain ⟨m', hm', hint⟩ := mapM_eq_ok_some.1 hint
    obtain ⟨m, hm, rfl⟩ := Option.map_eq_some_iff.1 hm'
    obtain ⟨hlt, rfl⟩ := int_eq_ok.1 hint
    exact ⟨by rw [hm]; rfl, hlt, updateCount_ok hm (Proc.run_exec_ok.1 hup)⟩
  · rename_i hno
    obtain ⟨_, s₁, hin, hret⟩ := Proc.run_bind_ok.1 h
    cases hret
    have hm := existed_eq_false (Bool.eq_false_iff.2 hno)
    exact ⟨by rw [hm]; rfl, by decide, insertCount_ok hm (Proc.run_exec_ok.1 hin)⟩

/-- **The trigger on insertions**: the id is the name with the next number. -/
theorem triggerInsertEmployee_ok {firstName lastName : Option Text} {u : Text}
    (h : (triggerInsertEmployee firstName lastName).run s = (.ok (some u), s')) :
    ∃ f l n, firstName = some f ∧ lastName = some l ∧ n = (s.maxValue (some (concatName f l))).getD 0 + 1 ∧
      u = concatUserId f l n ∧ Counted s s' (concatName f l) n := by
  unfold triggerInsertEmployee at h
  simp only [Proc.run_bind_ok, Proc.run_value_ok, Proc.run_query_ok] at h
  obtain ⟨name, _, ⟨hname, rfl⟩, existed, _, ⟨hex, rfl⟩, count, s₁, hcount, huser, rfl⟩ := h
  cases hex
  obtain ⟨w, hw, hvar⟩ := mapM_eq_ok_some.1 huser
  -- neither the names nor the number is `NULL`
  match firstName, lastName, count, hw with
  | some f, some l, some n, hw =>
    have hw : concatUserId f l n = w := Option.some.inj hw
    rw [← hw] at hvar
    obtain ⟨hlen, rfl⟩ := varchar_numeral.1 hvar
    -- the name is shorter than the id, so it is not cut
    have hname : name = some (concatName f l) := by
      obtain ⟨hn, -⟩ | ⟨v, v', hv, hvar', rfl⟩ := mapM_eq_ok.1 hname
      · cases hn
      · cases hv
        rw [varchar_of_le] at hvar'
        · cases hvar'; rfl
        · simp only [List.length_append, List.length_singleton] at hlen; omega
    subst hname
    obtain ⟨hn, -, hcounted⟩ := nextCount_ok hcount
    exact ⟨f, l, n, rfl, rfl, hn, rfl, hcounted⟩

/-- A text as a `varchar(32)` column stores it that accepts it. -/
def column (t : Option Text) : Text := (t.getD []).take 32

theorem column_eq {t : Option Text} {col : String} {u : Text} (h : t.mapM (varchar 32 col) = .ok (some u)) :
    t ≠ none ∧ column t = u := by
  obtain ⟨v, rfl, hvar⟩ := mapM_eq_ok_some.1 h
  refine ⟨Option.some_ne_none v, ?_⟩
  unfold varchar at hvar
  split at hvar
  · rename_i hle
    cases hvar
    exact List.take_of_length_le hle
  · split at hvar
    · cases hvar
      rfl
    · cases hvar

/-- **An accepted insertion**: one row at the end, with the names and the email that it was given
and the next number of the name. -/
theorem insertEmployee_ok {now : Datetime} {v : Values} (h : (insertEmployee now v).atomic s = .ok s') :
    ∃ f l e n, (v.firstName ≠ none ∧ v.lastName ≠ none ∧ v.email ≠ none) ∧
      (column v.firstName = f ∧ column v.lastName = l ∧ column v.email = e) ∧
      n = (s.maxValue (some (concatName f l))).getD 0 + 1 ∧
      s'.employee.rows = s.employee.rows ++ [⟨concatUserId f l n, f, l, e, some now⟩] ∧
      ∀ q, s'.maxValue (some q) = if C.eq (concatName f l) q then some n else s.maxValue (some q) := by
  obtain ⟨_, hrun⟩ := Proc.atomic_eq_ok.1 h
  unfold insertEmployee at hrun
  simp only [Proc.run_bind_ok, Proc.run_value_ok] at hrun
  obtain ⟨_, _, ⟨-, rfl⟩, firstName, _, ⟨hfirst, rfl⟩, lastName, _, ⟨hlast, rfl⟩, email, _,
    ⟨hemail, rfl⟩, userId, s₁, htrig, hins⟩ := hrun
  rw [Proc.run_exec_ok] at hins
  simp only [bind_eq_ok, notNull_eq_ok] at hins
  obtain ⟨u, rfl, f, rfl, l, rfl, e, rfl, T, hT, hs'⟩ := hins
  cases hs'
  obtain ⟨_, _, n, hf, hl, hn, rfl, hcount⟩ := triggerInsertEmployee_ok htrig
  cases hf
  cases hl
  obtain ⟨hgiven, hfirst⟩ := column_eq hfirst
  obtain ⟨hgiven', hlast⟩ := column_eq hlast
  obtain ⟨hgiven'', hemail⟩ := column_eq hemail
  exact ⟨f, l, e, n, ⟨hgiven, hgiven', hgiven''⟩, ⟨hfirst, hlast, hemail⟩, hn,
    by rw [(Table.insert_ok hT).1, hcount.employee], hcount.maxValue⟩

/-- **The trigger on updates**: a row keeps its id and its time. -/
theorem setEmployee_ok {set : Employee → Values} {old new : Employee} (h : setEmployee C set old = .ok new) :
    C.eq new.userId old.userId = true ∧ new.created = old.created := by
  unfold setEmployee triggerUpdateEmployee at h
  simp only [bind_eq_ok, notNull_eq_ok, signalIf_eq_ok] at h
  obtain ⟨userId, -, firstName, -, lastName, -, email, -, v, ⟨_, hsig, hv⟩, u, hu, f, -, l, -, e, -, hnew⟩ := h
  cases hv
  cases hnew
  cases hu
  simpa using hsig

/-! ## Histories -/

/-- An `INSERT` that was accepted: when, the values that it was given, and the rows that the
table has behind those it had before. -/
structure Issue where
  now : Datetime
  values : Values
  rows : List Employee
  deriving DecidableEq

namespace Issue

def firstName (i : Issue) : Text := column i.values.firstName

def lastName (i : Issue) : Text := column i.values.lastName

def email (i : Issue) : Text := column i.values.email

/-- The first and the last name that the `INSERT` was given. -/
def name (i : Issue) : Text := concatName i.firstName i.lastName

/-- The row that the `INSERT` asks for, with the number `n`. -/
def row (i : Issue) (n : ℕ) : Employee :=
  ⟨concatUserId i.firstName i.lastName n, i.firstName, i.lastName, i.email, some i.now⟩

end Issue

/-- The tables, all `INSERT`s that were accepted, and the one that each live row comes
from. -/
structure History (C : Collation) where
  tables : State C
  issued : List Issue
  origins : List Issue

def History.start : History C := ⟨.empty, [], []⟩

/-- The `INSERT`s that the rows left by a deletion come from. -/
def History.left (h : History C) (p : Employee → Bool) : List Issue :=
  ((h.tables.employee.rows.zip h.origins).filter fun x => !p x.1).map Prod.snd

/-- A statement, with the record of what it did. An accepted `INSERT` is recorded whatever it has
stored; an update leaves every row in its place. -/
def History.step (h : History C) (o : Op) : History C :=
  match o.exec h.tables with
  | .error _ => h
  | .ok s' => match o with
    | .insert now v =>
      let i : Issue := ⟨now, v, s'.employee.rows.drop h.tables.employee.rows.length⟩
      ⟨s', h.issued ++ [i], h.origins ++ [i]⟩
    | .update _ _ => ⟨s', h.issued, h.origins⟩
    | .delete p => ⟨s', h.issued, h.left p⟩

/-- The history of a run from empty tables. -/
def history (C : Collation) (ops : List Op) : History C := ops.foldl History.step .start

/-- The accepted `INSERT`s of the name `p`, in order. -/
def History.issuesOf (h : History C) (p : Text) : List Issue := h.issued.filter fun i => C.eq i.name p

/-- **Ids are numbered without gaps or reuse.** The accepted `INSERT`s of a name have stored one row
each, with their own values and the numbers `1, 2, ...`. -/
structure Numbered (h : History C) : Prop where
  given : ∀ i ∈ h.issued, i.values.firstName ≠ none ∧ i.values.lastName ≠ none ∧ i.values.email ≠ none
  numbers : ∀ p, (h.issuesOf p).map Issue.rows = (h.issuesOf p).mapIdx fun j i => [i.row (j + 1)]
  count : ∀ p, h.tables.maxValue (some p) = if h.issuesOf p = [] then none else some (h.issuesOf p).length
  distinct : h.issued.Pairwise fun i j => ∀ e ∈ i.rows, ∀ e' ∈ j.rows, C.eq e.userId e'.userId = false
  origins : h.origins.Sublist h.issued
  live : List.Forall₂ (fun e i => ∃ old ∈ i.rows, C.eq e.userId old.userId = true ∧ e.created = some i.now)
    h.tables.employee.rows h.origins

/-- Two ids are equal only if the names are equal and the numbers are. -/
theorem concatUserId_inj {f l f' l' : Text} {n m : ℕ}
    (h : C.eq (concatUserId f l n) (concatUserId f' l' m) = true) :
    C.eq (concatName f l) (concatName f' l') = true ∧ n = m := by
  -- the dot before the number is not a digit
  have hdot : ∀ (t : Text) (hne : t ++ ['.'] ≠ []), ((t ++ ['.']).getLast hne).isDigit = false := by
    intro t hne; rw [List.getLast_append_singleton]; decide
  obtain ⟨hw, hn⟩ := numeral_inj (hdot _) (hdot _) h
  rw [List.map_append, List.map_append] at hw
  have hname := List.append_cancel_right hw
  refine ⟨?_, hn⟩
  rw [Collation.eq_iff]; unfold Collation.key; rw [hname]

/-- The number that the next insertion with this name is given. -/
theorem Numbered.next {h : History C} (hh : Numbered h) (p : Text) :
    (h.tables.maxValue (some p)).getD 0 = (h.issuesOf p).length := by
  rw [hh.count p]
  split
  · rename_i he; rw [he]; rfl
  · rfl

theorem issuesOf_congr (h : History C) {p q : Text} (he : C.eq p q = true) : h.issuesOf p = h.issuesOf q := by
  unfold History.issuesOf
  congr 1
  funext i
  rw [Collation.eq_symm, Collation.eq_congr he, Collation.eq_symm]

/-- Every accepted `INSERT` has a number up to the count of its name. -/
theorem Numbered.number {h : History C} (hh : Numbered h) {i : Issue} (hi : i ∈ h.issued) :
    ∃ k < (h.issuesOf i.name).length, i.rows = [i.row (k + 1)] := by
  have hmem : i ∈ h.issuesOf i.name := List.mem_filter.2 ⟨hi, Collation.eq_self _⟩
  obtain ⟨k, hk, hik⟩ := List.getElem_of_mem hmem
  have hnum := congrArg (fun l => l[k]?) (hh.numbers i.name)
  simp only [List.getElem?_map, List.getElem?_mapIdx, List.getElem?_eq_getElem hk, Option.map_some, hik] at hnum
  exact ⟨k, hk, Option.some.inj hnum⟩

/-- An accepted insertion. -/
theorem Numbered.insert {h : History C} (hh : Numbered h) {s' : State C} {i : Issue} {n : ℕ}
    (hgiven : i.values.firstName ≠ none ∧ i.values.lastName ≠ none ∧ i.values.email ≠ none)
    (hstored : i.rows = [i.row n]) (hn : n = (h.tables.maxValue (some i.name)).getD 0 + 1)
    (hrows : s'.employee.rows = h.tables.employee.rows ++ [i.row n])
    (hcount : ∀ q, s'.maxValue (some q) = if C.eq i.name q then some n else h.tables.maxValue (some q)) :
    Numbered ⟨s', h.issued ++ [i], h.origins ++ [i]⟩ := by
  rw [hh.next] at hn
  have hissues : ∀ p, History.issuesOf ⟨s', h.issued ++ [i], h.origins ++ [i]⟩ p =
      h.issuesOf p ++ if C.eq i.name p then [i] else [] := by
    intro p
    unfold History.issuesOf
    rw [List.filter_append, List.filter_singleton]
    cases C.eq i.name p <;> rfl
  have hlen : ∀ p, C.eq i.name p = true → (h.issuesOf p).length + 1 = n := by
    intro p hp; rw [hn, issuesOf_congr h hp]
  refine ⟨fun j hj => ?_, fun p => ?_, fun p => ?_, ?_, hh.origins.append (List.Sublist.refl _), ?_⟩
  · rcases List.mem_append.1 hj with hj | hj
    · exact hh.given j hj
    · rw [List.mem_singleton.1 hj]
      exact hgiven
  · rw [hissues]
    split
    · rename_i hp
      rw [List.map_append, hh.numbers p, List.mapIdx_concat, hlen p hp, List.map_singleton, hstored]
    · rw [List.append_nil]; exact hh.numbers p
  · rw [hissues, hcount p]
    split
    · rename_i hp
      rw [if_neg (by simp), List.length_append, List.length_singleton, hlen p hp]
    · rw [List.append_nil]; exact hh.count p
  · -- an old id of the same name has a smaller number
    refine List.pairwise_append.2 ⟨hh.distinct, List.pairwise_singleton _ _, fun j hj i' hi' => ?_⟩
    rw [List.mem_singleton] at hi'
    subst hi'
    obtain ⟨k, hk, hjrow⟩ := hh.number hj
    intro e he e' he'
    rw [hjrow, List.mem_singleton] at he
    rw [hstored, List.mem_singleton] at he'
    subst he he'
    rw [Bool.eq_false_iff]
    intro heq
    obtain ⟨hname, hkn⟩ := concatUserId_inj heq
    have hsame : h.issuesOf j.name = h.issuesOf i'.name := issuesOf_congr h hname
    rw [hsame] at hk
    omega
  · show List.Forall₂ _ s'.employee.rows _
    rw [hrows]
    refine List.rel_append hh.live (.cons ⟨i.row n, ?_, Collation.eq_self _, rfl⟩ .nil)
    rw [hstored]
    exact List.mem_singleton_self _

/-- An accepted update. -/
theorem Numbered.update {h : History C} (hh : Numbered h) {p : Employee → Bool} {set : Employee → Values}
    {s' : State C} (hs : updateEmployee p set h.tables = .ok s') : Numbered ⟨s', h.issued, h.origins⟩ := by
  unfold updateEmployee at hs
  obtain ⟨T, hT, hs⟩ := bind_eq_ok.1 hs
  cases hs
  refine ⟨hh.given, hh.numbers, hh.count, hh.distinct, hh.origins, ?_⟩
  refine forall₂_follow (fun old new i hup hlive => ?_) (Table.update_rows hT) hh.live
  unfold Table.Updated at hup
  split at hup
  · obtain ⟨hid, hcreated⟩ := setEmployee_ok hup
    obtain ⟨row, hrow, hsame, hnow⟩ := hlive
    exact ⟨row, hrow, (Collation.eq_congr hid _).trans hsame, hcreated.trans hnow⟩
  · rw [hup]; exact hlive

/-- A deletion. -/
theorem Numbered.delete {h : History C} (hh : Numbered h) (p : Employee → Bool) :
    Numbered ⟨deleteEmployee p h.tables, h.issued, h.left p⟩ := by
  -- ids and counts are not touched, and the rest stays in order
  obtain ⟨hlive, hsub⟩ := forall₂_filter (fun e => !p e) hh.live
  exact ⟨hh.given, hh.numbers, hh.count, hh.distinct, hsub.trans hh.origins, hlive⟩

/-- **One statement.** -/
theorem Numbered.step {h : History C} (hh : Numbered h) (o : Op) : Numbered (h.step o) := by
  unfold History.step
  split
  · exact hh
  · rename_i s' hs
    cases o with
    | insert now v =>
      obtain ⟨f, l, e, n, hgiven, ⟨rfl, rfl, rfl⟩, hn, hrows, hcount⟩ := insertEmployee_ok hs
      simp only [hrows, List.drop_left]
      exact hh.insert hgiven rfl hn hrows hcount
    | update p set => exact hh.update hs
    | delete p => cases hs; exact hh.delete p

theorem numbered_start : Numbered (History.start : History C) :=
  ⟨fun _ hi => absurd hi List.not_mem_nil, fun _ => rfl, fun _ => rfl, List.Pairwise.nil, List.Sublist.refl _,
    List.Forall₂.nil⟩

theorem step_tables (h : History C) (o : Op) : (h.step o).tables = o.run h.tables := by
  unfold History.step Op.run
  split
  · rename_i hs; rw [hs]
  · rename_i hs; rw [hs]; cases o <;> rfl

theorem history_tables (C : Collation) (ops : List Op) : (history C ops).tables = run ops .empty :=
  (List.foldl_hom History.tables fun h o => (step_tables h o).symm).symm

theorem numbered_history (C : Collation) (ops : List Op) : Numbered (history C ops) :=
  List.foldlRecOn ops History.step numbered_start fun _ hh o _ => hh.step o

/-- **The ids of employees are numbered** along every run from empty tables. -/
theorem user_ids_numbered (C : Collation) (ops : List Op) :
    (history C ops).tables = run ops .empty ∧ Numbered (history C ops) :=
  ⟨history_tables C ops, numbered_history C ops⟩

/-- Namesakes, as in the fifth test of `ec1_test.sql`: the second one is deleted, and the
next insertion does not get its number. -/
example :
    let john (email : String) : Op :=
      .insert 0 ⟨none, some "John".toList, some "Smith".toList, some email.toList, none⟩
    ((run [john "js1", john "js2", .delete fun e => e.email == "js2".toList, john "js1", john "js3"]
      (State.empty : State asciiCi)).employee.rows.map Employee.userId) =
      ["John.Smith.1".toList, "John.Smith.3".toList] := by
  decide +kernel

end Coms4111.Staff
