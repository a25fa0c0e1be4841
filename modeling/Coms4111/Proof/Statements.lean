import Coms4111.Spec.School

/-!
# What each statement on persons does

For every statement of the six procedures: when it is accepted, and what it leaves
behind. The two derived entities are told apart by their `Kind` only, and are seen
through the unis they hold (`State.subUnis`).

`ForeignKeys` holds in every state of the tables; each statement keeps it.
-/

namespace Coms4111.School

open Sql

variable {S : Server} {s s' : State S}

/-! ## Unis -/

theorem hasPerson_iff {u : Text} : s.hasPerson (some u) = true ↔ ∃ p ∈ s.person.rows, S.eq p.uni u = true := by
  simp [State.hasPerson, Collation.eqN_some]

theorem hasPerson_eq_false {u : Text} :
    s.hasPerson (some u) = false ↔ ∀ p ∈ s.person.rows, S.eq p.uni u = false := by
  simp [State.hasPerson, Collation.eqN_some]

theorem hasSub_iff {k : Kind} {u : Text} :
    s.hasSub k (some u) = true ↔ ∃ v ∈ s.subUnis k, S.eq v u = true := by
  simp [State.hasSub, Collation.eqN_some]

theorem hasSub_eq_false {k : Kind} {u : Text} :
    s.hasSub k (some u) = false ↔ ∀ v ∈ s.subUnis k, S.eq v u = false := by
  simp [State.hasSub, Collation.eqN_some]

/-- Two persons with the same uni are one. -/
theorem person_eq {p q : Person} (hp : p ∈ s.person.rows) (hq : q ∈ s.person.rows)
    (h : S.eq p.uni q.uni = true) : p = q :=
  s.person.eq_of_clash hp hq (by rw [Unique.key_clash]; exact h)

/-! ## Foreign keys -/

/-- **The foreign keys hold.** -/
structure ForeignKeys (s : State S) : Prop where
  sub : ∀ k, ∀ u ∈ s.subUnis k, s.hasPerson (some u) = true
  participant : ∀ q ∈ s.participant.rows, s.hasPerson (some q.uni) = true
  sections : ∀ q ∈ s.participant.rows, ∃ c ∈ s.sections.rows, S.eq c.callNo q.sectionCallNo = true

/-- The tables that no statement on persons writes. -/
structure SameRest (s s' : State S) : Prop where
  participant : s'.participant = s.participant
  sections : s'.sections = s.sections
  courses : s'.courses = s.courses
  prereqs : s'.prereqs = s.prereqs

/-! ## `INSERT INTO Person` -/

/-- The uni that a new person of this name is given, if it is free. -/
def Fresh (s : State S) (lastName firstName : Option Text) (u : Text) : Prop :=
  generateUni s lastName firstName = some u ∧ u.length ≤ 12 ∧ s.hasPerson (some u) = false

theorem generateUni_some {lastName firstName : Option Text} {u : Text}
    (h : generateUni s lastName firstName = some u) : ∃ l f, lastName = some l ∧ firstName = some f ∧
      u = uniStem S l f ++ Nat.toDigits 10 (s.uniCount (uniStem S l f) + 1) := by
  match lastName, firstName, h with
  | some l, some f, h => exact ⟨l, f, rfl, rfl, (Option.some.inj h).symm⟩

/-- An accepted `INSERT INTO Person`: the new row has the trigger's uni. -/
theorem insertPerson_ok {uni lastName firstName : Option Text} {type : Text}
    (h : insertPerson uni lastName firstName type s = .ok s') : ∃ T u l f, s' = { s with person := T } ∧
      T.rows = s.person.rows ++ [⟨u, l, f, type⟩] ∧ lastName = some l ∧ firstName = some f ∧
      triggerInsertPerson s lastName firstName = some u ∧ s.hasPerson (some u) = false ∧
      ∃ v, uni.mapM (varchar 12 "UNI") = .ok v := by
  unfold insertPerson at h
  simp only [bind_eq_ok] at h
  obtain ⟨v, hv, u, hu, l, hl, f, hf, T, hT, h⟩ := h
  cases h
  obtain ⟨hrows, hno⟩ := Table.insert_ok hT
  refine ⟨T, u, l, f, rfl, hrows, notNull_eq_ok.1 hl, notNull_eq_ok.1 hf, notNull_eq_ok.1 hu, ?_, v, hv⟩
  rw [hasPerson_eq_false]
  intro p hp
  have hc := hno p hp
  rwa [Unique.key_clash, Collation.eq_symm] at hc

/-- A free uni is given. -/
theorem insertPerson_fresh {lastName firstName : Option Text} {u : Text} (h : Fresh s lastName firstName u)
    (type : Text) : ∃ T l f, insertPerson (some u) lastName firstName type s = .ok { s with person := T } ∧
      T.rows = s.person.rows ++ [⟨u, l, f, type⟩] ∧ lastName = some l ∧ firstName = some f := by
  obtain ⟨hu, hlen, hfree⟩ := h
  obtain ⟨l, f, rfl, rfl, -⟩ := generateUni_some hu
  have hno : ∀ q ∈ s.person.rows, (Unique.key fun p : Person => S.key p.uni).clash ⟨u, l, f, type⟩ q = false := by
    intro q hq
    rw [Unique.key_clash, Collation.eq_symm]
    exact hasPerson_eq_false.1 hfree q hq
  obtain ⟨T, hT, hrows⟩ := Table.insert_eq_ok hno
  refine ⟨T, l, f, ?_, hrows, rfl, rfl⟩
  have hw : (some u).mapM (varchar 12 "UNI") = .ok (some u) := mapM_varchar hlen
  have htrig : triggerInsertPerson s (some l) (some f) = some u := by
    unfold triggerInsertPerson; rw [hu, Option.map_some, List.take_of_length_le hlen]
  unfold insertPerson
  rw [hw, htrig]
  simp only [ok_bind, notNull, hT]
  rfl

/-- The person's part of `insert_student` and `insert_faculty` is accepted only if the
generated uni is free. -/
theorem fresh_of_insertPerson {lastName firstName : Option Text} {type : Text}
    (h : insertPerson (generateUni s lastName firstName) lastName firstName type s = .ok s') :
    ∃ u, Fresh s lastName firstName u := by
  obtain ⟨T, u, l, f, -, -, rfl, rfl, htrig, hfree, v, hv⟩ := insertPerson_ok h
  unfold triggerInsertPerson generateUni at htrig
  unfold generateUni at hv
  simp only [Option.map_some, Option.some.injEq] at htrig
  rcases mapM_eq_ok.1 hv with ⟨hn, -⟩ | ⟨w, w', hw, hvar, -⟩
  · cases hn
  · cases hw
    have hlen := (varchar_numeral.1 hvar).1
    rw [List.take_of_length_le hlen] at htrig
    exact ⟨u, by unfold generateUni; rw [← htrig], by rw [← htrig]; exact hlen, hfree⟩

/-! ## `UPDATE PERSON` and `DELETE FROM PERSON` -/

/-- A person after `UPDATE PERSON`. -/
def renamed (S : Server) (uni : Option Text) (l f : Text) (p : Person) : Person :=
  if S.eqN (some p.uni) uni then { p with lastName := l, firstName := f } else p

@[simp] theorem renamed_uni (uni : Option Text) (l f : Text) (p : Person) :
    (renamed S uni l f p).uni = p.uni := by
  unfold renamed; split <;> rfl

@[simp] theorem renamed_type (uni : Option Text) (l f : Text) (p : Person) :
    (renamed S uni l f p).type = p.type := by
  unfold renamed; split <;> rfl

theorem keepUni_self (u : Text) : keepUni S u u = .ok () := by simp [keepUni, signalIf]

theorem setPerson_ok {lastName firstName : Option Text} {p p' : Person} :
    setPerson S lastName firstName p = .ok p' ↔ ∃ l f, lastName = some l ∧ firstName = some f ∧
      p' = { p with lastName := l, firstName := f } := by
  unfold setPerson triggerUpdatePerson
  rw [keepUni_self]
  simp only [ok_bind, bind_eq_ok, notNull_eq_ok, pure, Except.pure, Except.ok.injEq]
  constructor
  · rintro ⟨l, hl, f, hf, h⟩; exact ⟨l, f, hl, hf, h.symm⟩
  · rintro ⟨l, f, hl, hf, h⟩; exact ⟨l, hl, f, hf, h.symm⟩

theorem updatePerson_some (uni : Option Text) (l f : Text) (s : State S) :
    ∃ T, updatePerson uni (some l) (some f) s = .ok { s with person := T } ∧
      T.rows = s.person.rows.map (renamed S uni l f) := by
  obtain ⟨T, hT, hrows⟩ := Table.update_eq_ok (T := s.person) (p := fun p => S.eqN (some p.uni) uni)
    (f := setPerson S (some l) (some f)) (g := fun p => { p with lastName := l, firstName := f })
    (fun p _ _ => setPerson_ok.2 ⟨l, f, rfl, rfl, rfl⟩) (fun p _ _ q => rfl)
  exact ⟨T, by unfold updatePerson; rw [hT]; rfl, hrows⟩

theorem updatePerson_null {uni : Option Text} (lastName firstName : Option Text)
    (h : lastName = none ∨ firstName = none) (hp : s.hasPerson uni = true) :
    ∃ e, updatePerson uni lastName firstName s = .error e := by
  have hset : ∀ p : Person, ∃ e, setPerson S lastName firstName p = .error e := by
    intro p
    apply exists_error
    intro p' hp'
    obtain ⟨l, f, hl, hf, -⟩ := setPerson_ok.1 hp'
    rcases h with h | h
    · rw [h] at hl; cases hl
    · rw [h] at hf; cases hf
  obtain ⟨e, he⟩ := Table.update_error (fun p _ => hset p) hp
  exact ⟨e, by unfold updatePerson; rw [he]; rfl⟩

/-- Some row refers to the person. -/
def State.refersTo (s : State S) (uni : Option Text) : Bool :=
  s.hasSub .student uni || s.hasSub .faculty uni || s.hasParticipant uni

theorem deletePerson_eq (uni : Option Text) (s : State S) :
    (s.refersTo uni = true ∧ ∃ e, deletePerson uni s = .error e) ∨
    (s.refersTo uni = false ∧ deletePerson uni s =
      .ok { s with person := s.person.delete fun p => S.eqN (some p.uni) uni }) := by
  unfold deletePerson State.refersTo
  cases h1 : s.hasSub .student uni <;> cases h2 : s.hasSub .faculty uni <;> cases h3 : s.hasParticipant uni <;>
    simp [references, pure, Except.pure]

/-! ## `Student` and `Faculty` -/

/-- The values are accepted by the columns and the triggers of the derived entity. -/
def validSub (S : Server) : Sub → Bool
  | .student school year => school.isSome && (year.bind S.toInt).any fun y => 2000 ≤ y && y ≤ 2020
  | .faculty payGrade title department =>
    (payGrade.bind S.toInt).any (fun n => ([1, 2, 3, 4, 5] : List ℤ).contains n) && title.isSome &&
      department.isSome

theorem checkYear_ok {y : ℤ} {u : Unit} : checkYear (some y) = .ok u ↔ 2000 ≤ y ∧ y ≤ 2020 := by
  unfold checkYear
  rw [signalIf_eq_ok]
  simp only [Option.any_some, Bool.or_eq_false_iff, decide_eq_false_iff_not]
  omega

theorem checkPayGrade_ok {n : ℤ} {message : String} {u : Unit} :
    checkPayGrade (some n) message = .ok u ↔ ([1, 2, 3, 4, 5] : List ℤ).contains n = true := by
  unfold checkPayGrade
  rw [signalIf_eq_ok]
  simp only [Option.any_some, Bool.not_eq_false']

theorem integer_ok {column : String} {t : Text} {n : ℤ} : S.integer column t = .ok n ↔ S.toInt t = some n := by
  unfold Server.integer
  cases S.toInt t <;> simp

theorem validSub_student {school year : Option Text} : validSub S (.student school year) = true ↔
    ∃ a t y, school = some a ∧ year = some t ∧ S.toInt t = some y ∧ 2000 ≤ y ∧ y ≤ 2020 := by
  cases school <;> cases year <;> simp [validSub, Option.any_eq_true]

theorem validSub_faculty {payGrade title department : Option Text} :
    validSub S (.faculty payGrade title department) = true ↔ ∃ t n a d, payGrade = some t ∧
      S.toInt t = some n ∧ ([1, 2, 3, 4, 5] : List ℤ).contains n = true ∧ title = some a ∧
        department = some d := by
  cases payGrade <;> cases title <;> cases department <;> simp [validSub, Option.any_eq_true]

/-- The `SET` of `update_student` is accepted exactly for valid values. -/
theorem setStudent_ok {school year : Option Text} {r r' : Student} :
    setStudent S school year r = .ok r' ↔ ∃ a t y, school = some a ∧ year = some t ∧ S.toInt t = some y ∧
      (2000 ≤ y ∧ y ≤ 2020) ∧ r' = { r with school := a, year := y } := by
  unfold setStudent triggerUpdateStudent
  rw [keepUni_self]
  simp only [ok_bind, bind_eq_ok, notNull_eq_ok, pure, Except.pure, Except.ok.injEq]
  constructor
  · rintro ⟨o, ho, _, hc, a, ha, y, rfl, h⟩
    obtain ⟨t, ht, hy⟩ := mapM_eq_ok_some.1 ho
    exact ⟨a, t, y, ha, ht, integer_ok.1 hy, checkYear_ok.1 hc, h.symm⟩
  · rintro ⟨a, t, y, ha, ht, hy, hr, h⟩
    exact ⟨some y, mapM_eq_ok_some.2 ⟨t, ht, integer_ok.2 hy⟩, (), checkYear_ok.2 hr, a, ha, y, rfl, h.symm⟩

theorem setFaculty_ok {payGrade title department : Option Text} {r r' : Faculty} :
    setFaculty S payGrade title department r = .ok r' ↔ ∃ t n a d, payGrade = some t ∧ S.toInt t = some n ∧
      ([1, 2, 3, 4, 5] : List ℤ).contains n = true ∧ title = some a ∧ department = some d ∧
      r' = { r with payGrade := n, title := a, department := d } := by
  unfold setFaculty triggerUpdateFaculty
  rw [keepUni_self]
  simp only [ok_bind, bind_eq_ok, notNull_eq_ok, pure, Except.pure, Except.ok.injEq]
  constructor
  · rintro ⟨o, ho, _, hc, n, rfl, a, ha, d, hd, h⟩
    obtain ⟨t, ht, hn⟩ := mapM_eq_ok_some.1 ho
    exact ⟨t, n, a, d, ht, integer_ok.1 hn, checkPayGrade_ok.1 hc, ha, hd, h.symm⟩
  · rintro ⟨t, n, a, d, ht, hn, hr, ha, hd, h⟩
    exact ⟨some n, mapM_eq_ok_some.2 ⟨t, ht, integer_ok.2 hn⟩, (), checkPayGrade_ok.2 hr, n, rfl, a, ha, d, hd,
      h.symm⟩

theorem triggerInsertStudent_ok {uni : Option Text} {y : ℤ} {u : Unit} :
    triggerInsertStudent s uni (some y) = .ok u ↔ s.hasPerson uni = true ∧ 2000 ≤ y ∧ y ≤ 2020 := by
  unfold triggerInsertStudent
  simp only [bind_eq_ok, signalIf_eq_ok, checkYear_ok, Bool.not_eq_false', exists_const]

theorem triggerInsertFaculty_ok {uni : Option Text} {n : ℤ} {u : Unit} :
    triggerInsertFaculty s uni (some n) = .ok u ↔
      s.hasPerson uni = true ∧ ([1, 2, 3, 4, 5] : List ℤ).contains n = true := by
  unfold triggerInsertFaculty
  simp only [bind_eq_ok, signalIf_eq_ok, checkPayGrade_ok, Bool.not_eq_false', exists_const]

/-- The other derived entity. -/
def Kind.other : Kind → Kind
  | .student => .faculty
  | .faculty => .student

theorem Kind.eq_or_other (k k' : Kind) : k' = k ∨ k' = k.other := by cases k <;> cases k' <;> simp [Kind.other]

/-- What a statement on the derived entity `k` leaves alone. -/
structure SameBut (k : Kind) (s s' : State S) : Prop extends SameRest s s' where
  person : s'.person = s.person
  other : s'.subUnis k.other = s.subUnis k.other

/-- The rows of the derived entities, when one of them has one row more. -/
theorem mem_subUnis_append {k k' : Kind} {u v : Text} (hnew : s'.subUnis k = s.subUnis k ++ [u])
    (hother : s'.subUnis k.other = s.subUnis k.other) (hv : v ∈ s'.subUnis k') :
    v ∈ s.subUnis k' ∨ (v = u ∧ k' = k) := by
  rcases Kind.eq_or_other k k' with rfl | rfl
  · rw [hnew, List.mem_append, List.mem_singleton] at hv
    exact hv.imp_right fun h => ⟨h, rfl⟩
  · rw [hother] at hv; exact .inl hv

/-- An accepted `INSERT INTO Student` or `INSERT INTO Faculty`. -/
theorem insertSub_ok {c : Sub} {uni : Option Text} (h : insertSub c uni s = .ok s') :
    ∃ u v, uni = some u ∧ varchar 12 "UNI" u = .ok v ∧ s.hasPerson (some v) = true ∧ validSub S c = true ∧
      s'.subUnis c.kind = s.subUnis c.kind ++ [v] ∧ SameBut c.kind s s' := by
  cases c with
  | student school year =>
    simp only [insertSub, insertStudentRow, bind_eq_ok, notNull_eq_ok] at h
    obtain ⟨_, hw, o, hy, _, htrig, v, rfl, a, ha, y, rfl, T, hT, _, -, h⟩ := h
    cases h
    obtain ⟨hp, hc⟩ := triggerInsertStudent_ok.1 htrig
    obtain ⟨u, hu, hv⟩ := mapM_eq_ok_some.1 hw
    obtain ⟨t, ht, hyt⟩ := mapM_eq_ok_some.1 hy
    refine ⟨u, v, hu, hv, hp, ?_, ?_, ⟨⟨rfl, rfl, rfl, rfl⟩, rfl, rfl⟩⟩
    · exact validSub_student.2 ⟨a, t, y, ha, ht, integer_ok.1 hyt, hc⟩
    · simp [Sub.kind, State.subUnis, (Table.insert_ok hT).1]
  | faculty payGrade title department =>
    simp only [insertSub, insertFacultyRow, bind_eq_ok, notNull_eq_ok] at h
    obtain ⟨_, hw, o, hy, _, htrig, v, rfl, n, rfl, a, ha, d, hd, T, hT, _, -, h⟩ := h
    cases h
    obtain ⟨hp, hc⟩ := triggerInsertFaculty_ok.1 htrig
    obtain ⟨u, hu, hv⟩ := mapM_eq_ok_some.1 hw
    obtain ⟨t, ht, hnt⟩ := mapM_eq_ok_some.1 hy
    refine ⟨u, v, hu, hv, hp, ?_, ?_, ⟨⟨rfl, rfl, rfl, rfl⟩, rfl, rfl⟩⟩
    · exact validSub_faculty.2 ⟨t, n, a, d, ht, integer_ok.1 hnt, hc, ha, hd⟩
    · simp [Sub.kind, State.subUnis, (Table.insert_ok hT).1]

/-- Valid values for a person who has no row yet are accepted. -/
theorem insertSub_valid {c : Sub} {u : Text} (hc : validSub S c = true) (hlen : u.length ≤ 12)
    (hp : s.hasPerson (some u) = true) (hno : s.hasSub c.kind (some u) = false) :
    ∃ s', insertSub c (some u) s = .ok s' ∧ s'.subUnis c.kind = s.subUnis c.kind ++ [u] ∧
      SameBut c.kind s s' := by
  -- what the rows look like follows once the statement is accepted
  suffices hex : ∃ s', insertSub c (some u) s = .ok s' by
    obtain ⟨s', hs'⟩ := hex
    obtain ⟨u', v, hu, hv, -, -, hsub, hrest⟩ := insertSub_ok hs'
    cases hu
    rw [varchar_of_le hlen] at hv
    cases hv
    exact ⟨s', hs', hsub, hrest⟩
  have hw : (some u).mapM (varchar 12 "UNI") = .ok (some u) := mapM_varchar hlen
  have hfree : ∀ v ∈ s.subUnis c.kind, S.eq u v = false := by
    intro v hv
    rw [Collation.eq_symm]; exact hasSub_eq_false.1 hno v hv
  cases c with
  | student school year =>
    obtain ⟨a, t, y, ha, ht, hy, hr⟩ := validSub_student.1 hc
    have hyear : year.mapM (S.integer "year") = .ok (some y) :=
      mapM_eq_ok_some.2 ⟨t, ht, integer_ok.2 hy⟩
    obtain ⟨T, hT, -⟩ := Table.insert_eq_ok (T := s.student) (a := ⟨u, a, y⟩) (by
      intro b hb
      rw [Unique.key_clash]
      exact hfree b.uni (List.mem_map_of_mem hb))
    have htrig : triggerInsertStudent s (some u) (some y) = .ok () := triggerInsertStudent_ok.2 ⟨hp, hr⟩
    simp only [insertSub, insertStudentRow, hw, hyear, ha, ok_bind, htrig, notNull, hT, hp, references, if_true]
    exact ⟨_, rfl⟩
  | faculty payGrade title department =>
    obtain ⟨t, n, a, d, ht, hn, hr, ha, hd⟩ := validSub_faculty.1 hc
    have hgrade : payGrade.mapM (S.integer "pay_grade") = .ok (some n) :=
      mapM_eq_ok_some.2 ⟨t, ht, integer_ok.2 hn⟩
    obtain ⟨T, hT, -⟩ := Table.insert_eq_ok (T := s.faculty) (a := ⟨u, n, a, d⟩) (by
      intro b hb
      rw [Unique.key_clash]
      exact hfree b.uni (List.mem_map_of_mem hb))
    have htrig : triggerInsertFaculty s (some u) (some n) = .ok () := triggerInsertFaculty_ok.2 ⟨hp, hr⟩
    simp only [insertSub, insertFacultyRow, hw, hgrade, ha, hd, ok_bind, htrig, notNull, hT, hp,
      references, if_true]
    exact ⟨_, rfl⟩

/-- `UPDATE Student` and `UPDATE Faculty` are refused exactly for invalid values on an
existing row. -/
theorem updateSub_eq (c : Sub) (uni : Option Text) (s : State S) :
    (s.hasSub c.kind uni = true ∧ validSub S c = false ∧ ∃ e, updateSub c uni s = .error e) ∨
    ((s.hasSub c.kind uni = true → validSub S c = true) ∧ ∃ s', updateSub c uni s = .ok s' ∧
      s'.subUnis c.kind = s.subUnis c.kind ∧ SameBut c.kind s s') := by
  cases c with
  | student school year =>
    have hany : s.hasSub .student uni = s.student.rows.any fun r => S.eqN (some r.uni) uni := by
      simp only [State.hasSub, State.subUnis, List.any_map]; rfl
    -- valid values give one new row for each old one, with its uni
    have hok : validSub S (.student school year) = true → ∃ g : Student → Student,
        (∀ r, setStudent S school year r = .ok (g r)) ∧ ∀ r, (g r).uni = r.uni := by
      intro hv
      obtain ⟨a, t, y, ha, ht, hy, hr⟩ := validSub_student.1 hv
      exact ⟨fun r => { r with school := a, year := y }, fun r => setStudent_ok.2 ⟨a, t, y, ha, ht, hy, hr, rfl⟩,
        fun _ => rfl⟩
    have herr : validSub S (.student school year) = false → ∀ r r', setStudent S school year r ≠ .ok r' := by
      intro hv r r' hr'
      obtain ⟨a, t, y, ha, ht, hy, hr, -⟩ := setStudent_ok.1 hr'
      rw [validSub_student.2 ⟨a, t, y, ha, ht, hy, hr⟩] at hv; cases hv
    rcases s.student.update_by_key (fun r => S.eqN (some r.uni) uni) hok herr with
      ⟨h1, h2, e, he⟩ | ⟨h1, T, hT, hrows⟩
    · left
      exact ⟨hany.trans h1, h2, e, by simp only [updateSub, updateStudentRow, he, error_bind]⟩
    · right
      refine ⟨fun h => h1 (hany.symm.trans h), { s with student := T }, ?_, hrows,
        ⟨⟨rfl, rfl, rfl, rfl⟩, rfl, rfl⟩⟩
      simp only [updateSub, updateStudentRow, hT, ok_bind]; rfl
  | faculty payGrade title department =>
    have hany : s.hasSub .faculty uni = s.faculty.rows.any fun r => S.eqN (some r.uni) uni := by
      simp only [State.hasSub, State.subUnis, List.any_map]; rfl
    have hok : validSub S (.faculty payGrade title department) = true → ∃ g : Faculty → Faculty,
        (∀ r, setFaculty S payGrade title department r = .ok (g r)) ∧ ∀ r, (g r).uni = r.uni := by
      intro hv
      obtain ⟨t, n, a, d, ht, hn, hr, ha, hd⟩ := validSub_faculty.1 hv
      exact ⟨fun r => { r with payGrade := n, title := a, department := d },
        fun r => setFaculty_ok.2 ⟨t, n, a, d, ht, hn, hr, ha, hd, rfl⟩, fun _ => rfl⟩
    have herr : validSub S (.faculty payGrade title department) = false →
        ∀ r r', setFaculty S payGrade title department r ≠ .ok r' := by
      intro hv r r' hr'
      obtain ⟨t, n, a, d, ht, hn, hr, ha, hd, -⟩ := setFaculty_ok.1 hr'
      rw [validSub_faculty.2 ⟨t, n, a, d, ht, hn, hr, ha, hd⟩] at hv; cases hv
    rcases s.faculty.update_by_key (fun r => S.eqN (some r.uni) uni) hok herr with
      ⟨h1, h2, e, he⟩ | ⟨h1, T, hT, hrows⟩
    · left
      exact ⟨hany.trans h1, h2, e, by simp only [updateSub, updateFacultyRow, he, error_bind]⟩
    · right
      refine ⟨fun h => h1 (hany.symm.trans h), { s with faculty := T }, ?_, hrows,
        ⟨⟨rfl, rfl, rfl, rfl⟩, rfl, rfl⟩⟩
      simp only [updateSub, updateFacultyRow, hT, ok_bind]; rfl

theorem deleteSub_subUnis (k : Kind) (uni : Option Text) (s : State S) :
    (deleteSub k uni s).subUnis k = (s.subUnis k).filter fun u => !S.eqN (some u) uni := by
  cases k <;> simp only [deleteSub, State.subUnis, Table.delete, List.filter_map] <;> rfl

theorem deleteSub_sameBut (k : Kind) (uni : Option Text) (s : State S) : SameBut k s (deleteSub k uni s) := by
  cases k <;> exact ⟨⟨rfl, rfl, rfl, rfl⟩, rfl, rfl⟩

/-- After the deletion from the derived entity, only the other one and the participants
can refer to the person. -/
theorem refersTo_deleteSub (k : Kind) (uni : Option Text) (s : State S) :
    (deleteSub k uni s).refersTo uni = (s.hasSub k.other uni || s.hasParticipant uni) := by
  have hb := deleteSub_sameBut k uni s
  have hk : (deleteSub k uni s).hasSub k uni = false := by
    unfold State.hasSub; rw [deleteSub_subUnis, List.any_eq_false]
    intro u hu
    simpa using (List.mem_filter.1 hu).2
  have hother : (deleteSub k uni s).hasSub k.other uni = s.hasSub k.other uni := by
    unfold State.hasSub; rw [hb.other]
  have hpart : (deleteSub k uni s).hasParticipant uni = s.hasParticipant uni := by
    unfold State.hasParticipant; rw [hb.participant]
  unfold State.refersTo
  rw [hpart]
  cases k with
  | student => rw [hk, ← hother]; rfl
  | faculty => rw [hk, ← hother, Bool.or_false]; rfl

end Coms4111.School
