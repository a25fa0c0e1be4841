import Coms4111.Proof.Inheritance
import Coms4111.Proof.Atomicity

/-!
# Procedures for one kind of person

`update_*` and `delete_*` test only that somebody has the uni, not that it is somebody of
their kind.

* `updateWith_ok`, `deleteWith_ok`: a successful call, statement by statement.
* `UpdatesOnly`, `RemovesOnly`: what a call for the right kind does, row by row.
* `kinds_kept_apart_iff`: a call leaves the other kind alone, **unless** it is an update
  with both names for a person of the other kind, which renames that person.
-/

namespace Coms4111.School

open Sql

variable {S : Server} {s s' : State S}

/-- The row of the derived entity is given the values of `c`, and no other row changes. -/
def SubSet (s s' : State S) (uni : Option Text) : Sub → Prop
  | .student school year => ∃ r ∈ s.student.rows, S.eqN (some r.uni) uni = true ∧
      (∃ a t y, school = some a ∧ year = some t ∧ S.toInt t = some y ∧
        s'.student.rows = s.student.rows.map fun q => if q = r then ⟨r.uni, a, y⟩ else q) ∧ s'.faculty = s.faculty
  | .faculty payGrade title department => ∃ r ∈ s.faculty.rows, S.eqN (some r.uni) uni = true ∧
      (∃ t n a d, payGrade = some t ∧ S.toInt t = some n ∧ title = some a ∧ department = some d ∧
        s'.faculty.rows = s.faculty.rows.map fun q => if q = r then ⟨r.uni, n, a, d⟩ else q) ∧
          s'.student = s.student

/-- The row of the derived entity is gone, and no other. -/
def SubRemoved (s s' : State S) (uni : Option Text) : Kind → Prop
  | .student => ∃ r ∈ s.student.rows, S.eqN (some r.uni) uni = true ∧
      s'.student.rows = s.student.rows.filter (fun q => q ≠ r) ∧ s'.faculty = s.faculty
  | .faculty => ∃ r ∈ s.faculty.rows, S.eqN (some r.uni) uni = true ∧
      s'.faculty.rows = s.faculty.rows.filter (fun q => q ≠ r) ∧ s'.student = s.student

/-- **An update of two rows**: the person's and the one of the derived entity. -/
structure UpdatesOnly (s s' : State S) (c : Sub) (uni lastName firstName : Option Text) : Prop where
  person : ∃ p ∈ s.person.rows, S.eqN (some p.uni) uni = true ∧ ∃ l f, lastName = some l ∧ firstName = some f ∧
    s'.person.rows = s.person.rows.map fun q => if q = p then ⟨p.uni, l, f, p.type⟩ else q
  sub : SubSet s s' uni c
  rest : SameRest s s'

/-- **A deletion of two rows.** -/
structure RemovesOnly (s s' : State S) (k : Kind) (uni : Option Text) : Prop where
  person : ∃ p ∈ s.person.rows, S.eqN (some p.uni) uni = true ∧
    s'.person.rows = s.person.rows.filter (fun q => q ≠ p)
  sub : SubRemoved s s' uni k
  rest : SameRest s s'

/-- **The call keeps to its kind of person**: for a uni of nobody of that kind it raises
an error and changes nothing, and otherwise, if it succeeds, it writes two rows. -/
def KeepsToKind (s : State S) : Op → Prop
  | op@(.update c uni lastName firstName) =>
    (s.hasSub c.kind uni = false → ∃ e, op.proc.run s = (.error e, s)) ∧
      (s.hasSub c.kind uni = true → (op.proc.run s).1 = .ok () →
        UpdatesOnly s (op.run s) c uni lastName firstName)
  | op@(.delete k uni) =>
    (s.hasSub k uni = false → ∃ e, op.proc.run s = (.error e, s)) ∧
      (s.hasSub k uni = true → (op.proc.run s).1 = .ok () → RemovesOnly s (op.run s) k uni)
  | _ => True

/-- The call is no update with both names of a person who has no row in its derived
entity. -/
def Directed (s : State S) : Op → Prop
  | .update c uni lastName firstName => lastName.isSome = true → firstName.isSome = true →
      s.hasPerson uni = true → s.hasSub c.kind uni = true
  | _ => True

/-! ## Successful calls -/

theorem updateWith_ok {message : String} {c : Sub} {uni lastName firstName : Option Text} :
    (updateWith message c uni lastName firstName).run s = (.ok (), s') ↔ s.hasPerson uni = true ∧
      ∃ s₁, updatePerson uni lastName firstName s = .ok s₁ ∧ updateSub c uni s₁ = .ok s' := by
  unfold updateWith testUni
  simp only [Proc.run_bind_ok, Proc.run_exec_ok]
  constructor
  · rintro ⟨_, t, ht, _, s₁, h1, h2⟩
    cases hp : s.hasPerson uni with
    | false => simp [hp] at ht
    | true =>
      simp only [hp, if_true, Except.ok.injEq] at ht
      subst ht
      exact ⟨rfl, s₁, h1, h2⟩
  · rintro ⟨hp, s₁, h1, h2⟩
    exact ⟨(), s, by rw [hp]; rfl, (), s₁, h1, h2⟩

theorem deleteWith_ok {message : String} {k : Kind} {uni : Option Text} :
    (deleteWith message k uni).run s = (.ok (), s') ↔
      s.hasPerson uni = true ∧ deletePerson uni (deleteSub k uni s) = .ok s' := by
  unfold deleteWith testUni
  simp only [Proc.run_bind_ok, Proc.run_exec_ok, Except.ok.injEq]
  constructor
  · rintro ⟨_, t, ht, _, s₁, h1, h2⟩
    cases hp : s.hasPerson uni with
    | false => simp [hp] at ht
    | true =>
      simp only [hp, if_true, Except.ok.injEq] at ht
      subst ht h1
      exact ⟨rfl, h2⟩
  · rintro ⟨hp, h⟩
    exact ⟨(), s, by rw [hp]; rfl, (), _, rfl, h⟩

/-! ## One row by its uni -/

section

variable {α : Type} [DecidableEq α] {f : α → Text} {T : Table α (Unique.key fun a => S.key (f a))}
  {uni : Option Text} {a : α}

theorem map_by_uni (ha : a ∈ T.rows) (hau : S.eqN (some (f a)) uni = true) (g : α → α) :
    (T.rows.map fun b => if S.eqN (some (f b)) uni = true then g b else b) =
      T.rows.map fun b => if b = a then g a else b := by
  apply List.map_congr_left
  intro b hb
  have hiff := T.eqN_iff_eq ha hau hb
  by_cases hba : b = a
  · rw [if_pos (hiff.2 hba), if_pos hba, hba]
  · rw [if_neg (fun h => hba (hiff.1 h)), if_neg hba]

theorem filter_by_uni (ha : a ∈ T.rows) (hau : S.eqN (some (f a)) uni = true) :
    (T.rows.filter fun b => !S.eqN (some (f b)) uni) = T.rows.filter fun b => b ≠ a := by
  apply List.filter_congr
  intro b hb
  have hiff := T.eqN_iff_eq ha hau hb
  rw [Bool.eq_iff_iff, Bool.not_eq_true', decide_eq_true_eq, ← Bool.not_eq_true, hiff]

end

/-- A successful `UPDATE` of the derived entity, on a row that is there. -/
theorem updateSub_sets {c : Sub} {uni : Option Text} (hsub : s.hasSub c.kind uni = true)
    (h : updateSub c uni s = .ok s') : SubSet s s' uni c ∧ s'.person = s.person ∧ SameRest s s' := by
  have hvalid : validSub S c = true := by
    rcases updateSub_eq c uni s with ⟨-, -, e, he⟩ | ⟨hv, -⟩
    · rw [h] at he; cases he
    · exact hv hsub
  obtain ⟨u, hu, hue⟩ := List.any_eq_true.1 hsub
  cases c with
  | student school year =>
    obtain ⟨r, hr, rfl⟩ := List.mem_map.1 hu
    obtain ⟨a, t, y, ha, ht, hy, hrange⟩ := validSub_student.1 hvalid
    simp only [updateSub, updateStudentRow, bind_eq_ok] at h
    obtain ⟨T, hT, h⟩ := h
    cases h
    obtain ⟨T', hT', hrows⟩ := Table.update_eq_ok (T := s.student) (p := fun r => S.eqN (some r.uni) uni)
      (f := setStudent S school year) (g := fun r => ⟨r.uni, a, y⟩)
      (fun r _ _ => setStudent_ok.2 ⟨a, t, y, ha, ht, hy, hrange, rfl⟩) (fun _ _ _ _ => rfl)
    rw [hT] at hT'
    cases hT'
    rw [map_by_uni hr hue] at hrows
    exact ⟨⟨r, hr, hue, ⟨a, t, y, ha, ht, hy, hrows⟩, rfl⟩, rfl, ⟨rfl, rfl, rfl, rfl⟩⟩
  | faculty payGrade title department =>
    obtain ⟨r, hr, rfl⟩ := List.mem_map.1 hu
    obtain ⟨t, n, a, d, ht, hn, hrange, ha, hd⟩ := validSub_faculty.1 hvalid
    simp only [updateSub, updateFacultyRow, bind_eq_ok] at h
    obtain ⟨T, hT, h⟩ := h
    cases h
    obtain ⟨T', hT', hrows⟩ := Table.update_eq_ok (T := s.faculty) (p := fun r => S.eqN (some r.uni) uni)
      (f := setFaculty S payGrade title department) (g := fun r => ⟨r.uni, n, a, d⟩)
      (fun r _ _ => setFaculty_ok.2 ⟨t, n, a, d, ht, hn, hrange, ha, hd, rfl⟩) (fun _ _ _ _ => rfl)
    rw [hT] at hT'
    cases hT'
    rw [map_by_uni hr hue] at hrows
    exact ⟨⟨r, hr, hue, ⟨t, n, a, d, ht, hn, ha, hd, hrows⟩, rfl⟩, rfl, ⟨rfl, rfl, rfl, rfl⟩⟩

/-- **A successful update for the right kind writes two rows.** -/
theorem updateWith_only {message : String} {c : Sub} {uni lastName firstName : Option Text}
    (hsub : s.hasSub c.kind uni = true) (h : (updateWith message c uni lastName firstName).run s = (.ok (), s')) :
    UpdatesOnly s s' c uni lastName firstName := by
  obtain ⟨hperson, s₁, h1, h2⟩ := updateWith_ok.1 h
  obtain ⟨p, hp, hpu⟩ := List.any_eq_true.1 hperson
  -- both names are there, or the first write had failed
  obtain ⟨l, f, rfl, rfl⟩ : ∃ l f, lastName = some l ∧ firstName = some f := by
    by_contra hnone
    have hnull : lastName = none ∨ firstName = none := by
      cases lastName <;> cases firstName <;> simp_all
    obtain ⟨e, he⟩ := updatePerson_null lastName firstName hnull hperson
    rw [h1] at he
    cases he
  obtain ⟨T, hT, hrows⟩ := updatePerson_some uni l f s
  rw [h1] at hT
  cases hT
  have hsub₁ : State.hasSub { s with person := T } c.kind uni = true := by
    rw [hasSub_congr (subUnis_person T s c.kind)]; exact hsub
  obtain ⟨hset, hkept, hrest⟩ := updateSub_sets hsub₁ h2
  refine ⟨⟨p, hp, hpu, l, f, rfl, rfl, ?_⟩, ?_, hrest.participant, hrest.sections, hrest.courses, hrest.prereqs⟩
  · rw [hkept, hrows]
    exact map_by_uni (T := s.person) hp hpu fun q => ⟨q.uni, l, f, q.type⟩
  · cases c <;> exact hset

/-- **A successful deletion for the right kind removes two rows.** -/
theorem deleteWith_only {message : String} {k : Kind} {uni : Option Text} (hsub : s.hasSub k uni = true)
    (h : (deleteWith message k uni).run s = (.ok (), s')) : RemovesOnly s s' k uni := by
  obtain ⟨hperson, hdel⟩ := deleteWith_ok.1 h
  obtain ⟨p, hp, hpu⟩ := List.any_eq_true.1 hperson
  obtain ⟨u, hu, hue⟩ := List.any_eq_true.1 hsub
  rcases deletePerson_eq uni (deleteSub k uni s) with ⟨-, e, he⟩ | ⟨-, he⟩
  · rw [hdel] at he; cases he
  rw [hdel, Except.ok.injEq] at he
  have hfilter := filter_by_uni (T := s.person) hp hpu
  have hkept := (deleteSub_sameBut k uni s).toSameRest
  subst he
  refine ⟨⟨p, hp, hpu, ?_⟩, ?_, hkept.participant, hkept.sections, hkept.courses, hkept.prereqs⟩
  · rw [← hfilter, ← (deleteSub_sameBut k uni s).person]
    rfl
  · cases k with
    | student =>
      obtain ⟨r, hr, rfl⟩ := List.mem_map.1 hu
      exact ⟨r, hr, hue, filter_by_uni (T := s.student) hr hue, rfl⟩
    | faculty =>
      obtain ⟨r, hr, rfl⟩ := List.mem_map.1 hu
      exact ⟨r, hr, hue, filter_by_uni (T := s.faculty) hr hue, rfl⟩

/-! ## Calls for the other kind -/

/-- With no row to take, the deletion from the derived entity does nothing. -/
theorem deleteSub_eq_self {k : Kind} {uni : Option Text} (h : s.hasSub k uni = false) :
    deleteSub k uni s = s := by
  obtain ⟨h1, h2⟩ := (deleteSub_eq_iff k uni s).2 h
  have hb := deleteSub_sameBut k uni s
  exact State.ext hb.person h1 h2 hb.participant hb.sections hb.courses hb.prereqs

/-- A person who is not of the kind is of the other one. -/
theorem hasSub_other (hs : ∀ p ∈ s.person.rows, ∃ k, IsA s k p) {k : Kind} {uni : Option Text}
    (hperson : s.hasPerson uni = true) (hno : s.hasSub k uni = false) : s.hasSub k.other uni = true := by
  obtain ⟨p, hp, hpu⟩ := List.any_eq_true.1 hperson
  obtain ⟨k', -, hone, -⟩ := hs p hp
  have hsub : s.hasSub k' uni = true := by
    rw [subCount_eq] at hone
    have hpk : s.hasSub k' (some p.uni) = true := by
      by_contra hfalse
      rw [if_neg hfalse] at hone
      omega
    obtain ⟨v, hv, hvp⟩ := hasSub_iff.1 hpk
    cases uni with
    | none => rw [Collation.eqN_none] at hpu; cases hpu
    | some u => exact hasSub_iff.2 ⟨v, hv, Collation.trans hvp hpu⟩
  rcases Kind.eq_or_other k k' with rfl | rfl
  · rw [hno] at hsub; cases hsub
  · exact hsub

theorem delete_wrong_kind (hfk : ForeignKeys s) (hs : ∀ p ∈ s.person.rows, ∃ k, IsA s k p) {k : Kind}
    {uni : Option Text} (hno : s.hasSub k uni = false) :
    ∃ e, (Op.delete k uni).proc.run s = (.error e, s) := by
  have hout := op_outcome hfk (.delete k uni)
  generalize hres : ((Op.delete k uni).proc.run s).1 = res at hout
  generalize hend : (Op.delete k uni).run s = s' at hout
  have hrun : (Op.delete k uni).proc.run s = (res, s') := Prod.ext hres hend
  cases hout with
  | deleteRefused => exact ⟨_, hrun⟩
  | deleteHalf => rw [deleteSub_eq_self hno] at hrun; exact ⟨_, hrun⟩
  | deleteDone hperson hrefers =>
    -- the row of the other derived entity refers to the person
    rw [refersTo_deleteSub, hasSub_other hs hperson hno] at hrefers
    cases hrefers

/-- An update for the other kind is an error unless it goes through. -/
theorem update_wrong_kind_iff (hfk : ForeignKeys s) {c : Sub} {uni lastName firstName : Option Text}
    (hno : s.hasSub c.kind uni = false) :
    (∃ e, (Op.update c uni lastName firstName).proc.run s = (.error e, s)) ↔
      ¬(lastName.isSome = true ∧ firstName.isSome = true ∧ s.hasPerson uni = true) := by
  have hout := op_outcome hfk (.update c uni lastName firstName)
  generalize hres : ((Op.update c uni lastName firstName).proc.run s).1 = res at hout
  generalize hend : (Op.update c uni lastName firstName).run s = s' at hout
  have hrun : (Op.update c uni lastName firstName).proc.run s = (res, s') := Prod.ext hres hend
  rw [hrun]
  cases hout with
  | updateRefused hnull =>
    refine ⟨fun _ ⟨hl, hf, hp⟩ => ?_, fun _ => ⟨_, rfl⟩⟩
    rcases hnull hp with rfl | rfl
    · cases hl
    · cases hf
  | updateHalf _ hsub => rw [hno] at hsub; cases hsub
  | updateDone hp =>
    refine ⟨fun ⟨e, he⟩ => ?_, fun h => absurd ⟨rfl, rfl, hp⟩ h⟩
    cases he

/-! ## Both kinds -/

/-- **Procedures for one kind keep to it**, if and only if the call is directed: for every
state in which each person has one row, in the derived entity of its type. -/
theorem kinds_kept_apart_iff (s : State S) (hfk : ForeignKeys s) (hs : ∀ p ∈ s.person.rows, ∃ k, IsA s k p)
    (op : Op) : KeepsToKind s op ↔ Directed s op := by
  cases op with
  | update c uni lastName firstName =>
    have hright : s.hasSub c.kind uni = true → ((Op.update c uni lastName firstName).proc.run s).1 = .ok () →
        UpdatesOnly s ((Op.update c uni lastName firstName).run s) c uni lastName firstName := by
      intro hsub hok
      have hrun : (Op.update c uni lastName firstName).proc.run s =
        (.ok (), (Op.update c uni lastName firstName).run s) := Prod.ext hok rfl
      cases c with
      | student => exact updateWith_only hsub hrun
      | faculty => exact updateWith_only hsub hrun
    constructor
    · rintro ⟨hwrong, -⟩ hl hf hp
      by_contra hsub
      have hno : s.hasSub c.kind uni = false := Bool.eq_false_iff.2 hsub
      exact (update_wrong_kind_iff hfk hno).1 (hwrong hno) ⟨hl, hf, hp⟩
    · intro hdir
      refine ⟨fun hno => (update_wrong_kind_iff hfk hno).2 fun ⟨hl, hf, hp⟩ => ?_, hright⟩
      rw [hdir hl hf hp] at hno
      cases hno
  | delete k uni =>
    have hright : s.hasSub k uni = true → ((Op.delete k uni).proc.run s).1 = .ok () →
        RemovesOnly s ((Op.delete k uni).run s) k uni := by
      intro hsub hok
      have hrun : (Op.delete k uni).proc.run s = (.ok (), (Op.delete k uni).run s) := Prod.ext hok rfl
      cases k with
      | student => exact deleteWith_only hsub hrun
      | faculty => exact deleteWith_only hsub hrun
    exact ⟨fun _ => trivial, fun _ => ⟨delete_wrong_kind hfk hs, hright⟩⟩
  | insert | insertSection | insertParticipant | deleteParticipant => exact Iff.rfl

/-- A student and a faculty member. -/
def oneOfEach : State asciiServer :=
  run [.insert (.student (some "cs".toList) (some "2016".toList)) (some "peters".toList) (some "justin".toList),
    .insert (.faculty (some "1".toList) (some "professor".toList) (some "cs".toList)) (some "Lewis".toList)
      (some "Deirdre".toList)] State.empty

theorem oneOfEach_ok : ForeignKeys oneOfEach ∧ ∀ p ∈ oneOfEach.person.rows, ∃ k, IsA oneOfEach k p := by
  have hnobody : oneOfEach.participant.rows = [] := by decide +kernel
  have hrows : oneOfEach.person.rows = [⟨"PEJU1".toList, "peters".toList, "justin".toList, "Student".toList⟩,
    ⟨"LEDE1".toList, "Lewis".toList, "Deirdre".toList, "Faculty".toList⟩] := by decide +kernel
  refine ⟨⟨?_, ?_, ?_⟩, ?_⟩
  · intro k
    cases k <;> decide +kernel
  · rw [hnobody]; nofun
  · rw [hnobody]; nofun
  · intro p hp
    rw [hrows, List.mem_cons, List.mem_singleton] at hp
    rcases hp with rfl | rfl
    · exact ⟨.student, by decide +kernel, by decide +kernel, by decide +kernel⟩
    · exact ⟨.faculty, by decide +kernel, by decide +kernel, by decide +kernel⟩

theorem update_student_keeps_to_students :
    KeepsToKind oneOfEach (.update (.student (some "ee".toList) (some "2017".toList)) (some "peju1".toList)
      (some "Peters".toList) (some "Justin".toList)) :=
  (kinds_kept_apart_iff oneOfEach oneOfEach_ok.1 oneOfEach_ok.2 _).2 fun _ _ _ => by decide +kernel

/-- `update_student` with the uni of a faculty member succeeds, and renames the person. -/
theorem update_student_renames_faculty :
    (ForeignKeys oneOfEach ∧ ∀ p ∈ oneOfEach.person.rows, ∃ k, IsA oneOfEach k p) ∧
      ¬KeepsToKind oneOfEach (.update (.student (some "ee".toList) (some "2017".toList)) (some "LEDE1".toList)
        (some "Peters".toList) (some "Justin".toList)) := by
  refine ⟨oneOfEach_ok, fun h => ?_⟩
  obtain ⟨e, he⟩ := h.1 (by decide +kernel)
  have hok : ((Op.update (.student (some "ee".toList) (some "2017".toList)) (some "LEDE1".toList)
      (some "Peters".toList) (some "Justin".toList)).proc.run oneOfEach).1 = .ok () := by decide +kernel
  rw [he] at hok
  cases hok

end Coms4111.School
