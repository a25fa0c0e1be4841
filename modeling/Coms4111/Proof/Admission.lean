import Coms4111.Proof.Enrollment

/-!
# Who may take part in a section

`trigger_insert_participant` decides through `prereq_valid`, `student_limit` and
`faculty_limit`, with tests that are `NULL` for an unknown section or a missing limit.
Here the decision is stated on the rows alone (`Permitted`).

* `prereqValid_iff`, `studentLimit_iff`, `facultyLimit_iff`: what each function asks.
* `participant_admitted_iff`: **the trigger admits exactly the permitted rows**, and
  refuses all others without a change to any table.
-/

namespace Coms4111.School

open Sql

variable {S : Server} {s : State S}

/-- Every prerequisite of the course is the course of a section that the uni takes part in
and that `completed_course` lists. -/
def Prepared (s : State S) (now : Date) (uni courseId : Text) : Prop :=
  ∀ r ∈ s.prereqs.rows, S.eq r.courseId courseId = true →
    ∃ q ∈ s.participant.rows, ∃ d ∈ s.sections.rows, S.eq q.uni uni = true ∧
      S.eq q.sectionCallNo d.callNo = true ∧ S.eq r.prereqId d.courseId = true ∧
        ⟨q.uni, d.courseId, d.year, d.semester⟩ ∈ completedCourse now s

/-- **The permitted rows.** -/
inductive Permitted (s : State S) (now : Date) (uni : Text) (callNo : Option Text) : Prop
  | student {p : Person} {c : Section} {limit : ℤ} : p ∈ s.person.rows → S.eq p.uni uni = true →
      S.eq p.type Kind.student.type = true → c ∈ s.sections.rows → S.eqN (some c.callNo) callNo = true →
      c.enrollmentLimit = some limit → ((s.seated c.callNo).length : ℤ) < limit →
      Prepared s now uni c.courseId → Permitted s now uni callNo
  | faculty {p : Person} : p ∈ s.person.rows → S.eq p.uni uni = true →
      S.eq p.type Kind.faculty.type = true →
      (∀ c ∈ s.sections.rows, S.eqN (some c.callNo) callNo = true →
        (s.sectionsOf uni c.year c.semester).length < 3) → Permitted s now uni callNo

/-! ## The three functions -/

theorem mem_completedCourse {now : Date} {x : CompletedCourse} : x ∈ completedCourse now s ↔
    ∃ q ∈ s.participant.rows, ∃ c ∈ s.sections.rows, S.eq q.sectionCallNo c.callNo = true ∧
      c.completed S now = true ∧ x = ⟨q.uni, c.courseId, c.year, c.semester⟩ := by
  unfold completedCourse
  simp only [List.mem_flatMap, List.mem_map, List.mem_filter, Bool.and_eq_true]
  constructor
  · rintro ⟨q, hq, c, ⟨hc, he, hdone⟩, rfl⟩
    exact ⟨q, hq, c, hc, he, hdone, rfl⟩
  · rintro ⟨q, hq, c, hc, he, hdone, rfl⟩
    exact ⟨q, hq, c, ⟨hc, he, hdone⟩, rfl⟩

/-- `a.prereq_id not in (select courseid ...)` is never `NULL`: no column of it can be. -/
theorem prereqValid_iff {now : Date} {uni : Text} {callNo : Option Text} :
    prereqValid now (some uni) callNo s = true ↔
      ∀ c, s.sectionAt callNo = some c → Prepared s now uni c.courseId := by
  unfold prereqValid
  rw [Bool.not_eq_true', List.any_eq_false]
  simp only [Bool.not_eq_true', Bool.not_eq_false, List.any_eq_true, List.mem_filter, and_imp]
  cases hc : s.sectionAt callNo with
  | none =>
    -- with no section there is no course, and nothing is needed
    simp [Collation.eqN_none]
  | some c =>
    simp only [Option.map_some, Collation.eqN_some, Option.some.injEq, forall_eq']
    constructor
    · intro h r hr hrc
      obtain ⟨x, ⟨hx, hxu⟩, hxc⟩ := h r hr hrc
      obtain ⟨q, hq, d, hd, he, -, rfl⟩ := mem_completedCourse.1 hx
      exact ⟨q, hq, d, hd, hxu, he, hxc, hx⟩
    · intro h r hr hrc
      obtain ⟨q, hq, d, hd, hqu, -, hrd, hx⟩ := h r hr hrc
      exact ⟨_, ⟨hx, hqu⟩, hrd⟩

/-- `faculty_limit` counts sections. A uni that fits its parameter is compared as it is. -/
theorem facultyLimit_iff (hfk : ForeignKeys s) {uni : Text} (hlen : uni.length ≤ 11) {callNo : Option Text} :
    facultyLimit (some uni) callNo s = .ok true ↔
      ∀ c, s.sectionAt callNo = some c → (s.sectionsOf uni c.year c.semester).length < 3 := by
  have hv : varchar 11 "this_uni" uni = .ok uni := varchar_of_le hlen
  cases hc : s.sectionAt callNo with
  | none =>
    -- no year equals `NULL`, so nothing is counted
    unfold facultyLimit
    rw [mapM_varchar hlen, hc]
    simp only [ok_bind, Option.map_none, pure, Except.pure]
    simp
  | some c =>
    have hcount : (s.taught uni c.year c.semester).length = (s.sectionsOf uni c.year c.semester).length :=
      le_antisymm (taught_le_sectionsOf hfk uni c.year c.semester) (sectionsOf_le s uni c.year c.semester)
    rw [facultyLimit_eq hv hc, hcount]
    simp

/-! ## The trigger -/

/-- The two kinds are told apart by every collation. -/
theorem not_both_kinds {p : Person} (hst : S.eq p.type Kind.student.type = true) :
    ¬S.eq p.type Kind.faculty.type = true := by
  intro hf
  have heq : Kind.student = Kind.faculty := type_eq_iff.1 (Collation.trans (Collation.symm hst) hf)
  cases heq

theorem admits_iff_permitted (hfk : ForeignKeys s) {now : Date} {uni : Text} (hlen : uni.length ≤ 11)
    {callNo : Option Text} :
    (∃ p ∈ s.person.rows, S.eq p.uni uni = true ∧ Admits s now p (some uni) callNo) ↔
      Permitted s now uni callNo := by
  constructor
  · rintro ⟨p, hp, hpu, ha⟩
    rcases ha.kind with hst | hf
    · obtain ⟨c, hc, limit, hlim, hlt⟩ := (studentLimit_iff hfk).1 (ha.student hst)
      have hprep := prereqValid_iff.1 (ha.prereq hst) c hc
      obtain ⟨hcm, hcn⟩ := sectionAt_eq_some.1 hc
      exact .student hp hpu hst hcm hcn hlim hlt hprep
    · have hlimit := (facultyLimit_iff hfk hlen).1 (ha.faculty hf)
      exact .faculty hp hpu hf fun c hc hcn => hlimit c (sectionAt_eq_some.2 ⟨hc, hcn⟩)
  · intro h
    cases h with
    | @student p c limit hp hpu hst hc hcn hlim hlt hprep =>
      have hat : s.sectionAt callNo = some c := sectionAt_eq_some.2 ⟨hc, hcn⟩
      have hpre : prereqValid now (some uni) callNo s = true := by
        refine prereqValid_iff.2 fun d hd => ?_
        rw [hat] at hd
        cases hd
        exact hprep
      have hspot : studentLimit callNo s = true := (studentLimit_iff hfk).2 ⟨c, hat, limit, hlim, hlt⟩
      exact ⟨p, hp, hpu, .inl hst, fun _ => hpre, fun _ => hspot, fun hf => absurd hf (not_both_kinds hst)⟩
    | @faculty p hp hpu hf hlimit =>
      have hok : facultyLimit (some uni) callNo s = .ok true :=
        (facultyLimit_iff hfk hlen).2 fun c hc =>
          hlimit c (sectionAt_eq_some.1 hc).1 (sectionAt_eq_some.1 hc).2
      have hst : ¬S.eq p.type Kind.student.type = true := fun hst => not_both_kinds hst hf
      exact ⟨p, hp, hpu, .inr hf, fun h => absurd h hst, fun h => absurd h hst, fun _ => hok⟩

/-- An error of the trigger is an error of the statement, which then changes nothing. -/
theorem insertParticipant_refused {now : Date} {uni : Text} (hlen : uni.length ≤ 12) {given callNo : Option Text}
    {e : SqlError} (hgiven : given.mapM (char 5 "section_call_no") = .ok callNo)
    (he : triggerInsertParticipant now (some uni) callNo s = .error e) :
    (Op.insertParticipant now (some uni) given).proc.run s = (.error e, s) := by
  have hins : School.insertParticipant now (some uni) given s = .error e := by
    unfold insertParticipant
    rw [mapM_varchar hlen, ok_bind, hgiven, ok_bind, he, error_bind]
  simp only [Op.proc]
  rw [Proc.run_exec, hins]

/-- **The trigger admits exactly the permitted rows.** For any other row it raises an
error, and the insertion leaves every table as it was. -/
theorem participant_admitted_iff (s : State S) (hfk : ForeignKeys s) (now : Date) (uni : Text)
    (hlen : uni.length ≤ 11) (callNo : Option Text) :
    (triggerInsertParticipant now (some uni) callNo s = .ok () ↔ Permitted s now uni callNo) ∧
      (¬Permitted s now uni callNo → ∃ e, triggerInsertParticipant now (some uni) callNo s = .error e ∧
        ∀ given, given.mapM (char 5 "section_call_no") = .ok callNo →
          (Op.insertParticipant now (some uni) given).proc.run s = (.error e, s)) := by
  have hiff : triggerInsertParticipant now (some uni) callNo s = .ok () ↔ Permitted s now uni callNo := by
    rw [← admits_iff_permitted hfk hlen]
    constructor
    · exact triggerInsertParticipant_ok
    · rintro ⟨p, hp, hpu, ha⟩
      exact ha.trigger hp hpu
  refine ⟨hiff, fun hno => ?_⟩
  obtain ⟨e, he⟩ := exists_error (x := triggerInsertParticipant now (some uni) callNo s)
    (fun _ hok => hno (hiff.1 hok))
  exact ⟨e, he, fun given hgiven => insertParticipant_refused (by omega) hgiven he⟩

/-- A student gets the spot of the only section, and none in a section that is not there. -/
theorem one_spot_admission : Permitted oneSpot ⟨2017, 10⟩ "PEJU1".toList (some "00003".toList) ∧
    ∃ e, (Op.insertParticipant ⟨2017, 10⟩ (some "PEJU1".toList) (some "00004".toList)).proc.run oneSpot =
      (.error e, oneSpot) := by
  have hknown := participant_admitted_iff oneSpot oneSpot_ok.1 ⟨2017, 10⟩ "PEJU1".toList (by decide)
    (some "00003".toList)
  have hunknown := participant_admitted_iff oneSpot oneSpot_ok.1 ⟨2017, 10⟩ "PEJU1".toList (by decide)
    (some "00004".toList)
  refine ⟨hknown.1.1 (by decide +kernel), ?_⟩
  have hno : ¬Permitted oneSpot ⟨2017, 10⟩ "PEJU1".toList (some "00004".toList) := by
    rw [← hunknown.1]
    decide +kernel
  obtain ⟨e, -, he⟩ := hunknown.2 hno
  exact ⟨e, he (some "00004".toList) rfl⟩

end Coms4111.School
