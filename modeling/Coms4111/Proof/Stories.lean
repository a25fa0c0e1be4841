import Coms4111.Spec.Stories

/-!
# The stories, in every state of every run

The queries join derived tables in an order of their own. Because every reference has its row, they
come down to lookups:

* `references_hold`: along every run of insertions and deletions, every reference has its row.
* `story2_lists_sections`: each section of COMS4111 that has a faculty is listed once.
* `story3_lists_enrollments`: each good grade in such a section before 2017 is listed once.
* `story4_lists_professors`: the names of a student's professors are listed, none of them twice.
-/

namespace Coms4111.Stories

open Sql

variable {S : Server} {s s' : State S}

/-! ## References -/

/-- **Every reference has its row.** -/
structure Integrity (s : State S) : Prop where
  course : ∀ c ∈ s.sections.rows, ∃ k ∈ s.course.rows, k.courseId = c.courseId
  faculty : ∀ c ∈ s.sections.rows, ∀ id, c.facultyId = some id → ∃ f ∈ s.faculty.rows, f.facultyId = id
  student : ∀ e ∈ s.enrollment, ∃ r ∈ s.student.rows, S.eq r.studentId e.studentId = true
  sections : ∀ e ∈ s.enrollment, ∃ c ∈ s.sections.rows, c.callerId = e.callerId

/-- A row that is referred to is not deleted. -/
theorem not_deleted {α β : Type} {l : List α} {r : List β} {p : α → Bool} {refers : α → β → Bool}
    (h : (!(l.any fun a => p a && r.any (refers a))) = true) {a : α} (ha : a ∈ l) {b : β} (hb : b ∈ r)
    (hab : refers a b = true) : a ∈ l.filter fun a => !p a := by
  rw [Bool.not_eq_true', List.any_eq_false] at h
  have hnot := h a ha
  refine List.mem_filter.2 ⟨ha, ?_⟩
  cases hp : p a with
  | false => rfl
  | true => exact absurd (by rw [hp, Bool.true_and, List.any_eq_true]; exact ⟨b, hb, hab⟩) hnot

/-- **A statement that is accepted keeps the references.** -/
theorem Integrity.exec (h : Integrity s) {op : Op} (hop : op.exec s = .ok s') : Integrity s' := by
  cases op with
  | insertFaculty facultyId lastName firstName department =>
    simp only [Op.exec, insertFaculty, bind_eq_ok] at hop
    obtain ⟨_, -, _, -, _, -, _, -, T, hT, hop⟩ := hop
    cases hop
    obtain ⟨hrows, -⟩ := Table.insert_ok hT
    refine ⟨h.course, fun c hc id hid => ?_, h.student, h.sections⟩
    obtain ⟨f, hf, hfid⟩ := h.faculty c hc id hid
    exact ⟨f, by rw [hrows]; exact List.mem_append_left _ hf, hfid⟩
  | insertStudent studentId lastName firstName major =>
    simp only [Op.exec, insertStudent, bind_eq_ok] at hop
    obtain ⟨_, -, _, -, _, -, _, -, T, hT, hop⟩ := hop
    cases hop
    obtain ⟨hrows, -⟩ := Table.insert_ok hT
    refine ⟨h.course, h.faculty, fun e he => ?_, h.sections⟩
    obtain ⟨r, hr, hre⟩ := h.student e he
    exact ⟨r, by rw [hrows]; exact List.mem_append_left _ hr, hre⟩
  | insertCourse courseId department courseNumber academicYear semester =>
    simp only [Op.exec, insertCourse, bind_eq_ok] at hop
    obtain ⟨_, -, _, -, _, -, _, -, _, -, T, hT, hop⟩ := hop
    cases hop
    obtain ⟨hrows, -⟩ := Table.insert_ok hT
    refine ⟨fun c hc => ?_, h.faculty, h.student, h.sections⟩
    obtain ⟨k, hk, hkc⟩ := h.course c hc
    exact ⟨k, by rw [hrows]; exact List.mem_append_left _ hk, hkc⟩
  | insertSection callerId courseId facultyId sectionNumber =>
    simp only [Op.exec, insertSection, bind_eq_ok, references_eq_ok] at hop
    obtain ⟨call, -, course, -, number, -, T, hT, _, hcourse, _, hfaculty, hop⟩ := hop
    cases hop
    obtain ⟨hrows, -⟩ := Table.insert_ok hT
    refine ⟨fun c hc => ?_, fun c hc id hid => ?_, h.student, fun e he => ?_⟩
    · rw [hrows, List.mem_append, List.mem_singleton] at hc
      rcases hc with hc | rfl
      · exact h.course c hc
      · rw [List.any_eq_true] at hcourse
        obtain ⟨k, hk, hkc⟩ := hcourse
        exact ⟨k, hk, beq_iff_eq.1 hkc⟩
    · rw [hrows, List.mem_append, List.mem_singleton] at hc
      rcases hc with hc | rfl
      · exact h.faculty c hc id hid
      · simp only at hid
        rw [hid, Option.all_some, List.any_eq_true] at hfaculty
        obtain ⟨f, hf, hfid⟩ := hfaculty
        exact ⟨f, hf, beq_iff_eq.1 hfid⟩
    · obtain ⟨c, hc, hce⟩ := h.sections e he
      exact ⟨c, by rw [hrows]; exact List.mem_append_left _ hc, hce⟩
  | insertEnrollment studentId callerId grade registerStatus =>
    simp only [Op.exec, insertEnrollment, bind_eq_ok, references_eq_ok] at hop
    obtain ⟨id, -, call, -, status, -, _, hstudent, _, hsection, hop⟩ := hop
    cases hop
    rw [List.any_eq_true] at hstudent hsection
    refine ⟨h.course, h.faculty, fun e he => ?_, fun e he => ?_⟩
    · rw [List.mem_append, List.mem_singleton] at he
      rcases he with he | rfl
      · exact h.student e he
      · exact hstudent
    · rw [List.mem_append, List.mem_singleton] at he
      rcases he with he | rfl
      · exact h.sections e he
      · obtain ⟨c, hc, hce⟩ := hsection
        exact ⟨c, hc, beq_iff_eq.1 hce⟩
  | deleteFaculty p =>
    simp only [Op.exec, deleteFaculty, bind_eq_ok, references_eq_ok] at hop
    obtain ⟨_, hno, hop⟩ := hop
    cases hop
    refine ⟨h.course, fun c hc id hid => ?_, h.student, h.sections⟩
    obtain ⟨f, hf, hfid⟩ := h.faculty c hc id hid
    have hrefers : (c.facultyId == some f.facultyId) = true := by rw [hid, hfid, beq_self_eq_true]
    exact ⟨f, not_deleted hno hf hc hrefers, hfid⟩
  | deleteStudent p =>
    simp only [Op.exec, deleteStudent, bind_eq_ok, references_eq_ok] at hop
    obtain ⟨_, hno, hop⟩ := hop
    cases hop
    refine ⟨h.course, h.faculty, fun e he => ?_, h.sections⟩
    obtain ⟨r, hr, hre⟩ := h.student e he
    exact ⟨r, not_deleted hno hr he hre, hre⟩
  | deleteCourse p =>
    simp only [Op.exec, deleteCourse, bind_eq_ok, references_eq_ok] at hop
    obtain ⟨_, hno, hop⟩ := hop
    cases hop
    refine ⟨fun c hc => ?_, h.faculty, h.student, h.sections⟩
    obtain ⟨k, hk, hkc⟩ := h.course c hc
    exact ⟨k, not_deleted hno hk hc (beq_iff_eq.2 hkc), hkc⟩
  | deleteSection p =>
    simp only [Op.exec, deleteSection, bind_eq_ok, references_eq_ok] at hop
    obtain ⟨_, hno, hop⟩ := hop
    cases hop
    refine ⟨fun c hc => h.course c (List.mem_of_mem_filter hc),
      fun c hc => h.faculty c (List.mem_of_mem_filter hc), h.student, fun e he => ?_⟩
    obtain ⟨c, hc, hce⟩ := h.sections e he
    exact ⟨c, not_deleted hno hc he (beq_iff_eq.2 hce), hce⟩
  | deleteEnrollment p =>
    cases hop
    exact ⟨h.course, h.faculty, fun e he => h.student e (List.mem_of_mem_filter he),
      fun e he => h.sections e (List.mem_of_mem_filter he)⟩

theorem Integrity.run (h : Integrity s) (ops : List Op) : Integrity (run ops s) := by
  unfold Stories.run
  induction ops generalizing s with
  | nil => exact h
  | cons op ops ih =>
    refine ih ?_
    unfold Op.run
    cases hop : op.exec s with
    | ok s' => exact h.exec hop
    | error e => exact h

theorem integrity_empty : Integrity (State.empty : State S) := by
  refine ⟨?_, ?_, ?_, ?_⟩ <;> exact fun _ h => absurd h List.not_mem_nil

/-- **References along runs.** In every state of every run every reference has its row, and a faculty
can be deleted exactly if no section refers to it. -/
theorem references_hold (ops : List Op) (p : Faculty → Bool) :
    let t : State S := run ops .empty
    Integrity t ∧ ((∃ t', deleteFaculty p t = .ok t') ↔
      ∀ f ∈ t.faculty.rows, p f = true → ∀ c ∈ t.sections.rows, c.facultyId ≠ some f.facultyId) := by
  intro t
  refine ⟨integrity_empty.run ops, ?_⟩
  simp only [deleteFaculty, bind_eq_ok, references_eq_ok, Bool.not_eq_true', List.any_eq_false, Bool.and_eq_true,
    not_and, Bool.not_eq_true, beq_eq_false_iff_ne]
  constructor
  · rintro ⟨t', _, h, -⟩
    exact h
  · intro h
    exact ⟨_, (), h, rfl⟩

/-! ## Lookups -/

namespace State

variable (s : State S)

def courseOf (c : Section) : Option Course := s.course.rows.find? fun k => k.courseId == c.courseId

def facultyOf (id : Option ℤ) : Option Faculty := s.faculty.rows.find? fun f => id == some f.facultyId

def studentOf (e : Enrollment) : Option Student := s.student.rows.find? fun r => S.eq r.studentId e.studentId

def sectionOf (callerId : ℤ) : Option Section := s.sections.rows.find? fun c => c.callerId == callerId

/-- The section as the derived table has it. -/
def offeredAs (c : Section) : Option Offered := (s.courseOf c).map fun k =>
  ⟨k.department, k.courseNumber, k.academicYear, k.semester, c.callerId, c.facultyId⟩

/-- The enrollment as the derived table has it. -/
def enrolledAs (e : Enrollment) : Option Enrolled := (s.studentOf e).map fun r =>
  ⟨r.lastName, r.firstName, r.studentId, e.callerId, e.grade, e.registerStatus⟩

theorem filter_course (c : Section) :
    (s.course.rows.filter fun k => k.courseId == c.courseId) = (s.courseOf c).toList := by
  refine s.course.filter_eq_toList fun a b ha hb => ?_
  rw [beq_iff_eq] at ha hb
  exact beq_iff_eq.2 (ha.trans hb.symm)

theorem filter_faculty (id : Option ℤ) :
    (s.faculty.rows.filter fun f => id == some f.facultyId) = (s.facultyOf id).toList := by
  refine s.faculty.filter_eq_toList fun a b ha hb => ?_
  rw [beq_iff_eq] at ha hb
  exact beq_iff_eq.2 (Option.some.inj (ha.symm.trans hb))

theorem filter_student (e : Enrollment) :
    (s.student.rows.filter fun r => S.eq r.studentId e.studentId) = (s.studentOf e).toList := by
  refine s.student.filter_eq_toList fun a b ha hb => ?_
  rw [Unique.key_clash]
  exact Collation.trans ha (Collation.symm hb)

theorem filter_section (callerId : ℤ) :
    (s.sections.rows.filter fun c => c.callerId == callerId) = (s.sectionOf callerId).toList := by
  refine s.sections.filter_eq_toList fun a b ha hb => ?_
  rw [beq_iff_eq] at ha hb
  exact beq_iff_eq.2 (ha.trans hb.symm)

end State

/-- The derived tables, row by row of those that refer. -/
theorem offered_perm (s : State S) : (offered s).Perm (s.sections.rows.filterMap s.offeredAs) := by
  have hjoin := join_perm (fun k c => k.courseId == c.courseId) s.course.rows s.sections.rows s.courseOf
    fun c _ => s.filter_course c
  refine (hjoin.map _).trans (List.Perm.of_eq ?_)
  rw [List.map_filterMap]
  refine List.filterMap_congr fun c _ => ?_
  unfold State.offeredAs
  cases s.courseOf c <;> rfl

theorem enrolled_perm (s : State S) : (enrolled s).Perm (s.enrollment.filterMap s.enrolledAs) := by
  have hjoin := join_perm (fun r e => S.eq r.studentId e.studentId) s.student.rows s.enrollment s.studentOf
    fun e _ => s.filter_student e
  refine (hjoin.map _).trans (List.Perm.of_eq ?_)
  rw [List.map_filterMap]
  refine List.filterMap_congr fun e _ => ?_
  unfold State.enrolledAs
  cases s.studentOf e <;> rfl

/-! ## Story 2 -/

/-- The row for a section. -/
def State.taughtRow (s : State S) (c : Section) : Option Taught :=
  (s.offeredAs c).bind fun a => (s.facultyOf c.facultyId).bind fun f =>
    if a.isComs4111 S then
      some ⟨f.lastName, f.firstName, c.callerId, a.department, a.courseNumber, a.semester, a.academicYear⟩
    else none

theorem story2_perm (s : State S) : (story2 s).Perm (s.sections.rows.filterMap s.taughtRow) := by
  have hjoin :=
    (join_perm_right (fun f a => a.facultyId == some f.facultyId) s.faculty.rows (offered_perm s)).trans
    (join_perm _ _ _ (fun a => s.facultyOf a.facultyId) fun a _ => s.filter_faculty a.facultyId)
  refine ((hjoin.filter _).map _).trans (List.Perm.of_eq ?_)
  rw [List.filter_filterMap, List.map_filterMap, List.filterMap_filterMap]
  refine List.filterMap_congr fun c _ => ?_
  unfold State.taughtRow State.offeredAs
  cases s.courseOf c with
  | none => rfl
  | some k =>
    simp only [Option.map_some, Option.bind_some]
    cases s.facultyOf c.facultyId with
    | none => rfl
    | some f =>
      simp only [Option.map_some, Option.bind_some, Option.filter_some]
      split <;> rfl

/-- The section is one of COMS4111. -/
def State.isComs4111 (s : State S) (c : Section) : Bool := (s.offeredAs c).any fun a => a.isComs4111 S

theorem Integrity.courseOf (h : Integrity s) {c : Section} (hc : c ∈ s.sections.rows) :
    ∃ k, s.courseOf c = some k := by
  obtain ⟨k, hk, hkc⟩ := h.course c hc
  exact Option.isSome_iff_exists.1 (List.find?_isSome.2 ⟨k, hk, beq_iff_eq.2 hkc⟩)

theorem Integrity.isSome_facultyOf (h : Integrity s) {c : Section} (hc : c ∈ s.sections.rows) :
    (s.facultyOf c.facultyId).isSome = c.facultyId.isSome := by
  cases hid : c.facultyId with
  | none =>
    unfold State.facultyOf
    rw [List.find?_eq_none.2 fun f _ => by simp]
    rfl
  | some id =>
    obtain ⟨f, hf, hfid⟩ := h.faculty c hc id hid
    exact List.find?_isSome.2 ⟨f, hf, by rw [hfid, beq_self_eq_true]⟩

theorem Integrity.isSome_taughtRow (h : Integrity s) {c : Section} (hc : c ∈ s.sections.rows) :
    (s.taughtRow c).isSome = (c.facultyId.isSome && s.isComs4111 c) := by
  rw [← h.isSome_facultyOf hc]
  unfold State.taughtRow State.isComs4111
  cases s.offeredAs c with
  | none => simp
  | some a =>
    cases s.facultyOf c.facultyId with
    | none => rfl
    | some f =>
      simp only [Option.bind_some, Option.any_some, Option.isSome_some, Bool.true_and]
      cases a.isComs4111 S <;> rfl

/-- **Story 2** lists, in every state of every run, each section of COMS4111 that has a faculty once,
with its own course and faculty. -/
theorem story2_lists_sections (ops : List Op) :
    let t : State S := run ops .empty
    (story2 t).Perm (t.sections.rows.filterMap t.taughtRow) ∧
      ∀ c ∈ t.sections.rows, (t.taughtRow c).isSome = (c.facultyId.isSome && t.isComs4111 c) := by
  intro t
  have hint : Integrity t := integrity_empty.run ops
  exact ⟨story2_perm t, fun c hc => hint.isSome_taughtRow hc⟩

/-! ## Story 3 -/

/-- The row for an enrollment. -/
def State.assistantRow (s : State S) (e : Enrollment) : Option Assistant :=
  (s.enrolledAs e).bind fun b => (s.sectionOf e.callerId).bind fun c => (s.offeredAs c).bind fun a =>
    (s.facultyOf c.facultyId).bind fun f =>
      if a.isComs4111 S && decide (a.academicYear < 2017) && e.grade.any fun g => decide (g > 95) then
        some ⟨b.lastName, b.firstName, a.department, a.courseNumber, a.academicYear, a.semester,
          c.callerId, e.grade, f.lastName, f.firstName⟩
      else none

/-- The derived table at a number. -/
theorem filter_offered (s : State S) (callerId : ℤ) :
    ((s.sections.rows.filterMap s.offeredAs).filter fun a => a.callerId == callerId) =
      ((s.sectionOf callerId).bind s.offeredAs).toList := by
  have hrow : ∀ c, (s.offeredAs c).filter (fun a => a.callerId == callerId) =
      if c.callerId == callerId then s.offeredAs c else none := by
    intro c
    unfold State.offeredAs
    cases s.courseOf c with
    | none => simp
    | some k => rfl
  have hselect : (s.sections.rows.filterMap s.offeredAs).filter (fun a => a.callerId == callerId) =
      (s.sections.rows.filter fun c => c.callerId == callerId).filterMap s.offeredAs := by
    rw [List.filter_filterMap, List.filterMap_filter]
    exact List.filterMap_congr fun c _ => hrow c
  rw [hselect, s.filter_section]
  cases s.sectionOf callerId with
  | none => rfl
  | some c =>
    simp only [Option.toList_some, Option.bind_some, List.filterMap_cons, List.filterMap_nil]
    cases s.offeredAs c <;> rfl

theorem sectionOf_eq_some {callerId : ℤ} {c : Section} (h : s.sectionOf callerId = some c) :
    c ∈ s.sections.rows ∧ c.callerId = callerId :=
  ⟨List.mem_of_find?_eq_some h, beq_iff_eq.1 (List.find?_some (p := fun c : Section => c.callerId == callerId) h)⟩

theorem story3_perm (s : State S) : (story3 s).Perm (s.enrollment.filterMap s.assistantRow) := by
  have hinner := ((join_perm_left (fun a b => a.callerId == b.callerId) (enrolled s) (offered_perm s)).trans
    (join_perm_right _ _ (enrolled_perm s))).trans
    (join_perm _ _ _ (fun b => (s.sectionOf b.callerId).bind s.offeredAs) fun b _ => filter_offered s b.callerId)
  have houter := join_perm_left (fun p f => p.1.facultyId == some f.facultyId) s.faculty.rows hinner
  have hfaculty := join_eq_filterMap (fun p f => p.1.facultyId == some f.facultyId)
    ((s.enrollment.filterMap s.enrolledAs).filterMap fun b =>
      ((s.sectionOf b.callerId).bind s.offeredAs).map fun a => (a, b))
    s.faculty.rows (fun p => s.facultyOf p.1.facultyId) fun p _ => s.filter_faculty p.1.facultyId
  rw [hfaculty] at houter
  refine ((houter.filter _).map _).trans (List.Perm.of_eq ?_)
  rw [List.filter_filterMap, List.map_filterMap, List.filterMap_filterMap, List.filterMap_filterMap]
  refine List.filterMap_congr fun e _ => ?_
  unfold State.assistantRow State.enrolledAs
  cases s.studentOf e with
  | none => rfl
  | some r =>
    simp only [Option.map_some, Option.bind_some]
    cases s.sectionOf e.callerId with
    | none => rfl
    | some c =>
      unfold State.offeredAs
      simp only [Option.bind_some]
      cases s.courseOf c with
      | none => rfl
      | some k =>
        simp only [Option.map_some, Option.bind_some]
        cases s.facultyOf c.facultyId with
        | none => rfl
        | some f =>
          simp only [Option.map_some, Option.bind_some, Option.filter_some]
          split <;> rfl

/-- The enrollment is one with a good grade in a section of COMS4111 before 2017 that has a
faculty. -/
def State.isGood (s : State S) (e : Enrollment) : Bool := (s.sectionOf e.callerId).any fun c =>
  c.facultyId.isSome && (s.offeredAs c).any (fun a => a.isComs4111 S && decide (a.academicYear < 2017)) &&
    e.grade.any fun g => decide (g > 95)

theorem Integrity.isSome_assistantRow (h : Integrity s) {e : Enrollment} (he : e ∈ s.enrollment) :
    (s.assistantRow e).isSome = s.isGood e := by
  obtain ⟨r, hr, hre⟩ := h.student e he
  obtain ⟨r', hr'⟩ := Option.isSome_iff_exists.1
    (List.find?_isSome (p := fun r => S.eq r.studentId e.studentId).2 ⟨r, hr, hre⟩)
  have hstudent : s.studentOf e = some r' := hr'
  unfold State.assistantRow State.isGood State.enrolledAs
  rw [hstudent]
  cases hc : s.sectionOf e.callerId with
  | none => rfl
  | some c =>
    simp only [Option.map_some, Option.bind_some, Option.any_some]
    rw [← h.isSome_facultyOf (sectionOf_eq_some hc).1]
    cases s.offeredAs c with
    | none => simp
    | some a =>
      cases s.facultyOf c.facultyId with
      | none => rfl
      | some f =>
        simp only [Option.bind_some, Option.any_some, Option.isSome_some, Bool.true_and]
        cases a.isComs4111 S && decide (a.academicYear < 2017) && e.grade.any fun g => decide (g > 95) <;> rfl

/-- **Story 3** lists, in every state of every run, each enrollment with a good grade in a section of
COMS4111 before 2017 once, with its own student, course and faculty. -/
theorem story3_lists_enrollments (ops : List Op) :
    let t : State S := run ops .empty
    (story3 t).Perm (t.enrollment.filterMap t.assistantRow) ∧
      ∀ e ∈ t.enrollment, (t.assistantRow e).isSome = t.isGood e := by
  intro t
  have hint : Integrity t := integrity_empty.run ops
  exact ⟨story3_perm t, fun e he => hint.isSome_assistantRow he⟩

/-! ## Story 4 -/

/-- The faculty teaches a section that a student of the name is enrolled in. -/
def State.Teaches (s : State S) (lastName firstName : Text) (f : Faculty) : Prop :=
  f ∈ s.faculty.rows ∧ ∃ c ∈ s.sections.rows, c.facultyId = some f.facultyId ∧ ∃ e ∈ s.enrollment,
    c.callerId = e.callerId ∧ S.eq e.registerStatus "enrolled".toList = true ∧ ∃ r ∈ s.student.rows,
      S.eq r.studentId e.studentId = true ∧ S.eq r.lastName lastName = true ∧ S.eq r.firstName firstName = true

/-- What is selected before `DISTINCT`. -/
theorem mem_professors {lastName firstName : Text} {x : Text × Text} :
    x ∈ (((join (fun a b => a.callerId == b.callerId) (teachers s) (enrolled s)).filter fun p =>
      S.eq p.2.lastName lastName && S.eq p.2.firstName firstName &&
        S.eq p.2.registerStatus "enrolled".toList).map fun p => (p.1.lastName, p.1.firstName)) ↔
      ∃ f, s.Teaches lastName firstName f ∧ x = (f.lastName, f.firstName) := by
  simp only [List.mem_map, List.mem_filter, Prod.exists, mem_join, teachers, enrolled,
    Bool.and_eq_true, beq_iff_eq]
  constructor
  · rintro ⟨a, b, ⟨⟨⟨f, c, ⟨hf, hc, hfc⟩, rfl⟩, ⟨r, e, ⟨hr, he, hre⟩, rfl⟩, hce⟩, ⟨hl, hn⟩, hst⟩, rfl⟩
    exact ⟨f, ⟨hf, c, hc, hfc, e, he, hce, hst, r, hr, hre, hl, hn⟩, rfl⟩
  · rintro ⟨f, ⟨hf, c, hc, hfc, e, he, hce, hst, r, hr, hre, hl, hn⟩, rfl⟩
    exact ⟨_, _, ⟨⟨⟨f, c, ⟨hf, hc, hfc⟩, rfl⟩, ⟨r, e, ⟨hr, he, hre⟩, rfl⟩, hce⟩, ⟨hl, hn⟩, hst⟩, rfl⟩

/-- **Story 4** lists the names of the professors of a student: no two are equal to the server, each
belongs to a professor, and every professor's is there. -/
theorem story4_lists_professors (s : State S) (lastName firstName : Text) :
    (story4 lastName firstName s).Pairwise (fun x y => ¬(S.eq x.1 y.1 = true ∧ S.eq x.2 y.2 = true)) ∧
      (∀ x ∈ story4 lastName firstName s, ∃ f, s.Teaches lastName firstName f ∧ x = (f.lastName, f.firstName)) ∧
      ∀ f, s.Teaches lastName firstName f → ∃ x ∈ story4 lastName firstName s,
        S.eq f.lastName x.1 = true ∧ S.eq f.firstName x.2 = true := by
  refine ⟨?_, fun x hx => mem_professors.1 (distinct_subset _ hx), fun f hf => ?_⟩
  · have hsymm : ∀ x y : Text × Text, (S.eq x.1 y.1 && S.eq x.2 y.2) = (S.eq y.1 x.1 && S.eq y.2 x.2) := by
      intro x y
      rw [Collation.eq_symm x.1, Collation.eq_symm x.2]
    refine (distinct_pairwise hsymm _).imp fun {x y} h => ?_
    rw [← Bool.and_eq_true, h]
    exact Bool.false_ne_true
  · have hrefl : ∀ x : Text × Text, (S.eq x.1 x.1 && S.eq x.2 x.2) = true := by
      intro x
      rw [S.eq_self, S.eq_self]
      rfl
    have htrans : ∀ x y z : Text × Text, (S.eq x.1 y.1 && S.eq x.2 y.2) = true →
        (S.eq y.1 z.1 && S.eq y.2 z.2) = true →
        (S.eq x.1 z.1 && S.eq x.2 z.2) = true := by
      intro x y z hxy hyz
      rw [Bool.and_eq_true] at hxy hyz ⊢
      exact ⟨Collation.trans hxy.1 hyz.1, Collation.trans hxy.2 hyz.2⟩
    obtain ⟨x, hx, hfx⟩ := exists_mem_distinct hrefl htrans (mem_professors.2 ⟨f, hf, rfl⟩)
    rw [Bool.and_eq_true] at hfx
    exact ⟨x, hx, hfx⟩

end Coms4111.Stories
