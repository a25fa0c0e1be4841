import Coms4111.Sql.Join

/-!
# Courses, sections and enrollments (`hw2/ddl.sql`, `hw2/story.sql`)

The five tables with their keys and foreign keys, insertions and deletions, and the four stories:
a deletion that is refused, and three queries. A derived table (`SELECT ... AS a`) is a list
of its own rows, and a join is a nested loop in the order of the `FROM`.

As before, `none` is `NULL` and integers are unbounded.
-/

namespace Coms4111.Stories

open Sql

/-- **The server**: its collation, and how it compares a text with a number. -/
structure Server extends Collation where
  toNumber : Text → ℚ

structure Faculty where
  facultyId : ℤ
  lastName : Text
  firstName : Text
  department : Option Text
  deriving DecidableEq

structure Student where
  studentId : Text
  lastName : Text
  firstName : Text
  major : Option Text
  deriving DecidableEq

structure Course where
  courseId : ℤ
  department : Text
  courseNumber : Text
  academicYear : ℤ
  semester : Text
  deriving DecidableEq

structure Section where
  callerId : ℤ
  courseId : ℤ
  facultyId : Option ℤ
  sectionNumber : ℤ
  deriving DecidableEq

/-- A row of `Enrollment`, which has no key. -/
structure Enrollment where
  studentId : Text
  callerId : ℤ
  grade : Option ℤ
  registerStatus : Text
  deriving DecidableEq

/-- **The tables.** -/
structure State (S : Server) where
  faculty : Table Faculty (Unique.key Faculty.facultyId)
  student : Table Student (Unique.key fun r => S.key r.studentId)
  course : Table Course (Unique.key Course.courseId)
  sections : Table Section (Unique.key Section.callerId)
  enrollment : List Enrollment

variable {S : Server}

def State.empty : State S := ⟨.empty, .empty, .empty, .empty, []⟩

/-! ## `INSERT` -/

/-- Storing into a `varchar(n) NOT NULL`. -/
def text (n : ℕ) (column : String) (value : Option Text) : Except SqlError Text := do
  varchar n column (← notNull column value)

def insertFaculty (facultyId : Option ℤ) (lastName firstName department : Option Text) (s : State S) :
    Except SqlError (State S) := do
  let row : Faculty := ⟨← notNull "FacultyID" facultyId, ← text 20 "LastName" lastName,
    ← text 20 "FirstName" firstName, ← department.mapM (varchar 20 "Department")⟩
  return { s with faculty := ← s.faculty.insert row }

def insertStudent (studentId lastName firstName major : Option Text) (s : State S) :
    Except SqlError (State S) := do
  let row : Student := ⟨← text 6 "StudentID" studentId, ← text 20 "LastName" lastName,
    ← text 20 "FirstName" firstName, ← major.mapM (varchar 20 "Major")⟩
  return { s with student := ← s.student.insert row }

def insertCourse (courseId : Option ℤ) (department courseNumber : Option Text) (academicYear : Option ℤ)
    (semester : Option Text) (s : State S) : Except SqlError (State S) := do
  let row : Course := ⟨← notNull "CourseID" courseId, ← text 20 "Department" department,
    ← text 20 "CourseNumber" courseNumber, ← notNull "AcademicYear" academicYear, ← text 6 "Semester" semester⟩
  return { s with course := ← s.course.insert row }

def insertSection (callerId courseId facultyId sectionNumber : Option ℤ) (s : State S) :
    Except SqlError (State S) := do
  let row : Section := ⟨← notNull "CallerID" callerId, ← notNull "CourseID" courseId, facultyId,
    ← notNull "SectionNumber" sectionNumber⟩
  let T ← s.sections.insert row
  references "FK_Section_CourseID" (s.course.rows.any fun c => c.courseId == row.courseId)
  -- a section without a faculty refers to nothing
  references "FK_Section_FacultyID" (row.facultyId.all fun id => s.faculty.rows.any fun f => f.facultyId == id)
  return { s with sections := T }

def insertEnrollment (studentId : Option Text) (callerId grade : Option ℤ) (registerStatus : Option Text)
    (s : State S) : Except SqlError (State S) := do
  let row : Enrollment := ⟨← text 6 "StudentID" studentId, ← notNull "CallerID" callerId, grade,
    ← text 10 "RegisterStatus" registerStatus⟩
  references "FK_Enroll_StudentID" (s.student.rows.any fun r => S.eq r.studentId row.studentId)
  references "FK_Enroll_CallerID" (s.sections.rows.any fun c => c.callerId == row.callerId)
  return { s with enrollment := s.enrollment ++ [row] }

/-! ## `DELETE` -/

/-- `DELETE FROM Faculty`, the first story. -/
def deleteFaculty (p : Faculty → Bool) (s : State S) : Except SqlError (State S) := do
  references "FK_Section_FacultyID" !(s.faculty.rows.any fun f => p f &&
    s.sections.rows.any fun c => c.facultyId == some f.facultyId)
  return { s with faculty := s.faculty.delete p }

def deleteStudent (p : Student → Bool) (s : State S) : Except SqlError (State S) := do
  references "FK_Enroll_StudentID" !(s.student.rows.any fun r => p r &&
    s.enrollment.any fun e => S.eq r.studentId e.studentId)
  return { s with student := s.student.delete p }

def deleteCourse (p : Course → Bool) (s : State S) : Except SqlError (State S) := do
  references "FK_Section_CourseID" !(s.course.rows.any fun k => p k &&
    s.sections.rows.any fun c => k.courseId == c.courseId)
  return { s with course := s.course.delete p }

def deleteSection (p : Section → Bool) (s : State S) : Except SqlError (State S) := do
  references "FK_Enroll_CallerID" !(s.sections.rows.any fun c => p c &&
    s.enrollment.any fun e => c.callerId == e.callerId)
  return { s with sections := s.sections.delete p }

def deleteEnrollment (p : Enrollment → Bool) (s : State S) : State S :=
  { s with enrollment := s.enrollment.filter fun e => !p e }

/-! ## The queries -/

/-- A row of `(SELECT ... FROM Course JOIN Section ...) AS a`. -/
structure Offered where
  department : Text
  courseNumber : Text
  academicYear : ℤ
  semester : Text
  callerId : ℤ
  facultyId : Option ℤ
  deriving DecidableEq

def offered (s : State S) : List Offered :=
  (join (fun k c => k.courseId == c.courseId) s.course.rows s.sections.rows).map fun p =>
    ⟨p.1.department, p.1.courseNumber, p.1.academicYear, p.1.semester, p.2.callerId, p.2.facultyId⟩

/-- `a.CourseNumber = 4111 and a.Department = "COMS"`. The first is a text compared with a
number. -/
def Offered.isComs4111 (S : Server) (a : Offered) : Bool :=
  S.toNumber a.courseNumber == 4111 && S.eq a.department "COMS".toList

structure Taught where
  lastName : Text
  firstName : Text
  callerId : ℤ
  department : Text
  courseNumber : Text
  semester : Text
  academicYear : ℤ
  deriving DecidableEq

/-- **Story 2**: who has taught COMS4111, and when. -/
def story2 (s : State S) : List Taught :=
  ((join (fun f a => a.facultyId == some f.facultyId) s.faculty.rows (offered s)).filter
    fun p => p.2.isComs4111 S).map fun p =>
      ⟨p.1.lastName, p.1.firstName, p.2.callerId, p.2.department, p.2.courseNumber, p.2.semester,
        p.2.academicYear⟩

/-- A row of `(SELECT ... FROM Student JOIN Enrollment ...) AS b`. -/
structure Enrolled where
  lastName : Text
  firstName : Text
  studentId : Text
  callerId : ℤ
  grade : Option ℤ
  registerStatus : Text
  deriving DecidableEq

/-- The derived table of the third and the fourth story. Each selects some of these columns. -/
def enrolled (s : State S) : List Enrolled :=
  (join (fun r e => S.eq r.studentId e.studentId) s.student.rows s.enrollment).map fun p =>
    ⟨p.1.lastName, p.1.firstName, p.1.studentId, p.2.callerId, p.2.grade, p.2.registerStatus⟩

structure Assistant where
  sLastname : Text
  sFirstname : Text
  department : Text
  courseNumber : Text
  academicYear : ℤ
  semester : Text
  callerId : ℤ
  grade : Option ℤ
  fLastname : Text
  fFirstname : Text
  deriving DecidableEq

/-- **Story 3**: who took COMS4111 before 2017 with a good grade, when, and with whom. -/
def story3 (s : State S) : List Assistant :=
  ((join (fun p f => p.1.facultyId == some f.facultyId)
      (join (fun a b => a.callerId == b.callerId) (offered s) (enrolled s)) s.faculty.rows).filter fun p =>
        p.1.1.isComs4111 S && decide (p.1.1.academicYear < 2017) && p.1.2.grade.any fun g => decide (g > 95)).map
    fun p => ⟨p.1.2.lastName, p.1.2.firstName, p.1.1.department, p.1.1.courseNumber, p.1.1.academicYear,
      p.1.1.semester, p.1.1.callerId, p.1.2.grade, p.2.lastName, p.2.firstName⟩

/-- A row of `(SELECT ... FROM Faculty JOIN Section ...) AS a`. -/
structure Teacher where
  lastName : Text
  firstName : Text
  callerId : ℤ
  facultyId : Option ℤ
  deriving DecidableEq

def teachers (s : State S) : List Teacher :=
  (join (fun f c => c.facultyId == some f.facultyId) s.faculty.rows s.sections.rows).map fun p =>
    ⟨p.1.lastName, p.1.firstName, p.2.callerId, p.2.facultyId⟩

/-- **Story 4**: the names of the professors of a student, here for any name. -/
def story4 (lastName firstName : Text) (s : State S) : List (Text × Text) :=
  distinct (fun x y => S.eq x.1 y.1 && S.eq x.2 y.2)
    (((join (fun a b => a.callerId == b.callerId) (teachers s) (enrolled s)).filter fun p =>
      S.eq p.2.lastName lastName && S.eq p.2.firstName firstName &&
        S.eq p.2.registerStatus "enrolled".toList).map fun p => (p.1.lastName, p.1.firstName))

/-! ## Runs -/

inductive Op
  | insertFaculty (facultyId : Option ℤ) (lastName firstName department : Option Text)
  | insertStudent (studentId lastName firstName major : Option Text)
  | insertCourse (courseId : Option ℤ) (department courseNumber : Option Text) (academicYear : Option ℤ)
      (semester : Option Text)
  | insertSection (callerId courseId facultyId sectionNumber : Option ℤ)
  | insertEnrollment (studentId : Option Text) (callerId grade : Option ℤ) (registerStatus : Option Text)
  | deleteFaculty (p : Faculty → Bool)
  | deleteStudent (p : Student → Bool)
  | deleteCourse (p : Course → Bool)
  | deleteSection (p : Section → Bool)
  | deleteEnrollment (p : Enrollment → Bool)

def Op.exec : Op → State S → Except SqlError (State S)
  | .insertFaculty facultyId lastName firstName department =>
    Stories.insertFaculty facultyId lastName firstName department
  | .insertStudent studentId lastName firstName major => Stories.insertStudent studentId lastName firstName major
  | .insertCourse courseId department courseNumber academicYear semester =>
    Stories.insertCourse courseId department courseNumber academicYear semester
  | .insertSection callerId courseId facultyId sectionNumber =>
    Stories.insertSection callerId courseId facultyId sectionNumber
  | .insertEnrollment studentId callerId grade registerStatus =>
    Stories.insertEnrollment studentId callerId grade registerStatus
  | .deleteFaculty p => Stories.deleteFaculty p
  | .deleteStudent p => Stories.deleteStudent p
  | .deleteCourse p => Stories.deleteCourse p
  | .deleteSection p => Stories.deleteSection p
  | .deleteEnrollment p => fun s => .ok (Stories.deleteEnrollment p s)

/-- The tables after a statement: a refused one changes nothing. -/
def Op.run (s : State S) (op : Op) : State S :=
  match op.exec s with
  | .ok s' => s'
  | .error _ => s

def run (ops : List Op) (s : State S) : State S := ops.foldl Op.run s

end Coms4111.Stories
