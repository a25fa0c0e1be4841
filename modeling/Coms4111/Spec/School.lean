import Coms4111.Sql.Proc

/-!
# Persons, sections and participants (`hw3/hw3_ddl.sql`, `hw3_procedures.sql`, `hw3_advanced.sql`)

The three tables of the inheritance (`Person` with its derived entities `Student` and
`Faculty`), courses, sections and their participants, with all triggers, the two views, the
six procedures and the functions behind `trigger_insert_participant`.

The procedures for students and for faculty differ in the derived entity only, so each
of the three is written once, over the columns `Sub` of the derived entity.

Arguments are the values bound to the parameters: `none` is `NULL`, and a text is as
long as its parameter allows. A subquery that selects by a primary key is a `find?`.
Integers are unbounded.
-/

namespace Coms4111.School

open Sql

/-- **The server**: its collation, and the conversions that the code relies on. -/
structure Server extends Collation where
  /-- `UPPER`, of one character. -/
  upper : Char → Char
  /-- A text stored in an integer column; `none` if the server refuses it. -/
  toInt : Text → Option ℤ
  /-- A text compared with a number. -/
  toNumber : Text → ℚ

/-- A server that knows ASCII letters and unsigned numerals only. -/
def asciiServer : Server where
  toCollation := asciiCi
  upper := Char.toUpper
  toInt t := if t.all Char.isDigit && !t.isEmpty then some (Nat.ofDigitChars 10 t 0) else none
  toNumber t := if t.all Char.isDigit then Nat.ofDigitChars 10 t 0 else 0

/-! ## Rows -/

/-- The derived entities of `Person`. -/
inductive Kind
  | student
  | faculty
  deriving DecidableEq, Repr

/-- The value of `Person.type`. -/
def Kind.type : Kind → Text
  | .student => "Student".toList
  | .faculty => "Faculty".toList

structure Person where
  uni : Text
  lastName : Text
  firstName : Text
  type : Text
  deriving DecidableEq

structure Student where
  uni : Text
  school : Text
  year : ℤ
  deriving DecidableEq

structure Faculty where
  uni : Text
  payGrade : ℤ
  title : Text
  department : Text
  deriving DecidableEq

/-- A row of `course_participant`. -/
structure Participant where
  uni : Text
  sectionCallNo : Text
  deriving DecidableEq

structure Section where
  callNo : Text
  courseId : Text
  sectionNo : Text
  year : ℤ
  semester : Text
  enrollmentLimit : Option ℤ
  deriving DecidableEq

/-- The values of `courses.faculty_code`. -/
inductive FacultyCode
  | BC | C | E | F | G | V | W | X
  deriving DecidableEq, Repr

def FacultyCode.text : FacultyCode → Text
  | .BC => "BC".toList
  | .C => "C".toList
  | .E => "E".toList
  | .F => "F".toList
  | .G => "G".toList
  | .V => "V".toList
  | .W => "W".toList
  | .X => "X".toList

/-- The values of `courses.level`. -/
inductive Level
  | l0 | l1 | l2 | l3 | l4 | l6 | l8 | l9
  deriving DecidableEq, Repr

def Level.text : Level → Text
  | .l0 => "0".toList
  | .l1 => "1".toList
  | .l2 => "2".toList
  | .l3 => "3".toList
  | .l4 => "4".toList
  | .l6 => "6".toList
  | .l8 => "8".toList
  | .l9 => "9".toList

/-- A row of `courses`, without its texts. -/
structure Course where
  deptCode : Text
  facultyCode : FacultyCode
  level : Level
  number : Text
  deriving DecidableEq

/-- The generated column `course_id`. -/
def Course.courseId (c : Course) : Text := c.deptCode ++ c.facultyCode.text ++ c.level.text ++ c.number

/-- A row of `course_prereqs`. -/
structure Prereq where
  courseId : Text
  prereqId : Text
  deriving DecidableEq

/-- The generated column `section_key`. -/
def Section.sectionKey (c : Section) : Text := decimal c.year ++ c.semester ++ c.courseId ++ c.sectionNo

/-- **The tables.** No operation of a run writes `courses` or `course_prereqs`. -/
@[ext] structure State (S : Server) where
  person : Table Person (Unique.key fun p => S.key p.uni)
  student : Table Student (Unique.key fun r => S.key r.uni)
  faculty : Table Faculty (Unique.key fun r => S.key r.uni)
  participant : Table Participant (Unique.key fun q => (S.key q.uni, S.key q.sectionCallNo))
  sections : Table Section ((Unique.key fun c => S.key c.callNo).or
    (Unique.key fun c => (S.key c.courseId, S.key c.sectionNo, c.year, S.key c.semester)))
  courses : Table Course ((Unique.key fun c => (S.key c.deptCode, c.facultyCode, c.level, S.key c.number)).or
    (Unique.key fun c => S.key c.courseId))
  prereqs : Table Prereq (Unique.key fun r => (S.key r.courseId, S.key r.prereqId))

variable {S : Server}

/-- Empty tables. -/
def State.empty : State S := ⟨.empty, .empty, .empty, .empty, .empty, .empty, .empty⟩

/-- Nobody yet, with the sections and the courses of `s`. -/
def State.cleared (s : State S) : State S :=
  { s with person := .empty, student := .empty, faculty := .empty, participant := .empty }

/-- Only the courses of `s`. -/
def State.start (s : State S) : State S := { s.cleared with sections := .empty }

namespace State

variable (s : State S)

/-- `exists (select * from Person where Person.uni = uni)`. -/
def hasPerson (uni : Option Text) : Bool := s.person.rows.any fun p => S.eqN (some p.uni) uni

/-- The unis of a derived entity. -/
def subUnis : Kind → List Text
  | .student => s.student.rows.map Student.uni
  | .faculty => s.faculty.rows.map Faculty.uni

/-- The derived entity has a row with the uni. -/
def hasSub (k : Kind) (uni : Option Text) : Bool := (s.subUnis k).any fun u => S.eqN (some u) uni

/-- The uni takes part in some section. -/
def hasParticipant (uni : Option Text) : Bool := s.participant.rows.any fun q => S.eqN (some q.uni) uni

/-- The section with the given `call_no`. -/
def sectionAt (callNo : Option Text) : Option Section :=
  s.sections.rows.find? fun c => S.eqN (some c.callNo) callNo

end State

/-! ## `generate_uni` -/

/-- `UPPER(SUBSTR(name, 1, 2))` in a `CHAR(2)`, which does not keep blanks at its end. -/
def initials (S : Server) (name : Text) : Text := ((name.take 2).map S.upper).rdropWhile (· == ' ')

/-- The letters of a uni, before its number. -/
def uniStem (S : Server) (lastName firstName : Text) : Text := initials S lastName ++ initials S firstName

/-- `(SELECT COUNT(uni) FROM person WHERE uni LIKE prefix)`. -/
def State.uniCount (s : State S) (stem : Text) : ℕ :=
  (s.person.rows.filter fun p => S.like (stem ++ ['%']) p.uni).length

/-- **`generate_uni`.** -/
def generateUni (s : State S) : Option Text → Option Text → Option Text
  | some lastName, some firstName =>
    -- one more than the unis that match, whatever their numbers are
    let stem := uniStem S lastName firstName
    some (stem ++ Nat.toDigits 10 (s.uniCount stem + 1))
  | _, _ => none

/-! ## `Person` -/

/-- `trigger_insert_person`. Its script switches strict mode off, so that a uni that is
too long is cut. -/
def triggerInsertPerson (s : State S) (lastName firstName : Option Text) : Option Text :=
  (generateUni s lastName firstName).map (List.take 12)

/-- `INSERT INTO Person`. The trigger replaces the uni. -/
def insertPerson (uni lastName firstName : Option Text) (type : Text) (s : State S) :
    Except SqlError (State S) := do
  -- the given uni has to fit its column, though the trigger overwrites it
  let _ ← uni.mapM (varchar 12 "UNI")
  let uni ← notNull "UNI" (triggerInsertPerson s lastName firstName)
  let lastName ← notNull "last_name" lastName
  let firstName ← notNull "first_name" firstName
  let T ← s.person.insert ⟨uni, lastName, firstName, type⟩
  return { s with person := T }

/-- What the three update triggers begin with: the uni must stay. -/
def keepUni (S : Server) (old new : Text) : Except SqlError Unit :=
  signalIf (!S.eq new old) "45001" "Cannot change uni"

/-- `trigger_update_person`. -/
def triggerUpdatePerson (S : Server) (old new : Text) : Except SqlError Unit := keepUni S old new

/-- The `SET` of `update_student` and `update_faculty` on a person. -/
def setPerson (S : Server) (lastName firstName : Option Text) (p : Person) : Except SqlError Person := do
  triggerUpdatePerson S p.uni p.uni
  return { p with
    lastName := ← notNull "last_name" lastName
    firstName := ← notNull "first_name" firstName }

/-- `UPDATE PERSON SET last_name = ..., first_name = ... where PERSON.uni = uni`. -/
def updatePerson (uni lastName firstName : Option Text) (s : State S) : Except SqlError (State S) := do
  let T ← s.person.update (fun p => S.eqN (some p.uni) uni) (setPerson S lastName firstName)
  return { s with person := T }

/-- `DELETE FROM PERSON where PERSON.uni = uni`. Three foreign keys refer to a person. -/
def deletePerson (uni : Option Text) (s : State S) : Except SqlError (State S) := do
  references "student_uni_fk" !s.hasSub .student uni
  references "faculty_uni_fk" !s.hasSub .faculty uni
  references "cp_participant_fk" !s.hasParticipant uni
  return { s with person := s.person.delete fun p => S.eqN (some p.uni) uni }

/-! ## `Student` and `Faculty` -/

/-- The columns of a derived entity, as the procedures are given them. -/
inductive Sub
  | student (school year : Option Text)
  | faculty (payGrade title department : Option Text)

def Sub.kind : Sub → Kind
  | .student .. => .student
  | .faculty .. => .faculty

/-- Storing a text in an integer column. -/
def Server.integer (S : Server) (column : String) (t : Text) : Except SqlError ℤ :=
  match S.toInt t with
  | some n => .ok n
  | none => .error (.badInteger column)

/-- `New.year > 2020 or New.year < 2000`. -/
def checkYear (year : Option ℤ) : Except SqlError Unit :=
  signalIf (year.any fun y => y > 2020 || y < 2000) "45002" "not a valid year"

/-- `New.pay_grade NOT IN (1,2,3,4,5)`. The two triggers give it different messages. -/
def checkPayGrade (payGrade : Option ℤ) (message : String) : Except SqlError Unit :=
  signalIf (payGrade.any fun n => !([1, 2, 3, 4, 5] : List ℤ).contains n) "45002" message

/-- `trigger_insert_student`. -/
def triggerInsertStudent (s : State S) (uni : Option Text) (year : Option ℤ) : Except SqlError Unit := do
  signalIf (!s.hasPerson uni) "45002" "uni not found in person table"
  checkYear year

/-- `trigger_insert_faculty`. -/
def triggerInsertFaculty (s : State S) (uni : Option Text) (payGrade : Option ℤ) : Except SqlError Unit := do
  signalIf (!s.hasPerson uni) "45002" "uni not found in person table"
  checkPayGrade payGrade "not a valid pay grade"

/-- `trigger_update_student`. -/
def triggerUpdateStudent (S : Server) (old new : Text) (year : Option ℤ) : Except SqlError Unit := do
  keepUni S old new
  checkYear year

/-- `trigger_update_faculty`. -/
def triggerUpdateFaculty (S : Server) (old new : Text) (payGrade : Option ℤ) : Except SqlError Unit := do
  keepUni S old new
  -- the message is the one for students
  checkPayGrade payGrade "not a valid year"

/-- `INSERT INTO Student`. -/
def insertStudentRow (uni school year : Option Text) (s : State S) : Except SqlError (State S) := do
  let uni ← uni.mapM (varchar 12 "UNI")
  let year ← year.mapM (S.integer "year")
  triggerInsertStudent s uni year
  let row : Student := ⟨← notNull "UNI" uni, ← notNull "school" school, ← notNull "year" year⟩
  let T ← s.student.insert row
  references "student_uni_fk" (s.hasPerson (some row.uni))
  return { s with student := T }

/-- `INSERT INTO Faculty`. -/
def insertFacultyRow (uni payGrade title department : Option Text) (s : State S) :
    Except SqlError (State S) := do
  let uni ← uni.mapM (varchar 12 "UNI")
  let payGrade ← payGrade.mapM (S.integer "pay_grade")
  triggerInsertFaculty s uni payGrade
  let row : Faculty :=
    ⟨← notNull "UNI" uni, ← notNull "pay_grade" payGrade, ← notNull "title" title,
      ← notNull "department" department⟩
  let T ← s.faculty.insert row
  references "faculty_uni_fk" (s.hasPerson (some row.uni))
  return { s with faculty := T }

/-- The `SET` of `update_student` on a student. -/
def setStudent (S : Server) (school year : Option Text) (r : Student) : Except SqlError Student := do
  let year ← year.mapM (S.integer "year")
  triggerUpdateStudent S r.uni r.uni year
  return { r with school := ← notNull "school" school, year := ← notNull "year" year }

/-- The `SET` of `update_faculty` on a faculty member. -/
def setFaculty (S : Server) (payGrade title department : Option Text) (r : Faculty) :
    Except SqlError Faculty := do
  let payGrade ← payGrade.mapM (S.integer "pay_grade")
  triggerUpdateFaculty S r.uni r.uni payGrade
  return { r with
    payGrade := ← notNull "pay_grade" payGrade
    title := ← notNull "title" title
    department := ← notNull "department" department }

/-- `UPDATE Student ... where Student.uni = uni`. -/
def updateStudentRow (uni school year : Option Text) (s : State S) : Except SqlError (State S) := do
  let T ← s.student.update (fun r => S.eqN (some r.uni) uni) (setStudent S school year)
  return { s with student := T }

/-- `UPDATE Faculty ... where Faculty.uni = uni`. -/
def updateFacultyRow (uni payGrade title department : Option Text) (s : State S) :
    Except SqlError (State S) := do
  let T ← s.faculty.update (fun r => S.eqN (some r.uni) uni) (setFaculty S payGrade title department)
  return { s with faculty := T }

def insertSub : Sub → Option Text → State S → Except SqlError (State S)
  | .student school year, uni => insertStudentRow uni school year
  | .faculty payGrade title department, uni => insertFacultyRow uni payGrade title department

def updateSub : Sub → Option Text → State S → Except SqlError (State S)
  | .student school year, uni => updateStudentRow uni school year
  | .faculty payGrade title department, uni => updateFacultyRow uni payGrade title department

/-- `DELETE FROM Student`, `DELETE FROM Faculty`. No foreign key refers to them. -/
def deleteSub : Kind → Option Text → State S → State S
  | .student, uni, s => { s with student := s.student.delete fun r => S.eqN (some r.uni) uni }
  | .faculty, uni, s => { s with faculty := s.faculty.delete fun r => S.eqN (some r.uni) uni }

structure StudentView where
  uni : Text
  lastName : Text
  firstName : Text
  school : Text
  year : ℤ
  deriving DecidableEq

structure FacultyView where
  uni : Text
  lastName : Text
  firstName : Text
  payGrade : ℤ
  title : Text
  department : Text
  deriving DecidableEq

/-- `student_view`: `Student JOIN Person`. -/
def studentView (s : State S) : List StudentView :=
  s.student.rows.flatMap fun r => (s.person.rows.filter fun p => S.eq p.uni r.uni).map fun p =>
    ⟨r.uni, p.lastName, p.firstName, r.school, r.year⟩

/-- `faculty_view`: `Faculty JOIN Person`. -/
def facultyView (s : State S) : List FacultyView :=
  s.faculty.rows.flatMap fun r => (s.person.rows.filter fun p => S.eq p.uni r.uni).map fun p =>
    ⟨r.uni, p.lastName, p.firstName, r.payGrade, r.title, r.department⟩

/-! ## The six procedures -/

/-- The statements of a session. -/
inductive Stmt
  | setNewuni (lastName firstName : Option Text)
  | insertPerson (lastName firstName : Option Text)
  | insertSub (k : Kind)
  | testUni
  | updatePerson
  | updateSub (k : Kind)
  | deleteSub (k : Kind)
  | deletePerson
  | insertSection
  | insertParticipant
  | deleteParticipant
  deriving DecidableEq

/-- `insert_student` and `insert_faculty`. -/
def insertWith (c : Sub) (lastName firstName : Option Text) : Proc Stmt (State S) Unit := do
  -- the trigger of the first `INSERT` computes the uni again; the second uses this one
  let newuni ← Proc.query (.setNewuni lastName firstName) fun s => .ok (generateUni s lastName firstName)
  Proc.exec (.insertPerson lastName firstName) (insertPerson newuni lastName firstName c.kind.type)
  Proc.exec (.insertSub c.kind) (insertSub c newuni)

/-- The test that `update_*` and `delete_*` begin with. The message stands between
backticks in the source, where it is not a text but the name of a column. -/
def testUni (uni : Option Text) (message : String) : Proc Stmt (State S) Unit :=
  Proc.exec .testUni fun s => if s.hasPerson uni then .ok s else .error (.unknownColumn message)

/-- `update_student` and `update_faculty`. -/
def updateWith (message : String) (c : Sub) (uni lastName firstName : Option Text) :
    Proc Stmt (State S) Unit := do
  testUni uni message
  Proc.exec .updatePerson (updatePerson uni lastName firstName)
  Proc.exec (.updateSub c.kind) (updateSub c uni)

/-- `delete_student` and `delete_faculty`. -/
def deleteWith (message : String) (k : Kind) (uni : Option Text) : Proc Stmt (State S) Unit := do
  testUni uni message
  Proc.exec (.deleteSub k) fun s => .ok (deleteSub k uni s)
  Proc.exec .deletePerson (deletePerson uni)

def insertStudent (lastName firstName school year : Option Text) : Proc Stmt (State S) Unit :=
  insertWith (.student school year) lastName firstName

def insertFaculty (lastName firstName payGrade title department : Option Text) : Proc Stmt (State S) Unit :=
  insertWith (.faculty payGrade title department) lastName firstName

def updateStudent (uni lastName firstName school year : Option Text) : Proc Stmt (State S) Unit :=
  updateWith "student uni not exists, update fail" (.student school year) uni lastName firstName

def updateFaculty (uni lastName firstName payGrade title department : Option Text) :
    Proc Stmt (State S) Unit :=
  updateWith "faculty uni not exists, update fail" (.faculty payGrade title department) uni lastName firstName

def deleteStudent (uni : Option Text) : Proc Stmt (State S) Unit :=
  deleteWith "student uni not exists, delete fail" .student uni

def deleteFaculty (uni : Option Text) : Proc Stmt (State S) Unit :=
  deleteWith "faculty uni not exists, delete fail" .faculty uni

/-! ## Courses and sections -/

/-- `INSERT INTO courses`, under the given codes of `department`. Title and description
have to fit, and are not kept here. -/
def insertCourse (departments : List Text) (deptCode : Option Text) (facultyCode : Option FacultyCode)
    (level : Option Level) (number title description : Option Text) (s : State S) :
    Except SqlError (State S) := do
  let deptCode ← char 4 "dept_code" (← notNull "dept_code" deptCode)
  let facultyCode ← notNull "faculty_code" facultyCode
  let level ← notNull "level" level
  let number ← char 3 "number" (← notNull "number" number)
  let _ ← varchar 32 "title" (← notNull "title" title)
  let _ ← varchar 128 "description" (← notNull "description" description)
  let row : Course := ⟨deptCode, facultyCode, level, number⟩
  let _ ← varchar 12 "course_id" row.courseId
  let T ← s.courses.insert row
  references "course2_dept_fk" (departments.any fun code => S.eq code row.deptCode)
  return { s with courses := T }

/-- `INSERT INTO sections`. An `enrollment_limit` that is left out is 3. -/
def insertSection (callNo courseId sectionNo : Option Text) (year : Option ℤ) (semester : Option Text)
    (enrollmentLimit : Option (Option ℤ)) (s : State S) : Except SqlError (State S) := do
  let callNo ← char 5 "call_no" (← notNull "call_no" callNo)
  let courseId ← varchar 12 "course_id" (← notNull "course_id" courseId)
  let sectionNo ← varchar 45 "section_no" (← notNull "section_no" sectionNo)
  let year ← notNull "year" year
  let semester ← varchar 45 "semester" (← notNull "semester" semester)
  let row : Section := ⟨callNo, courseId, sectionNo, year, semester, enrollmentLimit.getD (some 3)⟩
  -- the generated column is stored, so it has to fit, too
  let _ ← varchar 45 "section_key" row.sectionKey
  let T ← s.sections.insert row
  references "section_course_fk" (s.courses.rows.any fun c => S.eq c.courseId row.courseId)
  return { s with sections := T }

/-! ## Participants -/

/-- The current date, as far as the code looks at it. -/
structure Date where
  year : ℤ
  month : ℕ

/-- `convert_semester`. -/
def convertSemester (month : ℕ) : Option ℤ :=
  if month ∈ [9, 10, 11, 12] then some 1
  else if month ∈ [1, 2, 3, 4] then some 2
  else if month ∈ [5, 6] then some 3
  else if month ∈ [7, 8] then some 4
  else none

/-- The section is over, as `completed_course` tests it. `semester` is a text, and is
compared with a number. -/
def Section.completed (S : Server) (now : Date) (c : Section) : Bool :=
  now.year > c.year ||
    (now.year == c.year && (convertSemester now.month).any fun m => (m : ℚ) > S.toNumber c.semester)

structure CompletedCourse where
  uni : Text
  courseId : Text
  year : ℤ
  semester : Text
  deriving DecidableEq

/-- `completed_course`: `course_participant JOIN sections`. -/
def completedCourse (now : Date) (s : State S) : List CompletedCourse :=
  s.participant.rows.flatMap fun q =>
    (s.sections.rows.filter fun c => S.eq q.sectionCallNo c.callNo && c.completed S now).map fun c =>
      ⟨q.uni, c.courseId, c.year, c.semester⟩

structure FacultyCourse where
  uni : Text
  courseId : Text
  year : ℤ
  semester : Text
  deriving DecidableEq

/-- `faculty_course`: `course_participant JOIN sections`, for the unis of `faculty_view`. -/
def facultyCourse (s : State S) : List FacultyCourse :=
  s.participant.rows.flatMap fun q =>
    (s.sections.rows.filter fun c => S.eq q.sectionCallNo c.callNo &&
      (facultyView s).any fun v => S.eq q.uni v.uni).map fun c => ⟨q.uni, c.courseId, c.year, c.semester⟩

/-- `prereq_valid`: no prerequisite is missing from the completed courses. -/
def prereqValid (now : Date) (uni callNo : Option Text) (s : State S) : Bool :=
  let course := (s.sectionAt callNo).map Section.courseId
  let needed := s.prereqs.rows.filter fun r => S.eqN (some r.courseId) course
  let completed := (completedCourse now s).filter fun r => S.eqN (some r.uni) uni
  !needed.any fun r => !completed.any fun d => S.eq r.prereqId d.courseId

/-- `student_limit`: the section has a spot left. Only participants in `student_view`
count. -/
def studentLimit (callNo : Option Text) (s : State S) : Bool :=
  -- with no section or no limit the comparison is `NULL`, and there is no spot
  let sizelimit := (s.sectionAt callNo).bind Section.enrollmentLimit
  let currentsize := (s.participant.rows.filter fun q => S.eqN (some q.sectionCallNo) callNo &&
    (studentView s).any fun v => S.eq q.uni v.uni).length
  sizelimit.any fun n => (currentsize : ℤ) < n

/-- `faculty_limit`: fewer than three sections in the section's semester. The parameter
`this_uni` is shorter than a uni may be. -/
def facultyLimit (uni callNo : Option Text) (s : State S) : Except SqlError Bool := do
  let uni ← uni.mapM (varchar 11 "this_uni")
  let year := (s.sectionAt callNo).map Section.year
  let semester := (s.sectionAt callNo).map Section.semester
  let total := (s.participant.rows.filter fun q => S.eqN (some q.uni) uni &&
    (s.sectionAt (some q.sectionCallNo)).any fun c =>
      year == some c.year && S.eqN (some c.semester) semester).length
  return total < 3

/-- `trigger_insert_participant`. -/
def triggerInsertParticipant (now : Date) (uni callNo : Option Text) (s : State S) :
    Except SqlError Unit := do
  signalIf (!s.hasPerson uni) "45002" "uni not found in person table"
  -- both tests are on `Person.type`, not on the derived entities
  let uniType := (s.person.rows.find? fun p => S.eqN (some p.uni) uni).map Person.type
  let isStudent := S.eqN uniType (some Kind.student.type)
  let isFaculty := S.eqN uniType (some Kind.faculty.type)
  signalIf (!(isStudent || isFaculty)) "45003" "not valid type"
  if isStudent then
    signalIf (!prereqValid now uni callNo s) "45004" "prereq course not satisfied"
    signalIf (!studentLimit callNo s) "45005" "exceed section limit size"
  if isFaculty then
    signalIf (!(← facultyLimit uni callNo s)) "45004" "faculty can not teach more than 3 sections"

/-- `INSERT INTO course_participant`. -/
def insertParticipant (now : Date) (uni callNo : Option Text) (s : State S) : Except SqlError (State S) := do
  let uni ← uni.mapM (varchar 12 "UNI")
  let callNo ← callNo.mapM (char 5 "section_call_no")
  triggerInsertParticipant now uni callNo s
  let row : Participant := ⟨← notNull "UNI" uni, ← notNull "section_call_no" callNo⟩
  let T ← s.participant.insert row
  references "cp_participant_fk" (s.hasPerson (some row.uni))
  references "cp_section_fk" (s.sections.rows.any fun c => S.eq c.callNo row.sectionCallNo)
  return { s with participant := T }

/-- `DELETE FROM course_participant`. -/
def deleteParticipant (p : Participant → Bool) (s : State S) : State S :=
  { s with participant := s.participant.delete p }

/-! ## Runs -/

/-- What a session does. `insert`, `update` and `delete` are the calls of the six
procedures. -/
inductive Op
  | insert (c : Sub) (lastName firstName : Option Text)
  | update (c : Sub) (uni lastName firstName : Option Text)
  | delete (k : Kind) (uni : Option Text)
  | insertSection (callNo courseId sectionNo : Option Text) (year : Option ℤ) (semester : Option Text)
      (enrollmentLimit : Option (Option ℤ))
  | insertParticipant (now : Date) (uni callNo : Option Text)
  | deleteParticipant (p : Participant → Bool)

/-- The procedure or the statement. -/
def Op.proc : Op → Proc Stmt (State S) Unit
  | .insert (.student school year) lastName firstName => insertStudent lastName firstName school year
  | .insert (.faculty payGrade title department) lastName firstName =>
    insertFaculty lastName firstName payGrade title department
  | .update (.student school year) uni lastName firstName => updateStudent uni lastName firstName school year
  | .update (.faculty payGrade title department) uni lastName firstName =>
    updateFaculty uni lastName firstName payGrade title department
  | .delete .student uni => deleteStudent uni
  | .delete .faculty uni => deleteFaculty uni
  | .insertSection callNo courseId sectionNo year semester limit =>
    Proc.exec .insertSection (School.insertSection callNo courseId sectionNo year semester limit)
  | .insertParticipant now uni callNo => Proc.exec .insertParticipant (School.insertParticipant now uni callNo)
  | .deleteParticipant p => Proc.exec .deleteParticipant fun s => .ok (School.deleteParticipant p s)

/-- The tables after one operation, accepted, refused or failed half way. -/
def Op.run (op : Op) (s : State S) : State S := (op.proc.run s).2

/-- The tables after a run. -/
def run (ops : List Op) (s : State S) : State S := ops.foldl (fun s op => op.run s) s

end Coms4111.School
