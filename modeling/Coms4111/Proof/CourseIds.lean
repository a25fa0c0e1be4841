import Coms4111.Sql.Concat
import Coms4111.Proof.Sections

/-!
# The generated `course_id`

`course_id` is the department, the faculty code, the level and the number in one text.
No faculty code begins another, and a level is one digit. So the only border of two parts
that can be misplaced is the one after the department: it **shifts** when a longer
department ends in what follows a shorter one (`Shifted`).

* `courseId_alike_iff`: two ids are the same exactly when the four parts are or a border
  has shifted.
* `course_id_identifies_iff`: so an id identifies a course exactly if no border between
  it and a course of the table has shifted.
* `course_id_shared`: the `B` of `BC` is taken for the end of a department.
-/

namespace Coms4111.School

open Sql

variable {S : Server} {s s' : State S} {c d : Course}

/-! ## Rows of `courses` -/

/-- A row that the columns of `courses` keep as it is. -/
structure Course.Stored (c : Course) : Prop where
  deptCode : char 4 "dept_code" c.deptCode = .ok c.deptCode
  number : char 3 "number" c.number = .ok c.number

/-- The same primary key. -/
structure SamePrimary (S : Server) (c d : Course) : Prop where
  deptCode : S.eq c.deptCode d.deptCode = true
  facultyCode : c.facultyCode = d.facultyCode
  level : c.level = d.level
  number : S.eq c.number d.number = true

theorem SamePrimary.refl (c : Course) : SamePrimary S c c := ⟨S.eq_self _, rfl, rfl, S.eq_self _⟩

theorem SamePrimary.symm (h : SamePrimary S c d) : SamePrimary S d c :=
  ⟨Collation.symm h.deptCode, h.facultyCode.symm, h.level.symm, Collation.symm h.number⟩

/-- Every course that is stored is a row the columns keep. -/
theorem insertCourse_stored {departments : List Text} {deptCode number title description : Option Text}
    {facultyCode : Option FacultyCode} {level : Option Level} (hs : ∀ d ∈ s.courses.rows, d.Stored)
    (h : insertCourse departments deptCode facultyCode level number title description s = .ok s') :
    ∀ d ∈ s'.courses.rows, d.Stored := by
  simp only [insertCourse, bind_eq_ok] at h
  obtain ⟨_, -, dept, hdept, f, -, l, -, _, -, n, hn, -, -, -, -, -, -, -, -, -, -, T, hT, -, -, h⟩ := h
  cases h
  have hrows := (Table.insert_ok hT).1
  intro d hd
  have hd : d ∈ T.rows := hd
  rw [hrows, List.mem_append, List.mem_singleton] at hd
  rcases hd with hd | rfl
  · exact hs d hd
  · exact ⟨char_stored hdept, char_stored hn⟩

/-! ## The parts of an id -/

def Course.parts (c : Course) : List Text := [c.deptCode, c.facultyCode.text, c.level.text, c.number]

theorem courseId_eq_flatten (c : Course) : c.courseId = c.parts.flatten := by
  simp [Course.courseId, Course.parts]

theorem facultyCode_ascii (f : FacultyCode) : ∀ x ∈ f.text, x.toNat < 128 := by
  have h : f.text.all (fun x => decide (x.toNat < 128)) = true := by cases f <;> decide
  simpa using h

/-- No faculty code begins another. -/
theorem facultyCode_eq_of_take (f g : FacultyCode) :
    (g.text.take f.text.length).map Char.toUpper = f.text.map Char.toUpper → f = g := by
  cases f <;> cases g <;> decide

theorem facultyCode_alike {f g : FacultyCode} {x : Text} (h : Alike S.weight g.text (f.text ++ x)) :
    f = g ∧ x = [] := by
  have hlen := h.length_eq
  rw [List.length_append] at hlen
  have htake : Alike S.weight (g.text.take f.text.length) f.text := by
    have h' := h
    rw [← List.take_append_drop f.text.length g.text] at h'
    exact ((alike_append_iff_of_length (by rw [List.length_take]; omega)).1 h').1
  have hfg := facultyCode_eq_of_take f g (Collation.map_toUpper_eq
    (fun a ha => facultyCode_ascii g a (List.mem_of_mem_take ha)) (facultyCode_ascii f) htake)
  subst hfg
  exact ⟨rfl, List.length_eq_zero_iff.1 (by omega)⟩

/-- A faculty code can be read off the front. -/
theorem facultyCode_append {f g : FacultyCode} {t u : Text} (h : Alike S.weight (f.text ++ t) (g.text ++ u)) :
    f = g ∧ Alike S.weight t u := by
  obtain ⟨hfg, htu⟩ := alike_append_of_code (fun x hx => (facultyCode_alike hx).2)
    (fun x hx => (facultyCode_alike hx).2) h
  rw [← List.append_nil f.text] at hfg
  exact ⟨(facultyCode_alike hfg.symm).1, htu⟩

theorem level_digit (l : Level) : ∃ a : Char, a.isDigit = true ∧ l.text = [a] := by
  cases l <;> exact ⟨_, by decide, rfl⟩

theorem level_text_inj (l m : Level) : l.text = m.text → l = m := by
  cases l <;> cases m <;> decide

/-- So can a level. -/
theorem level_append {l m : Level} {t u : Text} (h : Alike S.weight (l.text ++ t) (m.text ++ u)) :
    l = m ∧ Alike S.weight t u := by
  obtain ⟨a, ha, hl⟩ := level_digit l
  obtain ⟨b, hb, hm⟩ := level_digit m
  obtain ⟨hlm, htu⟩ := (alike_append_iff_of_length (by rw [hl, hm]; rfl)).1 h
  have hsigns : ∀ c ∈ l.text, c.toNat < 128 ∧ c.isAlpha = false := by
    intro c hc
    rw [hl, List.mem_singleton] at hc
    rw [hc]; exact isDigit_ascii ha
  exact ⟨level_text_inj l m (map_weight_signs_inj hsigns hlm), htu⟩

/-- A level is a digit, and a faculty code begins with a letter. -/
theorem level_not_facultyCode {l : Level} {f : FacultyCode} {t u : Text} :
    ¬Alike S.weight (l.text ++ t) (f.text ++ u) := by
  intro h
  obtain ⟨a, ha, hl⟩ := level_digit l
  have hf : ∃ b r, f.text = b :: r ∧ b.isAlpha = true := by
    cases f <;> exact ⟨_, _, rfl, by decide⟩
  obtain ⟨b, r, hf, hb⟩ := hf
  rw [hl, hf] at h
  have hw := (List.cons.inj h).1
  have hna := isDigit_ascii ha
  have hab := S.sign a b hna.1 hna.2 hw
  rw [hab, hb] at hna
  cases hna.2

/-! ## Borders that shift -/

/-- **The border after the department has shifted**: the department of `d` is the one of
`c` with some of what follows it. -/
inductive Shifted (S : Server) (c d : Course) : Prop
  /-- The `B` of `BC` ends the other department. -/
  | letter : c.facultyCode = .BC → d.facultyCode = .C → c.level = d.level →
      Alike S.weight d.deptCode (c.deptCode ++ ['B']) → Alike S.weight c.number d.number → Shifted S c d
  /-- Faculty code, level and the beginning `y` of the number end the other department. -/
  | number (y : Text) : Alike S.weight d.deptCode (c.deptCode ++ c.facultyCode.text ++ c.level.text ++ y) →
      Alike S.weight c.number (y ++ d.facultyCode.text ++ d.level.text ++ d.number) → Shifted S c d

theorem Shifted.length_lt (h : Shifted S c d) : c.deptCode.length < d.deptCode.length := by
  cases h with
  | letter _ _ _ hdept _ =>
    have := hdept.length_eq
    rw [List.length_append, List.length_singleton] at this
    omega
  | number y hdept _ =>
    have := hdept.length_eq
    obtain ⟨a, -, hl⟩ := level_digit c.level
    rw [hl] at this
    simp only [List.length_append, List.length_singleton] at this
    omega

theorem Shifted.alike (h : Shifted S c d) : Alike S.weight c.courseId d.courseId := by
  unfold Course.courseId
  cases h with
  | letter hc hd hl hdept hn =>
    rw [hc, hd, hl]
    have hB : FacultyCode.BC.text = ['B'] ++ FacultyCode.C.text := by decide
    rw [hB, ← List.append_assoc]
    exact (((hdept.symm.append (Alike.refl _)).append (Alike.refl _)).append hn)
  | number y hdept hn =>
    have hn : Alike S.weight c.number (y ++ (d.facultyCode.text ++ d.level.text ++ d.number)) := by
      simpa only [List.append_assoc] using hn
    have h := alike_of_cut hdept hn
    simpa only [List.append_assoc] using h

/-- What can follow the department's border when it moves by `x`. -/
theorem shifted_of_moved {x : Text} (hx : x ≠ []) (hdept : Alike S.weight d.deptCode (c.deptCode ++ x))
    (hrest : Alike S.weight (c.facultyCode.text ++ (c.level.text ++ c.number))
      (x ++ (d.facultyCode.text ++ (d.level.text ++ d.number)))) : Shifted S c d := by
  rcases alike_append_iff.1 hrest with ⟨z, hz, hrest⟩ | ⟨z, hz, hfac, hrest⟩
  · -- the whole faculty code has moved, and the level with it
    rcases z with _ | ⟨a, y⟩
    · exact absurd hrest level_not_facultyCode
    obtain ⟨b, -, hl⟩ := level_digit c.level
    have hsplit : Alike S.weight (c.level.text ++ c.number)
        ([a] ++ (y ++ (d.facultyCode.text ++ (d.level.text ++ d.number)))) := hrest
    obtain ⟨ha, hn⟩ := (alike_append_iff_of_length (by rw [hl]; rfl)).1 hsplit
    refine .number y (hdept.trans ?_) (by simpa only [List.append_assoc] using hn)
    have h := (Alike.refl c.deptCode).append (hz.trans ((Alike.refl c.facultyCode.text).append
      (ha.symm.append (Alike.refl y))))
    simpa only [List.append_assoc] using h
  · -- a part of the faculty code has moved: there is one of two letters
    have hlen := hfac.length_eq
    rw [List.length_append] at hlen
    have hx1 := List.length_pos_iff.2 hx
    have hz1 := List.length_pos_iff.2 hz
    have hBC : ∀ f : FacultyCode, 2 ≤ f.text.length → f = .BC := by
      intro f; cases f <;> decide
    have hc := hBC c.facultyCode (by omega)
    rw [hc] at hfac hlen
    have htwo : FacultyCode.BC.text.length = 2 := rfl
    have hsplit : Alike S.weight (['B'] ++ FacultyCode.C.text) (x ++ z) := hfac
    obtain ⟨hB, hC⟩ := (alike_append_iff_of_length (by rw [List.length_singleton]; omega)).1 hsplit
    have h := hrest.trans (hC.symm.append (Alike.refl (c.level.text ++ c.number)))
    obtain ⟨hd, h⟩ := facultyCode_append h
    obtain ⟨hl, hn⟩ := level_append h
    exact .letter hc hd hl.symm (hdept.trans ((Alike.refl _).append hB.symm)) hn.symm

theorem shifted_of_parts (h : Moved S.weight c.parts d.parts) : Shifted S c d := by
  rcases h with ⟨x, hx, hdept, hrest⟩ | ⟨-, ⟨x, hx, hfac, -⟩ | ⟨-, ⟨x, hx, hl, -⟩ | ⟨-, h⟩⟩⟩
  · exact shifted_of_moved hx hdept (by simpa using hrest)
  · exact absurd (facultyCode_alike hfac).2 hx
  · -- levels have one digit
    obtain ⟨a, -, ha⟩ := level_digit c.level
    obtain ⟨b, -, hb⟩ := level_digit d.level
    have := hl.length_eq
    rw [ha, hb, List.length_append] at this
    exact absurd (List.length_eq_zero_iff.1 (by simpa using this)) hx
  · exact absurd h (not_moved_singleton _ _)

/-- **When two ids are the same.** -/
theorem courseId_alike_iff : Alike S.weight c.courseId d.courseId ↔
    (Alike S.weight c.deptCode d.deptCode ∧ c.facultyCode = d.facultyCode ∧ c.level = d.level ∧
      Alike S.weight c.number d.number) ∨ Shifted S c d ∨ Shifted S d c := by
  constructor
  · intro h
    rw [courseId_eq_flatten, courseId_eq_flatten] at h
    have hlen : c.parts.length = d.parts.length := rfl
    rcases (alike_flatten_iff hlen).1 h with hall | hm | hm
    · left
      simp only [Course.parts, List.forall₂_cons, List.forall₂_nil_right_iff, and_true] at hall
      obtain ⟨hdept, hfac, hl, hn⟩ := hall
      exact ⟨hdept, (facultyCode_append (hfac.append (Alike.refl []))).1,
        (level_append (hl.append (Alike.refl []))).1, hn⟩
    · right; left; exact shifted_of_parts hm
    · right; right; exact shifted_of_parts hm
  · rintro (⟨hdept, hfac, hl, hn⟩ | h | h)
    · unfold Course.courseId
      rw [hfac, hl]
      exact ((hdept.append (Alike.refl _)).append (Alike.refl _)).append hn
    · exact h.alike
    · exact h.alike.symm

/-! ## Courses of the table -/

theorem Course.Stored.courseId_last (hc : c.Stored) : ∀ h : c.courseId ≠ [], c.courseId.getLast h ≠ ' ' := by
  intro h
  obtain ⟨a, ha, hl⟩ := level_digit c.level
  have hid : c.courseId = (c.deptCode ++ c.facultyCode.text) ++ ([a] ++ c.number) := by
    unfold Course.courseId; rw [hl, List.append_assoc]
  by_cases hn : c.number = []
  · -- the id ends in the level
    simp only [hid, hn, List.append_nil, List.getLast_append_singleton]
    rintro rfl
    exact absurd ha (by decide)
  · simp only [hid]
    rw [List.getLast_append_of_ne_nil _ (by simp), List.getLast_append_of_ne_nil _ hn]
    exact (char_eq_self_iff.1 hc.number).2 hn

/-- **Equal ids** are ids of one course, or a border has shifted. -/
theorem courseId_eq_iff (hc : c.Stored) (hd : d.Stored) :
    S.eq c.courseId d.courseId = true ↔ SamePrimary S c d ∨ Shifted S c d ∨ Shifted S d c := by
  have hdept := Collation.eq_iff_alike (C := S.toCollation) (char_eq_self_iff.1 hc.deptCode).2
    (char_eq_self_iff.1 hd.deptCode).2
  have hn := Collation.eq_iff_alike (C := S.toCollation) (char_eq_self_iff.1 hc.number).2
    (char_eq_self_iff.1 hd.number).2
  rw [Collation.eq_iff_alike hc.courseId_last hd.courseId_last, courseId_alike_iff, ← hdept, ← hn]
  constructor
  · rintro (⟨h1, h2, h3, h4⟩ | h)
    · left; exact ⟨h1, h2, h3, h4⟩
    · right; exact h
  · rintro (h | h)
    · left; exact ⟨h.deptCode, h.facultyCode, h.level, h.number⟩
    · right; exact h

/-- Courses with a shifted border have different departments. -/
theorem Shifted.not_same (hc : c.Stored) (hd : d.Stored) (h : Shifted S c d) : ¬SamePrimary S c d := by
  intro hsame
  have halike := (Collation.eq_iff_alike (char_eq_self_iff.1 hc.deptCode).2 (char_eq_self_iff.1 hd.deptCode).2).1
    hsame.deptCode
  have hlt := h.length_lt
  rw [halike.length_eq] at hlt
  omega

/-- What the two keys of `courses` have against a new row. -/
theorem courses_clash (c d : Course) :
    ((Sql.Unique.key fun c : Course => (S.key c.deptCode, c.facultyCode, c.level, S.key c.number)).or
      (Sql.Unique.key fun c : Course => S.key c.courseId)).clash c d = true ↔
      SamePrimary S c d ∨ S.eq c.courseId d.courseId = true := by
  show (Sql.Unique.clash _ c d || Sql.Unique.clash _ c d) = true ↔ _
  rw [Bool.or_eq_true, Sql.Unique.key_clash]
  refine or_congr ?_ Iff.rfl
  simp only [Sql.Unique.key, beq_iff_eq, Prod.mk.injEq, ← Collation.eq_iff]
  constructor
  · intro h; exact ⟨h.1, h.2.1, h.2.2.1, h.2.2.2⟩
  · intro h; exact ⟨h.deptCode, h.facultyCode, h.level, h.number⟩

theorem Course.Stored.courseId_length (hc : c.Stored) : c.courseId.length ≤ 12 := by
  have hdept := (char_eq_self_iff.1 hc.deptCode).1
  have hn := (char_eq_self_iff.1 hc.number).1
  have hfac : c.facultyCode.text.length ≤ 2 := by cases c.facultyCode <;> decide
  obtain ⟨a, -, hl⟩ := level_digit c.level
  unfold Course.courseId
  rw [hl]
  simp only [List.length_append, List.length_singleton]
  omega

theorem insertCourse_eq (hc : c.Stored) {departments : List Text} {title description : Text}
    (ht : title.length ≤ 32) (hd : description.length ≤ 128)
    (hdept : (departments.any fun code => S.eq code c.deptCode) = true)
    (hno : ∀ d ∈ s.courses.rows, ¬SamePrimary S c d ∧ S.eq c.courseId d.courseId = false) :
    ∃ T, insertCourse departments (some c.deptCode) (some c.facultyCode) (some c.level) (some c.number)
      (some title) (some description) s = .ok { s with courses := T } ∧ T.rows = s.courses.rows ++ [c] := by
  obtain ⟨T, hT, hrows⟩ := Table.insert_eq_ok (T := s.courses) (a := c) fun d hd => by
    rw [Bool.eq_false_iff, Ne, courses_clash, not_or, Bool.not_eq_true]
    exact hno d hd
  refine ⟨T, ?_, hrows⟩
  simp only [insertCourse, bind_eq_ok, notNull_eq_ok, references_eq_ok]
  exact ⟨_, rfl, _, hc.deptCode, _, rfl, _, rfl, _, rfl, _, hc.number, _, rfl, _, varchar_of_le ht, _, rfl, _,
    varchar_of_le hd, _, varchar_of_le hc.courseId_length, T, hT, (), hdept, rfl⟩

/-- **What `course_id` is for**, when the course `c` comes to the courses of `s`. -/
structure IdentifiesCourse (s : State S) (c : Course) : Prop where
  /-- A course with the same id has the same primary key. -/
  primary : ∀ d ∈ s.courses.rows, S.eq c.courseId d.courseId = true → SamePrimary S c d
  /-- The id does not keep out a course with a new primary key. -/
  accepted : (∀ d ∈ s.courses.rows, ¬SamePrimary S c d) → ∀ (departments : List Text) (title description : Text),
    title.length ≤ 32 → description.length ≤ 128 → (departments.any fun code => S.eq code c.deptCode) = true →
    ∃ T, insertCourse departments (some c.deptCode) (some c.facultyCode) (some c.level) (some c.number)
      (some title) (some description) s = .ok { s with courses := T } ∧ T.rows = s.courses.rows ++ [c]
  /-- A section or a prerequisite refers to one course. -/
  reference : ∀ id : Text, ∀ d ∈ c :: s.courses.rows, ∀ e ∈ c :: s.courses.rows,
    S.eq id d.courseId = true → S.eq id e.courseId = true → SamePrimary S d e

/-- **`course_id` identifies a course** exactly when no border between it and a course of
the table has shifted. -/
theorem course_id_identifies_iff (s : State S) (c : Course) (hc : c.Stored)
    (hs : ∀ d ∈ s.courses.rows, d.Stored) :
    IdentifiesCourse s c ↔ ∀ d ∈ s.courses.rows, ¬Shifted S c d ∧ ¬Shifted S d c := by
  constructor
  · intro h d hd
    have hiff := courseId_eq_iff (S := S) hc (hs d hd)
    constructor
    · intro hsh
      exact hsh.not_same hc (hs d hd) (h.primary d hd (hiff.2 (.inr (.inl hsh))))
    · intro hsh
      exact hsh.not_same (hs d hd) hc (h.primary d hd (hiff.2 (.inr (.inr hsh)))).symm
  · intro hno
    have hprimary : ∀ d ∈ s.courses.rows, S.eq c.courseId d.courseId = true → SamePrimary S c d := by
      intro d hd he
      rcases (courseId_eq_iff hc (hs d hd)).1 he with h | h | h
      · exact h
      · exact absurd h (hno d hd).1
      · exact absurd h (hno d hd).2
    refine ⟨hprimary, ?_, ?_⟩
    · intro hnew departments title description ht hdesc hdept
      refine insertCourse_eq hc ht hdesc hdept fun d hd => ⟨hnew d hd, ?_⟩
      rw [Bool.eq_false_iff]
      intro he
      exact hnew d hd (hprimary d hd he)
    · intro id d hd e he hid hie
      have heq : S.eq d.courseId e.courseId = true := Collation.trans (Collation.symm hid) hie
      rcases List.mem_cons.1 hd with hdc | hd
      · rcases List.mem_cons.1 he with hec | he
        · rw [hdc, hec]; exact .refl c
        · rw [hdc] at heq ⊢
          exact hprimary e he heq
      · rcases List.mem_cons.1 he with hec | he
        · rw [hec] at heq ⊢
          exact (hprimary d hd (Collation.symm heq)).symm
        · -- two courses of the table with one id are one row
          rw [s.courses.eq_of_clash hd he ((courses_clash d e).2 (.inr heq))]
          exact .refl e

/-- The courses of the script: departments of the same length do not shift. -/
theorem course_id_identifies_databases :
    (∀ d ∈ oneCourse.courses.rows, d.Stored) ∧
      IdentifiesCourse oneCourse ⟨"COMS".toList, .W, .l4, "111".toList⟩ := by
  have hstored : ∀ d ∈ oneCourse.courses.rows, d.Stored := by
    intro d hd
    rw [List.mem_singleton.1 hd]
    exact ⟨by decide, by decide⟩
  refine ⟨hstored, (course_id_identifies_iff oneCourse _ ⟨by decide, by decide⟩ hstored).2 ?_⟩
  intro d hd
  rw [List.mem_singleton.1 hd]
  exact ⟨fun h => absurd h.length_lt (by decide), fun h => absurd h.length_lt (by decide)⟩

/-- `A`, `BC` and `AB`, `C`: the second course has a new primary key, and is refused. -/
theorem course_id_shared :
    let c : Course := ⟨"AB".toList, .C, .l1, "006".toList⟩
    ∃ s : State asciiServer,
      insertCourse ["A".toList, "AB".toList] (some "A".toList) (some .BC) (some .l1) (some "006".toList)
        (some "Calculus".toList) (some "".toList) (State.empty : State asciiServer) = .ok s ∧
      (∀ d ∈ s.courses.rows, d.Stored) ∧ c.Stored ∧ (∀ d ∈ s.courses.rows, ¬SamePrimary asciiServer c d) ∧
      insertCourse ["A".toList, "AB".toList] (some "AB".toList) (some .C) (some .l1) (some "006".toList)
        (some "Calculus".toList) (some "".toList) s = .error .duplicateKey ∧ ¬IdentifiesCourse s c := by
  let d : Course := ⟨"A".toList, .BC, .l1, "006".toList⟩
  have hfirst : insertCourse ["A".toList, "AB".toList] (some "A".toList) (some .BC) (some .l1) (some "006".toList)
      (some "Calculus".toList) (some "".toList) (State.empty : State asciiServer) =
      .ok { State.empty with courses := ⟨[d], List.pairwise_singleton _ _⟩ } := rfl
  refine ⟨_, hfirst, insertCourse_stored (fun e he => absurd he List.not_mem_nil) hfirst,
    ⟨by decide, by decide⟩, ?_, rfl, ?_⟩
  · intro e he hsame
    rw [List.mem_singleton.1 he] at hsame
    exact absurd hsame.facultyCode (by decide)
  · intro h
    exact absurd (h.primary d List.mem_cons_self (by decide)).facultyCode (by decide)

end Coms4111.School
