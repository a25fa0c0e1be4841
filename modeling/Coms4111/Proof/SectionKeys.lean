import Coms4111.Proof.CourseIds

/-!
# The generated `section_key`

`section_key` is the year, the semester, the course and the number of a section in one
text, none of which has a fixed length. Its purpose is the one of the unique key on the
four columns.

* `sectionKey_eq_iff`: two keys are equal exactly when the columns are, with the same
  blanks between them, or when the border after the year, the semester or the course **has
  shifted** (`KeyShifted`).
* `section_key_separates_iff`: so the key separates what the unique key does exactly if no
  border has shifted, and no blank is in the way (`KeyPadded`).
* `section_key_shared`: two sections of two courses, with one key.

The rows in question are those that the columns keep, which are the rows of every run
(`run_sections_stored`).
-/

namespace Coms4111.School

open Sql

variable {S : Server} {s s' : State S} {c d : Section}

/-! ## Rows of `sections` -/

/-- A row that the columns of `sections` keep as it is, with a course of `s`. -/
structure Section.Stored (c : Section) (s : State S) : Prop where
  callNo : char 5 "call_no" c.callNo = .ok c.callNo
  courseId : varchar 12 "course_id" c.courseId = .ok c.courseId
  sectionNo : varchar 45 "section_no" c.sectionNo = .ok c.sectionNo
  semester : varchar 45 "semester" c.semester = .ok c.semester
  sectionKey : ∃ k, varchar 45 "section_key" c.sectionKey = .ok k
  course : ∃ k ∈ s.courses.rows, S.eq k.courseId c.courseId = true

/-- The same values under the key `unique`. -/
structure SameUnique (S : Server) (c d : Section) : Prop where
  year : c.year = d.year
  semester : S.eq c.semester d.semester = true
  courseId : S.eq c.courseId d.courseId = true
  sectionNo : S.eq c.sectionNo d.sectionNo = true

theorem SameUnique.symm (h : SameUnique S c d) : SameUnique S d c :=
  ⟨h.year.symm, Collation.symm h.semester, Collation.symm h.courseId, Collation.symm h.sectionNo⟩

/-- A row depends on the courses only. -/
theorem Section.Stored.of_courses (hc : c.Stored s) (h : s'.courses = s.courses) : c.Stored s' :=
  ⟨hc.callNo, hc.courseId, hc.sectionNo, hc.semester, hc.sectionKey, by rw [h]; exact hc.course⟩

/-- Every section that is stored is a row the columns keep. -/
theorem insertSection_stored {callNo courseId sectionNo : Option Text} {year : Option ℤ} {semester : Option Text}
    {limit : Option (Option ℤ)} (hs : ∀ c ∈ s.sections.rows, c.Stored s)
    (h : insertSection callNo courseId sectionNo year semester limit s = .ok s') :
    ∀ c ∈ s'.sections.rows, c.Stored s' := by
  simp only [insertSection, bind_eq_ok, references_eq_ok] at h
  obtain ⟨_, -, n, hn, _, -, i, hi, _, -, o, ho, y, -, _, -, m, hm, k, hk, T, hT, _, hcourse, h⟩ := h
  cases h
  have hrows := (Table.insert_ok hT).1
  rw [List.any_eq_true] at hcourse
  intro c hc
  have hc : c ∈ T.rows := hc
  rw [hrows, List.mem_append, List.mem_singleton] at hc
  rcases hc with hc | rfl
  · exact (hs c hc).of_courses rfl
  · exact ⟨char_stored hn, varchar_stored hi, varchar_stored ho, varchar_stored hm, ⟨k, hk⟩, hcourse⟩

/-- No operation of a run touches the courses. -/
theorem Outcome.courses_eq {op : Op} {out : Except SqlError Unit} (h : Outcome s op out s') :
    s'.courses = s.courses := by
  cases h with
  | insertRefused | updateRefused | deleteRefused | sectionRefused | participantRefused => rfl
  | insertHalf | updateHalf | sectionDone | participantDone | participantDeleted => rfl
  | insertDone _ _ _ _ _ hr => exact hr.courses
  | updateDone _ _ _ _ hr => exact hr.courses
  | @deleteHalf k uni => exact (deleteSub_sameBut k uni s).courses
  | deleteDone _ _ _ _ hr => exact hr.courses

theorem op_sections_stored (hfk : ForeignKeys s) (hs : ∀ c ∈ s.sections.rows, c.Stored s) (op : Op) :
    ∀ c ∈ (op.run s).sections.rows, c.Stored (op.run s) := by
  have hout := op_outcome hfk op
  have hsame : (op.run s).sections = s.sections → ∀ c ∈ (op.run s).sections.rows, c.Stored (op.run s) := by
    intro hsec c hc
    rw [hsec] at hc
    exact (hs c hc).of_courses hout.courses_eq
  rcases hout.sections_cases with ⟨-, hsec⟩ | ⟨-, c, n, i, m, y, r, limit, rfl, -⟩ | ⟨hsec, -⟩ | ⟨hsec, -⟩
  · exact hsame hsec
  · -- the one operation that writes sections
    unfold Op.run Op.proc
    rw [Proc.run_exec]
    cases h : School.insertSection n i m y r limit s with
    | error e => exact hs
    | ok s' => exact insertSection_stored hs h
  · exact hsame hsec
  · exact hsame hsec

/-- **Along every run**, the sections are rows of this kind. -/
theorem run_sections_stored (ops : List Op) {s : State S} (hfk : ForeignKeys s)
    (hs : ∀ c ∈ s.sections.rows, c.Stored s) : ∀ c ∈ (run ops s).sections.rows, c.Stored (run ops s) := by
  induction ops generalizing s with
  | nil => exact hs
  | cons op ops ih => exact ih ((op_outcome hfk op).foreignKeys hfk) (op_sections_stored hfk hs op)

/-- A course has an id that is not blank. -/
theorem Section.Stored.courseId_not_blank (hc : c.Stored s) : S.eq c.courseId [] = false := by
  obtain ⟨k, -, hk⟩ := hc.course
  rw [Bool.eq_false_iff]
  intro hblank
  obtain ⟨a, ha, hl⟩ := level_digit k.level
  have hmem : a ∈ k.courseId := by
    unfold Course.courseId; rw [hl]; simp
  have := Collation.eq_nil_iff.1 (Collation.trans hk hblank) a hmem
  rw [this] at ha
  exact absurd ha (by decide)

/-! ## Borders that shift -/

/-- **A border of the key has shifted**: a column of `d` is the one of `c` with some of
what follows it. -/
inductive KeyShifted (S : Server) (c d : Section) : Prop
  | year (x : Text) : x ≠ [] → decimal d.year = decimal c.year ++ x →
      S.eq (c.semester ++ c.courseId ++ c.sectionNo) (x ++ d.semester ++ d.courseId ++ d.sectionNo) = true →
      KeyShifted S c d
  | semester (x : Text) : x ≠ [] → c.year = d.year → Alike S.weight d.semester (c.semester ++ x) →
      S.eq (c.courseId ++ c.sectionNo) (x ++ d.courseId ++ d.sectionNo) = true → KeyShifted S c d
  | courseId (x : Text) : x ≠ [] → c.year = d.year → Alike S.weight c.semester d.semester →
      Alike S.weight d.courseId (c.courseId ++ x) → S.eq c.sectionNo [] = false →
      S.eq c.sectionNo (x ++ d.sectionNo) = true → KeyShifted S c d

/-- The same blanks at the end of the semesters, and of the courses if a number follows. -/
def SamePadding (S : Server) (c d : Section) : Prop :=
  Alike S.weight c.semester d.semester ∧ (Alike S.weight c.courseId d.courseId ∨ S.eq c.sectionNo [] = true)

/-- **Blanks that do not count in a column** count in the key, where something follows. -/
def KeyPadded (S : Server) (c d : Section) : Prop := SameUnique S c d ∧ ¬SamePadding S c d

/-- The parts of a key, with `n` blanks after the last. -/
def Section.parts (c : Section) (n : ℕ) : List Text :=
  [decimal c.year, c.semester, c.courseId, c.sectionNo ++ List.replicate n ' ']

theorem sectionKey_pad (c : Section) (n : ℕ) : c.sectionKey ++ List.replicate n ' ' = (c.parts n).flatten := by
  simp [Section.sectionKey, Section.parts]

/-- What a shifted border makes of the columns. -/
theorem KeyShifted.eq (h : KeyShifted S c d) : S.eq c.sectionKey d.sectionKey = true := by
  unfold Section.sectionKey
  cases h with
  | year x _ hy hrest =>
    rw [hy]
    have h := Collation.eq_append (Alike.refl (decimal c.year)) hrest
    simpa only [List.append_assoc] using h
  | semester x _ hy hsem hrest =>
    have h := Collation.eq_append (Alike.refl (decimal c.year ++ c.semester)) hrest
    have h' := Collation.eq_of_alike (((Alike.refl (decimal c.year)).append hsem.symm).append
      (Alike.refl (d.courseId ++ d.sectionNo)))
    rw [hy] at h h' ⊢
    simp only [List.append_assoc] at h h' ⊢
    exact Collation.trans h h'
  | courseId x _ hy hsem hcid _ hrest =>
    have h :=
      Collation.eq_append ((Alike.refl (decimal c.year)).append (hsem.append (Alike.refl c.courseId))) hrest
    have h' := Collation.eq_of_alike ((Alike.refl (decimal c.year ++ d.semester)).append
      (hcid.symm.append (Alike.refl d.sectionNo)))
    rw [hy] at h h' ⊢
    simp only [List.append_assoc] at h h' ⊢
    exact Collation.trans h h'

/-- A border shifts to the right. -/
theorem KeyShifted.length_lt (h : KeyShifted S c d) : (decimal c.year).length < (decimal d.year).length ∨
    c.semester.length < d.semester.length ∨ c.courseId.length < d.courseId.length := by
  cases h with
  | year x hx hy _ =>
    have hpos := List.length_pos_iff.2 hx
    rw [hy, List.length_append]
    omega
  | semester x hx _ hsem _ =>
    have hpos := List.length_pos_iff.2 hx
    have hlen := hsem.length_eq
    rw [List.length_append] at hlen
    omega
  | courseId x hx _ _ hcid _ _ =>
    have hpos := List.length_pos_iff.2 hx
    have hlen := hcid.length_eq
    rw [List.length_append] at hlen
    omega

/-- A shifted border makes two sections of it. -/
theorem KeyShifted.not_same (hc : S.eq c.courseId [] = false) (h : KeyShifted S c d) : ¬SameUnique S c d := by
  intro hsame
  cases h with
  | year x hx hy _ =>
    rw [hsame.year] at hy
    exact hx (List.append_right_eq_self.1 hy.symm)
  | semester x hx _ hsem hrest =>
    -- the semesters differ by blanks, which then stand before the course
    have hblank : S.eq x [] = true :=
      Collation.blank_of_eq_append (Collation.trans hsame.semester (Collation.eq_of_alike hsem))
    rw [List.append_assoc] at hrest
    exact hx (Collation.eq_nil_of_blank hblank hc hsame.courseId hrest)
  | courseId x hx _ _ _ hno hrest =>
    have hno' : S.eq d.sectionNo [] = false := by rw [← Collation.eq_congr hsame.sectionNo]; exact hno
    exact hx (Collation.eq_nil_of_append hno' (Collation.trans (Collation.symm hsame.sectionNo) hrest))

/-- What moves is a shifted border, or a blank of a course that no number follows. -/
theorem keyShifted_of_parts {m n : ℕ} (h : Moved S.weight (c.parts m) (d.parts n)) :
    KeyShifted S c d ∨ (SameUnique S c d ∧ SamePadding S c d) := by
  rcases h with ⟨x, hx, hy, hrest⟩ | ⟨hy, ⟨x, hx, hsem, hrest⟩ | ⟨hsem, ⟨x, hx, hcid, hrest⟩ | ⟨-, h⟩⟩⟩
  · left
    refine .year x hx (map_weight_signs_inj decimal_signs hy) (Collation.eq_iff_alike_pad.2 ⟨m, n, ?_⟩)
    simpa using hrest
  · left
    refine .semester x hx (decimal_alike.1 hy) hsem (Collation.eq_iff_alike_pad.2 ⟨m, n, ?_⟩)
    simpa using hrest
  · have hno : S.eq c.sectionNo (x ++ d.sectionNo) = true :=
      Collation.eq_iff_alike_pad.2 ⟨m, n, by simpa using hrest⟩
    by_cases hblank : S.eq c.sectionNo [] = true
    · -- only blanks have moved
      right
      have hall := Collation.eq_nil_iff.1 (Collation.trans (Collation.symm hno) hblank)
      have hx' : S.eq x [] = true := Collation.eq_nil_iff.2 fun a ha => hall a (List.mem_append_left _ ha)
      have hd : S.eq d.sectionNo [] = true := Collation.eq_nil_iff.2 fun a ha =>
        hall a (List.mem_append_right _ ha)
      have hcid' : S.eq c.courseId d.courseId = true :=
        Collation.symm (Collation.trans (Collation.eq_of_alike hcid) (Collation.eq_append_blank _ hx'))
      exact ⟨⟨decimal_alike.1 hy, Collation.eq_of_alike hsem, hcid', Collation.trans hblank (Collation.symm hd)⟩,
        hsem, .inr hblank⟩
    · left
      exact .courseId x hx (decimal_alike.1 hy) hsem hcid (Bool.eq_false_iff.2 hblank) hno
  · exact absurd h (not_moved_singleton _ _)

theorem SamePadding.symm (h : SamePadding S c d) (hsame : SameUnique S c d) : SamePadding S d c := by
  refine ⟨h.1.symm, ?_⟩
  rcases h.2 with hcid | hblank
  · left; exact hcid.symm
  · right; rw [← Collation.eq_congr hsame.sectionNo]; exact hblank

/-- Equal columns with the same padding give equal keys. -/
theorem SameUnique.key_eq (hsame : SameUnique S c d) (hpad : SamePadding S c d) :
    S.eq c.sectionKey d.sectionKey = true := by
  have hrest : S.eq (c.courseId ++ c.sectionNo) (d.courseId ++ d.sectionNo) = true := by
    rcases hpad.2 with hcid | hblank
    · exact Collation.eq_append hcid hsame.sectionNo
    · have hd : S.eq d.sectionNo [] = true := by rw [← Collation.eq_congr hsame.sectionNo]; exact hblank
      exact Collation.trans (Collation.eq_append_blank _ hblank)
        (Collation.trans hsame.courseId (Collation.symm (Collation.eq_append_blank _ hd)))
  have h := Collation.eq_append ((Alike.refl (decimal c.year)).append hpad.1) hrest
  unfold Section.sectionKey
  rw [hsame.year] at h ⊢
  simpa only [List.append_assoc] using h

/-- **When two keys are equal.** -/
theorem sectionKey_eq_iff : S.eq c.sectionKey d.sectionKey = true ↔
    (SameUnique S c d ∧ SamePadding S c d) ∨ KeyShifted S c d ∨ KeyShifted S d c := by
  constructor
  · intro h
    obtain ⟨m, n, h⟩ := Collation.eq_iff_alike_pad.1 h
    rw [sectionKey_pad, sectionKey_pad] at h
    have hlen : (c.parts m).length = (d.parts n).length := rfl
    rcases (alike_flatten_iff hlen).1 h with hall | hm | hm
    · left
      simp only [Section.parts, List.forall₂_cons, List.forall₂_nil_right_iff, and_true] at hall
      obtain ⟨hy, hsem, hcid, hno⟩ := hall
      exact ⟨⟨decimal_alike.1 hy, Collation.eq_of_alike hsem, Collation.eq_of_alike hcid,
        Collation.eq_iff_alike_pad.2 ⟨m, n, hno⟩⟩, hsem, .inl hcid⟩
    · rcases keyShifted_of_parts hm with h | h
      · right; left; exact h
      · left; exact h
    · rcases keyShifted_of_parts hm with h | ⟨hsame, hpad⟩
      · right; right; exact h
      · left; exact ⟨hsame.symm, hpad.symm hsame⟩
  · rintro (⟨hsame, hpad⟩ | h | h)
    · exact hsame.key_eq hpad
    · exact h.eq
    · exact Collation.symm h.eq

/-- **`section_key` separates what the unique key separates**, for two rows that the table
can hold, exactly when no border between their columns has shifted and equal columns are
padded alike. What storing a key may cut is blanks at its end, which do not count. -/
theorem section_key_separates_iff (s : State S) (c d : Section) (hc : c.Stored s) (hd : d.Stored s) :
    (S.eq c.sectionKey d.sectionKey = true ↔ SameUnique S c d) ↔
      ¬KeyShifted S c d ∧ ¬KeyShifted S d c ∧ ¬KeyPadded S c d := by
  have hkey := sectionKey_eq_iff (S := S) (c := c) (d := d)
  constructor
  · intro hiff
    refine ⟨fun h => ?_, fun h => ?_, fun h => ?_⟩
    · exact h.not_same hc.courseId_not_blank (hiff.1 h.eq)
    · exact h.not_same hd.courseId_not_blank (hiff.1 (Collation.symm h.eq)).symm
    · -- the columns are equal, and with them the keys
      rcases hkey.1 (hiff.2 h.1) with ⟨-, hpad⟩ | hsh | hsh
      · exact h.2 hpad
      · exact hsh.not_same hc.courseId_not_blank h.1
      · exact hsh.not_same hd.courseId_not_blank h.1.symm
  · rintro ⟨hcd, hdc, hpadded⟩
    constructor
    · intro he
      rcases hkey.1 he with ⟨hsame, -⟩ | h | h
      · exact hsame
      · exact absurd h hcd
      · exact absurd h hdc
    · intro hsame
      refine hsame.key_eq ?_
      by_contra hpad
      exact hpadded ⟨hsame, hpad⟩

/-- Two sections of one course. -/
theorem section_key_separates_two :
    let c : Section := ⟨"00001".toList, "COMSE1006".toList, "1".toList, 2017, "1".toList, some 3⟩
    let d : Section := ⟨"00002".toList, "COMSE1006".toList, "2".toList, 2017, "1".toList, some 3⟩
    c.Stored oneCourse ∧ d.Stored oneCourse ∧
      (asciiServer.eq c.sectionKey d.sectionKey = true ↔ SameUnique asciiServer c d) := by
  intro c d
  have hc : c.Stored oneCourse := ⟨rfl, rfl, rfl, rfl, ⟨_, rfl⟩, _, List.mem_cons_self, by decide⟩
  have hd : d.Stored oneCourse := ⟨rfl, rfl, rfl, rfl, ⟨_, rfl⟩, _, List.mem_cons_self, by decide⟩
  refine ⟨hc, hd, (section_key_separates_iff oneCourse c d hc hd).2 ⟨?_, ?_, ?_⟩⟩
  · intro h
    exact absurd h.length_lt (by decide)
  · intro h
    exact absurd h.length_lt (by decide)
  · intro h
    exact absurd h.1.sectionNo (by decide)

/-- `COMSW411` and `COMSW4111`. -/
def twoCourses : State asciiServer :=
  { State.empty with courses := ⟨[⟨"COMS".toList, .W, .l4, "11".toList⟩, ⟨"COMS".toList, .W, .l4, "111".toList⟩],
      List.pairwise_pair.2 (by unfold Sql.Unique.Apart; decide)⟩ }

/-- Section 12 of the one and section 2 of the other: both are stored, with one key. -/
theorem section_key_shared :
    let c : Section := ⟨"00001".toList, "COMSW411".toList, "12".toList, 2017, "1".toList, some 3⟩
    let d : Section := ⟨"00002".toList, "COMSW4111".toList, "2".toList, 2017, "1".toList, some 3⟩
    (run [.insertSection (some "00001".toList) (some "COMSW411".toList) (some "12".toList) (some 2017)
        (some "1".toList) none, .insertSection (some "00002".toList) (some "COMSW4111".toList) (some "2".toList)
        (some 2017) (some "1".toList) none] twoCourses).sections.rows = [c, d] ∧
      c.Stored twoCourses ∧ d.Stored twoCourses ∧ c.sectionKey = d.sectionKey ∧ ¬SameUnique asciiServer c d := by
  intro c d
  refine ⟨by decide, ⟨rfl, rfl, rfl, rfl, ⟨_, rfl⟩, _, List.mem_cons_self, by decide⟩,
    ⟨rfl, rfl, rfl, rfl, ⟨_, rfl⟩, _, List.mem_cons_of_mem _ List.mem_cons_self, by decide⟩, by decide, ?_⟩
  intro h
  exact absurd h.courseId (by decide)

end Coms4111.School
