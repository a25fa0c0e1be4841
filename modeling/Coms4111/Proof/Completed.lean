import Coms4111.Proof.Admission

/-!
# Which courses are over

`completed_course` compares the year and then the **code** of the semester, and the codes
are not in the order of the calendar: the semester 1 of a year runs from September to
December, after the semesters 2, 3 and 4.

* `completed_iff`, `over_iff`: when the view lists a section, and when it is over.
* `completed_exactly_over_iff`: at a date the view lists exactly what is over, and goes on
  listing it, exactly if no section of the current year is over or waits for September.
-/

namespace Coms4111.School

open Sql

variable {S : Server} {s : State S} {now : Date} {c : Section} {n : ℕ}

/-- The server compares the numerals 1 to 4 as numbers. -/
def ReadsDigits (S : Server) : Prop := ∀ n : ℕ, 1 ≤ n → n ≤ 4 → S.toNumber (Nat.toDigits 10 n) = n

/-- A month of the calendar. -/
def Date.Valid (d : Date) : Prop := 1 ≤ d.month ∧ d.month ≤ 12

/-- The month `d` lies before the month `e`. -/
def Date.Before (d e : Date) : Prop := d.year < e.year ∨ d.year = e.year ∧ d.month < e.month

/-- The section is in the semester `n` of its year. -/
def Section.InSemester (c : Section) (n : ℕ) : Prop := 1 ≤ n ∧ n ≤ 4 ∧ c.semester = Nat.toDigits 10 n

/-- **The semester is over**: all its months lie before the current one. -/
def Over (now : Date) (year : ℤ) (n : ℕ) : Prop :=
  ∀ month, (⟨year, month⟩ : Date).Valid → convertSemester month = some (n : ℤ) → Date.Before ⟨year, month⟩ now

/-- `q` takes part in the section `c`. -/
def State.TakesPart (s : State S) (q : Participant) (c : Section) : Prop :=
  q ∈ s.participant.rows ∧ c ∈ s.sections.rows ∧ S.eq q.sectionCallNo c.callNo = true

/-- The row of `completed_course` for a uni in a section. -/
def Section.listed (c : Section) (uni : Text) : CompletedCourse := ⟨uni, c.courseId, c.year, c.semester⟩

/-- **What `completed_course` is for.** -/
structure ListsOver (s : State S) (now : Date) : Prop where
  /-- It lists exactly what is over. -/
  exactly : ∀ q c n, s.TakesPart q c → c.InSemester n →
    (c.listed q.uni ∈ completedCourse now s ↔ Over now c.year n)
  /-- What is listed stays so. -/
  stays : ∀ q c n, s.TakesPart q c → c.InSemester n → c.listed q.uni ∈ completedCourse now s →
    ∀ later : Date, later.Valid → ¬later.Before now → c.listed q.uni ∈ completedCourse later s

/-! ## The calendar -/

/-- The code of the semester at a date. -/
def Date.code (d : Date) : ℕ := if 9 ≤ d.month then 1 else if d.month ≤ 4 then 2 else if d.month ≤ 6 then 3 else 4

theorem Date.code_cases (d : Date) : 9 ≤ d.month ∧ d.code = 1 ∨ d.month ≤ 4 ∧ d.code = 2 ∨
    (5 ≤ d.month ∧ d.month ≤ 6) ∧ d.code = 3 ∨ (7 ≤ d.month ∧ d.month ≤ 8) ∧ d.code = 4 := by
  unfold Date.code
  by_cases h9 : 9 ≤ d.month
  · simp [h9]
  by_cases h4 : d.month ≤ 4
  · simp [h9, h4]
  by_cases h6 : d.month ≤ 6
  · rw [if_neg h9, if_neg h4, if_pos h6]; omega
  · rw [if_neg h9, if_neg h4, if_neg h6]; omega

theorem Date.Valid.convertSemester {d : Date} (h : d.Valid) : convertSemester d.month = some (d.code : ℤ) := by
  obtain ⟨year, month⟩ := d
  obtain ⟨h1, h12⟩ := h
  simp only at h1 h12
  interval_cases month <;> rfl

/-- The last month of a semester. -/
def lastMonth (n : ℕ) : ℕ := if n = 1 then 12 else 2 * n

theorem lastMonth_cases (n : ℕ) : n = 1 ∧ lastMonth n = 12 ∨ n ≠ 1 ∧ lastMonth n = 2 * n := by
  unfold lastMonth
  by_cases h : n = 1
  · simp [h]
  · simp [h]

theorem convertSemester_lastMonth (h1 : 1 ≤ n) (h4 : n ≤ 4) : convertSemester (lastMonth n) = some (n : ℤ) := by
  interval_cases n <;> rfl

/-- A semester is over when its last month is. -/
theorem over_iff (h1 : 1 ≤ n) (h4 : n ≤ 4) {year : ℤ} :
    Over now year n ↔ year < now.year ∨ year = now.year ∧ lastMonth n < now.month := by
  have hlast := lastMonth_cases n
  constructor
  · intro h
    have hvalid : (⟨year, lastMonth n⟩ : Date).Valid := ⟨by simp only; omega, by simp only; omega⟩
    exact h (lastMonth n) hvalid (convertSemester_lastMonth h1 h4)
  · intro h month hvalid hm
    have hcode := Date.code_cases ⟨year, month⟩
    rw [hvalid.convertSemester, Option.some.injEq, Nat.cast_inj] at hm
    rw [hm] at hcode
    have hm12 := hvalid.2
    simp only at hcode hm12
    have hle : month ≤ lastMonth n := by omega
    unfold Date.Before
    simp only
    omega

/-! ## The view -/

/-- A section that is listed for one of its participants is over for the view. -/
theorem listed_iff {q : Participant} (h : s.TakesPart q c) :
    c.listed q.uni ∈ completedCourse now s ↔ c.completed S now = true := by
  rw [mem_completedCourse]
  constructor
  · rintro ⟨r, -, d, -, -, hdone, heq⟩
    -- another section may give the same row, but then in the same semester
    have hy : c.year = d.year := congrArg CompletedCourse.year heq
    have hm : c.semester = d.semester := congrArg CompletedCourse.semester heq
    unfold Section.completed at hdone ⊢
    rw [hy, hm]
    exact hdone
  · intro hdone
    obtain ⟨hq, hc, he⟩ := h
    exact ⟨q, hq, c, hc, he, hdone, rfl⟩

theorem completed_iff (hS : ReadsDigits S) (hnow : now.Valid) (hc : c.InSemester n) :
    c.completed S now = true ↔ c.year < now.year ∨ c.year = now.year ∧ n < now.code := by
  obtain ⟨h1, h4, hsem⟩ := hc
  have hlt : S.toNumber c.semester < ((now.code : ℤ) : ℚ) ↔ n < now.code := by
    rw [hsem, hS n h1 h4]
    norm_cast
  unfold Section.completed
  rw [hnow.convertSemester]
  simp only [Option.pure_def, Option.bind_eq_bind, Option.bind_some, Option.any_some, Bool.or_eq_true,
    Bool.and_eq_true, decide_eq_true_eq, beq_iff_eq, gt_iff_lt, hlt]
  omega

/-- **At one date.** Sections of other years are listed as they should be. -/
theorem exact_iff (hS : ReadsDigits S) (hnow : now.Valid) (hc : c.InSemester n) :
    (c.completed S now = true ↔ Over now c.year n) ↔ (c.year = now.year → (n = 1 ↔ 9 ≤ now.month)) := by
  rw [completed_iff hS hnow hc]
  obtain ⟨h1, h4, -⟩ := hc
  rw [over_iff h1 h4]
  have hm := hnow.2
  have hcode := now.code_cases
  have hlast := lastMonth_cases n
  omega

/-- What is listed in a section's own year is not listed in September. -/
theorem stays_iff (hS : ReadsDigits S) (hnow : now.Valid) (hc : c.InSemester n)
    (hdone : c.completed S now = true) :
    (∀ later : Date, later.Valid → ¬later.Before now → c.completed S later = true) ↔ c.year ≠ now.year := by
  rw [completed_iff hS hnow hc] at hdone
  have h1 := hc.1
  constructor
  · intro hall hy
    have hcode := now.code_cases
    have hsept : (⟨now.year, 9⟩ : Date).Valid := ⟨by simp, by simp⟩
    have hnot : ¬(⟨now.year, 9⟩ : Date).Before now := by
      unfold Date.Before
      simp only
      omega
    have hlisted := hall _ hsept hnot
    rw [completed_iff hS hsept hc, show (⟨now.year, 9⟩ : Date).code = 1 from rfl] at hlisted
    simp only at hlisted
    omega
  · intro hne later hlater hnot
    rw [completed_iff hS hlater hc]
    unfold Date.Before at hnot
    omega

/-- **The view lists exactly what is over, for good**, if and only if no section of the
current year with a participant is over or is the one that starts in September. -/
theorem completed_exactly_over_iff (hS : ReadsDigits S) (s : State S) (now : Date) (hnow : now.Valid) :
    ListsOver s now ↔ ∀ q c n, s.TakesPart q c → c.InSemester n → c.year = now.year →
      ¬Over now c.year n ∧ (n = 1 → 9 ≤ now.month) := by
  constructor
  · intro h q c n hq hc hy
    have hex := h.exactly q c n hq hc
    rw [listed_iff hq] at hex
    have hmonth := (exact_iff hS hnow hc).1 hex hy
    refine ⟨fun hover => ?_, hmonth.1⟩
    have hdone := hex.2 hover
    have hstays := h.stays q c n hq hc ((listed_iff hq).2 hdone)
    have hne := (stays_iff hS hnow hc hdone).1 fun later hl hb => (listed_iff hq).1 (hstays later hl hb)
    exact hne hy
  · intro h
    have hex : ∀ q c n, s.TakesPart q c → c.InSemester n → (c.completed S now = true ↔ Over now c.year n) := by
      intro q c n hq hc
      refine (exact_iff hS hnow hc).2 fun hy => ⟨(h q c n hq hc hy).2, fun hmonth => ?_⟩
      -- from September on, every other semester of the year is over
      have hrun := (h q c n hq hc hy).1
      rw [over_iff hc.1 hc.2.1] at hrun
      by_contra hne
      have hlast : lastMonth n ≤ 8 := by
        have h4 := hc.2.1
        unfold lastMonth
        rw [if_neg hne]
        omega
      omega
    refine ⟨fun q c n hq hc => by rw [listed_iff hq]; exact hex q c n hq hc, ?_⟩
    intro q c n hq hc hlisted later hl hb
    rw [listed_iff hq] at hlisted ⊢
    refine (stays_iff hS hnow hc hlisted).2 (fun hy => ?_) later hl hb
    exact (h q c n hq hc hy).1 ((hex q c n hq hc).1 hlisted)

theorem asciiServer_readsDigits : ReadsDigits asciiServer := by
  intro n h1 h4
  interval_cases n <;> decide +kernel

/-- The section of `oneSpot`, with the first student in it. -/
def spotTaken : State asciiServer :=
  run [.insertParticipant ⟨2017, 10⟩ (some "PEJU1".toList) (some "00003".toList)] oneSpot

/-- In October 2017 the semester 1 of 2017 is running, as the view has it. -/
theorem completed_in_october : ListsOver spotTaken ⟨2017, 10⟩ :=
  (completed_exactly_over_iff asciiServer_readsDigits spotTaken ⟨2017, 10⟩ ⟨by decide, by decide⟩).2 (by
    intro q c n hq hc hy
    have hsem : ∀ c ∈ spotTaken.sections.rows, c.semester = "1".toList := by decide +kernel
    have hn : n = 1 := by
      have h := hc.2.2
      rw [hsem c hq.2.1] at h
      exact toDigits_inj h.symm
    subst hn
    rw [over_iff (by decide) (by decide), hy]
    refine ⟨?_, fun _ => by decide⟩
    unfold lastMonth
    simp)

/-- In February 2017 the view lists the course that starts in September, and in September
it no longer does. -/
theorem future_course_completed :
    (Section.listed ⟨"00003".toList, "COMSE1006".toList, "1".toList, 2017, "1".toList, some 1⟩ "PEJU1".toList) ∈
        completedCourse ⟨2017, 2⟩ spotTaken ∧
      (Section.listed ⟨"00003".toList, "COMSE1006".toList, "1".toList, 2017, "1".toList, some 1⟩ "PEJU1".toList) ∉
        completedCourse ⟨2017, 9⟩ spotTaken ∧
      ¬ListsOver spotTaken ⟨2017, 2⟩ := by
  have hlisted : (Section.listed ⟨"00003".toList, "COMSE1006".toList, "1".toList, 2017, "1".toList, some 1⟩
      "PEJU1".toList) ∈ completedCourse ⟨2017, 2⟩ spotTaken := by decide +kernel
  refine ⟨hlisted, by decide +kernel, fun h => ?_⟩
  have hover := (h.exactly ⟨"PEJU1".toList, "00003".toList⟩ _ 1 ⟨by decide +kernel, by decide +kernel, by decide⟩
    ⟨by decide, by decide, rfl⟩).1 hlisted
  rw [over_iff (by decide) (by decide)] at hover
  revert hover
  decide

end Coms4111.School
