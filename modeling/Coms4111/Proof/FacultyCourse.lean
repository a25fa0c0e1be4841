import Coms4111.Proof.Teaching
import Coms4111.Sql.Join

/-!
# What the faculty has taught

`faculty_course` asks for the row in `Faculty`, `trigger_insert_participant` for the type of the
person, and `faculty_limit` counts participations. In every state of a run they fit together:

* `faculty_course_limited`: the view lists every participation of a faculty member once, with the
  columns of its section, and of nobody more than three in a year and semester.
-/

namespace Coms4111.School

open Sql

variable {S : Server} {s : State S}

/-- `faculty_view` lists whoever is in `Faculty`. -/
theorem facultyView_any (hfk : ForeignKeys s) (u : Text) :
    ((facultyView s).any fun v => S.eq u v.uni) = s.hasSub .faculty (some u) := by
  unfold State.hasSub
  rw [← (views_unis hfk).2, List.any_map]
  congr 1
  funext v
  rw [Function.comp_apply, Collation.eqN_some, Collation.eq_symm]

/-- The sections with a number are the one that a subquery finds. -/
theorem sections_filter (s : State S) (n : Text) :
    (s.sections.rows.filter fun c => S.eq n c.callNo) = (s.sectionAt (some n)).toList := by
  have hfind : s.sectionAt (some n) = s.sections.rows.find? fun c => S.eq n c.callNo := by
    unfold State.sectionAt
    congr 1
    funext c
    rw [Collation.eqN_some, Collation.eq_symm]
  rw [hfind]
  refine s.sections.filter_eq_toList fun a b ha hb => ?_
  show (Unique.clash _ _ _ || _) = true
  rw [Unique.key_clash, Collation.trans (Collation.symm ha) hb]
  rfl

/-- The row of the view for a participation. -/
def State.taughtRow (s : State S) (q : Participant) : Option FacultyCourse :=
  if s.hasSub .faculty (some q.uni) then
    (s.sectionAt (some q.sectionCallNo)).map fun c => ⟨q.uni, c.courseId, c.year, c.semester⟩
  else none

theorem facultyCourse_eq (hfk : ForeignKeys s) : facultyCourse s = s.participant.rows.filterMap s.taughtRow := by
  unfold facultyCourse
  rw [List.filterMap_eq_flatMap_toList]
  congr 1
  funext q
  unfold State.taughtRow
  rw [facultyView_any hfk]
  cases s.hasSub .faculty (some q.uni) with
  | false =>
    simp only [Bool.and_false, List.filter_false, List.map_nil, Bool.false_eq_true, if_false, Option.toList_none]
  | true =>
    simp only [Bool.and_true, if_true, sections_filter]
    cases s.sectionAt (some q.sectionCallNo) <;> rfl

/-- The row is that of the participation: its uni, and the columns of its own section. -/
def IsTaught (s : State S) (r : FacultyCourse) (q : Participant) : Prop :=
  r.uni = q.uni ∧ ∃ c ∈ s.sections.rows, S.eq c.callNo q.sectionCallNo = true ∧
    r.courseId = c.courseId ∧ r.year = c.year ∧ r.semester = c.semester

/-- A list with a part of its elements replaced, next to that part. -/
theorem forall₂_filterMap {α β : Type} {R : β → α → Prop} {f : α → Option β} {p : α → Bool} {l : List α}
    (hsome : ∀ a ∈ l, p a = true → ∃ b, f a = some b ∧ R b a) (hnone : ∀ a ∈ l, p a = false → f a = none) :
    List.Forall₂ R (l.filterMap f) (l.filter p) := by
  induction l with
  | nil => exact .nil
  | cons a l ih =>
    have hrest := ih (fun b hb => hsome b (List.mem_cons_of_mem a hb)) fun b hb =>
      hnone b (List.mem_cons_of_mem a hb)
    cases hp : p a with
    | true =>
      obtain ⟨b, hf, hR⟩ := hsome a List.mem_cons_self hp
      rw [List.filterMap_cons_some hf, List.filter_cons_of_pos hp]
      exact .cons hR hrest
    | false =>
      rw [List.filterMap_cons_none (hnone a List.mem_cons_self hp), List.filter_cons_of_neg (by rw [hp]; decide)]
      exact hrest

theorem facultyCourse_rows (hfk : ForeignKeys s) : List.Forall₂ (IsTaught s) (facultyCourse s)
    (s.participant.rows.filter fun q => s.hasSub .faculty (some q.uni)) := by
  rw [facultyCourse_eq hfk]
  refine forall₂_filterMap (fun q hq hsub => ?_) fun q _ hsub => ?_
  · obtain ⟨c, hc, he⟩ := hfk.sections q hq
    refine ⟨⟨q.uni, c.courseId, c.year, c.semester⟩, ?_, rfl, c, hc, he, rfl, rfl, rfl⟩
    unfold State.taughtRow
    rw [sectionAt_eq hc he, if_pos hsub]
    rfl
  · unfold State.taughtRow
    rw [hsub, if_neg (by decide)]

/-- A row of the view for the uni in the semester is a participation that `faculty_limit`
counts. -/
theorem taughtRow_counts {q : Participant} {u : Text} {year : ℤ} {semester : Text}
    (h : ((s.taughtRow q).filter fun r =>
      S.eq r.uni u && r.year == year && S.eq r.semester semester).isSome = true) :
    s.hasSub .faculty (some q.uni) = true ∧ S.eq q.uni u = true ∧ s.inSemester year semester q = true := by
  unfold State.taughtRow at h
  cases hsub : s.hasSub .faculty (some q.uni) with
  | false =>
    rw [hsub] at h
    cases h
  | true =>
    rw [hsub, if_pos rfl] at h
    unfold State.inSemester
    cases hc : s.sectionAt (some q.sectionCallNo) with
    | none =>
      rw [hc] at h
      cases h
    | some c =>
      rw [hc] at h
      simp only [Option.map_some, Option.isSome_filter, Option.any_some, Bool.and_eq_true] at h ⊢
      exact ⟨trivial, h.1.1, h.1.2, h.2⟩

/-- **What `faculty_course` shows**, in every state of every run: each participation of a faculty
member once, with the course, the year and the semester of its section, and of nobody more than three
in a year and semester. -/
theorem faculty_course_limited (s : State S) (ops : List Op) (u : Text) (year : ℤ) (semester : Text) :
    let t := run ops s.cleared
    List.Forall₂ (IsTaught t) (facultyCourse t)
        (t.participant.rows.filter fun q => t.hasSub .faculty (some q.uni)) ∧
      ((facultyCourse t).filter fun r =>
        S.eq r.uni u && r.year == year && S.eq r.semester semester).length ≤ 3 := by
  intro t
  have hall : Along (fun (s : State S) op => op.run s) (fun _ _ => True) s.cleared ops :=
    Along.of_forall (fun _ _ => trivial) ops s.cleared
  obtain ⟨hfk, htyped, hteach⟩ := run_keeps (I := fun s : State S => Typed s ∧ Teaching s)
    (fun hfk hs _ _ h => ⟨h.typed hfk hs.1, h.teaching hfk hs.2⟩) (foreignKeys_cleared s)
    ⟨typed_cleared s, fun q hq => by simp [State.cleared, Table.empty] at hq⟩ hall
  refine ⟨facultyCourse_rows hfk, ?_⟩
  rw [facultyCourse_eq hfk, List.filter_filterMap, List.length_filterMap_eq_countP]
  by_cases hex : ∃ q ∈ t.participant.rows, ((t.taughtRow q).filter fun r =>
      S.eq r.uni u && r.year == year && S.eq r.semester semester).isSome = true
  · obtain ⟨q, hq, hrow⟩ := hex
    obtain ⟨hsub, hqu, -⟩ := taughtRow_counts hrow
    -- whoever is in `Faculty` is of that type
    obtain ⟨v, hv, hvq⟩ := hasSub_iff.1 hsub
    obtain ⟨p, hp, hpv⟩ := hasPerson_iff.1 (hfk.sub .faculty v hv)
    have htype := htyped.sub .faculty v hv p hp hpv
    have hkind : t.isKind .faculty u = true :=
      isKind_iff.2 ⟨p, hp, Collation.trans (Collation.trans hpv hvq) hqu, by rw [htype]; exact S.eq_self _⟩
    refine Nat.le_trans ?_ (hteach.all hkind year semester)
    unfold State.taught
    rw [← List.countP_eq_length_filter]
    refine List.countP_mono_left fun q _ hrow => ?_
    obtain ⟨-, hqu, hin⟩ := taughtRow_counts hrow
    rw [hqu, hin]
    rfl
  · rw [List.countP_eq_zero.2 fun q hq hrow => hex ⟨q, hq, hrow⟩]
    exact Nat.zero_le _

end Coms4111.School
