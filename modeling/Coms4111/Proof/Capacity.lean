import Coms4111.Proof.Sections

/-!
# Section capacity along runs

The trigger tells students by `Person.type`, and `student_limit` counts the participants
that `student_view` lists. The two agree as long as every person of type `Student` has a
row in `Student` (`Backed`).

* `capacity_of_clean_run`: along every run in which no call leaves a person of type
  `Student` without its row, no section has more students than its limit.
* `half_inserted_students_overfill`: two calls that fail half way leave two persons of
  type `Student` whom `student_limit` does not see, and both get the only spot.
-/

namespace Coms4111.School

open Sql

variable {S : Server} {s s' : State S}

/-- The participants of the section who are persons of type `Student`. -/
def State.enrolled (s : State S) (callNo : Text) : List Participant :=
  s.participant.rows.filter fun q => S.eq q.sectionCallNo callNo && s.isKind .student q.uni

/-- No section has more students than its limit. -/
def Capacity (s : State S) : Prop :=
  ∀ c ∈ s.sections.rows, ∀ n, c.enrollmentLimit = some n → ((s.enrolled c.callNo).length : ℤ) ≤ n

/-- Every person of type `Student` has a row in `Student`. -/
def Backed (s : State S) : Prop :=
  ∀ p ∈ s.person.rows, p.type = Kind.student.type → s.hasSub .student (some p.uni) = true

/-- What a run must not do: break off `insert_student` after its first write, call
`delete_student` on a student who takes part in a section, or give a section a negative
limit. -/
def KeepsStudents (s : State S) : Op → Prop
  | .insert (.student school year) lastName firstName =>
    (∃ u, Fresh s lastName firstName u) → validSub S (.student school year) = true
  | .delete .student uni => s.hasSub .student uni = true → s.hasParticipant uni = false
  | .insertSection _ _ _ _ _ limit => ∀ n, limit.getD (some 3) = some n → 0 ≤ n
  | _ => True

theorem enrolled_congr (hq : s'.participant = s.participant)
    (hk : ∀ q ∈ s.participant.rows, s'.isKind .student q.uni = s.isKind .student q.uni) (n : Text) :
    s'.enrolled n = s.enrolled n := by
  unfold State.enrolled
  rw [hq]
  apply List.filter_congr
  intro q hqm
  rw [hk q hqm]

/-- The participants of the section who are in `Student`. -/
def State.seated (s : State S) (callNo : Text) : List Participant :=
  s.participant.rows.filter fun q => S.eq q.sectionCallNo callNo && s.hasSub .student (some q.uni)

/-- `student_view` lists whoever is in `Student`. -/
theorem studentView_any (hfk : ForeignKeys s) (u : Text) :
    ((studentView s).any fun v => S.eq u v.uni) = s.hasSub .student (some u) := by
  unfold State.hasSub
  rw [← (views_unis hfk).1, List.any_map]
  congr 1; funext v
  rw [Function.comp_apply, Collation.eqN_some, Collation.eq_symm]

/-- **What `student_limit` asks**: the section is there, and has a limit above the number
of those who are in `Student`. -/
theorem studentLimit_iff (hfk : ForeignKeys s) {callNo : Option Text} : studentLimit callNo s = true ↔
    ∃ c, s.sectionAt callNo = some c ∧
      ∃ n, c.enrollmentLimit = some n ∧ ((s.seated c.callNo).length : ℤ) < n := by
  have hcount : ∀ c, s.sectionAt callNo = some c → (s.participant.rows.filter fun q =>
      S.eqN (some q.sectionCallNo) callNo && (studentView s).any fun v => S.eq q.uni v.uni) =
        s.seated c.callNo := by
    intro c hc
    obtain ⟨-, he⟩ := sectionAt_eq_some.1 hc
    apply List.filter_congr
    intro q _
    rw [studentView_any hfk]
    cases callNo with
    | none => rw [Collation.eqN_none] at he; cases he
    | some n => rw [Collation.eqN_some] at he ⊢; rw [Collation.eq_congr_right he]
  unfold studentLimit
  cases hc : s.sectionAt callNo with
  | none => simp
  | some c =>
    simp only [Option.bind_some, Option.any_eq_true, decide_eq_true_eq, Option.some.injEq]
    rw [hcount c hc]
    constructor
    · rintro ⟨n, hn, hlt⟩; exact ⟨c, rfl, n, hn, hlt⟩
    · rintro ⟨_, rfl, n, hn, hlt⟩; exact ⟨n, hn, hlt⟩

/-- With every student backed, the limit is above the number of the enrolled. -/
theorem studentLimit_true (hfk : ForeignKeys s)
    (hb : ∀ p ∈ s.person.rows, S.eq p.type Kind.student.type = true → s.hasSub .student (some p.uni) = true)
    {n : Text} {c : Section} (hc : c ∈ s.sections.rows) (he : S.eq c.callNo n = true)
    (h : studentLimit (some n) s = true) :
    ∃ m, c.enrollmentLimit = some m ∧ ((s.enrolled c.callNo).length : ℤ) < m := by
  obtain ⟨d, hd, m, hm, hlt⟩ := (studentLimit_iff hfk).1 h
  rw [sectionAt_eq hc he] at hd
  cases hd
  refine ⟨m, hm, lt_of_le_of_lt ?_ hlt⟩
  have hsub : (s.enrolled c.callNo).Sublist (s.seated c.callNo) := by
    apply List.monotone_filter_right
    intro q hq
    rw [Bool.and_eq_true] at hq ⊢
    obtain ⟨p, hp, hpu, hpt⟩ := isKind_iff.1 hq.2
    obtain ⟨v, hv, hvp⟩ := hasSub_iff.1 (hb p hp hpt)
    exact ⟨hq.1, hasSub_iff.2 ⟨v, hv, Collation.trans hvp hpu⟩⟩
  exact_mod_cast hsub.length_le

/-- Types are written in one way. -/
theorem Backed.of_eq (ht : Typed s) (hb : Backed s) : ∀ p ∈ s.person.rows,
    S.eq p.type Kind.student.type = true → s.hasSub .student (some p.uni) = true := by
  intro p hp hpt
  obtain ⟨k, hk⟩ := ht.type p hp
  rw [hk, type_eq_iff] at hpt
  exact hb p hp (hpt ▸ hk)

theorem type_student {k : Kind} (h : k.type = Kind.student.type) : k = .student := by
  cases k with
  | student => rfl
  | faculty => exact absurd h (by decide)

theorem Backed.append (hb : Backed s) {p : Person} (hrows : s'.person.rows = s.person.rows ++ [p])
    (hmono : ∀ v, s.hasSub .student (some v) = true → s'.hasSub .student (some v) = true)
    (hp : p.type = Kind.student.type → s'.hasSub .student (some p.uni) = true) : Backed s' := by
  intro r hr hrt
  rw [hrows, List.mem_append, List.mem_singleton] at hr
  rcases hr with hr | rfl
  · exact hmono _ (hb r hr hrt)
  · exact hp hrt

theorem Backed.renamed (hb : Backed s) {uni : Option Text} {l f : Text}
    (hrows : s'.person.rows = s.person.rows.map (renamed S uni l f))
    (hsub : s'.subUnis .student = s.subUnis .student) : Backed s' := by
  intro p hp hpt
  obtain ⟨p₀, hp₀, hun, hty⟩ := mem_renamed hrows p hp
  rw [hun, hasSub_congr hsub]
  exact hb p₀ hp₀ (hty ▸ hpt)

/-- A deletion that breaks off takes no student's row, unless a participation is what
stops it. -/
theorem Backed.deleteSub (ht : Typed s) (hb : Backed s) {k : Kind} {uni : Option Text}
    (hop : KeepsStudents s (.delete k uni)) (hr : (deleteSub k uni s).refersTo uni = true) :
    Backed (deleteSub k uni s) := by
  intro p hp hpt
  rw [(deleteSub_sameBut k uni s).person] at hp
  have hsub := hb p hp hpt
  by_cases hpu : S.eqN (some p.uni) uni = true
  · cases k with
    | faculty => rw [hasSub_congr (k := .student) (deleteSub_sameBut .faculty uni s).other]; exact hsub
    | student =>
      -- what stops the call is a row in `Faculty`, which a student has not
      obtain ⟨v, rfl⟩ : ∃ v, uni = some v := by
        cases uni with
        | none => cases hpu
        | some v => exact ⟨v, rfl⟩
      rw [Collation.eqN_some] at hpu
      obtain ⟨w, hw, hwp⟩ := hasSub_iff.1 hsub
      have hpart := hop (hasSub_iff.2 ⟨w, hw, Collation.trans hwp hpu⟩)
      rw [refersTo_deleteSub, hpart, Bool.or_false] at hr
      obtain ⟨x, hx, hxv⟩ := hasSub_iff.1 hr
      have hfac := ht.sub .faculty x hx p hp (Collation.trans hpu (Collation.symm hxv))
      have hfs : Kind.faculty = .student := type_student (hfac.symm.trans hpt)
      cases hfs
  · rw [hasSub_deleteSub (Bool.eq_false_iff.2 hpu)]; exact hsub

theorem Outcome.backed {op : Op} {out : Except SqlError Unit} (ht : Typed s) (hb : Backed s)
    (hop : KeepsStudents s op) (h : Outcome s op out s') : Backed s' := by
  cases h with
  | insertRefused | updateRefused | deleteRefused | sectionRefused | participantRefused => exact hb
  | @insertHalf c l f u _ _ hu hv hrows =>
    refine hb.append hrows (fun v hv => by rwa [hasSub_congr (subUnis_person _ _ _)]) fun hpt => ?_
    -- a student's row would have been stored, too
    have hk := type_student hpt
    cases c with
    | student school year => rw [hop ⟨u, hu⟩] at hv; cases hv
    | faculty payGrade title department => cases hk
  | @insertDone c l f u _ hu _ hrows hnew hother _ =>
    refine hb.append hrows (fun v hv => ?_) fun hpt => ?_
    · rcases Kind.eq_or_other c.kind .student with hk | hk
      · rw [← hk] at hnew; rw [hasSub_append hnew, hv]; rfl
      · rw [← hk] at hother; rw [hasSub_congr hother]; exact hv
    · rw [← type_student hpt, hasSub_append hnew]; simp
  | updateHalf _ _ _ hrows => exact hb.renamed hrows (subUnis_person _ _ _)
  | updateDone _ _ hrows hsub _ => exact hb.renamed hrows (hsub _)
  | deleteHalf _ hr => exact hb.deleteSub ht hop hr
  | deleteDone _ _ hrows hsub _ =>
    intro p hp hpt
    rw [hrows] at hp
    obtain ⟨hp, hne⟩ := List.mem_filter.1 hp
    rw [hasSub_congr (hsub _), hasSub_deleteSub (by simpa using hne)]
    exact hb p hp hpt
  | sectionDone | participantDone | participantDeleted => exact hb

theorem enrolled_append (hper : s'.person = s.person) {q : Participant}
    (hq : s'.participant.rows = s.participant.rows ++ [q]) (n : Text) :
    (s'.enrolled n).length =
      (s.enrolled n).length + if S.eq q.sectionCallNo n && s.isKind .student q.uni then 1 else 0 := by
  have hk : s'.isKind .student = s.isKind .student := by
    funext u; unfold State.isKind; rw [hper]
  unfold State.enrolled
  rw [hq, hk, length_filter_concat]

/-- Nobody is in a section that is not there. -/
theorem enrolled_new (hfk : ForeignKeys s) {n : Text} (hno : ∀ d ∈ s.sections.rows, S.eq n d.callNo = false) :
    s.enrolled n = [] := by
  unfold State.enrolled
  rw [List.filter_eq_nil_iff]
  intro q hq hcond
  rw [Bool.and_eq_true] at hcond
  obtain ⟨c, hc, he⟩ := hfk.sections q hq
  have hne := hno c hc
  rw [Collation.eq_symm, Collation.trans he hcond.1] at hne
  cases hne

/-- **Every operation that keeps its students keeps the capacity.** -/
theorem Outcome.capacity {op : Op} {out : Except SqlError Unit} (hfk : ForeignKeys s) (ht : Typed s)
    (hb : Backed s) (hs : Capacity s) (hop : KeepsStudents s op) (h : Outcome s op out s') : Capacity s' := by
  have hkind := h.isKind_eq hfk .student
  rcases h.sections_cases with ⟨hq, hc⟩ | ⟨hq, c, _, _, _, _, _, _, rfl, hc, hno, hlim⟩ |
    ⟨hc, q, p, c, now, hq, hp, hpu, hcm, hcn, hadm, hper⟩ | ⟨hc, hq⟩
  · intro d hd n hn
    rw [hc] at hd
    rw [enrolled_congr hq hkind]
    exact hs d hd n hn
  · intro d hd n hn
    rw [enrolled_congr hq hkind]
    rw [hc, List.mem_append, List.mem_singleton] at hd
    rcases hd with hd | rfl
    · exact hs d hd n hn
    · have hnonneg : 0 ≤ n := hop n (hlim ▸ hn)
      rw [enrolled_new hfk hno]
      simpa using hnonneg
  · intro d hd n hn
    rw [hc] at hd
    have hle := hs d hd n hn
    rw [enrolled_append hper hq]
    split
    · -- the new student has found a spot
      rename_i hcond
      rw [Bool.and_eq_true] at hcond
      obtain rfl := section_eq hcm hd (Collation.trans hcn hcond.1)
      obtain ⟨m, hm, hlt⟩ :=
        studentLimit_true hfk (hb.of_eq ht) hd hcn (hadm.student (isKind_person hp hpu hcond.2))
      rw [hm] at hn
      cases hn
      push_cast; omega
    · simpa using hle
  · intro d hd n hn
    rw [hc] at hd
    have hsame : s'.enrolled d.callNo = s'.participant.rows.filter fun q =>
        S.eq q.sectionCallNo d.callNo && s.isKind .student q.uni := by
      unfold State.enrolled
      apply List.filter_congr
      intro q hqm
      rw [hkind q (hq.subset hqm)]
    have hle : (s'.enrolled d.callNo).length ≤ (s.enrolled d.callNo).length := by
      rw [hsame]; exact (hq.filter _).length_le
    have hcap := hs d hd n hn
    omega

/-- **Section capacity**, along every run that keeps its students: a section has at most
as many participants of type `Student` as its limit says. -/
theorem capacity_of_clean_run (s : State S) (ops : List Op)
    (hops : Along (fun s op => op.run s) KeepsStudents s.start ops) : Capacity (run ops s.start) := by
  have hfk : ForeignKeys s.start := ⟨(foreignKeys_cleared s).sub, (foreignKeys_cleared s).participant,
    fun q hq => by simp [State.start, State.cleared, Table.empty] at hq⟩
  have hstep := run_keeps (I := fun s : State S => Typed s ∧ Backed s ∧ Capacity s)
    (fun hfk hs hop _ h => ⟨h.typed hfk hs.1, h.backed hs.1 hs.2.1 hop, h.capacity hfk hs.1 hs.2.1 hs.2.2 hop⟩)
    hfk ⟨⟨(typed_cleared s).type, (typed_cleared s).sub⟩, fun p hp => ?_, fun c hc => ?_⟩ hops
  · exact hstep.2.2.2
  · simp [State.start, State.cleared, Table.empty] at hp
  · simp [State.start, Table.empty] at hc

theorem capacity_after_enrollment :
    Capacity (run [.insertSection (some "00003".toList) (some "COMSE1006".toList) (some "1".toList) (some 2017)
        (some "1".toList) (some (some 1)),
      .insert (.student (some "cs".toList) (some "2016".toList)) (some "peters".toList) (some "justin".toList),
      .insertParticipant ⟨2017, 10⟩ (some "peju1".toList) (some "00003".toList)] oneCourse.start) :=
  capacity_of_clean_run oneCourse _
    ⟨fun n hn => by cases hn; decide, fun _ => by decide, trivial, trivial⟩

/-- Two calls of `insert_student` with the year 1999 store the person and fail. Both
persons are then admitted to a section with one spot. -/
theorem half_inserted_students_overfill :
    ¬Capacity (run [.insertSection (some "00003".toList) (some "COMSE1006".toList) (some "1".toList) (some 2017)
        (some "1".toList) (some (some 1)),
      .insert (.student (some "cs".toList) (some "1999".toList)) (some "peters".toList) (some "justin".toList),
      .insert (.student (some "ee".toList) (some "1999".toList)) (some "welch".toList) (some "Alexander".toList),
      .insertParticipant ⟨2017, 10⟩ (some "peju1".toList) (some "00003".toList),
      .insertParticipant ⟨2017, 10⟩ (some "weal1".toList) (some "00003".toList)] oneCourse.start) := by
  intro h
  have hlen := h ⟨"00003".toList, "COMSE1006".toList, "1".toList, 2017, "1".toList, some 1⟩ (by decide) 1 rfl
  exact absurd hlen (by decide)

end Coms4111.School
