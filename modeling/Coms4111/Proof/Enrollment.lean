import Coms4111.Proof.Capacity
import Coms4111.Proof.Teaching

/-!
# Concurrent enrollment

Several sessions insert into `course_participant` at once. An insertion is two steps: the
trigger evaluates its checks on the rows that it sees, and later the row becomes visible
to the others (`insertParticipant_eq`: together they are the statement).

* `enrollment_limits_undisturbed`: if, between the two steps of an insertion, no row
  becomes visible that its checks would have counted, both limits hold after every
  schedule.
* `last_spot_taken_twice`: two students who both check before either row is visible get
  the only spot of a section.
-/

namespace Coms4111.School

open Sql

variable {S : Server} {s s' : State S} {ι : Type}

/-! ## The two steps -/

/-- The first step: the row that the trigger lets pass. -/
def checkParticipant (now : Date) (uni callNo : Option Text) (s : State S) : Except SqlError Participant := do
  let uni ← uni.mapM (varchar 12 "UNI")
  let callNo ← callNo.mapM (char 5 "section_call_no")
  triggerInsertParticipant now uni callNo s
  return ⟨← notNull "UNI" uni, ← notNull "section_call_no" callNo⟩

/-- The second step: the row is stored, under the keys of the table. -/
def storeParticipant (row : Participant) (s : State S) : Except SqlError (State S) := do
  let T ← s.participant.insert row
  references "cp_participant_fk" (s.hasPerson (some row.uni))
  references "cp_section_fk" (s.sections.rows.any fun c => S.eq c.callNo row.sectionCallNo)
  return { s with participant := T }

theorem insertParticipant_eq (now : Date) (uni callNo : Option Text) (s : State S) :
    insertParticipant now uni callNo s =
      (do let row ← checkParticipant now uni callNo s; storeParticipant row s) := by
  unfold insertParticipant checkParticipant
  simp only [bind_assoc, pure_bind]
  rfl

/-- The steps of an insertion. -/
inductive EnrollStep
  | check
  | store (row : Participant)
  deriving DecidableEq

/-- An insertion in two steps. -/
def enroll (now : Date) (uni callNo : Option Text) : Proc EnrollStep (State S) Unit := do
  let row ← Proc.query .check (checkParticipant now uni callNo)
  Proc.exec (.store row) (storeParticipant row)

/-- Sessions that make one insertion each. -/
def enrollments (now : ι → Date) (uni callNo : ι → Option Text) (s : State S) :
    Pool ι EnrollStep (State S) Unit :=
  ⟨fun i => enroll (now i) (uni i) (callNo i), s⟩

/-- Two rows in sections of one semester. -/
def State.sameSemester (s : State S) (q r : Participant) : Bool :=
  (s.sectionAt (some r.sectionCallNo)).any fun c => s.inSemester c.year c.semester q

/-- The checks for the row `r` would have counted the row `q`: both are students of one
section, or it is a faculty member's in one semester. -/
def State.counts (s : State S) (r q : Participant) : Bool :=
  (s.isKind .student r.uni && s.isKind .student q.uni && S.eq q.sectionCallNo r.sectionCallNo) ||
    (s.isKind .faculty r.uni && S.eq q.uni r.uni && s.sameSemester q r)

/-- The first step is about to make a row visible that the checks before the second would
have counted. -/
def State.disturbs (s : State S) : Option EnrollStep → Option EnrollStep → Bool
  | some (.store q), some (.store r) => (storeParticipant q s).isOk && s.counts r q
  | _, _ => false

/-- If the row of session `i` is about to become visible, no other session has made its
checks, not stored its row yet, and would have counted this one. -/
def Undisturbed (P : Pool ι EnrollStep (State S) Unit) (i : ι) : Prop :=
  ∀ j, j ≠ i → P.tables.disturbs (P.session i).next (P.session j).next = false

instance [Fintype ι] [DecidableEq ι] (P : Pool ι EnrollStep (State S) Unit) (i : ι) :
    Decidable (Undisturbed P i) :=
  inferInstanceAs (Decidable (∀ _, _))

/-- Every person has the row that its type names. -/
def Subtyped (s : State S) : Prop :=
  ∀ p ∈ s.person.rows, ∀ k : Kind, S.eq p.type k.type = true → s.hasSub k (some p.uni) = true

/-- Nobody of type `Faculty` has more than three sections in a semester. -/
def TeachingLimit (s : State S) : Prop :=
  ∀ p ∈ s.person.rows, S.eq p.type Kind.faculty.type = true →
    ∀ year semester, (s.sectionsOf p.uni year semester).length ≤ 3

/-! ## Participations and sections -/

/-- Every participation of a uni is in a section of its own. -/
theorem taught_le_sectionsOf (hfk : ForeignKeys s) (u : Text) (year : ℤ) (semester : Text) :
    (s.taught u year semester).length ≤ (s.sectionsOf u year semester).length := by
  have hnodup : ((s.taught u year semester).map fun q => S.key q.sectionCallNo).Nodup := by
    rw [List.Nodup, List.pairwise_map]
    refine (s.participant.unique.sublist List.filter_sublist).imp_of_mem ?_
    intro q r hq hr hqr he
    -- two participations of the uni in one section would have one key
    have hu : ∀ t ∈ s.taught u year semester, S.key t.uni = S.key u := by
      intro t ht
      have := (List.mem_filter.1 ht).2
      rw [Bool.and_eq_true] at this
      exact Collation.eq_iff.1 this.1
    have hkey : (S.key q.uni, S.key q.sectionCallNo) = (S.key r.uni, S.key r.sectionCallNo) := by
      rw [hu q hq, hu r hr, he]
    unfold Unique.Apart at hqr
    simp [Unique.key, hkey] at hqr
  have hsub : (s.taught u year semester).map (fun q => S.key q.sectionCallNo) ⊆
      (s.sectionsOf u year semester).map fun c => S.key c.callNo := by
    intro w hw
    obtain ⟨q, hq, rfl⟩ := List.mem_map.1 hw
    obtain ⟨hqm, hcond⟩ := List.mem_filter.1 hq
    rw [Bool.and_eq_true] at hcond
    obtain ⟨c, hc, he⟩ := hfk.sections q hqm
    have hin := hcond.2
    unfold State.inSemester at hin
    rw [sectionAt_eq hc he, Option.any_some] at hin
    refine List.mem_map.2 ⟨c, List.mem_filter.2 ⟨hc, ?_⟩, Collation.eq_iff.1 he⟩
    rw [hin, Bool.true_and, List.any_eq_true]
    exact ⟨q, hqm, by rw [hcond.1, Collation.symm he]; rfl⟩
  have := (List.subperm_of_subset hnodup hsub).length_le
  rwa [List.length_map, List.length_map] at this

theorem teachingLimit_iff (hfk : ForeignKeys s) : TeachingLimit s ↔
    ∀ u, s.isKind .faculty u = true → ∀ year semester, (s.taught u year semester).length ≤ 3 := by
  constructor
  · intro h u hu year semester
    obtain ⟨p, hp, hpu, hpt⟩ := isKind_iff.1 hu
    rw [← taught_congr hpu]
    exact (taught_le_sectionsOf hfk _ _ _).trans (h p hp hpt year semester)
  · intro h p hp hpt year semester
    exact (sectionsOf_le s _ _ _).trans (h p.uni (isKind_iff.2 ⟨p, hp, S.eq_self _, hpt⟩) year semester)

/-! ## Room for a row -/

/-- There is room for the row: in its section, if it is a student's, and in the semester,
if it is a faculty member's. -/
structure Room (s : State S) (r : Participant) : Prop where
  student : s.isKind .student r.uni = true → ∀ c ∈ s.sections.rows, S.eq c.callNo r.sectionCallNo = true →
    ∃ m, c.enrollmentLimit = some m ∧ ((s.enrolled c.callNo).length : ℤ) < m
  faculty : s.isKind .faculty r.uni = true → ∀ year semester, s.inSemester year semester r = true →
    (s.taught r.uni year semester).length < 3

/-- **The checks make sure that there is room.** -/
theorem checkParticipant_room (hfk : ForeignKeys s) (hsub : Subtyped s) {now : Date} {uni callNo : Option Text}
    {r : Participant} (h : checkParticipant now uni callNo s = .ok r) : Room s r := by
  unfold checkParticipant at h
  simp only [bind_eq_ok, notNull_eq_ok, pure, Except.pure, Except.ok.injEq] at h
  obtain ⟨_, -, _, -, _, htrig, u, rfl, n, rfl, rfl⟩ := h
  obtain ⟨p, hp, hpu, hadm⟩ := triggerInsertParticipant_ok htrig
  refine ⟨?_, ?_⟩
  · intro hk c hc he
    exact studentLimit_true hfk (fun p hp => hsub p hp .student) hc he (hadm.student (isKind_person hp hpu hk))
  · intro hk year semester hin
    obtain ⟨c, hat, -⟩ := (Option.any_eq_true _ _).1 hin
    have hcn : S.eq c.callNo n = true :=
      List.find?_some (p := fun c : Section => S.eqN (some c.callNo) (some n)) hat
    exact hadm.taught_lt (List.mem_of_find?_eq_some hat) hcn (isKind_person hp hpu hk) hin

/-- `s'` has the row `q` more than `s`. -/
structure Joined (s s' : State S) (q : Participant) : Prop where
  rows : s'.participant.rows = s.participant.rows ++ [q]
  person : s'.person = s.person
  subUnis : s'.subUnis = s.subUnis
  sections : s'.sections = s.sections

theorem storeParticipant_ok {q : Participant} (h : storeParticipant q s = .ok s') :
    Joined s s' q ∧ s.hasPerson (some q.uni) = true ∧
      ∃ c ∈ s.sections.rows, S.eq c.callNo q.sectionCallNo = true := by
  unfold storeParticipant at h
  simp only [bind_eq_ok, references_eq_ok, pure, Except.pure, Except.ok.injEq] at h
  obtain ⟨T, hT, _, hperson, _, hsection, rfl⟩ := h
  refine ⟨⟨(Table.insert_ok hT).1, rfl, ?_, rfl⟩, hperson, List.any_eq_true.1 hsection⟩
  funext k
  cases k <;> rfl

section Store

variable {q r : Participant}

theorem Joined.isKind (hj : Joined s s' q) (k : Kind) (u : Text) : s'.isKind k u = s.isKind k u := by
  unfold State.isKind; rw [hj.person]

theorem Joined.inSemester (hj : Joined s s' q) (year : ℤ) (semester : Text) (r : Participant) :
    s'.inSemester year semester r = s.inSemester year semester r := by
  unfold State.inSemester State.sectionAt; rw [hj.sections]

/-- A row that the checks would not have counted leaves the room that there was. -/
theorem Room.store (hr : Room s r) (hj : Joined s s' q) (hno : s.counts r q = false) : Room s' r := by
  unfold State.counts at hno
  rw [Bool.or_eq_false_iff] at hno
  refine ⟨?_, ?_⟩
  · intro hk c hc he
    rw [hj.isKind] at hk
    rw [hj.sections] at hc
    obtain ⟨m, hm, hlt⟩ := hr.student hk c hc he
    refine ⟨m, hm, ?_⟩
    rw [enrolled_append hj.person hj.rows, if_neg]
    · simpa using hlt
    · intro hcond
      rw [Bool.and_eq_true] at hcond
      have hcount := hno.1
      rw [hk, hcond.2, Collation.trans hcond.1 he] at hcount
      cases hcount
  · intro hk year semester hin
    rw [hj.isKind] at hk
    rw [hj.inSemester] at hin
    have hlt := hr.faculty hk year semester hin
    rw [taught_append hj.sections hj.rows, if_neg]
    · exact hlt
    · intro hcond
      rw [Bool.and_eq_true] at hcond
      -- the semester is the one of the section of `r`
      have hsame : s.sameSemester q r = true := by
        obtain ⟨c, hat, hc⟩ := (Option.any_eq_true _ _).1 hin
        rw [Bool.and_eq_true, beq_iff_eq] at hc
        obtain ⟨d, hdat, hd⟩ := (Option.any_eq_true _ _).1 hcond.2
        rw [Bool.and_eq_true, beq_iff_eq] at hd
        unfold State.sameSemester State.inSemester
        rw [hat, hdat, Option.any_some, Option.any_some, hd.1, hc.1, beq_self_eq_true, Bool.true_and]
        exact Collation.trans hd.2 (Collation.symm hc.2)
      have hcount := hno.2
      rw [hk, hcond.1, hsame] at hcount
      cases hcount

theorem Capacity.store (hs : Capacity s) (hr : Room s q) (hj : Joined s s' q) : Capacity s' := by
  intro c hc n hn
  rw [hj.sections] at hc
  have hle := hs c hc n hn
  rw [enrolled_append hj.person hj.rows]
  split
  · rename_i hcond
    rw [Bool.and_eq_true] at hcond
    obtain ⟨m, hm, hlt⟩ := hr.student hcond.2 c hc (Collation.symm hcond.1)
    rw [hn] at hm
    cases hm
    push_cast; omega
  · simpa using hle

theorem taught_store
    (hs : ∀ u, s.isKind .faculty u = true → ∀ year semester, (s.taught u year semester).length ≤ 3)
    (hr : Room s q) (hj : Joined s s' q) : ∀ u, s'.isKind .faculty u = true →
    ∀ year semester, (s'.taught u year semester).length ≤ 3 := by
  intro u hu year semester
  rw [hj.isKind] at hu
  have hle := hs u hu year semester
  rw [taught_append hj.sections hj.rows]
  split
  · rename_i hcond
    rw [Bool.and_eq_true] at hcond
    rw [← isKind_congr hcond.1] at hu
    have hlt := hr.faculty hu year semester hcond.2
    rw [taught_congr hcond.1] at hlt
    omega
  · simpa using hle

theorem ForeignKeys.store (hfk : ForeignKeys s) (hj : Joined s s' q) (hperson : s.hasPerson (some q.uni) = true)
    (hsection : ∃ c ∈ s.sections.rows, S.eq c.callNo q.sectionCallNo = true) : ForeignKeys s' := by
  have hhas : ∀ uni, s'.hasPerson uni = s.hasPerson uni := by
    intro uni; unfold State.hasPerson; rw [hj.person]
  refine ⟨?_, ?_, ?_⟩
  · intro k u hu
    rw [hj.subUnis] at hu
    rw [hhas]; exact hfk.sub k u hu
  · intro r hr
    rw [hj.rows, List.mem_append, List.mem_singleton] at hr
    rw [hhas]
    rcases hr with hr | rfl
    · exact hfk.participant r hr
    · exact hperson
  · intro r hr
    rw [hj.rows, List.mem_append, List.mem_singleton] at hr
    rw [hj.sections]
    rcases hr with hr | rfl
    · exact hfk.sections r hr
    · exact hsection

theorem Subtyped.store (hs : Subtyped s) (hj : Joined s s' q) : Subtyped s' := by
  intro p hp k hk
  rw [hj.person] at hp
  unfold State.hasSub
  rw [hj.subUnis]
  exact hs p hp k hk

end Store

/-! ## Schedules -/

/-- How far an insertion has come. -/
inductive EnrollPhase
  | start
  | checked (row : Participant)
  | done
  | failed (e : SqlError)

/-- What is left of the insertion. -/
def EnrollPhase.prog (now : Date) (uni callNo : Option Text) : EnrollPhase → Proc EnrollStep (State S) Unit
  | start => enroll now uni callNo
  | checked row => Proc.exec (.store row) (storeParticipant row)
  | done => return ()
  | failed e => Proc.fail e

/-- The sessions are in the phases `φ`: both limits hold, and there is still room for the
rows that have passed their checks. -/
structure Enrolling (now : ι → Date) (uni callNo : ι → Option Text) (φ : ι → EnrollPhase)
    (P : Pool ι EnrollStep (State S) Unit) : Prop where
  session : ∀ i, P.session i = (φ i).prog (now i) (uni i) (callNo i)
  room : ∀ i r, φ i = .checked r → Room P.tables r
  keys : ForeignKeys P.tables
  subtyped : Subtyped P.tables
  capacity : Capacity P.tables
  teaching : ∀ u, P.tables.isKind .faculty u = true →
    ∀ year semester, (P.tables.taught u year semester).length ≤ 3

variable [DecidableEq ι] {now : ι → Date} {uni callNo : ι → Option Text} {φ : ι → EnrollPhase}
  {P : Pool ι EnrollStep (State S) Unit}

/-- Session `i` goes on to the phase `ψ`, and the tables stay. -/
theorem Enrolling.stay (h : Enrolling now uni callNo φ P) {i : ι} {ψ : EnrollPhase}
    (hstep : (P.session i).step P.tables = some (ψ.prog (now i) (uni i) (callNo i), P.tables))
    (hroom : ∀ r, ψ = .checked r → Room P.tables r) : ∃ φ, Enrolling now uni callNo φ (P.step i) := by
  rw [Pool.step_phase h.session hstep]
  refine ⟨Function.update φ i ψ, fun _ => rfl, ?_, h.keys, h.subtyped, h.capacity, h.teaching⟩
  rw [Function.forall_update_iff φ fun _ χ => ∀ r, χ = .checked r → Room P.tables r]
  exact ⟨hroom, fun j _ => h.room j⟩

/-- The checks. -/
theorem Enrolling.step_start (h : Enrolling now uni callNo φ P) {i : ι} (hφ : φ i = .start) :
    ∃ φ, Enrolling now uni callNo φ (P.step i) := by
  have hstep : (P.session i).step P.tables = match checkParticipant (now i) (uni i) (callNo i) P.tables with
    | .ok row => some (Proc.exec (.store row) (storeParticipant row), P.tables)
    | .error e => some (.fail e, P.tables) := by
    rw [h.session i, hφ, EnrollPhase.prog, enroll, Proc.step_query_bind]
    cases checkParticipant (now i) (uni i) (callNo i) P.tables <;> rfl
  rcases hc : checkParticipant (now i) (uni i) (callNo i) P.tables with e | row
  · rw [hc] at hstep
    exact h.stay (ψ := .failed e) hstep nofun
  · rw [hc] at hstep
    refine h.stay (ψ := .checked row) hstep ?_
    intro r hr
    cases hr
    exact checkParticipant_room h.keys h.subtyped hc

/-- The row becomes visible. -/
theorem Enrolling.step_checked (h : Enrolling now uni callNo φ P) {i : ι} {q : Participant}
    (hφ : φ i = .checked q) (hu : Undisturbed P i) : ∃ φ, Enrolling now uni callNo φ (P.step i) := by
  have hstep : (P.session i).step P.tables = match storeParticipant q P.tables with
    | .ok T => some (.ret (), T)
    | .error e => some (.fail e, P.tables) := by
    rw [h.session i, hφ, EnrollPhase.prog, Proc.step_exec]
    cases storeParticipant q P.tables <;> rfl
  rcases hst : storeParticipant q P.tables with e | T
  · rw [hst] at hstep
    exact h.stay (ψ := .failed e) hstep nofun
  · rw [hst] at hstep
    obtain ⟨hT, hperson, hsection⟩ := storeParticipant_ok hst
    have hroom := h.room i q hφ
    rw [Pool.step_phase (ψ := .done) h.session hstep]
    refine ⟨Function.update φ i .done, fun _ => rfl, ?_, h.keys.store hT hperson hsection, h.subtyped.store hT,
      h.capacity.store hroom hT, taught_store h.teaching hroom hT⟩
    rw [Function.forall_update_iff φ fun _ χ => ∀ r, χ = .checked r → Room T r]
    refine ⟨nofun, ?_⟩
    intro j hj r hr
    refine (h.room j r hr).store hT ?_
    have hno := hu j hj
    rw [h.session i, h.session j, hφ, hr] at hno
    have hno : ((storeParticipant q P.tables).isOk && P.tables.counts r q) = false := hno
    rw [hst] at hno
    exact hno

theorem Enrolling.step (h : Enrolling now uni callNo φ P) {i : ι} (hu : Undisturbed P i) :
    ∃ φ, Enrolling now uni callNo φ (P.step i) := by
  match hφ : φ i with
  | .start => exact h.step_start hφ
  | .checked q => exact h.step_checked hφ hu
  | .done | .failed e =>
    have hend : (P.session i).next = none := by rw [h.session i, hφ]; rfl
    rw [Pool.step_ended hend]
    exact ⟨φ, h⟩

/-- **Both limits survive concurrent enrollment**, if between the checks of an insertion
and its row no row becomes visible that the checks would have counted. -/
theorem enrollment_limits_undisturbed (s : State S) (hfk : ForeignKeys s) (hsub : Subtyped s) (hcap : Capacity s)
    (hteach : TeachingLimit s) (now : ι → Date) (uni callNo : ι → Option Text) (sched : List ι)
    (hs : Along Pool.step Undisturbed (enrollments now uni callNo s) sched) :
    let T := ((enrollments now uni callNo s).run sched).tables
    Capacity T ∧ TeachingLimit T := by
  have hstart : Enrolling now uni callNo (fun _ => .start) (enrollments now uni callNo s) :=
    ⟨fun _ => rfl, fun _ _ => nofun, hfk, hsub, hcap, (teachingLimit_iff hfk).1 hteach⟩
  have hstep : ∀ (P : Pool ι EnrollStep (State S) Unit) (i : ι), (∃ φ, Enrolling now uni callNo φ P) →
      Undisturbed P i → ∃ φ, Enrolling now uni callNo φ (P.step i) := by
    rintro P i ⟨φ, hφ⟩ hi
    exact hφ.step hi
  obtain ⟨φ, hφ⟩ := Along.inv hstep sched _ ⟨_, hstart⟩ hs
  exact ⟨hφ.capacity, (teachingLimit_iff hφ.keys).2 hφ.teaching⟩

/-- Two students, and a section with one spot. -/
def oneSpot : State asciiServer :=
  run [.insertSection (some "00003".toList) (some "COMSE1006".toList) (some "1".toList) (some 2017)
      (some "1".toList) (some (some 1)),
    .insert (.student (some "cs".toList) (some "2016".toList)) (some "peters".toList) (some "justin".toList),
    .insert (.student (some "ee".toList) (some "2016".toList)) (some "welch".toList) (some "Alexander".toList)]
    oneCourse.start

def oneSpotUnis : Fin 2 → Option Text := ![some "PEJU1".toList, some "WEAL1".toList]

theorem oneSpot_ok : ForeignKeys oneSpot ∧ Subtyped oneSpot ∧ Capacity oneSpot ∧ TeachingLimit oneSpot := by
  have hnobody : oneSpot.participant.rows = [] := by decide +kernel
  have hlimit : ∀ c ∈ oneSpot.sections.rows, c.enrollmentLimit = some 1 := by decide +kernel
  refine ⟨⟨?_, ?_, ?_⟩, ?_, ?_, ?_⟩
  · intro k
    cases k <;> decide +kernel
  · rw [hnobody]; nofun
  · rw [hnobody]; nofun
  · intro p hp k
    revert p
    cases k <;> decide +kernel
  · intro c hc n hn
    rw [hlimit c hc] at hn
    cases hn
    simp [State.enrolled, hnobody]
  · intro p _ _ year semester
    refine (sectionsOf_le _ _ _ _).trans ?_
    simp [State.taught, hnobody]

/-- The second student checks when the row of the first one is visible. -/
theorem one_spot_undisturbed :
    let T := ((enrollments (fun _ => ⟨2017, 10⟩) oneSpotUnis (fun _ => some "00003".toList) oneSpot).run
      [0, 0, 1, 1]).tables
    T.participant.rows.length = 1 ∧ Capacity T ∧ TeachingLimit T :=
  ⟨by decide +kernel, enrollment_limits_undisturbed oneSpot oneSpot_ok.1 oneSpot_ok.2.1 oneSpot_ok.2.2.1
    oneSpot_ok.2.2.2 _ _ _ _ (by decide +kernel)⟩

/-- Both students check before either row is visible, and both get the only spot. -/
theorem last_spot_taken_twice :
    (ForeignKeys oneSpot ∧ Subtyped oneSpot ∧ Capacity oneSpot ∧ TeachingLimit oneSpot) ∧
      ¬Capacity ((enrollments (fun _ => ⟨2017, 10⟩) oneSpotUnis (fun _ => some "00003".toList) oneSpot).run
        [0, 1, 0, 1]).tables := by
  refine ⟨oneSpot_ok, ?_⟩
  intro h
  have hlen :=
    h ⟨"00003".toList, "COMSE1006".toList, "1".toList, 2017, "1".toList, some 1⟩ (by decide +kernel) 1 rfl
  exact absurd hlen (by decide +kernel)

end Coms4111.School
