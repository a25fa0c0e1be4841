import Coms4111.Proof.Completed

/-!
# Prerequisites along runs

`prereq_valid` looks at the direct prerequisites of a course only, and only when a row is
inserted. Over a run that is enough:

* `cycles_keep_students_out`: **no student takes part in a course that needs a cycle of
  prerequisites**, in any state of any run, whatever is deleted on the way.
* `prerequisites_taken`: as long as the rows of students are not deleted, whoever takes part in a
  course has taken part in everything that the course needs, directly or through other courses.
-/

namespace Coms4111.School

open Sql Relation

variable {S : Server} {s s' : State S} {q : Participant} {c : Section} {a b x : Text}

/-- `a` is a prerequisite of `b`. -/
def Needs (s : State S) (a b : Text) : Prop :=
  ∃ r ∈ s.prereqs.rows, S.eq r.courseId b = true ∧ S.eq r.prereqId a = true

theorem Needs.congr_right (h : Needs s a b) (he : S.eq b x = true) : Needs s a x := by
  obtain ⟨r, hr, hb, ha⟩ := h
  exact ⟨r, hr, Collation.trans hb he, ha⟩

/-! ## What an operation does to those who take part -/

/-- No operation writes `course_prereqs`. -/
theorem Outcome.prereqs_eq {op : Op} {out : Except SqlError Unit} (h : Outcome s op out s') :
    s'.prereqs = s.prereqs := by
  cases h with
  | insertRefused | updateRefused | deleteRefused | sectionRefused | participantRefused => rfl
  | insertHalf | updateHalf | sectionDone | participantDone | participantDeleted => rfl
  | insertDone _ _ _ _ _ hr => exact hr.prereqs
  | updateDone _ _ _ _ hr => exact hr.prereqs
  | @deleteHalf k uni => exact (deleteSub_sameBut k uni s).prereqs
  | deleteDone _ _ _ _ hr => exact hr.prereqs

/-- Whoever takes part in a section did so before, or has just been admitted to it. -/
theorem Outcome.takesPart {op : Op} {out : Except SqlError Unit} (hfk : ForeignKeys s) (h : Outcome s op out s')
    (hq : s'.TakesPart q c) : s.TakesPart q c ∨ c ∈ s.sections.rows ∧ S.eq c.callNo q.sectionCallNo = true ∧
      ∃ now, ∃ p ∈ s.person.rows, S.eq p.uni q.uni = true ∧ Admits s now p (some q.uni) (some q.sectionCallNo) ∧
        s'.person = s.person := by
  obtain ⟨hqm, hc, hcall⟩ := hq
  rcases h.sections_cases with ⟨hpart, hsec⟩ | ⟨hpart, d, -, -, -, -, -, -, -, hsec, hnew, -⟩ |
    ⟨hsec, q', p, d, now, hpart, hp, hpu, hd, hdq, hadm, hper⟩ | ⟨hsec, hpart⟩
  · rw [hpart] at hqm
    rw [hsec] at hc
    exact .inl ⟨hqm, hc, hcall⟩
  · rw [hpart] at hqm
    rw [hsec, List.mem_append, List.mem_singleton] at hc
    rcases hc with hc | rfl
    · exact .inl ⟨hqm, hc, hcall⟩
    · -- a new section has nobody yet
      obtain ⟨d, hd, hdq⟩ := hfk.sections q hqm
      have heq := Collation.symm (Collation.trans hdq hcall)
      rw [hnew d hd] at heq
      cases heq
  · rw [hsec] at hc
    rw [hpart, List.mem_append, List.mem_singleton] at hqm
    rcases hqm with hqm | rfl
    · exact .inl ⟨hqm, hc, hcall⟩
    · exact .inr ⟨hc, Collation.symm hcall, now, p, hp, hpu, hadm, hper⟩
  · rw [hsec] at hc
    exact .inl ⟨hpart.subset hqm, hc, hcall⟩

/-- Whoever takes part goes on doing so, unless the row is deleted. -/
theorem Outcome.takesPart_stays {op : Op} {out : Except SqlError Unit} (h : Outcome s op out s')
    (hq : s.TakesPart q c) : s'.TakesPart q c ∨ ∃ p, op = .deleteParticipant p ∧ p q = true := by
  obtain ⟨hqm, hc, hcall⟩ := hq
  have hsame : SameRest s s' → s'.TakesPart q c := by
    intro hr
    exact ⟨by rw [hr.participant]; exact hqm, by rw [hr.sections]; exact hc, hcall⟩
  cases h with
  | insertRefused | updateRefused | deleteRefused | sectionRefused | participantRefused =>
    exact .inl ⟨hqm, hc, hcall⟩
  | insertHalf | updateHalf => exact .inl ⟨hqm, hc, hcall⟩
  | insertDone _ _ _ _ _ hr => exact .inl (hsame hr)
  | updateDone _ _ _ _ hr => exact .inl (hsame hr)
  | @deleteHalf k uni => exact .inl (hsame (deleteSub_sameBut k uni s).toSameRest)
  | deleteDone _ _ _ _ hr => exact .inl (hsame hr)
  | sectionDone hrows => exact .inl ⟨hqm, by rw [hrows]; exact List.mem_append_left _ hc, hcall⟩
  | participantDone hrows => exact .inl ⟨by rw [hrows]; exact List.mem_append_left _ hqm, hc, hcall⟩
  | @participantDeleted p =>
    cases hp : p q with
    | true => exact .inr ⟨p, rfl, hp⟩
    | false => exact .inl ⟨List.mem_filter.2 ⟨hqm, by rw [hp]; rfl⟩, hc, hcall⟩

/-- **A student who is admitted has taken the direct prerequisites.** -/
theorem Admits.taken {now : Date} {p : Person} (h : Admits s now p (some q.uni) (some q.sectionCallNo))
    (hp : S.eq p.type Kind.student.type = true) (hc : c ∈ s.sections.rows)
    (hcall : S.eq c.callNo q.sectionCallNo = true) (hx : Needs s x c.courseId) :
    ∃ q' c', s.TakesPart q' c' ∧ S.eq q'.uni q.uni = true ∧ S.eq c'.courseId x = true := by
  have hprep := prereqValid_iff.1 (h.prereq hp) c (sectionAt_eq hc hcall)
  obtain ⟨r, hr, hrc, hrx⟩ := hx
  obtain ⟨q', hq', d, hd, hu, hcall', hrd, -⟩ := hprep r hr hrc
  exact ⟨q', d, ⟨hq', hd, hcall'⟩, hu, Collation.trans (Collation.symm hrd) hrx⟩

/-! ## Cycles -/

/-- Every chain of prerequisites of a course that a student takes part in comes to an end. -/
def Grounded (s : State S) : Prop :=
  ∀ q c, s.TakesPart q c → s.isKind .student q.uni = true → Acc (Needs s) c.courseId

theorem Outcome.grounded {op : Op} {out : Except SqlError Unit} (hfk : ForeignKeys s) (hs : Grounded s)
    (h : Outcome s op out s') : Grounded s' := by
  have hneeds : Needs s' = Needs s := by
    unfold Needs
    rw [h.prereqs_eq]
  intro q c hq hk
  rw [hneeds]
  rcases h.takesPart hfk hq with hold | ⟨hc, hcall, now, p, hp, hpu, hadm, hper⟩
  · rw [h.isKind_eq hfk .student q hold.1] at hk
    exact hs q c hold hk
  · -- the prerequisites of the new one's course have been taken, so they are grounded
    have hk' : s.isKind .student q.uni = true := by
      unfold State.isKind at hk ⊢
      rw [hper] at hk
      exact hk
    refine Acc.intro _ fun y hy => ?_
    obtain ⟨q', c', hq', hu, hcy⟩ := hadm.taken (isKind_person hp hpu hk') hc hcall hy
    have hacc := hs q' c' hq' (by rw [isKind_congr hu]; exact hk')
    exact Acc.intro _ fun z hz => hacc.inv (hz.congr_right (Collation.symm hcy))

/-- **Cycles keep students out.** If a student takes part in a course, then neither the course nor
anything that it needs, directly or through other courses, needs itself. -/
theorem cycles_keep_students_out (s : State S) (ops : List Op) (q : Participant) (c : Section)
    (hq : (run ops s.cleared).TakesPart q c) (hk : (run ops s.cleared).isKind .student q.uni = true) (x : Text)
    (hx : ReflTransGen (Needs s) x c.courseId) : ¬TransGen (Needs s) x x := by
  have hI := run_invariant (I := fun s' => s'.prereqs = s.prereqs ∧ Grounded s')
    (fun hfk hs h => ⟨h.prereqs_eq.trans hs.1, h.grounded hfk hs.2⟩) ops (foreignKeys_cleared s)
    ⟨rfl, fun q c hq => by simp [State.TakesPart, State.cleared, Table.empty] at hq⟩
  have hneeds : Needs (run ops s.cleared) = Needs s := by
    unfold Needs
    rw [hI.1]
  have hacc := hI.2 q c hq hk
  rw [hneeds] at hacc
  have hx' : Acc (TransGen (Needs s)) x := by
    induction hx using ReflTransGen.head_induction_on with
    | refl => exact hacc.transGen
    | head hstep _ ih => exact ih.inv (.single hstep)
  intro hcycle
  -- an accessible point is not below itself
  induction hx' with
  | intro x _ ih => exact ih x hcycle hx hcycle

/-- Three courses, each needing the one before it. -/
def threeCourses : State asciiServer :=
  { State.empty with
    courses := ⟨[⟨"COMS".toList, .E, .l1, "006".toList⟩, ⟨"COMS".toList, .E, .l1, "007".toList⟩,
      ⟨"COMS".toList, .E, .l4, "111".toList⟩], by unfold Sql.Unique.Apart; decide⟩
    prereqs := ⟨[⟨"COMSE1007".toList, "COMSE1006".toList⟩, ⟨"COMSE4111".toList, "COMSE1007".toList⟩],
      by unfold Sql.Unique.Apart; decide⟩ }

/-- A student who takes one after the other. -/
def takesAll : List Op :=
  [.insertSection (some "00001".toList) (some "COMSE1006".toList) (some "1".toList) (some 2014)
    (some "1".toList) none,
    .insertSection (some "00002".toList) (some "COMSE1007".toList) (some "1".toList) (some 2015)
      (some "1".toList) none,
    .insertSection (some "00003".toList) (some "COMSE4111".toList) (some "1".toList) (some 2017)
      (some "1".toList) none,
    .insert (.student (some "cs".toList) (some "2016".toList)) (some "peters".toList) (some "justin".toList),
    .insertParticipant ⟨2014, 9⟩ (some "peju1".toList) (some "00001".toList),
    .insertParticipant ⟨2015, 9⟩ (some "peju1".toList) (some "00002".toList),
    .insertParticipant ⟨2017, 9⟩ (some "peju1".toList) (some "00003".toList)]

theorem needs_1006 : Needs threeCourses "COMSE1006".toList "COMSE1007".toList :=
  ⟨_, List.mem_cons_self, by decide, by decide⟩

theorem needs_1007 : Needs threeCourses "COMSE1007".toList "COMSE4111".toList :=
  ⟨_, List.mem_cons_of_mem _ List.mem_cons_self, by decide, by decide⟩

/-- The last of them. -/
def lastSection : Section := ⟨"00003".toList, "COMSE4111".toList, "1".toList, 2017, "1".toList, some 3⟩

theorem takesPart_last :
    (run takesAll threeCourses.cleared).TakesPart ⟨"peju1".toList, "00003".toList⟩ lastSection :=
  ⟨by decide +kernel, by decide +kernel, by decide +kernel⟩

theorem cycles_keep_students_out_takesAll :
    ¬TransGen (Needs threeCourses) "COMSE1006".toList "COMSE1006".toList :=
  cycles_keep_students_out threeCourses takesAll ⟨"peju1".toList, "00003".toList⟩ lastSection takesPart_last
    (by decide +kernel) "COMSE1006".toList ((ReflTransGen.single needs_1006).tail needs_1007)

/-! ## What has been taken -/

/-- A student's rows are not deleted. -/
def KeepsRows (s : State S) : Op → Prop
  | .deleteParticipant p => ∀ q ∈ s.participant.rows, s.isKind .student q.uni = true → p q = false
  | _ => True

/-- A student in a course has taken its direct prerequisites. -/
def Taken (s : State S) : Prop :=
  ∀ q c, s.TakesPart q c → s.isKind .student q.uni = true → ∀ x, Needs s x c.courseId →
    ∃ q' c', s.TakesPart q' c' ∧ S.eq q'.uni q.uni = true ∧ S.eq c'.courseId x = true

theorem Outcome.taken {op : Op} {out : Except SqlError Unit} (hfk : ForeignKeys s) (hs : Taken s)
    (h : Outcome s op out s') (hop : KeepsRows s op) : Taken s' := by
  have hneeds : Needs s' = Needs s := by
    unfold Needs
    rw [h.prereqs_eq]
  have hstays : ∀ q c, s.TakesPart q c → s.isKind .student q.uni = true → s'.TakesPart q c := by
    intro q c hq hk
    rcases h.takesPart_stays hq with hq' | ⟨p, rfl, hp⟩
    · exact hq'
    · rw [hop q hq.1 hk] at hp
      cases hp
  intro q c hq hk x hx
  rw [hneeds] at hx
  have hbefore : s.isKind .student q.uni = true ∧
      ∃ q' c', s.TakesPart q' c' ∧ S.eq q'.uni q.uni = true ∧ S.eq c'.courseId x = true := by
    rcases h.takesPart hfk hq with hold | ⟨hc, hcall, now, p, hp, hpu, hadm, hper⟩
    · rw [h.isKind_eq hfk .student q hold.1] at hk
      exact ⟨hk, hs q c hold hk x hx⟩
    · unfold State.isKind at hk
      rw [hper] at hk
      exact ⟨hk, hadm.taken (isKind_person hp hpu hk) hc hcall hx⟩
  obtain ⟨hk', q', c', hq', hu, hcx⟩ := hbefore
  exact ⟨q', c', hstays q' c' hq' (by rw [isKind_congr hu]; exact hk'), hu, hcx⟩

/-- From the direct prerequisites to all. -/
theorem Taken.transGen (hs : Taken s) (hx : TransGen (Needs s) x b) (hq : s.TakesPart q c)
    (hk : s.isKind .student q.uni = true) (hc : S.eq b c.courseId = true) :
    ∃ q' c', s.TakesPart q' c' ∧ S.eq q'.uni q.uni = true ∧ S.eq c'.courseId x = true := by
  induction hx generalizing q c with
  | single hxb => exact hs q c hq hk x (hxb.congr_right hc)
  | @tail a b _ hab ih =>
    obtain ⟨q', c', hq', hu, hca⟩ := hs q c hq hk a (hab.congr_right hc)
    obtain ⟨q'', c'', hq'', hu', hcx⟩ := ih hq' (by rw [isKind_congr hu]; exact hk) (Collation.symm hca)
    exact ⟨q'', c'', hq'', Collation.trans hu' hu, hcx⟩

/-- **Everything that a course needs has been taken** by every student who takes part in it. -/
theorem prerequisites_taken (s : State S) (ops : List Op)
    (hops : Along (fun s op => op.run s) KeepsRows s.cleared ops) (q : Participant) (c : Section)
    (hq : (run ops s.cleared).TakesPart q c) (hk : (run ops s.cleared).isKind .student q.uni = true) (x : Text)
    (hx : TransGen (Needs s) x c.courseId) :
    ∃ q' c', (run ops s.cleared).TakesPart q' c' ∧ S.eq q'.uni q.uni = true ∧ S.eq c'.courseId x = true := by
  have hI := (run_keeps (I := fun s' => s'.prereqs = s.prereqs ∧ Taken s')
    (fun hfk hs hop _ h => ⟨h.prereqs_eq.trans hs.1, h.taken hfk hs.2 hop⟩) (foreignKeys_cleared s)
    ⟨rfl, fun q c hq => by simp [State.TakesPart, State.cleared, Table.empty] at hq⟩ hops).2
  have hneeds : Needs (run ops s.cleared) = Needs s := by
    unfold Needs
    rw [hI.1]
  exact hI.2.transGen (by rw [hneeds]; exact hx) hq hk (S.eq_self _)

theorem prerequisites_taken_takesAll :
    ∃ q c, (run takesAll threeCourses.cleared).TakesPart q c ∧ asciiServer.eq q.uni "peju1".toList = true ∧
      asciiServer.eq c.courseId "COMSE1006".toList = true :=
  prerequisites_taken threeCourses takesAll
    ⟨trivial, trivial, trivial, trivial, trivial, trivial, trivial, trivial⟩
    ⟨"peju1".toList, "00003".toList⟩ lastSection takesPart_last (by decide +kernel) "COMSE1006".toList
    ((TransGen.single needs_1006).tail needs_1007)

end Coms4111.School
