import Coms4111.Proof.Statements

/-!
# What each operation does

`op_outcome` says once and for all how an operation of a session can end, and what it
leaves behind (`Outcome`), from any state in which the foreign keys hold. A call of the
six procedures is refused and changes nothing, or breaks off **half way** with its first
write in place, or is done.

* `Outcome.foreignKeys`: every operation keeps the foreign keys.
* `run_keeps`: an invariant of runs is checked on the outcomes of one operation.
-/

namespace Coms4111.School

open Sql

variable {S : Server} {s s' : State S}

/-! ## Participants -/

/-- What `trigger_insert_participant` asks of the person `p` and the section `callNo`. -/
structure Admits (s : State S) (now : Date) (p : Person) (uni callNo : Option Text) : Prop where
  kind : S.eq p.type Kind.student.type = true ∨ S.eq p.type Kind.faculty.type = true
  prereq : S.eq p.type Kind.student.type = true → prereqValid now uni callNo s = true
  student : S.eq p.type Kind.student.type = true → studentLimit callNo s = true
  faculty : S.eq p.type Kind.faculty.type = true → facultyLimit uni callNo s = .ok true

theorem triggerInsertParticipant_ok {now : Date} {uni callNo : Option Text} {v : Unit}
    (h : triggerInsertParticipant now uni callNo s = .ok v) :
    ∃ p ∈ s.person.rows, S.eqN (some p.uni) uni = true ∧ Admits s now p uni callNo := by
  have hfac : ∀ {c : Bool} {v : Unit}, (if c = true then (facultyLimit uni callNo s >>= fun b =>
      signalIf (!b) "45004" "faculty can not teach more than 3 sections") else pure ()) = .ok v →
      c = true → facultyLimit uni callNo s = .ok true := by
    intro c v hb hc
    rw [if_pos hc, bind_eq_ok] at hb
    obtain ⟨b, hb, hs⟩ := hb
    rw [signalIf_eq_ok] at hs
    rw [hb, show b = true by simpa using hs]
  unfold triggerInsertParticipant at h
  simp only [bind_eq_ok, signalIf_eq_ok] at h
  obtain ⟨_, hp, _, hkind, h⟩ := h
  -- the two branches of the trigger do not exclude each other in the source
  generalize hA : S.eqN (Option.map Person.type _) (some Kind.student.type) = a at hkind h
  generalize hB : S.eqN (Option.map Person.type _) (some Kind.faculty.type) = b at hkind h
  cases hf : s.person.rows.find? fun p => S.eqN (some p.uni) uni with
  | none =>
    rw [List.find?_eq_none] at hf
    simp only [State.hasPerson, Bool.not_eq_false', List.any_eq_true] at hp
    obtain ⟨p, hpm, hpe⟩ := hp
    exact absurd hpe (hf p hpm)
  | some p =>
    rw [hf, Option.map_some, Collation.eqN_some] at hA hB
    refine ⟨p, List.mem_of_find?_eq_some hf,
      List.find?_some (p := fun p : Person => S.eqN (some p.uni) uni) hf, ?_⟩
    have hkind' : S.eq p.type Kind.student.type = true ∨ S.eq p.type Kind.faculty.type = true := by
      rw [hA, hB]; rwa [Bool.not_eq_false', Bool.or_eq_true] at hkind
    rw [← hB] at h
    cases a with
    | true =>
      simp only [if_true, bind_eq_ok, signalIf_eq_ok] at h
      obtain ⟨_, hpre, _, hlim, h⟩ := h
      exact ⟨hkind', fun _ => by simpa using hpre, fun _ => by simpa using hlim, hfac h⟩
    | false =>
      have hno : ¬S.eq p.type Kind.student.type = true := by rw [hA]; exact Bool.false_ne_true
      exact ⟨hkind', fun hc => absurd hc hno, fun hc => absurd hc hno, hfac h⟩

/-- The person that the trigger looks up. -/
theorem personAt_eq {uni : Option Text} {p : Person} (hp : p ∈ s.person.rows)
    (hpu : S.eqN (some p.uni) uni = true) :
    s.person.rows.find? (fun p => S.eqN (some p.uni) uni) = some p := by
  cases hf : s.person.rows.find? fun p => S.eqN (some p.uni) uni with
  | none => exact absurd hpu (List.find?_eq_none.1 hf p hp)
  | some q =>
    have hq : S.eqN (some q.uni) uni = true :=
      List.find?_some (p := fun p : Person => S.eqN (some p.uni) uni) hf
    rw [Collation.eqN_symm] at hq hpu
    rw [person_eq (List.mem_of_find?_eq_some hf) hp (Collation.eqN_trans hq hpu)]

/-- Whoever the trigger is to admit, it admits. -/
theorem Admits.trigger {now : Date} {uni callNo : Option Text} {p : Person} (ha : Admits s now p uni callNo)
    (hp : p ∈ s.person.rows) (hpu : S.eqN (some p.uni) uni = true) :
    triggerInsertParticipant now uni callNo s = .ok () := by
  have hperson : s.hasPerson uni = true := List.any_eq_true.2 ⟨p, hp, hpu⟩
  unfold triggerInsertParticipant
  rw [hperson, personAt_eq hp hpu]
  simp only [bind_eq_ok, signalIf_eq_ok, Bool.not_true, true_and, exists_const]
  -- both tests are on the type of the person
  have hkind := ha.kind
  have hprereq := ha.prereq
  have hstudent := ha.student
  have hfaculty := ha.faculty
  generalize hA : S.eqN (Option.map Person.type (some p)) (some Kind.student.type) = a
  generalize hB : S.eqN (Option.map Person.type (some p)) (some Kind.faculty.type) = b
  rw [Option.map_some, Collation.eqN_some] at hA hB
  rw [hA] at hkind hprereq hstudent
  rw [hB] at hkind hfaculty
  refine ⟨by rw [Bool.not_eq_false', Bool.or_eq_true]; exact hkind, ?_⟩
  have hfac : (if b = true then (facultyLimit uni callNo s >>= fun b =>
      signalIf (!b) "45004" "faculty can not teach more than 3 sections") else pure ()) = .ok () := by
    split
    · rename_i hb
      rw [hfaculty hb]; rfl
    · rfl
  cases a with
  | true => rw [hprereq rfl, hstudent rfl]; exact hfac
  | false => exact hfac

/-! ## The outcome of an operation -/

/-- **How an operation can end**, and the tables it leaves behind. -/
inductive Outcome (s : State S) : Op → Except SqlError Unit → State S → Prop
  | insertRefused {c : Sub} {lastName firstName : Option Text} {e : SqlError} :
      (∀ u, ¬Fresh s lastName firstName u) → Outcome s (.insert c lastName firstName) (.error e) s
  | insertHalf {c : Sub} {l f u : Text} {e : SqlError} {T : _} : Fresh s (some l) (some f) u →
      validSub S c = false → T.rows = s.person.rows ++ [⟨u, l, f, c.kind.type⟩] →
      Outcome s (.insert c (some l) (some f)) (.error e) { s with person := T }
  | insertDone {c : Sub} {l f u : Text} {s' : State S} : Fresh s (some l) (some f) u →
      validSub S c = true → s'.person.rows = s.person.rows ++ [⟨u, l, f, c.kind.type⟩] →
      s'.subUnis c.kind = s.subUnis c.kind ++ [u] → s'.subUnis c.kind.other = s.subUnis c.kind.other →
      SameRest s s' → Outcome s (.insert c (some l) (some f)) (.ok ()) s'
  | updateRefused {c : Sub} {uni lastName firstName : Option Text} {e : SqlError} :
      (s.hasPerson uni = true → lastName = none ∨ firstName = none) →
      Outcome s (.update c uni lastName firstName) (.error e) s
  | updateHalf {c : Sub} {uni : Option Text} {l f : Text} {e : SqlError} {T : _} :
      s.hasPerson uni = true → s.hasSub c.kind uni = true → validSub S c = false →
      T.rows = s.person.rows.map (renamed S uni l f) →
      Outcome s (.update c uni (some l) (some f)) (.error e) { s with person := T }
  | updateDone {c : Sub} {uni : Option Text} {l f : Text} {s' : State S} : s.hasPerson uni = true →
      (s.hasSub c.kind uni = true → validSub S c = true) →
      s'.person.rows = s.person.rows.map (renamed S uni l f) →
      (∀ k, s'.subUnis k = s.subUnis k) → SameRest s s' →
      Outcome s (.update c uni (some l) (some f)) (.ok ()) s'
  | deleteRefused {k : Kind} {uni : Option Text} {e : SqlError} : s.hasPerson uni = false →
      Outcome s (.delete k uni) (.error e) s
  | deleteHalf {k : Kind} {uni : Option Text} {e : SqlError} : s.hasPerson uni = true →
      (deleteSub k uni s).refersTo uni = true → Outcome s (.delete k uni) (.error e) (deleteSub k uni s)
  | deleteDone {k : Kind} {uni : Option Text} {s' : State S} : s.hasPerson uni = true →
      (deleteSub k uni s).refersTo uni = false →
      s'.person.rows = s.person.rows.filter (fun p => !S.eqN (some p.uni) uni) →
      (∀ k', s'.subUnis k' = (deleteSub k uni s).subUnis k') → SameRest s s' →
      Outcome s (.delete k uni) (.ok ()) s'
  | sectionRefused {callNo courseId sectionNo : Option Text} {year : Option ℤ} {semester : Option Text}
      {limit : Option (Option ℤ)} {e : SqlError} :
      Outcome s (.insertSection callNo courseId sectionNo year semester limit) (.error e) s
  | sectionDone {callNo courseId sectionNo : Option Text} {year : Option ℤ} {semester : Option Text}
      {limit : Option (Option ℤ)} {c : Section} {T : _} : T.rows = s.sections.rows ++ [c] →
      (∀ d ∈ s.sections.rows, S.eq c.callNo d.callNo = false) → c.enrollmentLimit = limit.getD (some 3) →
      Outcome s (.insertSection callNo courseId sectionNo year semester limit) (.ok ())
        { s with sections := T }
  | participantRefused {now : Date} {uni callNo : Option Text} {e : SqlError} :
      Outcome s (.insertParticipant now uni callNo) (.error e) s
  | participantDone {now : Date} {uni callNo : Option Text} {p : Person} {q : Participant} {c : Section}
      {T : _} : T.rows = s.participant.rows ++ [q] →
      (∀ r ∈ s.participant.rows, ¬(S.eq q.uni r.uni = true ∧ S.eq q.sectionCallNo r.sectionCallNo = true)) →
      p ∈ s.person.rows → S.eq p.uni q.uni = true → c ∈ s.sections.rows →
      S.eq c.callNo q.sectionCallNo = true →
      Admits s now p (some q.uni) (some q.sectionCallNo) →
      Outcome s (.insertParticipant now uni callNo) (.ok ()) { s with participant := T }
  | participantDeleted {p : Participant → Bool} :
      Outcome s (.deleteParticipant p) (.ok ()) { s with participant := s.participant.delete p }

/-- A derived entity has no row for a uni that nobody has. -/
theorem ForeignKeys.no_sub (hs : ForeignKeys s) {u : Text} (hu : s.hasPerson (some u) = false) (k : Kind) :
    ∀ v ∈ s.subUnis k, S.eq v u = false := by
  intro v hv
  rw [Bool.eq_false_iff]
  intro he
  obtain ⟨p, hp, hpe⟩ := hasPerson_iff.1 (hs.sub k v hv)
  exact Bool.eq_false_iff.1 (hasPerson_eq_false.1 hu p hp) (Collation.trans hpe he)

theorem subUnis_person (T : _) (s : State S) (k : Kind) :
    State.subUnis { s with person := T } k = s.subUnis k := by
  cases k <;> rfl

theorem insertWith_outcome (hs : ForeignKeys s) (c : Sub) (lastName firstName : Option Text) :
    Outcome s (.insert c lastName firstName) ((insertWith c lastName firstName).run s).1
      ((insertWith c lastName firstName).run s).2 := by
  unfold insertWith
  rw [Proc.run_query_bind]
  simp only
  rw [Proc.run_exec_bind]
  by_cases hex : ∃ u, Fresh s lastName firstName u
  · obtain ⟨u, hu⟩ := hex
    obtain ⟨T, l, f, hT, hrows, rfl, rfl⟩ := insertPerson_fresh hu c.kind.type
    rw [hu.1, hT]
    simp only
    rw [Proc.run_exec]
    by_cases hv : validSub S c = true
    · -- the new person has no row yet
      have hsub := subUnis_person T s
      have hp : State.hasPerson { s with person := T } (some u) = true :=
        hasPerson_iff.2 ⟨⟨u, l, f, c.kind.type⟩, by rw [hrows]; simp, S.eq_self u⟩
      have hno : State.hasSub { s with person := T } c.kind (some u) = false := by
        rw [hasSub_eq_false, hsub]; exact hs.no_sub hu.2.2 c.kind
      obtain ⟨s', hs', hnew, hrest⟩ := insertSub_valid hv hu.2.1 hp hno
      rw [hs']
      refine .insertDone hu hv ?_ ?_ ?_ ?_
      · rw [hrest.person]; exact hrows
      · rw [hnew, hsub]
      · rw [hrest.other, hsub]
      · exact ⟨hrest.participant, hrest.sections, hrest.courses, hrest.prereqs⟩
    · -- the person stays, without its row
      obtain ⟨e, he⟩ := exists_error (x := insertSub c (some u) { s with person := T }) (by
        intro s' hs'
        obtain ⟨-, -, -, -, -, hc, -⟩ := insertSub_ok hs'
        exact hv hc)
      rw [he]
      exact .insertHalf hu (by simpa using hv) hrows
  · obtain ⟨e, he⟩ := exists_error
      (x := insertPerson (generateUni s lastName firstName) lastName firstName c.kind.type s)
      (fun s' hs' => hex (fresh_of_insertPerson hs'))
    rw [he]
    exact .insertRefused fun u hu => hex ⟨u, hu⟩

theorem updateWith_outcome (message : String) (c : Sub) (uni lastName firstName : Option Text) :
    Outcome s (.update c uni lastName firstName) ((updateWith message c uni lastName firstName).run s).1
      ((updateWith message c uni lastName firstName).run s).2 := by
  unfold updateWith testUni
  rw [Proc.run_exec_bind]
  cases hp : s.hasPerson uni with
  | false => exact .updateRefused fun h => by rw [hp] at h; cases h
  | true =>
    simp only [if_true]
    rw [Proc.run_exec_bind]
    -- a missing name is refused before anything is written
    rcases lastName with _ | l
    · obtain ⟨e, he⟩ := updatePerson_null none firstName (.inl rfl) hp
      rw [he]; exact .updateRefused fun _ => .inl rfl
    rcases firstName with _ | f
    · obtain ⟨e, he⟩ := updatePerson_null (some l) none (.inr rfl) hp
      rw [he]; exact .updateRefused fun _ => .inr rfl
    obtain ⟨T, hT, hrows⟩ := updatePerson_some uni l f s
    rw [hT]
    simp only
    rw [Proc.run_exec]
    have hsub := subUnis_person T s
    have hhas : State.hasSub { s with person := T } c.kind uni = s.hasSub c.kind uni := by
      unfold State.hasSub; rw [hsub]
    -- the names are stored; the derived entity may still refuse its values
    rcases updateSub_eq c uni { s with person := T } with ⟨h1, h2, e, he⟩ | ⟨h1, s', hs', h2, h3⟩
    · rw [he]
      exact .updateHalf hp (hhas ▸ h1) h2 hrows
    · rw [hs']
      refine .updateDone hp (fun h => h1 (hhas.trans h)) (by rw [h3.person]; exact hrows) ?_
        ⟨h3.participant, h3.sections, h3.courses, h3.prereqs⟩
      intro k
      rcases Kind.eq_or_other c.kind k with rfl | rfl
      · rw [h2, hsub]
      · rw [h3.other, hsub]

theorem deleteWith_outcome (message : String) (k : Kind) (uni : Option Text) :
    Outcome s (.delete k uni) ((deleteWith message k uni).run s).1 ((deleteWith message k uni).run s).2 := by
  unfold deleteWith testUni
  rw [Proc.run_exec_bind]
  cases hp : s.hasPerson uni with
  | false => exact .deleteRefused hp
  | true =>
    simp only [if_true]
    rw [Proc.run_exec_bind]
    simp only
    rw [Proc.run_exec]
    -- the row of the derived entity is gone, whatever becomes of the person
    rcases deletePerson_eq uni (deleteSub k uni s) with ⟨h1, e, he⟩ | ⟨h1, he⟩
    · rw [he]; exact .deleteHalf hp h1
    · have hb := deleteSub_sameBut k uni s
      rw [he]
      refine .deleteDone hp h1 ?_ (fun k' => subUnis_person _ _ k')
        ⟨hb.participant, hb.sections, hb.courses, hb.prereqs⟩
      show (Table.delete _ _).rows = _
      rw [hb.person]; rfl

theorem insertSection_outcome (callNo courseId sectionNo : Option Text) (year : Option ℤ)
    (semester : Option Text) (limit : Option (Option ℤ)) :
    Outcome s (.insertSection callNo courseId sectionNo year semester limit)
      ((Op.insertSection callNo courseId sectionNo year semester limit).proc.run s).1
      ((Op.insertSection callNo courseId sectionNo year semester limit).proc.run s).2 := by
  simp only [Op.proc]
  rw [Proc.run_exec]
  cases h : School.insertSection callNo courseId sectionNo year semester limit s with
  | error e => exact .sectionRefused
  | ok s' =>
    simp only [insertSection, bind_eq_ok] at h
    obtain ⟨-, -, n, -, -, -, i, -, -, -, o, -, y, -, -, -, m, -, -, -, T, hT, -, -, h⟩ := h
    cases h
    obtain ⟨hrows, hno⟩ := Table.insert_ok hT
    refine .sectionDone hrows (fun d hd => ?_) rfl
    have := hno d hd
    rw [Unique.or, Bool.or_eq_false_iff, Unique.key_clash] at this
    exact this.1

theorem insertParticipant_outcome (now : Date) (uni callNo : Option Text) :
    Outcome s (.insertParticipant now uni callNo) ((Op.insertParticipant now uni callNo).proc.run s).1
      ((Op.insertParticipant now uni callNo).proc.run s).2 := by
  simp only [Op.proc]
  rw [Proc.run_exec]
  cases h : School.insertParticipant now uni callNo s with
  | error e => exact .participantRefused
  | ok s' =>
    simp only [insertParticipant, bind_eq_ok, notNull_eq_ok, references_eq_ok] at h
    obtain ⟨_, -, _, -, _, htrig, u, rfl, n, rfl, T, hT, _, -, _, hsec, h⟩ := h
    cases h
    obtain ⟨p, hp, hpu, hadm⟩ := triggerInsertParticipant_ok htrig
    obtain ⟨hrows, hno⟩ := Table.insert_ok hT
    rw [List.any_eq_true] at hsec
    obtain ⟨c, hc, hcn⟩ := hsec
    refine .participantDone hrows ?_ hp hpu hc hcn hadm
    intro r hr hboth
    have := hno r hr
    simp [Unique.key, ← Collation.eq_iff, hboth.1, hboth.2] at this

/-- **What an operation does**, from every state in which the foreign keys hold. -/
theorem op_outcome (hs : ForeignKeys s) (op : Op) : Outcome s op (op.proc.run s).1 (op.run s) := by
  cases op with
  | insert c lastName firstName => cases c <;> exact insertWith_outcome hs _ lastName firstName
  | update c uni lastName firstName => cases c <;> exact updateWith_outcome _ _ uni lastName firstName
  | delete k uni => cases k <;> exact deleteWith_outcome _ _ uni
  | insertSection callNo courseId sectionNo year semester limit =>
    exact insertSection_outcome callNo courseId sectionNo year semester limit
  | insertParticipant now uni callNo => exact insertParticipant_outcome now uni callNo
  | deleteParticipant p => exact .participantDeleted

/-! ## Foreign keys along runs -/

theorem hasPerson_append {p : Person} (h : s'.person.rows = s.person.rows ++ [p]) (uni : Option Text) :
    s'.hasPerson uni = (s.hasPerson uni || S.eqN (some p.uni) uni) := by
  unfold State.hasPerson; rw [h, List.any_append]; simp

theorem hasPerson_renamed {uni : Option Text} {l f : Text}
    (h : s'.person.rows = s.person.rows.map (renamed S uni l f)) (uni' : Option Text) :
    s'.hasPerson uni' = s.hasPerson uni' := by
  unfold State.hasPerson; rw [h, List.any_map]
  congr 1; funext p; simp

/-- A person stays when another one is deleted. -/
theorem hasPerson_delete {uni : Option Text} {u : Text}
    (h : s'.person.rows = s.person.rows.filter fun p => !S.eqN (some p.uni) uni)
    (hu : s.hasPerson (some u) = true) (hne : S.eqN (some u) uni = false) : s'.hasPerson (some u) = true := by
  obtain ⟨p, hp, he⟩ := hasPerson_iff.1 hu
  refine hasPerson_iff.2 ⟨p, ?_, he⟩
  rw [h, List.mem_filter]
  refine ⟨hp, ?_⟩
  cases uni with
  | none => rfl
  | some v => rw [Collation.eqN_some] at hne ⊢; rw [Collation.eq_congr he, hne]; rfl

/-- The foreign keys hold if no person is gone and new rows have their persons. -/
theorem ForeignKeys.grow (hs : ForeignKeys s)
    (hp : ∀ u, s.hasPerson (some u) = true → s'.hasPerson (some u) = true)
    (hsub : ∀ k, ∀ u ∈ s'.subUnis k, u ∈ s.subUnis k ∨ s'.hasPerson (some u) = true) (hr : SameRest s s') :
    ForeignKeys s' := by
  refine ⟨?_, ?_, ?_⟩
  · intro k u hu
    rcases hsub k u hu with h | h
    · exact hp u (hs.sub k u h)
    · exact h
  · rw [hr.participant]; intro q hq; exact hp _ (hs.participant q hq)
  · rw [hr.participant, hr.sections]; exact hs.sections

theorem mem_deleteSub {k k' : Kind} {uni : Option Text} {u : Text}
    (h : u ∈ (deleteSub k uni s).subUnis k') : u ∈ s.subUnis k' := by
  rcases Kind.eq_or_other k k' with rfl | rfl
  · rw [deleteSub_subUnis] at h; exact List.mem_of_mem_filter h
  · rw [(deleteSub_sameBut k uni s).other] at h; exact h

/-- Nothing refers to the uni. -/
theorem refersTo_eq_false {uni : Option Text} : s.refersTo uni = false ↔
    (∀ k, ∀ u ∈ s.subUnis k, S.eqN (some u) uni = false) ∧
      ∀ q ∈ s.participant.rows, S.eqN (some q.uni) uni = false := by
  unfold State.refersTo State.hasSub State.hasParticipant
  simp only [Bool.or_eq_false_iff, List.any_eq_false, Bool.not_eq_true]
  constructor
  · rintro ⟨⟨h1, h2⟩, h3⟩
    refine ⟨fun k => ?_, h3⟩
    cases k with
    | student => exact h1
    | faculty => exact h2
  · rintro ⟨h1, h3⟩; exact ⟨⟨h1 .student, h1 .faculty⟩, h3⟩

/-- Nothing is left without its person when nothing referred to the one who is gone. -/
theorem ForeignKeys.delete (hs : ForeignKeys s) {k : Kind} {uni : Option Text}
    (hno : (deleteSub k uni s).refersTo uni = false)
    (hrows : s'.person.rows = s.person.rows.filter fun p => !S.eqN (some p.uni) uni)
    (hsub : ∀ k', s'.subUnis k' = (deleteSub k uni s).subUnis k') (hr : SameRest s s') : ForeignKeys s' := by
  obtain ⟨hno1, hno2⟩ := refersTo_eq_false.1 hno
  rw [(deleteSub_sameBut k uni s).participant] at hno2
  refine ⟨?_, ?_, ?_⟩
  · intro k' u hu
    rw [hsub] at hu
    exact hasPerson_delete hrows (hs.sub k' u (mem_deleteSub hu)) (hno1 k' u hu)
  · rw [hr.participant]; intro q hq
    exact hasPerson_delete hrows (hs.participant q hq) (hno2 q hq)
  · rw [hr.participant, hr.sections]; exact hs.sections

/-- **Every operation keeps the foreign keys.** -/
theorem Outcome.foreignKeys {op : Op} {out : Except SqlError Unit} (hs : ForeignKeys s)
    (h : Outcome s op out s') : ForeignKeys s' := by
  cases h with
  | insertRefused | updateRefused | deleteRefused | sectionRefused | participantRefused => exact hs
  | insertHalf _ _ hrows =>
    refine hs.grow ?_ (fun k u hu => .inl ?_) ⟨rfl, rfl, rfl, rfl⟩
    · intro u hu; rw [hasPerson_append hrows, hu]; rfl
    · rwa [subUnis_person] at hu
  | @insertDone c l f u _ hu _ hrows hnew hother hr =>
    refine hs.grow ?_ ?_ hr
    · intro u hu; rw [hasPerson_append hrows, hu]; rfl
    · intro k v hv
      rcases mem_subUnis_append hnew hother hv with hv | ⟨rfl, -⟩
      · exact .inl hv
      · right; rw [hasPerson_append hrows]; simp [Collation.eqN_some]
  | updateHalf _ _ _ hrows =>
    refine hs.grow ?_ (fun k u hu => .inl ?_) ⟨rfl, rfl, rfl, rfl⟩
    · intro u hu; rw [hasPerson_renamed hrows, hu]
    · rwa [subUnis_person] at hu
  | updateDone _ _ hrows hsub hr =>
    refine hs.grow ?_ (fun k u hu => .inl ?_) hr
    · intro u hu; rw [hasPerson_renamed hrows, hu]
    · rwa [hsub] at hu
  | @deleteHalf k uni =>
    have hb := deleteSub_sameBut k uni s
    refine hs.grow ?_ (fun k' u hu => .inl (mem_deleteSub hu)) hb.toSameRest
    intro u hu; unfold State.hasPerson; rw [hb.person]; exact hu
  | deleteDone _ hno hrows hsub hr => exact hs.delete hno hrows hsub hr
  | sectionDone hrows _ _ =>
    refine ⟨hs.sub, hs.participant, ?_⟩
    intro q hq
    obtain ⟨c, hc, he⟩ := hs.sections q hq
    exact ⟨c, by rw [hrows]; exact List.mem_append_left _ hc, he⟩
  | participantDone hrows _ hp hpu hc hcn _ =>
    refine ⟨hs.sub, ?_, ?_⟩
    · rw [hrows, List.forall_mem_append, List.forall_mem_singleton]
      exact ⟨hs.participant, hasPerson_iff.2 ⟨_, hp, hpu⟩⟩
    · rw [hrows, List.forall_mem_append, List.forall_mem_singleton]
      exact ⟨hs.sections, _, hc, hcn⟩
  | participantDeleted =>
    exact ⟨hs.sub, fun q hq => hs.participant q (List.mem_of_mem_filter hq),
      fun q hq => hs.sections q (List.mem_of_mem_filter hq)⟩

theorem foreignKeys_cleared (s : State S) : ForeignKeys s.cleared := by
  refine ⟨fun k u hu => ?_, fun q hq => ?_, fun q hq => ?_⟩
  · cases k <;> simp [State.cleared, State.subUnis, Table.empty] at hu
  · simp [State.cleared, Table.empty] at hq
  · simp [State.cleared, Table.empty] at hq

/-- **The rule for runs.** What every outcome of an allowed operation keeps, given the
foreign keys, holds at the end of every run of allowed operations. -/
theorem run_keeps {I : State S → Prop} {allowed : State S → Op → Prop}
    (hstep : ∀ {s s' : State S} {op : Op} {out : Except SqlError Unit}, ForeignKeys s → I s → allowed s op →
      out = (op.proc.run s).1 → Outcome s op out s' → I s')
    {ops : List Op} (hs : ForeignKeys s) (hI : I s) (hops : Along (fun s op => op.run s) allowed s ops) :
    ForeignKeys (run ops s) ∧ I (run ops s) := by
  refine Along.inv (I := fun s => ForeignKeys s ∧ I s) ?_ ops s ⟨hs, hI⟩ hops
  intro s op h hop
  have hout := op_outcome h.1 op
  exact ⟨hout.foreignKeys h.1, hstep h.1 h.2 hop rfl hout⟩

/-- The rule for what every step keeps. -/
theorem run_invariant {I : State S → Prop} (hstep : ∀ {s s' : State S} {op : Op} {out : Except SqlError Unit},
    ForeignKeys s → I s → Outcome s op out s' → I s') (ops : List Op) (hs : ForeignKeys s) (hI : I s) :
    I (run ops s) :=
  (run_keeps (fun hfk hI _ _ h => hstep hfk hI h) hs hI (Along.of_forall (fun _ _ => trivial) ops s)).2

end Coms4111.School
