import Coms4111.Proof.Inheritance

/-!
# Sections and their participants

What an operation does to sections and participants (`Outcome.sections_cases`), and why it
does not change who is a student or a faculty member among those who take part in a
section (`Outcome.isKind_eq`). The limits on teaching and on enrollment rest on both.
-/

namespace Coms4111.School

open Sql

variable {S : Server} {s s' : State S}

/-! ## What changes for the participants -/

/-- Somebody of the kind `k` has the uni. -/
def State.isKind (s : State S) (k : Kind) (u : Text) : Bool :=
  s.person.rows.any fun p => S.eq p.uni u && S.eq p.type k.type

theorem isKind_iff {k : Kind} {u : Text} : s.isKind k u = true ↔
    ∃ p ∈ s.person.rows, S.eq p.uni u = true ∧ S.eq p.type k.type = true := by
  simp [State.isKind]

theorem isKind_congr {u v : Text} (h : S.eq u v = true) (s : State S) (k : Kind) :
    s.isKind k u = s.isKind k v := by
  unfold State.isKind
  congr 1; funext p
  rw [Collation.eq_congr_right h]

/-- A participant is of the kind that its person has. -/
theorem isKind_person {p : Person} (hp : p ∈ s.person.rows) {u : Text} (hu : S.eq p.uni u = true) {k : Kind}
    (h : s.isKind k u = true) : S.eq p.type k.type = true := by
  obtain ⟨p', hp', hpe, hpt⟩ := isKind_iff.1 h
  rw [person_eq hp hp' (Collation.trans hu (Collation.symm hpe))]
  exact hpt

theorem isKind_append {p : Person} (h : s'.person.rows = s.person.rows ++ [p]) {u : Text}
    (hu : S.eq p.uni u = false) (k : Kind) : s'.isKind k u = s.isKind k u := by
  unfold State.isKind; rw [h, List.any_append]; simp [hu]

theorem isKind_renamed {uni : Option Text} {l f : Text}
    (h : s'.person.rows = s.person.rows.map (renamed S uni l f)) (k : Kind) (u : Text) :
    s'.isKind k u = s.isKind k u := by
  unfold State.isKind; rw [h, List.any_map]
  congr 1; funext p; simp

theorem isKind_delete {uni : Option Text}
    (h : s'.person.rows = s.person.rows.filter fun p => !S.eqN (some p.uni) uni) {u : Text}
    (hu : S.eqN (some u) uni = false) (k : Kind) : s'.isKind k u = s.isKind k u := by
  unfold State.isKind
  rw [h, List.any_filter]
  congr 1; funext p
  by_cases he : S.eq p.uni u = true
  · have hp : S.eqN (some p.uni) uni = false := by
      cases uni with
      | none => rfl
      | some w => rw [Collation.eqN_some, Collation.eq_congr he]; exact hu
    rw [hp]; rfl
  · simp [Bool.eq_false_iff.2 he]

/-- **No operation changes the kind of a participant**: a person with participations
stays, and a new person has none. -/
theorem Outcome.isKind_eq {op : Op} {out : Except SqlError Unit} (hfk : ForeignKeys s) (h : Outcome s op out s')
    (k : Kind) : ∀ q ∈ s.participant.rows, s'.isKind k q.uni = s.isKind k q.uni := by
  have hnew : ∀ {u : Text}, s.hasPerson (some u) = false → ∀ q ∈ s.participant.rows, S.eq u q.uni = false := by
    intro u hu q hq
    rw [Bool.eq_false_iff]
    intro he
    obtain ⟨p, hp, hpe⟩ := hasPerson_iff.1 (hfk.participant q hq)
    exact Bool.eq_false_iff.1 (hasPerson_eq_false.1 hu p hp) (Collation.trans hpe (Collation.symm he))
  intro q hq
  cases h with
  | insertRefused | updateRefused | deleteRefused | sectionRefused | participantRefused => rfl
  | insertHalf hu _ hrows => exact isKind_append hrows (hnew hu.2.2 q hq) k
  | insertDone hu _ hrows => exact isKind_append hrows (hnew hu.2.2 q hq) k
  | updateHalf _ _ _ hrows => exact isKind_renamed hrows k q.uni
  | updateDone _ _ hrows => exact isKind_renamed hrows k q.uni
  | @deleteHalf k' uni => unfold State.isKind; rw [(deleteSub_sameBut k' uni s).person]
  | @deleteDone k' uni _ _ hno hrows =>
    refine isKind_delete hrows ((refersTo_eq_false.1 hno).2 q ?_) k
    rw [(deleteSub_sameBut k' uni s).participant]; exact hq
  | sectionDone | participantDone | participantDeleted => rfl

/-- An operation leaves sections and participants alone, or adds one section, adds one
participant, or deletes participants. -/
theorem Outcome.sections_cases {op : Op} {out : Except SqlError Unit} (h : Outcome s op out s') :
    (s'.participant = s.participant ∧ s'.sections = s.sections) ∨
    (s'.participant = s.participant ∧ ∃ c n i m y r limit, op = .insertSection n i m y r limit ∧
      s'.sections.rows = s.sections.rows ++ [c] ∧ (∀ d ∈ s.sections.rows, S.eq c.callNo d.callNo = false) ∧
      c.enrollmentLimit = limit.getD (some 3)) ∨
    (s'.sections = s.sections ∧ ∃ q p c now, s'.participant.rows = s.participant.rows ++ [q] ∧
      p ∈ s.person.rows ∧ S.eq p.uni q.uni = true ∧ c ∈ s.sections.rows ∧ S.eq c.callNo q.sectionCallNo = true ∧
      Admits s now p (some q.uni) (some q.sectionCallNo) ∧ s'.person = s.person) ∨
    (s'.sections = s.sections ∧ s'.participant.rows.Sublist s.participant.rows) := by
  cases h with
  | insertRefused | updateRefused | deleteRefused | sectionRefused | participantRefused => left; exact ⟨rfl, rfl⟩
  | insertHalf | updateHalf => left; exact ⟨rfl, rfl⟩
  | insertDone _ _ _ _ _ hr => left; exact ⟨hr.participant, hr.sections⟩
  | updateDone _ _ _ _ hr => left; exact ⟨hr.participant, hr.sections⟩
  | @deleteHalf k uni =>
    left; exact ⟨(deleteSub_sameBut k uni s).participant, (deleteSub_sameBut k uni s).sections⟩
  | deleteDone _ _ _ _ hr => left; exact ⟨hr.participant, hr.sections⟩
  | sectionDone hrows hno hlim =>
    right; left; exact ⟨rfl, _, _, _, _, _, _, _, rfl, hrows, hno, hlim⟩
  | participantDone hrows _ hp hpu hc hcn hadm =>
    right; right; left; exact ⟨rfl, _, _, _, _, hrows, hp, hpu, hc, hcn, hadm, rfl⟩
  | participantDeleted => right; right; right; exact ⟨rfl, List.filter_sublist⟩

/-! ## Sections by their number -/

/-- Sections with the same number are one. -/
theorem section_eq {c d : Section} (hc : c ∈ s.sections.rows) (hd : d ∈ s.sections.rows)
    (h : S.eq c.callNo d.callNo = true) : c = d :=
  s.sections.eq_of_clash hc hd (by
    show (Unique.clash _ _ _ || _) = true
    rw [Unique.key_clash, h]; rfl)

theorem sectionAt_eq {c : Section} {n : Text} (hc : c ∈ s.sections.rows) (he : S.eq c.callNo n = true) :
    s.sectionAt (some n) = some c := by
  unfold State.sectionAt
  cases hf : s.sections.rows.find? fun c => S.eqN (some c.callNo) (some n) with
  | none => exact absurd he (List.find?_eq_none.1 hf c hc)
  | some d =>
    have hd : S.eq d.callNo n = true :=
      List.find?_some (p := fun c : Section => S.eqN (some c.callNo) (some n)) hf
    rw [section_eq (List.mem_of_find?_eq_some hf) hc (Collation.trans hd (Collation.symm he))]

theorem sectionAt_eq_some {callNo : Option Text} {c : Section} :
    s.sectionAt callNo = some c ↔ c ∈ s.sections.rows ∧ S.eqN (some c.callNo) callNo = true := by
  constructor
  · intro h
    exact ⟨List.mem_of_find?_eq_some h, List.find?_some (p := fun c : Section => S.eqN (some c.callNo) callNo) h⟩
  · rintro ⟨hc, he⟩
    cases callNo with
    | none => rw [Collation.eqN_none] at he; cases he
    | some n => exact sectionAt_eq hc he

/-- One course, from the script's own data: `COMSE1006`. -/
def oneCourse : State asciiServer :=
  { State.empty with courses := ⟨[⟨"COMS".toList, .E, .l1, "006".toList⟩], List.pairwise_singleton _ _⟩ }

end Coms4111.School
