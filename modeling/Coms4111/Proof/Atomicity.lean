import Coms4111.Proof.Outcomes

/-!
# The six procedures and their two writes

Every procedure writes `Person` and a derived entity, in two statements and without a
transaction. `call_allOrNothing_iff` says exactly when a call is **all or nothing**:

* an insertion, unless the person can be stored and the other values cannot;
* an update, unless the derived entity has a row to change, its values are refused, and
  the names are new;
* a deletion, unless there is a row of the derived entity and a row elsewhere that
  refers to the person.

`bad_year_leaves_person` is an insertion that fails and leaves a person behind.
-/

namespace Coms4111.School

open Sql

variable {S : Server} {s s' : State S}

/-- If the operation ends with an error, the four tables are as before. -/
def AllOrNothing (s : State S) (op : Op) : Prop :=
  ∀ e, (op.proc.run s).1 = .error e → (op.run s).person = s.person ∧ (op.run s).student = s.student ∧
    (op.run s).faculty = s.faculty ∧ (op.run s).participant = s.participant

/-- The second write of the call is not refused after a first one that counts. -/
def CleanCall (s : State S) : Op → Prop
  | .insert c lastName firstName => (∃ u, Fresh s lastName firstName u) → validSub S c = true
  | .update c uni lastName firstName => ∀ p ∈ s.person.rows, S.eqN (some p.uni) uni = true →
      ∀ l f, lastName = some l → firstName = some f → s.hasSub c.kind uni = true →
        validSub S c = true ∨ (p.lastName = l ∧ p.firstName = f)
  | .delete k uni => s.hasSub k uni = true → s.hasSub k.other uni = false ∧ s.hasParticipant uni = false
  | _ => True

theorem renamed_eq_self_iff {uni : Option Text} {l f : Text} {T : Table Person (Unique.key fun p => S.key p.uni)}
    (h : T.rows = s.person.rows.map (renamed S uni l f)) :
    T = s.person ↔ ∀ p ∈ s.person.rows, S.eqN (some p.uni) uni = true → p.lastName = l ∧ p.firstName = f := by
  have hrow : ∀ p : Person, renamed S uni l f p = p ↔
      (S.eqN (some p.uni) uni = true → p.lastName = l ∧ p.firstName = f) := by
    intro p
    unfold renamed
    split
    · rename_i hp
      simp only [hp, forall_const]
      constructor
      · intro he; rw [← he]; exact ⟨rfl, rfl⟩
      · rintro ⟨h1, h2⟩; rw [← h1, ← h2]
    · rename_i hp
      exact ⟨fun _ hc => absurd hc hp, fun _ => rfl⟩
  rw [Table.ext_iff, h]
  conv_lhs => rw [← List.map_id s.person.rows, List.map_map]
  rw [List.map_inj_left]
  simp only [Function.comp_id, id_eq, hrow]

theorem deleteSub_eq_iff (k : Kind) (uni : Option Text) (s : State S) :
    ((deleteSub k uni s).student = s.student ∧ (deleteSub k uni s).faculty = s.faculty) ↔
      s.hasSub k uni = false := by
  unfold State.hasSub
  cases k with
  | student =>
    simp only [deleteSub, State.subUnis, List.any_map, and_true]
    exact Table.delete_eq_self_iff _ _
  | faculty =>
    simp only [deleteSub, State.subUnis, List.any_map, true_and]
    exact Table.delete_eq_self_iff _ _

/-- A row of a derived entity has its person. -/
theorem ForeignKeys.hasPerson_of_hasSub (hs : ForeignKeys s) {k : Kind} {uni : Option Text}
    (h : s.hasSub k uni = true) : s.hasPerson uni = true := by
  obtain ⟨u, hu, he⟩ := List.any_eq_true.1 h
  obtain ⟨p, hp, hpu⟩ := hasPerson_iff.1 (hs.sub k u hu)
  rcases uni with _ | v
  · cases he
  · exact hasPerson_iff.2 ⟨p, hp, Collation.trans hpu he⟩

/-- An update that breaks off half way has left the persons alone exactly if they had these
names. -/
theorem cleanCall_update_iff {c : Sub} {uni : Option Text} {l f : Text}
    {T : Table Person (Unique.key fun p => S.key p.uni)} (hsub : s.hasSub c.kind uni = true)
    (hv : validSub S c = false) (hrows : T.rows = s.person.rows.map (renamed S uni l f)) :
    T = s.person ↔ CleanCall s (.update c uni (some l) (some f)) := by
  rw [renamed_eq_self_iff hrows]
  constructor
  · intro h p hp hpu l' f' hl hf _
    cases hl; cases hf
    exact .inr (h p hp hpu)
  · intro h p hp hpu
    rcases h p hp hpu l f rfl rfl hsub with hc | hc
    · rw [hc] at hv; cases hv
    · exact hc

/-- A deletion that breaks off half way has left the derived entity alone exactly if there
was no row in it. -/
theorem cleanCall_delete_iff {k : Kind} {uni : Option Text} (hr : (deleteSub k uni s).refersTo uni = true) :
    ((deleteSub k uni s).student = s.student ∧ (deleteSub k uni s).faculty = s.faculty) ↔
      CleanCall s (.delete k uni) := by
  rw [refersTo_deleteSub, Bool.or_eq_true] at hr
  rw [deleteSub_eq_iff]
  constructor
  · intro hno hsub
    rw [hno] at hsub; cases hsub
  · intro h
    rw [Bool.eq_false_iff]
    intro hsub
    obtain ⟨h1, h2⟩ := h hsub
    rw [h1, h2] at hr
    rcases hr with hr | hr <;> cases hr

/-- **A call is all or nothing** exactly when it is clean. -/
theorem call_allOrNothing_iff (hs : ForeignKeys s) (op : Op) : AllOrNothing s op ↔ CleanCall s op := by
  unfold AllOrNothing
  have hout := op_outcome hs op
  generalize (op.proc.run s).1 = out at hout
  generalize op.run s = s' at hout
  cases hout with
  | insertRefused hno =>
    exact ⟨fun _ ⟨u, hu⟩ => absurd hu (hno u), fun _ _ _ => ⟨rfl, rfl, rfl, rfl⟩⟩
  | @insertHalf c l f u e T hu hv hrows =>
    constructor
    · -- a table with one row more is not the old one
      intro h
      have hT : T = s.person := (h e rfl).1
      rw [hT] at hrows
      simp at hrows
    · intro h; rw [h ⟨u, hu⟩] at hv; cases hv
  | insertDone hu hv => exact ⟨fun _ _ => hv, fun _ e he => by cases he⟩
  | updateRefused hno =>
    refine ⟨fun _ p hp hpu l f hl hf => ?_, fun _ _ _ => ⟨rfl, rfl, rfl, rfl⟩⟩
    rcases hno (List.any_eq_true.2 ⟨p, hp, hpu⟩) with h | h
    · rw [h] at hl; cases hl
    · rw [h] at hf; cases hf
  | @updateHalf c uni l f e T hp hsub hv hrows =>
    -- the renaming counts, unless the person had these names
    have hiff := cleanCall_update_iff hsub hv hrows
    exact ⟨fun h => hiff.1 (h e rfl).1, fun h _ _ => ⟨hiff.2 h, rfl, rfl, rfl⟩⟩
  | updateDone hp hv => exact ⟨fun _ p _ _ l f _ _ hsub => .inl (hv hsub), fun _ e he => by cases he⟩
  | @deleteRefused k uni e hp =>
    refine ⟨fun _ hsub => ?_, fun _ _ _ => ⟨rfl, rfl, rfl, rfl⟩⟩
    rw [hs.hasPerson_of_hasSub hsub] at hp
    cases hp
  | @deleteHalf k uni e hp hr =>
    have hb := deleteSub_sameBut k uni s
    have hiff := cleanCall_delete_iff hr
    constructor
    · intro h
      obtain ⟨-, h1, h2, -⟩ := h e rfl
      exact hiff.1 ⟨h1, h2⟩
    · intro h _ _
      exact ⟨hb.person, (hiff.2 h).1, (hiff.2 h).2, hb.participant⟩
  | deleteDone hp hr =>
    rw [refersTo_deleteSub, Bool.or_eq_false_iff] at hr
    exact ⟨fun _ _ => hr, fun _ e he => by cases he⟩
  | sectionRefused | participantRefused => exact ⟨fun _ => trivial, fun _ _ _ => ⟨rfl, rfl, rfl, rfl⟩⟩
  | sectionDone | participantDone | participantDeleted =>
    exact ⟨fun _ => trivial, fun _ e he => by cases he⟩

/-- `delete_faculty("peju1")` for a student: the foreign key of `Student` refuses it, after a `DELETE`
that has found nothing. -/
theorem delete_faculty_allOrNothing :
    let s := run [.insert (.student (some "cs".toList) (some "2016".toList)) (some "peters".toList)
      (some "justin".toList)] (State.empty : State asciiServer).cleared
    s.person.rows.length = 1 ∧ ((Op.delete .faculty (some "peju1".toList)).proc.run s).1 = .error
        (.foreignKey "student_uni_fk") ∧
      AllOrNothing s (.delete .faculty (some "peju1".toList)) :=
  ⟨by decide, by decide, (call_allOrNothing_iff
    ((op_outcome (foreignKeys_cleared .empty) _).foreignKeys (foreignKeys_cleared .empty)) _).2
    fun h => by revert h; decide⟩

/-- `insert_student("peters", "justin", "cs", "1999")`: the year is refused after the
person has been stored. -/
theorem bad_year_leaves_person : ForeignKeys (State.empty : State asciiServer) ∧
    ¬AllOrNothing (State.empty : State asciiServer) (.insert (.student (some "cs".toList) (some "1999".toList))
      (some "peters".toList) (some "justin".toList)) := by
  refine ⟨foreignKeys_cleared .empty, fun h => ?_⟩
  have hsame := (h (.signal "45002" "not a valid year") (by decide)).1
  exact absurd (congrArg Table.rows hsame) (by decide)

end Coms4111.School
