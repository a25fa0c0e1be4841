import Coms4111.Proof.Inheritance

/-!
# Concurrent registrations

Several sessions call `insert_student` and `insert_faculty` at once, each statement one
step. A call computes its uni, then stores the person under a uni that the trigger
computes again, then stores the row of the derived entity under the first one.

* `registrations_unmixed`: if, between the first two statements of a call, no other call
  stores a person whose uni its pattern matches, then every call that completes has
  stored a person and a row under one uni, its own, and no row refers to a person of the
  other type.
* `registrations_mixed`: a student and a faculty member with the same stem, where the
  row in `Faculty` refers to the student.
-/

namespace Coms4111.School

open Sql

variable {S : Server} {s s' : State S} {ι : Type}

/-- Sessions that make one call each. -/
def registrations (c : ι → Sub) (lastName firstName : ι → Option Text) (s : State S) :
    Pool ι Stmt (State S) Unit :=
  ⟨fun i => insertWith (c i) (lastName i) (firstName i), s⟩

/-- A step from `s` to `s'` stores a person whose uni matches the pattern of a call that has computed
its uni and is about to store its person. -/
def intrudes (s s' : State S) : Option Stmt → Bool
  | some (.insertPerson (some l) (some f)) =>
    (s'.person.rows.drop s.person.rows.length).any fun p => S.like (uniStem S l f ++ ['%']) p.uni
  | _ => false

/-- If session `i` stores a person now, no other session has computed its uni and not
stored its person yet, with a pattern that the new uni matches. -/
def Unmixed [DecidableEq ι] (P : Pool ι Stmt (State S) Unit) (i : ι) : Prop :=
  ∀ j, j ≠ i → intrudes P.tables (P.step i).tables (P.session j).next = false

instance [Fintype ι] [DecidableEq ι] (P : Pool ι Stmt (State S) Unit) (i : ι) : Decidable (Unmixed P i) :=
  inferInstanceAs (Decidable (∀ _, _))

/-- The call of session `i` has stored its person and its row under the uni `u`. -/
structure Stored (s : State S) (c : Sub) (lastName firstName : Option Text) (u : Text) (T : State S) : Prop where
  new : s.hasPerson (some u) = false
  person : ∃ l f, lastName = some l ∧ firstName = some f ∧ ⟨u, l, f, c.kind.type⟩ ∈ T.person.rows
  sub : u ∈ T.subUnis c.kind

/-- **Identities are not mixed**: the calls that have completed have their own unis, and
the rows of a derived entity belong to persons of its type. -/
structure Registered (c : ι → Sub) (lastName firstName : ι → Option Text) (s : State S)
    (P : Pool ι Stmt (State S) Unit) : Prop where
  rows : ∃ uni : ι → Text,
    (∀ i, (P.session i).returned = some () → Stored s (c i) (lastName i) (firstName i) (uni i) P.tables) ∧
    ∀ i j, i ≠ j → (P.session i).returned = some () → (P.session j).returned = some () →
      S.eq (uni i) (uni j) = false
  kinds : ∀ k, ∀ u ∈ P.tables.subUnis k, ∀ p ∈ P.tables.person.rows, S.eq p.uni u = true → p.type = k.type

/-! ## The phases of a call -/

/-- How far a call has come, with the uni it has computed. -/
inductive Phase
  | start
  | chosen (newuni : Option Text)
  | person (u : Text)
  | done (u : Text)
  | failed (e : SqlError)

/-- What is left of the call. -/
def Phase.prog (c : Sub) (lastName firstName : Option Text) : Phase → Proc Stmt (State S) Unit
  | start => insertWith c lastName firstName
  | chosen newuni => do
    Proc.exec (.insertPerson lastName firstName) (insertPerson newuni lastName firstName c.kind.type)
    Proc.exec (.insertSub c.kind) (insertSub c newuni)
  | person u => Proc.exec (.insertSub c.kind) (insertSub c (some u))
  | done _ => return ()
  | failed e => Proc.fail e

/-- The uni of the person that the call has stored. -/
def Phase.uni : Phase → Option Text
  | person u | done u => some u
  | _ => none

/-- What the tables have to do with the phase of a call. -/
structure PhaseOk (s : State S) (c : Sub) (lastName firstName : Option Text) (φ : Phase) (T : State S) :
    Prop where
  chosen : ∀ newuni, φ = .chosen newuni → newuni = generateUni T lastName firstName
  new : ∀ u, φ.uni = some u → s.hasPerson (some u) = false
  stored : ∀ u, φ.uni = some u → ∃ l f, lastName = some l ∧ firstName = some f ∧
    ⟨u, l, f, c.kind.type⟩ ∈ T.person.rows
  short : ∀ u, φ.uni = some u → u.length ≤ 12
  sub : ∀ u, φ = .done u → u ∈ T.subUnis c.kind

/-- The sessions are in the phases `φ`. -/
structure Phased (c : ι → Sub) (lastName firstName : ι → Option Text) (s : State S) (φ : ι → Phase)
    (P : Pool ι Stmt (State S) Unit) : Prop where
  session : ∀ i, P.session i = (φ i).prog (c i) (lastName i) (firstName i)
  ok : ∀ i, PhaseOk s (c i) (lastName i) (firstName i) (φ i) P.tables
  apart : ∀ i j, i ≠ j → ∀ u v, (φ i).uni = some u → (φ j).uni = some v → S.eq u v = false
  grown : ∀ u, s.hasPerson (some u) = true → P.tables.hasPerson (some u) = true
  keys : ForeignKeys P.tables
  typed : Typed P.tables

/-- A new person that a pattern does not match does not change the uni it stands for. -/
theorem generateUni_append {p : Person} (h : s'.person.rows = s.person.rows ++ [p])
    {lastName firstName : Option Text}
    (hno : ∀ l f, lastName = some l → firstName = some f → S.like (uniStem S l f ++ ['%']) p.uni = false) :
    generateUni s' lastName firstName = generateUni s lastName firstName := by
  match lastName, firstName with
  | some l, some f =>
    have hcount : s'.uniCount (uniStem S l f) = s.uniCount (uniStem S l f) := by
      unfold State.uniCount
      rw [h, length_filter_concat, hno l f rfl rfl]
      simp
    simp only [generateUni, hcount]
  | none, _ => rfl
  | some l, none => rfl

theorem generateUni_congr (h : s'.person = s.person) (lastName firstName : Option Text) :
    generateUni s' lastName firstName = generateUni s lastName firstName := by
  match lastName, firstName with
  | some l, some f => simp only [generateUni, State.uniCount, h]
  | none, _ => rfl
  | some l, none => rfl

/-- What a phase says survives new rows, if its pattern still stands for the same uni. -/
theorem PhaseOk.grow {c : Sub} {lastName firstName : Option Text} {φ : Phase} {T T' : State S}
    (h : PhaseOk s c lastName firstName φ T)
    (hgen : ∀ newuni, φ = .chosen newuni → generateUni T' lastName firstName = generateUni T lastName firstName)
    (hrows : ∀ p ∈ T.person.rows, p ∈ T'.person.rows) (hsub : ∀ k, ∀ v ∈ T.subUnis k, v ∈ T'.subUnis k) :
    PhaseOk s c lastName firstName φ T' := by
  refine ⟨fun newuni hn => ?_, h.new, fun u hu => ?_, h.short, fun u hu => hsub _ _ (h.sub u hu)⟩
  · rw [hgen newuni hn]; exact h.chosen newuni hn
  · obtain ⟨l, f, hl, hf, hp⟩ := h.stored u hu
    exact ⟨l, f, hl, hf, hrows _ hp⟩

/-! ## One statement -/

section Step

variable [DecidableEq ι] {c : ι → Sub} {lastName firstName : ι → Option Text} {φ : ι → Phase}
  {P : Pool ι Stmt (State S) Unit}

/-- Session `i` goes on to the phase `ψ`. -/
theorem Phased.advance (h : Phased c lastName firstName s φ P) {i : ι} {ψ : Phase} {T : State S}
    (hstep : (P.session i).step P.tables = some (ψ.prog (c i) (lastName i) (firstName i), T))
    (hi : PhaseOk s (c i) (lastName i) (firstName i) ψ T)
    (hj : ∀ j, j ≠ i → PhaseOk s (c j) (lastName j) (firstName j) (φ j) T)
    (hapart : ∀ j, j ≠ i → ∀ u v, ψ.uni = some u → (φ j).uni = some v → S.eq u v = false)
    (hgrown : ∀ u, P.tables.hasPerson (some u) = true → T.hasPerson (some u) = true)
    (hkeys : ForeignKeys T) (htyped : Typed T) :
    ∃ φ, Phased c lastName firstName s φ (P.step i) := by
  rw [Pool.step_phase h.session hstep]
  refine ⟨Function.update φ i ψ, fun _ => rfl, ?_, ?_, fun u hu => hgrown u (h.grown u hu), hkeys, htyped⟩
  · rw [Function.forall_update_iff φ fun j χ => PhaseOk s (c j) (lastName j) (firstName j) χ T]
    exact ⟨hi, hj⟩
  · -- only the uni of session `i` may be new
    intro j k hjk u v hu hv
    by_cases hji : j = i
    · subst hji
      rw [Function.update_self] at hu
      rw [Function.update_of_ne (Ne.symm hjk)] at hv
      exact hapart k (Ne.symm hjk) u v hu hv
    · rw [Function.update_of_ne hji] at hu
      by_cases hki : k = i
      · subst hki
        rw [Function.update_self] at hv
        rw [Collation.eq_symm]; exact hapart j hji v u hv hu
      · rw [Function.update_of_ne hki] at hv
        exact h.apart j k hjk u v hu hv

/-- A refused statement ends the call and changes nothing. -/
theorem Phased.refused (h : Phased c lastName firstName s φ P) {i : ι} {e : SqlError}
    (hstep : (P.session i).step P.tables = some (.fail e, P.tables)) :
    ∃ φ, Phased c lastName firstName s φ (P.step i) := by
  refine h.advance (ψ := .failed e) hstep ⟨nofun, nofun, nofun, nofun, nofun⟩ (fun j _ => h.ok j) ?_
    (fun u hu => hu) h.keys h.typed
  intro j _ u v hu; cases hu

/-- `SET Newuni`. -/
theorem Phased.step_start (h : Phased c lastName firstName s φ P) {i : ι} (hφ : φ i = .start) :
    ∃ φ, Phased c lastName firstName s φ (P.step i) := by
  refine h.advance (ψ := .chosen (generateUni P.tables (lastName i) (firstName i))) ?_ ?_ (fun j _ => h.ok j) ?_
    (fun u hu => hu) h.keys h.typed
  · rw [h.session i, hφ]
    show (insertWith _ _ _).step _ = _
    unfold insertWith
    rw [Proc.step_query_bind]
    rfl
  · exact ⟨fun newuni hn => by cases hn; rfl, nofun, nofun, nofun, nofun⟩
  · intro j _ u v hu; cases hu

/-- `INSERT INTO Person`. -/
theorem Phased.step_chosen (h : Phased c lastName firstName s φ P) {i : ι} {newuni : Option Text}
    (hφ : φ i = .chosen newuni) (hmix : Unmixed P i) : ∃ φ, Phased c lastName firstName s φ (P.step i) := by
  -- the trigger computes the same uni again
  have hnew := (h.ok i).chosen newuni hφ
  have hstep : (P.session i).step P.tables = match insertPerson newuni (lastName i) (firstName i) (c i).kind.type
      P.tables with
    | .ok T => some (Proc.exec (.insertSub (c i).kind) (insertSub (c i) newuni), T)
    | .error e => some (.fail e, P.tables) := by
    rw [h.session i, hφ, Phase.prog, Proc.step_exec_bind]
    cases insertPerson newuni (lastName i) (firstName i) (c i).kind.type P.tables <;> rfl
  by_cases hex : ∃ u, Fresh P.tables (lastName i) (firstName i) u
  · obtain ⟨u, hu⟩ := hex
    obtain ⟨T, l, f, hT, hrows, hl, hf⟩ := insertPerson_fresh hu (c i).kind.type
    rw [hnew.trans hu.1, hT] at hstep
    have hsub := subUnis_person T P.tables
    have hnot := hasPerson_eq_false.1 hu.2.2
    have hgrown : ∀ v, P.tables.hasPerson (some v) = true →
        State.hasPerson { P.tables with person := T } (some v) = true := by
      intro v hv; rw [hasPerson_append hrows, hv]; rfl
    refine h.advance (ψ := .person u) (T := { P.tables with person := T }) hstep ?_ (fun j hj => ?_) ?_ hgrown
      ?_ ?_
    · refine ⟨nofun, fun v hv => ?_, fun v hv => ?_, fun v hv => ?_, nofun⟩
      · cases hv
        have hfree := hu.2.2
        rw [Bool.eq_false_iff] at hfree ⊢
        exact fun hs => hfree (h.grown u hs)
      · cases hv; exact ⟨l, f, hl, hf, by rw [hrows]; simp⟩
      · cases hv; exact hu.2.1
    · refine (h.ok j).grow (fun o ho => ?_) (fun p hp => by rw [hrows]; exact List.mem_append_left _ hp)
        fun k v hv => by rwa [hsub]
      -- the pattern of `j` does not match the new uni
      refine generateUni_append (s := P.tables) hrows fun l' f' hl' hf' => ?_
      have hm := hmix j hj
      rw [h.session j, ho, Pool.step_phase h.session (ψ := .person u) hstep] at hm
      have hm :
          intrudes P.tables { P.tables with person := T } (some (.insertPerson (lastName j) (firstName j))) =
        false := hm
      simpa only [hl', hf', intrudes, hrows, List.drop_left, List.any_cons, List.any_nil, Bool.or_false] using hm
    · intro j hj v w hv hw
      cases hv
      obtain ⟨_, _, -, -, hp⟩ := (h.ok j).stored w hw
      rw [Collation.eq_symm]; exact hnot _ hp
    · exact h.keys.grow hgrown (fun k v hv => .inl (by rwa [hsub] at hv)) ⟨rfl, rfl, rfl, rfl⟩
    · exact h.typed.append h.keys hu.2.2 hrows fun k v hv => .inl (by rwa [hsub] at hv)
  · obtain ⟨e, he⟩ := exists_error (x := insertPerson newuni (lastName i) (firstName i) (c i).kind.type P.tables)
      (fun s' hs' => hex (fresh_of_insertPerson (hnew ▸ hs')))
    rw [he] at hstep
    exact h.refused hstep

/-- The uni of a person and the rows of the derived entities, after one row more. -/
theorem insertSub_rows {c : Sub} {u : Text} (hlen : u.length ≤ 12) {T T' : State S}
    (h : insertSub c (some u) T = .ok T') : T.hasPerson (some u) = true ∧ u ∈ T'.subUnis c.kind ∧
      (∀ k, ∀ v ∈ T.subUnis k, v ∈ T'.subUnis k) ∧
      (∀ k, ∀ v ∈ T'.subUnis k, v ∈ T.subUnis k ∨ (v = u ∧ k = c.kind)) ∧ SameBut c.kind T T' := by
  obtain ⟨_, v, hu, hv, hperson, -, hsub, hsame⟩ := insertSub_ok h
  cases hu
  rw [varchar_of_le hlen] at hv
  cases hv
  refine ⟨hperson, by rw [hsub]; simp, fun k v hv => ?_,
    fun k v hv => mem_subUnis_append hsub hsame.other hv, hsame⟩
  rcases Kind.eq_or_other c.kind k with rfl | rfl
  · rw [hsub]; exact List.mem_append_left _ hv
  · rwa [hsame.other]

/-- `INSERT INTO Student`, `INSERT INTO Faculty`. -/
theorem Phased.step_person (h : Phased c lastName firstName s φ P) {i : ι} {u : Text} (hφ : φ i = .person u) :
    ∃ φ, Phased c lastName firstName s φ (P.step i) := by
  have huni : (φ i).uni = some u := by rw [hφ]; rfl
  have hstep : (P.session i).step P.tables = match insertSub (c i) (some u) P.tables with
    | .ok T => some (.ret (), T)
    | .error e => some (.fail e, P.tables) := by
    rw [h.session i, hφ, Phase.prog, Proc.step_exec]
    cases insertSub (c i) (some u) P.tables <;> rfl
  by_cases hex : ∃ T, insertSub (c i) (some u) P.tables = .ok T
  · obtain ⟨T, hT⟩ := hex
    rw [hT] at hstep
    obtain ⟨hperson, hin, hmem, hcases, hsame⟩ := insertSub_rows ((h.ok i).short u huni) hT
    have hhas : ∀ v, P.tables.hasPerson (some v) = true → T.hasPerson (some v) = true := by
      intro v hv; unfold State.hasPerson at hv ⊢; rwa [hsame.person]
    have hgrow : ∀ j, PhaseOk s (c j) (lastName j) (firstName j) (φ j) T := fun j =>
      (h.ok j).grow (fun _ _ => generateUni_congr hsame.person _ _) (fun p hp => by rwa [hsame.person]) hmem
    refine h.advance (ψ := .done u) (T := T) hstep ?_ (fun j _ => hgrow j) ?_ hhas ?_ ?_
    · refine ⟨nofun, fun v hv => ?_, fun v hv => ?_, fun v hv => ?_, fun v hv => ?_⟩
      · cases hv; exact (h.ok i).new u huni
      · cases hv; exact (hgrow i).stored u huni
      · cases hv; exact (h.ok i).short u huni
      · cases hv; exact hin
    · intro j hj v w hv hw
      cases hv
      exact h.apart i j (Ne.symm hj) u w huni hw
    · refine h.keys.grow hhas (fun k v hv => ?_) hsame.toSameRest
      rcases hcases k v hv with hv | ⟨rfl, -⟩
      · exact .inl hv
      · exact .inr (hhas v hperson)
    · -- the only person with the uni `u` is the one of this call
      refine ⟨by rw [hsame.person]; exact h.typed.type, fun k v hv p hp he => ?_⟩
      rw [hsame.person] at hp
      rcases hcases k v hv with hv | ⟨rfl, rfl⟩
      · exact h.typed.sub k v hv p hp he
      · obtain ⟨l, f, -, -, hq⟩ := (h.ok i).stored v huni
        rw [person_eq hp hq he]
  · obtain ⟨e, he⟩ := exists_error fun T hT => hex ⟨T, hT⟩
    rw [he] at hstep
    exact h.refused hstep

/-- One step of any session. -/
theorem Phased.step (h : Phased c lastName firstName s φ P) {i : ι} (hmix : Unmixed P i) :
    ∃ φ, Phased c lastName firstName s φ (P.step i) := by
  match hφ : φ i with
  | .start => exact h.step_start hφ
  | .chosen newuni => exact h.step_chosen hφ hmix
  | .person u => exact h.step_person hφ
  | .done u | .failed e =>
    have hend : (P.session i).next = none := by rw [h.session i, hφ]; rfl
    rw [Pool.step_ended hend]
    exact ⟨φ, h⟩

omit [DecidableEq ι] in
/-- What the phases say of the calls that have completed. -/
theorem Phased.registered (h : Phased c lastName firstName s φ P) : Registered c lastName firstName s P := by
  -- a session that has returned is in the phase `done`
  have hdone : ∀ i, (P.session i).returned = some () → ∃ u, φ i = .done u := by
    intro i hi
    rw [h.session i] at hi
    match hφ : φ i with
    | .done u => exact ⟨u, rfl⟩
    | .start | .chosen _ | .person _ | .failed _ => rw [hφ] at hi; cases hi
  refine ⟨⟨fun i => ((φ i).uni).getD [], fun i hi => ?_, fun i j hij hi hj => ?_⟩, h.typed.sub⟩
  · obtain ⟨u, hu⟩ := hdone i hi
    have huni : (φ i).uni = some u := by rw [hu]; rfl
    simp only [huni, Option.getD_some]
    exact ⟨(h.ok i).new u huni, (h.ok i).stored u huni, (h.ok i).sub u hu⟩
  · obtain ⟨u, hu⟩ := hdone i hi
    obtain ⟨v, hv⟩ := hdone j hj
    simp only [hu, hv]
    exact h.apart i j hij u v (by rw [hu]; rfl) (by rw [hv]; rfl)

end Step

/-- **Registrations are not mixed** when no call stores a person between the first two
statements of another call whose pattern matches the new uni. -/
theorem registrations_unmixed [DecidableEq ι] (s : State S) (hfk : ForeignKeys s) (ht : Typed s) (c : ι → Sub)
    (lastName firstName : ι → Option Text) (sched : List ι)
    (hs : Along Pool.step Unmixed (registrations c lastName firstName s) sched) :
    Registered c lastName firstName s ((registrations c lastName firstName s).run sched) := by
  have hstart : Phased c lastName firstName s (fun _ => .start) (registrations c lastName firstName s) :=
    ⟨fun _ => rfl, fun _ => ⟨nofun, nofun, nofun, nofun, nofun⟩, fun _ _ _ _ _ => nofun, fun _ hu => hu, hfk, ht⟩
  have hstep : ∀ (P : Pool ι Stmt (State S) Unit) (i : ι), (∃ φ, Phased c lastName firstName s φ P) →
      Unmixed P i → ∃ φ, Phased c lastName firstName s φ (P.step i) := by
    rintro P i ⟨φ, hφ⟩ hi
    exact hφ.step hi
  obtain ⟨φ, hφ⟩ := Along.inv hstep sched _ ⟨_, hstart⟩ hs
  exact hφ.registered

/-- A student and a faculty member whose names have the stem `PEJU`. -/
def twoCalls : Fin 2 → Sub :=
  ![.student (some "cs".toList) (some "2018".toList),
    .faculty (some "4".toList) (some "Professor".toList) (some "cs".toList)]

def twoLastNames : Fin 2 → Option Text := ![some "peters".toList, some "perez".toList]

def twoFirstNames : Fin 2 → Option Text := ![some "justin".toList, some "julia".toList]

/-- The second call begins when the first one has stored its person. -/
theorem registrations_unmixed_two :
    let P := (registrations twoCalls twoLastNames twoFirstNames (State.empty : State asciiServer)).run
      [0, 0, 1, 1, 0, 1]
    (∀ i, (P.session i).returned = some ()) ∧ Registered twoCalls twoLastNames twoFirstNames .empty P :=
  ⟨by decide +kernel, registrations_unmixed .empty (foreignKeys_cleared .empty) (typed_cleared .empty) _ _ _ _
    (by decide +kernel)⟩

/-- Both calls compute `PEJU1`, and both store their persons before either stores its row:
the row of the faculty member refers to the student. -/
theorem registrations_mixed :
    let P := (registrations twoCalls twoLastNames twoFirstNames (State.empty : State asciiServer)).run
      [0, 1, 0, 1, 1, 0]
    (∀ i, validSub asciiServer (twoCalls i) = true) ∧ (∀ i, (P.session i).returned = some ()) ∧
      ¬Registered twoCalls twoLastNames twoFirstNames .empty P := by
  refine ⟨by decide +kernel, by decide +kernel, fun h => ?_⟩
  exact absurd (h.kinds .faculty "PEJU1".toList (by decide +kernel)
    ⟨"PEJU1".toList, "peters".toList, "justin".toList, "Student".toList⟩ (by decide +kernel) (by decide +kernel))
    (by decide +kernel)

end Coms4111.School
