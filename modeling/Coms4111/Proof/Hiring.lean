import Coms4111.Store.Counter
import Coms4111.Proof.UserIds

/-!
# Concurrent hires

Several sessions insert employees of one name at once. The trigger of an insertion tests
whether the name has a count, reads it, and writes it or makes one, and then the row is
stored; each of these is one step. An insertion that fails takes its write to the count
back (`hire_run`: alone, it is the statement).

* `namesakes_hired`: if no session writes the count between another session's reading of it
  (or its finding that there is none) and that session's own write, all insertions succeed,
  and their ids have the next numbers of the name.
* `namesakes_collide`: two sessions that both find no count, or that both read the same one.
-/

namespace Coms4111.Staff

open Sql

variable {C : Collation} {s s' : State C} {ι : Type}

/-! ## An insertion in steps -/

/-- Takes back a write to the count of the name: it was `old`, or there was none. -/
def restoreCount (prefixName : Option Text) (old : Option ℕ) (s : State C) : State C :=
  match old with
  | some m => match updateCount prefixName (some m) s with
    | .ok s' => s'
    | .error _ => s
  | none => { s with userPrefixCount := s.userPrefixCount.delete fun r => C.eqN (some r.prefixName) prefixName }

/-- `nextCount`, with the count as the write has found it. -/
def writeCount (prefixName : Option Text) (existed : Bool) : Proc Stmt (State C) (Option ℕ × Option ℕ) :=
  if existed then do
    let count ← Proc.query .selectMaxValue fun s => ((s.maxValue prefixName).map (· + 1)).mapM (int "count")
    let old ← Proc.stmt .updateCount
      (fun s => (updateCount prefixName count s).map fun s' => (s.maxValue prefixName, s')) Proc.ret
    return (count, old)
  else do
    Proc.exec .insertCount (insertCount prefixName)
    return (some 1, none)

/-- The row is stored. -/
def storeRow (now : Datetime) (userId firstName lastName email : Option Text) (s : State C) :
    Except SqlError (State C) := do
  let userId ← notNull "user_id" userId
  let firstName ← notNull "first_name" firstName
  let lastName ← notNull "last_name" lastName
  let email ← notNull "email" email
  let T ← s.employee.insert ⟨userId, firstName, lastName, email, some now⟩
  return { s with employee := T }

/-- The last step: the row gets its id and is stored. -/
def storeEmployee (now : Datetime) (firstName lastName email : Option Text) (count : Option ℕ) (s : State C) :
    Except SqlError (State C) := do
  let userId ← ((Option.map₂ concatUserId firstName lastName).bind fun f => count.map f).mapM
    (varchar 32 "user_id")
  storeRow now userId firstName lastName email s

/-- The last step, or what is done instead of it. -/
def storeOrRestore (now : Datetime) (firstName lastName email prefixName : Option Text) (count old : Option ℕ) :
    Proc Stmt (State C) Unit := do
  let stored ← Proc.stmt .insertEmployee (fun s => match storeEmployee now firstName lastName email count s with
    | .ok s' => .ok (.ok (), s')
    | .error e => .ok (.error e, restoreCount prefixName old s)) Proc.ret
  Proc.value stored

/-- **`INSERT INTO Employee` in steps.** -/
def hire (now : Datetime) (v : Values) : Proc Stmt (State C) Unit := do
  let _ ← Proc.value (v.userId.mapM (varchar 32 "user_id"))
  let firstName ← Proc.value (v.firstName.mapM (varchar 32 "first_name"))
  let lastName ← Proc.value (v.lastName.mapM (varchar 32 "last_name"))
  let email ← Proc.value (v.email.mapM (varchar 32 "email"))
  let prefixName ← Proc.value ((Option.map₂ concatName firstName lastName).mapM (varchar 32 "prefix_name"))
  let existed ← Proc.query .existed fun s => .ok (s.existed prefixName)
  let (count, old) ← writeCount prefixName existed
  storeOrRestore now firstName lastName email prefixName count old

/-! ## Alone, it is the statement -/

theorem existed_eq_isSome (s : State C) (p : Option Text) : s.existed p = (s.maxValue p).isSome := by
  unfold State.existed State.maxValue
  rw [Option.isSome_map, List.isSome_find?]

/-- A name has one row. -/
theorem maxValue_of_mem {r : PrefixCount} {p : Text} (hr : r ∈ s.userPrefixCount.rows)
    (he : C.eqN (some r.prefixName) (some p) = true) : s.maxValue (some p) = some r.maxValue := by
  unfold State.maxValue
  rcases hf : s.userPrefixCount.rows.find? fun r => C.eqN (some r.prefixName) (some p) with _ | r'
  · exact absurd he (List.find?_eq_none.1 hf r hr)
  · have he' : C.eq r'.prefixName p = true :=
      List.find?_some (p := fun r : PrefixCount => C.eqN (some r.prefixName) (some p)) hf
    have hrr : r = r' := by
      by_contra hne
      have hapart := s.userPrefixCount.unique.forall hr (List.mem_of_find?_eq_some hf) hne
      unfold Unique.Apart at hapart
      rw [Unique.key_clash, Collation.eq_congr he, Collation.eq_symm, he'] at hapart
      cases hapart
    rw [hf, hrr]
    rfl

theorem eqN_of_maxValue {r : PrefixCount} {p : Text} (hm : s.maxValue (some p) = none)
    (hr : r ∈ s.userPrefixCount.rows) : C.eqN (some r.prefixName) (some p) = false := by
  by_contra he
  rw [Bool.not_eq_false] at he
  rw [maxValue_of_mem hr he] at hm
  cases hm

theorem updateCount_rows (p : Text) (n : ℕ) (s : State C) :
    ∃ T, updateCount (some p) (some n) s = .ok { s with userPrefixCount := T } ∧
      T.rows = s.userPrefixCount.rows.map (recounted C p n) := by
  obtain ⟨T, hT, hrows⟩ := Table.update_eq_ok (T := s.userPrefixCount)
    (p := fun r => C.eqN (some r.prefixName) (some p))
    (f := fun r => do return { r with maxValue := ← notNull "max_value" (some n) })
    (g := fun r => { r with maxValue := n }) (fun _ _ _ => rfl) (fun _ _ _ _ => rfl)
  refine ⟨T, ?_, hrows⟩
  unfold updateCount
  rw [hT]
  rfl

theorem insertCount_eq_ok {p : Text} (hm : s.maxValue (some p) = none) :
    ∃ s', insertCount (some p) s = .ok s' := by
  have hno : ∀ r ∈ s.userPrefixCount.rows, (Unique.key fun r => C.key r.prefixName).clash ⟨p, 1⟩ r = false := by
    intro r hr
    rw [Unique.key_clash, Collation.eq_symm]
    exact eqN_of_maxValue hm hr
  obtain ⟨T, hT, -⟩ := Table.insert_eq_ok hno
  refine ⟨{ s with userPrefixCount := T }, ?_⟩
  show (s.userPrefixCount.insert ⟨p, 1⟩ >>= _) = _
  rw [hT]
  rfl

/-- An update of the count is taken back. -/
theorem restoreCount_update {p : Text} {m n : ℕ} (hm : s.maxValue (some p) = some m)
    (h : updateCount (some p) (some n) s = .ok s') : restoreCount (some p) (some m) s' = s := by
  obtain ⟨T, hT, hrows⟩ := updateCount_rows p n s
  rw [hT] at h
  cases h
  obtain ⟨T', hT', hrows'⟩ := updateCount_rows p m { s with userPrefixCount := T }
  simp only [restoreCount, hT']
  have hTs : T' = s.userPrefixCount := by
    ext1
    have hrows' : T'.rows = T.rows.map (recounted C p m) := hrows'
    rw [hrows', hrows, List.map_map]
    refine (List.map_congr_left ?_).trans (List.map_id _)
    intro r hr
    show recounted C p m (recounted C p n r) = r
    unfold recounted
    by_cases he : C.eqN (some r.prefixName) (some p) = true
    · have hval := maxValue_of_mem hr he
      rw [hm] at hval
      cases hval
      rw [if_pos he, if_pos he]
    · rw [if_neg he, if_neg he]
  rw [hTs]

/-- A new count is taken back. -/
theorem restoreCount_insert {p : Text} (hm : s.maxValue (some p) = none)
    (h : insertCount (some p) s = .ok s') : restoreCount (some p) none s' = s := by
  unfold insertCount at h
  simp only [bind_eq_ok, notNull_eq_ok] at h
  obtain ⟨_, hp, T, hT, h⟩ := h
  cases hp
  cases h
  have hno : ∀ r ∈ s.userPrefixCount.rows, C.eqN (some r.prefixName) (some p) = false :=
    fun r hr => eqN_of_maxValue hm hr
  have hTs : T.delete (fun r => C.eqN (some r.prefixName) (some p)) = s.userPrefixCount := by
    ext1
    show T.rows.filter _ = _
    rw [(Table.insert_ok hT).1, List.filter_append, List.filter_eq_self.2 (by simpa using hno)]
    have hp : C.eqN (some p) (some p) = true := Collation.eq_self p
    simp [hp]
  simp only [restoreCount, hTs]

/-- The last step alone. -/
theorem storeOrRestore_run (now : Datetime) (firstName lastName email prefixName : Option Text)
    (count old : Option ℕ) (s : State C) :
    (storeOrRestore now firstName lastName email prefixName count old).run s =
      match storeEmployee now firstName lastName email count s with
      | .ok s' => (.ok (), s')
      | .error e => (.error e, restoreCount prefixName old s) := by
  unfold storeOrRestore
  rw [Proc.run_bind]
  simp only [Proc.run]
  cases storeEmployee now firstName lastName email count s <;> rfl

theorem maxValue_null (s : State C) : s.maxValue none = none := by
  unfold State.maxValue
  rw [List.find?_eq_none.2, Option.map_none]
  intro r _
  rw [Collation.eqN_none]
  exact Bool.false_ne_true

/-- The trigger's count, and the row stored with it: a failure takes the count back. -/
theorem writeCount_run (now : Datetime) (firstName lastName email prefixName : Option Text) (s : State C) :
    (writeCount prefixName (s.existed prefixName) >>= fun x =>
        storeOrRestore now firstName lastName email prefixName x.1 x.2).run s =
      match (nextCount prefixName (s.existed prefixName)).run s with
      | (.error e, _) => (.error e, s)
      | (.ok count, s₁) => match storeEmployee now firstName lastName email count s₁ with
        | .ok s' => (.ok (), s')
        | .error e => (.error e, s) := by
  rw [existed_eq_isSome]
  rcases hm : s.maxValue prefixName with _ | m
  · -- there is no count yet, and a failure deletes the new one
    have hstep : (writeCount prefixName (none : Option ℕ).isSome >>= fun x =>
        storeOrRestore now firstName lastName email prefixName x.1 x.2).run s =
        (Proc.exec .insertCount (insertCount prefixName) >>= fun _ =>
          storeOrRestore now firstName lastName email prefixName (some 1) none).run s := rfl
    have hnext : nextCount prefixName (none : Option ℕ).isSome =
        (Proc.exec .insertCount (insertCount prefixName) >>= fun _ =>
          Proc.ret (some 1) : Proc Stmt (State C) (Option ℕ)) := rfl
    rw [hstep, hnext, Proc.run_exec_bind, Proc.run_exec_bind]
    rcases hin : insertCount prefixName s with e | s₁
    · rfl
    · rcases prefixName with _ | p
      · cases hin
      · simp only [storeOrRestore_run, Proc.run_ret, restoreCount_insert hm hin]
  · -- there is one, and a failure writes it back
    rcases prefixName with _ | p
    · rw [maxValue_null] at hm; cases hm
    have hstep : (writeCount (some p) (some m).isSome >>= fun x =>
        storeOrRestore now firstName lastName email (some p) x.1 x.2).run s =
        (Proc.query .selectMaxValue
          (fun s : State C => ((s.maxValue (some p)).map (· + 1)).mapM (int "count")) >>=
          fun count => Proc.stmt .updateCount
            (fun s => (updateCount (some p) count s).map fun s' => (s.maxValue (some p), s'))
            (storeOrRestore now firstName lastName email (some p) count)).run s := rfl
    have hnext : nextCount (some p) (some m).isSome =
        (Proc.query .selectMaxValue
          (fun s : State C => ((s.maxValue (some p)).map (· + 1)).mapM (int "count")) >>=
          fun count => Proc.exec .updateCount (updateCount (some p) count) >>= fun _ => Proc.ret count) := rfl
    rw [hstep, hnext, Proc.run_query_bind, Proc.run_query_bind, hm]
    rcases hint : int "count" (m + 1) with e | n
    · simp only [Option.map_some, Option.mapM, hint]; rfl
    · have hmap : ((some m).map (· + 1)).mapM (int "count") = .ok (some n) :=
        mapM_eq_ok_some.2 ⟨m + 1, rfl, hint⟩
      obtain ⟨T, hT, -⟩ := updateCount_rows p n s
      rw [hmap]
      simp only [Proc.run_exec_bind, Proc.run, hT, Except.map, hm, storeOrRestore_run, restoreCount_update hm hT]

/-- The statement from its trigger on. -/
theorem triggerInsertEmployee_run (now : Datetime) (firstName lastName email : Option Text) (s : State C) :
    (triggerInsertEmployee firstName lastName >>= fun userId =>
        Proc.exec .insertEmployee (storeRow now userId firstName lastName email)).run s =
      match (Option.map₂ concatName firstName lastName).mapM (varchar 32 "prefix_name") with
      | .error e => (.error e, s)
      | .ok prefixName => match (nextCount prefixName (s.existed prefixName)).run s with
        | (.error e, s₁) => (.error e, s₁)
        | (.ok count, s₁) => match storeEmployee now firstName lastName email count s₁ with
          | .ok s' => (.ok (), s')
          | .error e => (.error e, s₁) := by
  unfold triggerInsertEmployee
  rcases hp : (Option.map₂ concatName firstName lastName).mapM (varchar 32 "prefix_name") with e | prefixName
  · rfl
  · have hassoc : (Proc.value (.ok prefixName) >>= fun prefixName =>
        Proc.query .existed (fun s : State C => .ok (s.existed prefixName)) >>= fun existed =>
        nextCount prefixName existed >>= fun count =>
        Proc.value (((Option.map₂ concatUserId firstName lastName).bind fun f => count.map f).mapM
          (varchar 32 "user_id"))) =
        Proc.query .existed (fun s : State C => .ok (s.existed prefixName)) >>= fun existed =>
        nextCount prefixName existed >>= fun count =>
        Proc.value (((Option.map₂ concatUserId firstName lastName).bind fun f => count.map f).mapM
          (varchar 32 "user_id")) := rfl
    rw [Proc.run_bind, hassoc, Proc.run_query_bind]
    dsimp only
    rw [Proc.run_bind]
    rcases (nextCount prefixName (s.existed prefixName)).run s with ⟨e | count, s₁⟩
    · rfl
    · set x :=
        ((Option.map₂ concatUserId firstName lastName).bind fun f => count.map f).mapM (varchar 32 "user_id")
      have hlast := Proc.run_value_exec x Stmt.insertEmployee
        (fun userId => storeRow now userId firstName lastName email) s₁
      have hstore : (x >>= fun userId => storeRow now userId firstName lastName email s₁) =
          storeEmployee now firstName lastName email count s₁ := rfl
      rw [Proc.run_bind, hstore] at hlast
      refine hlast.trans ?_
      dsimp only
      cases storeEmployee now firstName lastName email count s₁ <;> rfl

/-- **Alone, the steps are the statement**: a failed one leaves nothing behind. -/
theorem hire_run (now : Datetime) (v : Values) (s : State C) :
    (hire now v).run s = match (insertEmployee now v).atomic s with
      | .ok s' => (.ok (), s')
      | .error e => (.error e, s) := by
  unfold hire insertEmployee
  cases v.userId.mapM (varchar 32 "user_id") with
  | error e => rfl
  | ok userId =>
  cases v.firstName.mapM (varchar 32 "first_name") with
  | error e => rfl
  | ok firstName =>
  cases v.lastName.mapM (varchar 32 "last_name") with
  | error e => rfl
  | ok lastName =>
  cases v.email.mapM (varchar 32 "email") with
  | error e => rfl
  | ok email =>
  show Proc.run (Proc.value _ >>= fun prefixName => Proc.query .existed _ >>= fun existed =>
    writeCount prefixName existed >>= fun x =>
      storeOrRestore now firstName lastName email prefixName x.1 x.2) s =
    match Proc.atomic (triggerInsertEmployee firstName lastName >>= fun userId =>
      Proc.exec .insertEmployee (storeRow now userId firstName lastName email)) s with
    | .ok s' => (.ok (), s')
    | .error e => (.error e, s)
  unfold Proc.atomic
  rw [triggerInsertEmployee_run, Proc.run_value_bind]
  rcases (Option.map₂ concatName firstName lastName).mapM (varchar 32 "prefix_name") with e | prefixName
  · rfl
  · simp only [Proc.run_query_bind, writeCount_run]
    rcases (nextCount prefixName (s.existed prefixName)).run s with ⟨e | count, s₁⟩
    · rfl
    · cases hst : storeEmployee now firstName lastName email count s₁ <;> simp only [hst]

/-! ## Several sessions -/

/-- Whether a statement writes the count. -/
def Stmt.writesCount : Stmt → Bool
  | updateCount => true
  | insertCount => true
  | _ => false

/-- Sessions that each insert an employee of the name, with their own email and time. -/
def hires (firstName lastName : Text) (email : ι → Text) (now : ι → Datetime) (s : State C) :
    Pool ι Stmt (State C) Unit :=
  ⟨fun i => hire (now i) ⟨none, some firstName, some lastName, some (email i), none⟩, s⟩

/-- The session does not write the count while another one is between its reading of the
count, or its finding that there is none, and its own write. -/
def Exclusive (P : Pool ι Stmt (State C) Unit) (i : ι) : Prop :=
  (P.session i).next.any Stmt.writesCount = true →
    ∀ j, j ≠ i → (P.session j).next.any Stmt.writesCount = false

instance [Fintype ι] [DecidableEq ι] (P : Pool ι Stmt (State C) Unit) (i : ι) : Decidable (Exclusive P i) :=
  inferInstanceAs (Decidable (_ → _))

/-- The last number of the name. -/
def State.lastNumber (s : State C) (firstName lastName : Text) : ℕ :=
  (s.maxValue (some (concatName firstName lastName))).getD 0

/-- The ids and the emails fit their columns, and the emails are new and different. -/
structure Admissible [Fintype ι] (s : State C) (firstName lastName : Text) (email : ι → Text) : Prop where
  ids : ∀ n, s.lastNumber firstName lastName < n → n ≤ s.lastNumber firstName lastName + Fintype.card ι →
    (concatUserId firstName lastName n).length ≤ 32
  count : s.lastNumber firstName lastName + Fintype.card ι < 2 ^ 31
  emails : ∀ i, (email i).length ≤ 32
  different : ∀ i j, i ≠ j → C.eq (email i) (email j) = false
  fresh : ∀ i, ∀ e ∈ s.employee.rows, C.eq (email i) e.email = false

/-- The statement reaches its trigger with the names and the email as they are. -/
theorem hire_eq [Fintype ι] {firstName lastName : Text} {email : ι → Text}
    (h : Admissible s firstName lastName email) (i : ι) (now : Datetime) :
    hire (C := C) now ⟨none, some firstName, some lastName, some (email i), none⟩ =
      (Proc.query .existed (fun s => .ok (s.existed (some (concatName firstName lastName)))) >>= fun existed =>
        writeCount (some (concatName firstName lastName)) existed >>= fun x =>
          storeOrRestore now (some firstName) (some lastName) (some (email i))
            (some (concatName firstName lastName)) x.1 x.2) := by
  have hcard : 0 < Fintype.card ι := Fintype.card_pos_iff.2 ⟨i⟩
  have hlen := h.ids (s.lastNumber firstName lastName + 1) (by omega) (by omega)
  unfold concatUserId concatName at hlen
  simp only [List.length_append, List.length_cons, List.length_nil] at hlen
  have hf : (some firstName).mapM (varchar 32 "first_name") = .ok (some firstName) :=
    mapM_varchar (by omega)
  have hl : (some lastName).mapM (varchar 32 "last_name") = .ok (some lastName) :=
    mapM_varchar (by omega)
  have he : (some (email i)).mapM (varchar 32 "email") = .ok (some (email i)) :=
    mapM_varchar (h.emails i)
  have hp : (some (concatName firstName lastName)).mapM (varchar 32 "prefix_name") =
      .ok (some (concatName firstName lastName)) := by
    refine mapM_varchar ?_
    unfold concatName
    simp only [List.length_append, List.length_cons]
    omega
  unfold hire
  simp only [hf, hl, he]
  show (Proc.value ((some (concatName firstName lastName)).mapM (varchar 32 "prefix_name")) >>= _) = _
  rw [hp]
  rfl

/-- How far an insertion has come. -/
inductive HirePhase
  | start
  | reading
  | creating
  | counted (count : ℕ)
  | numbered (n : ℕ) (old : Option ℕ)
  | done (n : ℕ)

namespace HirePhase

/-- What is left of the insertion. -/
def prog (firstName lastName email : Text) (now : Datetime) : HirePhase → Proc Stmt (State C) Unit
  | start => hire now ⟨none, some firstName, some lastName, some email, none⟩
  | reading => writeCount (some (concatName firstName lastName)) true >>= fun x =>
    storeOrRestore now (some firstName) (some lastName) (some email)
      (some (concatName firstName lastName)) x.1 x.2
  | creating => writeCount (some (concatName firstName lastName)) false >>= fun x =>
    storeOrRestore now (some firstName) (some lastName) (some email)
      (some (concatName firstName lastName)) x.1 x.2
  | counted count => Proc.stmt .updateCount (fun s =>
      (updateCount (some (concatName firstName lastName)) (some count) s).map fun s' =>
        (s.maxValue (some (concatName firstName lastName)), s'))
    (storeOrRestore now (some firstName) (some lastName) (some email) (some (concatName firstName lastName))
      (some count))
  | numbered n old =>
    storeOrRestore now (some firstName) (some lastName) (some email) (some (concatName firstName lastName))
      (some n) old
  | done _ => return ()

/-- The number that the insertion has written to the count. -/
def number : HirePhase → Option ℕ
  | numbered n _ => some n
  | done n => some n
  | _ => none

/-- The number of the row that is stored. -/
def stored : HirePhase → Option ℕ
  | done n => some n
  | _ => none

/-- What a session that has looked at the count knows of it. -/
def Knows (k : ℕ) : HirePhase → Prop
  | reading => 0 < k
  | creating => k = 0
  | counted c => 0 < k ∧ c = k + 1
  | _ => True

/-- Another session's write leaves a session alone that is not about to write. -/
theorem Knows.succ {φ : HirePhase} {k : ℕ} {firstName lastName email : Text} {now : Datetime} (h : φ.Knows k)
    (hn : (φ.prog (C := C) firstName lastName email now).next.any Stmt.writesCount = false) :
    φ.Knows (k + 1) := by
  cases φ with
  | reading => exact Nat.succ_pos k
  | creating => exact Bool.noConfusion hn
  | counted c => exact Bool.noConfusion hn
  | start => trivial
  | numbered n old => trivial
  | done n => trivial

theorem number_of_stored {φ : HirePhase} {n : ℕ} (h : φ.stored = some n) : φ.number = some n := by
  cases φ <;> first | exact h | cases h

end HirePhase

/-- The row of an insertion. -/
def hired (firstName lastName email : Text) (now : Datetime) (n : ℕ) : Employee :=
  ⟨concatUserId firstName lastName n, firstName, lastName, email, some now⟩

/-- What the keys of `Employee` have against a new row. -/
theorem hired_clash (firstName lastName email : Text) (now : Datetime) (n : ℕ) (e : Employee) :
    (Employee.keys C).clash (hired firstName lastName email now n) e =
      (C.eq (concatUserId firstName lastName n) e.userId || C.eq email e.email) := by
  show (_ || _) = _
  rw [Unique.key_clash, Unique.key_clash]
  rfl

/-- An id that fits and an email, both free: the row is stored. -/
theorem storeEmployee_eq {firstName lastName email : Text} (now : Datetime) {n : ℕ} {s : State C}
    (hlen : (concatUserId firstName lastName n).length ≤ 32)
    (hfree : ∀ e ∈ s.employee.rows,
      C.eq (concatUserId firstName lastName n) e.userId = false ∧ C.eq email e.email = false) :
    ∃ T, storeEmployee now (some firstName) (some lastName) (some email) (some n) s =
        .ok { s with employee := T } ∧
      T.rows = s.employee.rows ++ [hired firstName lastName email now n] := by
  obtain ⟨T, hT, hrows⟩ := Table.insert_eq_ok (T := s.employee) (a := hired firstName lastName email now n) (by
    intro e he
    rw [hired_clash, Bool.or_eq_false_iff]
    exact hfree e he)
  refine ⟨T, ?_, hrows⟩
  have huser : ((Option.map₂ concatUserId (some firstName) (some lastName)).bind fun f => (some n).map f).mapM
      (varchar 32 "user_id") = .ok (some (concatUserId firstName lastName n)) := mapM_varchar hlen
  unfold hired at hT
  unfold storeEmployee storeRow
  rw [huser]
  simp only [ok_bind, notNull, hT]
  rfl

/-- The count of a name is its last number, and no live row has a later one. -/
theorem run_numbered (ops : List Op) (firstName lastName : Text) :
    let s := run ops (.empty : State C)
    let m := s.lastNumber firstName lastName
    s.maxValue (some (concatName firstName lastName)) = (if m = 0 then none else some m) ∧
      ∀ e ∈ s.employee.rows, ∀ n, m < n → C.eq (concatUserId firstName lastName n) e.userId = false := by
  have hh := numbered_history C ops
  have htables := history_tables C ops
  intro s m
  have hm : m = ((history C ops).issuesOf (concatName firstName lastName)).length := by
    rw [← hh.next, htables]; rfl
  constructor
  · have hcount := hh.count (concatName firstName lastName)
    rw [htables] at hcount
    rw [hcount, hm]
    simp only [List.length_eq_zero_iff]
  · intro e he n hn
    have hlive := hh.live
    rw [htables] at hlive
    obtain ⟨j, hj, rfl⟩ := List.getElem_of_mem he
    have hj' : j < (history C ops).origins.length := hlive.length_eq ▸ hj
    obtain ⟨row, hrow, hid, -⟩ := hlive.get hj hj'
    obtain ⟨k, hk, hrows⟩ := hh.number (hh.origins.subset (List.getElem_mem hj'))
    rw [List.get_eq_getElem, hrows, List.mem_singleton] at hrow
    subst hrow
    rw [Bool.eq_false_iff]
    intro heq
    -- an equal id has the same name and the same number
    obtain ⟨hname, hnk⟩ := concatUserId_inj (Collation.trans heq hid)
    have hsame : (history C ops).issuesOf (concatName firstName lastName) = _ := issuesOf_congr _ hname
    rw [hm, hsame] at hn
    unfold Issue.name at hk
    omega

/-- The sessions are in the phases `φ`, and the count of the name is `k`. -/
structure Hiring (s : State C) (firstName lastName : Text) (email : ι → Text) (now : ι → Datetime) (k : ℕ)
    (φ : ι → HirePhase) (P : Pool ι Stmt (State C) Unit) : Prop where
  session : ∀ i, P.session i = (φ i).prog firstName lastName (email i) (now i)
  count : P.tables.maxValue (some (concatName firstName lastName)) = if k = 0 then none else some k
  knows : ∀ i, (φ i).Knows k
  assigned : Store.Assigned (s.lastNumber firstName lastName) k (HirePhase.number ∘ φ)
  rows : ∀ e, e ∈ P.tables.employee.rows ↔
    e ∈ s.employee.rows ∨ ∃ i n, (φ i).stored = some n ∧ e = hired firstName lastName (email i) (now i) n

section Hiring

variable [DecidableEq ι] {firstName lastName : Text} {email : ι → Text} {now : ι → Datetime} {k : ℕ}
  {φ : ι → HirePhase} {P : Pool ι Stmt (State C) Unit} {i : ι}

theorem stored_update {ψ : HirePhase} (h : ψ.stored = (φ i).stored) (j : ι) :
    (Function.update φ i ψ j).stored = (φ j).stored := by
  by_cases hj : j = i
  · rw [hj, Function.update_self, h]
  · rw [Function.update_of_ne hj]

/-- The session has looked at the count. -/
theorem Hiring.look (h : Hiring s firstName lastName email now k φ P) {ψ : HirePhase}
    (hstep : (P.session i).step P.tables = some (ψ.prog firstName lastName (email i) (now i), P.tables))
    (hk : ψ.Knows k) (hn : ψ.number = (φ i).number) (hs : ψ.stored = (φ i).stored) :
    ∃ k φ, Hiring s firstName lastName email now k φ (P.step i) := by
  rw [Pool.step_phase h.session hstep]
  refine ⟨k, Function.update φ i ψ, fun _ => rfl, h.count, ?_, ?_, ?_⟩
  · rw [Function.forall_update_iff φ fun _ χ => χ.Knows k]
    exact ⟨hk, fun j _ => h.knows j⟩
  · rw [Function.comp_update, hn]
    have hself : Function.update (HirePhase.number ∘ φ) i (φ i).number = HirePhase.number ∘ φ :=
      Function.update_eq_self i (HirePhase.number ∘ φ)
    rw [hself]
    exact h.assigned
  · intro e
    simp only [stored_update hs]
    exact h.rows e

/-- The session has written the count. -/
theorem Hiring.write (h : Hiring s firstName lastName email now k φ P) {T : State C} {old : Option ℕ}
    (hstep : (P.session i).step P.tables =
      some ((HirePhase.numbered (k + 1) old).prog firstName lastName (email i) (now i), T))
    (hT : Counted P.tables T (concatName firstName lastName) (k + 1)) (hn : (φ i).number = none)
    (hw : (P.session i).next.any Stmt.writesCount = true) (hi : Exclusive P i) :
    ∃ k φ, Hiring s firstName lastName email now k φ (P.step i) := by
  have hs : (HirePhase.numbered (k + 1) old).stored = (φ i).stored := by
    rcases hst : (φ i).stored with _ | n
    · rfl
    · rw [HirePhase.number_of_stored hst] at hn; cases hn
  rw [Pool.step_phase h.session hstep]
  refine ⟨k + 1, Function.update φ i (.numbered (k + 1) old), fun _ => rfl, ?_, ?_, ?_, ?_⟩
  · show T.maxValue _ = _
    rw [hT.maxValue, if_pos (Collation.eq_self _), if_neg (Nat.succ_ne_zero k)]
  · rw [Function.forall_update_iff φ fun _ χ => χ.Knows (k + 1)]
    refine ⟨trivial, ?_⟩
    intro j hj
    have hno := hi hw j hj
    rw [h.session j] at hno
    exact (h.knows j).succ hno
  · rw [Function.comp_update]
    exact h.assigned.next hn
  · intro e
    simp only [stored_update hs]
    show e ∈ T.employee.rows ↔ _
    rw [hT.employee]
    exact h.rows e

/-- The session has stored its row. -/
theorem Hiring.store (h : Hiring s firstName lastName email now k φ P) {T : State C} {n : ℕ} {old : Option ℕ}
    (hφ : φ i = .numbered n old)
    (hstep : (P.session i).step P.tables =
      some ((HirePhase.done n).prog firstName lastName (email i) (now i), T))
    (hcount : ∀ p, T.maxValue p = P.tables.maxValue p)
    (hrows : T.employee.rows = P.tables.employee.rows ++ [hired firstName lastName (email i) (now i) n]) :
    ∃ k φ, Hiring s firstName lastName email now k φ (P.step i) := by
  rw [Pool.step_phase h.session hstep]
  refine ⟨k, Function.update φ i (.done n), fun _ => rfl, (hcount _).trans h.count, ?_, ?_, ?_⟩
  · rw [Function.forall_update_iff φ fun _ χ => χ.Knows k]
    exact ⟨trivial, fun j _ => h.knows j⟩
  · have hself : Function.update (HirePhase.number ∘ φ) i (HirePhase.done n).number = HirePhase.number ∘ φ := by
      rw [Function.update_eq_self_iff, Function.comp_apply, hφ]
      rfl
    rw [Function.comp_update, hself]
    exact h.assigned
  · intro e
    show e ∈ T.employee.rows ↔ _
    rw [hrows, List.mem_append, List.mem_singleton, h.rows e, or_assoc]
    refine or_congr_right ?_
    constructor
    · rintro (⟨j, n', hj, he⟩ | he)
      · have hji : j ≠ i := by
          rintro rfl
          rw [hφ] at hj
          cases hj
        exact ⟨j, n', by rw [Function.update_of_ne hji]; exact hj, he⟩
      · exact ⟨i, n, by rw [Function.update_self]; rfl, he⟩
    · rintro ⟨j, n', hj, he⟩
      by_cases hji : j = i
      · rw [hji, Function.update_self] at hj
        cases hj
        exact .inr (hji ▸ he)
      · rw [Function.update_of_ne hji] at hj
        exact .inl ⟨j, n', hj, he⟩

/-- The first count is written. -/
theorem Hiring.step_creating (h : Hiring s firstName lastName email now k φ P) (hφ : φ i = .creating)
    (hi : Exclusive P i) : ∃ k φ, Hiring s firstName lastName email now k φ (P.step i) := by
  have hk : k = 0 := by
    have := h.knows i
    rwa [hφ] at this
  subst hk
  have hnone : P.tables.maxValue (some (concatName firstName lastName)) = none := h.count
  obtain ⟨T, hT⟩ := insertCount_eq_ok hnone
  have hprog :
      P.session i = (Proc.exec .insertCount (insertCount (some (concatName firstName lastName))) >>= fun _ =>
        (HirePhase.numbered 1 none).prog firstName lastName (email i) (now i)) := by
    rw [h.session i, hφ]; rfl
  have hstep : (P.session i).step P.tables =
      some ((HirePhase.numbered (0 + 1) none).prog firstName lastName (email i) (now i), T) := by
    rw [hprog, Proc.step_exec_bind, hT]
  exact h.write hstep (insertCount_ok hnone hT) (by rw [hφ]; rfl) (by rw [hprog]; rfl) hi

/-- The count is written. -/
theorem Hiring.step_counted (h : Hiring s firstName lastName email now k φ P) {c : ℕ} (hφ : φ i = .counted c)
    (hi : Exclusive P i) : ∃ k φ, Hiring s firstName lastName email now k φ (P.step i) := by
  obtain ⟨hk, rfl⟩ : 0 < k ∧ c = k + 1 := by
    have := h.knows i
    rwa [hφ] at this
  have hsome : P.tables.maxValue (some (concatName firstName lastName)) = some k := by
    rw [h.count, if_neg (by omega)]
  obtain ⟨T, hT, -⟩ := updateCount_rows (concatName firstName lastName) (k + 1) P.tables
  have hstep : (P.session i).step P.tables =
      some ((HirePhase.numbered (k + 1) (some k)).prog firstName lastName (email i) (now i),
        { P.tables with userPrefixCount := T }) := by
    rw [h.session i, hφ, HirePhase.prog]
    simp only [Proc.step, hT, Except.map, hsome]
    rfl
  exact h.write hstep (updateCount_ok hsome hT) (by rw [hφ]; rfl) (by rw [h.session i, hφ]; rfl) hi

variable [Fintype ι]

/-- The test whether there is a count. -/
theorem Hiring.step_start (ha : Admissible s firstName lastName email)
    (h : Hiring s firstName lastName email now k φ P) (hφ : φ i = .start) :
    ∃ k φ, Hiring s firstName lastName email now k φ (P.step i) := by
  have hex : P.tables.existed (some (concatName firstName lastName)) = decide (0 < k) := by
    rw [existed_eq_isSome, h.count]
    by_cases hk : k = 0
    · rw [if_pos hk, hk]; rfl
    · rw [if_neg hk, decide_eq_true (Nat.pos_of_ne_zero hk)]; rfl
  have hstep : (P.session i).step P.tables = some
      ((if 0 < k then HirePhase.reading else .creating).prog firstName lastName (email i) (now i), P.tables) := by
    rw [h.session i, hφ, HirePhase.prog, hire_eq ha, Proc.step_query_bind, hex]
    by_cases hk : 0 < k
    · rw [if_pos hk, decide_eq_true hk]; rfl
    · rw [if_neg hk, decide_eq_false hk]; rfl
  refine h.look hstep ?_ ?_ ?_
  · split
    · assumption
    · exact Nat.eq_zero_of_not_pos ‹_›
  · rw [hφ]; split <;> rfl
  · rw [hφ]; split <;> rfl

/-- The count is read. -/
theorem Hiring.step_reading (ha : Admissible s firstName lastName email)
    (h : Hiring s firstName lastName email now k φ P) (hφ : φ i = .reading) :
    ∃ k φ, Hiring s firstName lastName email now k φ (P.step i) := by
  have hk : 0 < k := by
    have := h.knows i
    rwa [hφ] at this
  have hlt := h.assigned.lt (i := i) (by rw [Function.comp_apply, hφ]; rfl)
  have hcount := ha.count
  have hint : ((P.tables.maxValue (some (concatName firstName lastName))).map (· + 1)).mapM (int "count") =
      .ok (some (k + 1)) := by
    rw [h.count, if_neg (by omega)]
    exact mapM_eq_ok_some.2 ⟨k + 1, rfl, int_eq_ok.2 ⟨by omega, rfl⟩⟩
  have hstep : (P.session i).step P.tables =
      some ((HirePhase.counted (k + 1)).prog firstName lastName (email i) (now i), P.tables) := by
    have hprog : P.session i = (Proc.query .selectMaxValue (fun s : State C =>
        ((s.maxValue (some (concatName firstName lastName))).map (· + 1)).mapM (int "count")) >>= fun count =>
        Proc.stmt .updateCount (fun s =>
          (updateCount (some (concatName firstName lastName)) count s).map fun s' =>
            (s.maxValue (some (concatName firstName lastName)), s'))
        (storeOrRestore (now i) (some firstName) (some lastName) (some (email i))
          (some (concatName firstName lastName)) count)) := by
      rw [h.session i, hφ]; rfl
    rw [hprog, Proc.step_query_bind, hint]
    rfl
  exact h.look hstep ⟨hk, rfl⟩ (by rw [hφ]; rfl) (by rw [hφ]; rfl)

/-- The row is stored. -/
theorem Hiring.step_numbered (ha : Admissible s firstName lastName email)
    (hold : ∀ e ∈ s.employee.rows, ∀ n, s.lastNumber firstName lastName < n →
      C.eq (concatUserId firstName lastName n) e.userId = false)
    (h : Hiring s firstName lastName email now k φ P) {n : ℕ} {old : Option ℕ} (hφ : φ i = .numbered n old) :
    ∃ k φ, Hiring s firstName lastName email now k φ (P.step i) := by
  have hnum : (HirePhase.number ∘ φ) i = some n := by rw [Function.comp_apply, hφ]; rfl
  obtain ⟨hlt, hle⟩ := (h.assigned.numbers n).1 ⟨i, hnum⟩
  have hcard : k ≤ s.lastNumber firstName lastName + Fintype.card ι := by
    have := h.assigned.card
    have := Finset.card_le_univ (Finset.univ.filter fun i => ((HirePhase.number ∘ φ) i).isSome)
    omega
  -- neither an old row nor the row of another session has the id or the email
  have hfree : ∀ e ∈ P.tables.employee.rows,
      C.eq (concatUserId firstName lastName n) e.userId = false ∧ C.eq (email i) e.email = false := by
    intro e he
    rcases (h.rows e).1 he with he | ⟨j, n', hj, rfl⟩
    · exact ⟨hold e he n hlt, ha.fresh i e he⟩
    · have hji : j ≠ i := by
        rintro rfl
        rw [hφ] at hj
        cases hj
      refine ⟨?_, ha.different i j hji.symm⟩
      rw [Bool.eq_false_iff]
      intro heq
      obtain ⟨-, rfl⟩ := concatUserId_inj heq
      exact hji (h.assigned.inj j i n (HirePhase.number_of_stored hj) hnum)
  obtain ⟨T, hstore, hrows⟩ := storeEmployee_eq (now i) (ha.ids n hlt (by omega)) hfree
  have hstep : (P.session i).step P.tables =
      some ((HirePhase.done n).prog firstName lastName (email i) (now i), { P.tables with employee := T }) := by
    rw [h.session i, hφ, HirePhase.prog]
    show Proc.step (Proc.stmt Stmt.insertEmployee _ _) _ = _
    simp only [Proc.step, hstore]
    rfl
  exact h.store hφ hstep (fun _ => rfl) hrows

/-- **One step.** -/
theorem Hiring.step (ha : Admissible s firstName lastName email)
    (hold : ∀ e ∈ s.employee.rows, ∀ n, s.lastNumber firstName lastName < n →
      C.eq (concatUserId firstName lastName n) e.userId = false)
    (h : Hiring s firstName lastName email now k φ P) (hi : Exclusive P i) :
    ∃ k φ, Hiring s firstName lastName email now k φ (P.step i) := by
  match hφ : φ i with
  | .start => exact h.step_start ha hφ
  | .reading => exact h.step_reading ha hφ
  | .creating => exact h.step_creating hφ hi
  | .counted c => exact h.step_counted hφ hi
  | .numbered n old => exact h.step_numbered ha hold hφ
  | .done n =>
    have hend : (P.session i).next = none := by rw [h.session i, hφ]; rfl
    rw [Pool.step_ended hend]
    exact ⟨k, φ, h⟩

end Hiring

/-- A session that has ended has stored its row. -/
theorem Hiring.done [Fintype ι] {firstName lastName : Text} {email : ι → Text} {now : ι → Datetime} {k : ℕ}
    {φ : ι → HirePhase} {P : Pool ι Stmt (State C) Unit} {i : ι} (ha : Admissible s firstName lastName email)
    (h : Hiring s firstName lastName email now k φ P) (hend : (P.session i).next = none) :
    ∃ n, φ i = .done n := by
  rw [h.session i] at hend
  match hφ : φ i with
  | .done n => exact ⟨n, rfl⟩
  | .start =>
    rw [hφ, HirePhase.prog, hire_eq ha] at hend
    cases hend
  | .reading | .creating | .counted c | .numbered n old =>
    rw [hφ] at hend
    cases hend

/-- **Concurrent hires of namesakes.** From every state that statements on `Employee` can
reach, and for every schedule of the steps in which a session writes the count only while
no other session is between its look at the count and its own write: when all have ended,
all have succeeded, and their rows have the next numbers of the name, one each. -/
theorem namesakes_hired [Fintype ι] [DecidableEq ι] (ops : List Op) (firstName lastName : Text) (email : ι → Text)
    (now : ι → Datetime) (sched : List ι) (s : State C) (hs : s = run ops .empty)
    (ha : Admissible s firstName lastName email)
    (hx : Along Pool.step Exclusive (hires firstName lastName email now s) sched)
    (hend : ((hires firstName lastName email now s).run sched).Finished) :
    let P := (hires firstName lastName email now s).run sched
    let m := s.lastNumber firstName lastName
    ∃ number : ι → ℕ, (∀ i, (P.session i).returned = some ()) ∧
      (∀ e, e ∈ P.tables.employee.rows ↔
        e ∈ s.employee.rows ∨ ∃ i, e = hired firstName lastName (email i) (now i) (number i)) ∧
      (∀ i j, i ≠ j →
        C.eq (concatUserId firstName lastName (number i)) (concatUserId firstName lastName (number j)) = false) ∧
      (∀ n, (∃ i, number i = n) ↔ m < n ∧ n ≤ m + Fintype.card ι) ∧
      P.tables.lastNumber firstName lastName = m + Fintype.card ι := by
  intro P m
  obtain ⟨hcount, hold⟩ :
      s.maxValue (some (concatName firstName lastName)) = (if m = 0 then none else some m) ∧ _ :=
    hs ▸ run_numbered ops firstName lastName
  have hstart :
      Hiring s firstName lastName email now m (fun _ => .start) (hires firstName lastName email now s) := by
    refine ⟨fun _ => rfl, hcount, fun _ => trivial, Store.Assigned.start m, fun e => ?_⟩
    simp [hires, HirePhase.stored]
  obtain ⟨k, φ, h⟩ : ∃ k φ, Hiring s firstName lastName email now k φ P :=
    Along.inv (I := fun P => ∃ k φ, Hiring s firstName lastName email now k φ P)
      (fun P i ⟨_, _, h⟩ hi => h.step ha hold hi) sched _ ⟨m, _, hstart⟩ hx
  choose number hnumber using fun i => h.done ha (hend i)
  have hnum : ∀ i, (HirePhase.number ∘ φ) i = some (number i) := by
    intro i; rw [Function.comp_apply, hnumber i]; rfl
  have hk : k = m + Fintype.card ι := by
    rw [h.assigned.card]
    simp only [hnum, Option.isSome_some, Finset.filter_true, Finset.card_univ]
    rfl
  refine ⟨number, ?_, ?_, ?_, ?_, ?_⟩
  · intro i
    rw [h.session i, hnumber i]
    rfl
  · intro e
    refine (h.rows e).trans (or_congr_right (exists_congr fun i => ?_))
    simp [hnumber i, HirePhase.stored]
  · intro i j hij
    rw [Bool.eq_false_iff]
    intro heq
    obtain ⟨-, hn⟩ := concatUserId_inj heq
    exact hij (h.assigned.inj i j (number i) (hnum i) (hn ▸ hnum j))
  · intro n
    rw [← hk, ← h.assigned.numbers n]
    simp only [hnum, Option.some.injEq]
  · show (P.tables.maxValue _).getD 0 = _
    rw [h.count, ← hk]
    split
    · rename_i h0; rw [h0]; rfl
    · rfl

/-- Two sessions that hire namesakes, with emails of `ec1_test.sql`. -/
def smithEmails : Fin 2 → Text := ![ "js1@statcounter.com".toList, "js2@statcounter.com".toList]

/-- A namesake that is there already. -/
def thirdSmith : Op :=
  .insert 0 ⟨none, some "John".toList, some "Smith".toList, some "js3@statcounter.com".toList, none⟩

theorem smiths_admissible {s : State asciiCi} (hm : s.lastNumber "John".toList "Smith".toList ≤ 1)
    (hfresh : ∀ i, ∀ e ∈ s.employee.rows, asciiCi.eq (smithEmails i) e.email = false) :
    Admissible s "John".toList "Smith".toList smithEmails := by
  refine ⟨?_, ?_, by decide +kernel, by decide +kernel, hfresh⟩
  · intro n hlt hle
    rw [Fintype.card_fin] at hle
    have hn : n = 1 ∨ n = 2 ∨ n = 3 := by omega
    rcases hn with rfl | rfl | rfl <;> decide +kernel
  · rw [Fintype.card_fin]
    omega

theorem smiths_admissible_first :
    Admissible (run [] (.empty : State asciiCi)) "John".toList "Smith".toList smithEmails :=
  smiths_admissible (by decide +kernel) nofun

theorem smiths_admissible_later :
    Admissible (run [thirdSmith] (.empty : State asciiCi)) "John".toList "Smith".toList smithEmails :=
  smiths_admissible (by decide +kernel) (by decide +kernel)

/-- The second session tests for the count when the first one has made it, and both rows
are stored after both numbers are written. -/
theorem namesakes_hired_first_use :
    let P := (hires "John".toList "Smith".toList smithEmails (fun _ => 0) (run [] (.empty : State asciiCi))).run
      [0, 0, 1, 1, 1, 1, 0]
    (∀ i, (P.session i).returned = some ()) ∧ P.tables.lastNumber "John".toList "Smith".toList = 2 := by
  obtain ⟨_, hret, -, -, -, hlast⟩ := namesakes_hired [] "John".toList "Smith".toList smithEmails (fun _ => 0)
    [0, 0, 1, 1, 1, 1, 0] _ rfl smiths_admissible_first (by decide +kernel)
      (by unfold Pool.Finished; decide +kernel)
  exact ⟨hret, hlast⟩

/-- Both sessions find no count, and the second one cannot make it; or both read the same
count, and the second one cannot store its row. -/
theorem namesakes_collide :
    (Admissible (run [] (.empty : State asciiCi)) "John".toList "Smith".toList smithEmails ∧
      let P := (hires "John".toList "Smith".toList smithEmails (fun _ => 0) (run [] (.empty : State asciiCi))).run
        [0, 1, 0, 1, 0]
      P.Finished ∧ (P.session 1).returned = none) ∧
    (Admissible (run [thirdSmith] (.empty : State asciiCi)) "John".toList "Smith".toList smithEmails ∧
      let P := (hires "John".toList "Smith".toList smithEmails (fun _ => 0)
        (run [thirdSmith] (.empty : State asciiCi))).run [0, 1, 0, 1, 0, 1, 0, 1]
      P.Finished ∧ (P.session 1).returned = none) :=
  ⟨⟨smiths_admissible_first, by unfold Pool.Finished; decide +kernel, by decide +kernel⟩,
    smiths_admissible_later, by unfold Pool.Finished; decide +kernel, by decide +kernel⟩

end Coms4111.Staff
