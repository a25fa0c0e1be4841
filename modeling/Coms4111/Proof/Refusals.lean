import Coms4111.Proof.Hiring

/-!
# When an insertion of an employee is refused

The trigger joins the two names and a number with dots, and stores them in a variable and
a column that are no longer than each of the names may be.

* `insertion_accepted_iff`: in every state of every run, an insertion succeeds exactly if
  the email is free, the new id fits its column and the number fits its variable.
* `refused_for_email_only_iff`: so a taken email is the only reason for a refusal
  **exactly if** the email is taken or the other two conditions hold.
-/

namespace Coms4111.Staff

open Sql

variable {C : Collation} {s s' : State C} {now : Datetime} {firstName lastName email : Text}

/-- No live employee has the email. -/
def State.freeEmail (s : State C) (email : Text) : Prop := ∀ e ∈ s.employee.rows, C.eq email e.email = false

/-- The id with the next number of the name fits its column, and the number its variable. -/
def State.NextFits (s : State C) (firstName lastName : Text) : Prop :=
  (concatUserId firstName lastName (s.lastNumber firstName lastName + 1)).length ≤ 32 ∧
    s.lastNumber firstName lastName + 1 < 2 ^ 31

/-- Where an id fits, its name does. -/
theorem length_concatName_le (firstName lastName : Text) (n : ℕ) :
    (concatName firstName lastName).length ≤ (concatUserId firstName lastName n).length := by
  unfold concatUserId
  simp only [List.length_append]
  omega

/-- The row is stored exactly if its id fits and neither the id nor the email is taken. -/
theorem storeEmployee_ok_iff {n : ℕ} :
    (∃ s', storeEmployee now (some firstName) (some lastName) (some email) (some n) s = .ok s') ↔
      (concatUserId firstName lastName n).length ≤ 32 ∧
        (∀ e ∈ s.employee.rows, C.eq (concatUserId firstName lastName n) e.userId = false) ∧
          s.freeEmail email := by
  constructor
  · rintro ⟨s', h⟩
    unfold storeEmployee storeRow at h
    simp only [bind_eq_ok, notNull_eq_ok] at h
    obtain ⟨u, hu, u', rfl, _, hf, _, hl, _, he, T, hT, -⟩ := h
    cases hf; cases hl; cases he
    obtain ⟨_, hw, hvar⟩ := mapM_eq_ok_some.1 hu
    cases hw
    obtain ⟨hlen, hid⟩ := varchar_numeral.1 hvar
    have hid : u' = concatUserId firstName lastName n := hid
    subst hid
    have hno := (Table.insert_ok hT).2
    have hapart : ∀ e ∈ s.employee.rows, C.eq (concatUserId firstName lastName n) e.userId = false ∧
        C.eq email e.email = false := by
      intro e he
      have hne := hno e he
      rw [← Bool.or_eq_false_iff, ← hired_clash]
      exact hne
    exact ⟨hlen, fun e he => (hapart e he).1, fun e he => (hapart e he).2⟩
  · rintro ⟨hlen, hid, hfree⟩
    obtain ⟨T, hT, -⟩ := storeEmployee_eq now hlen fun e he => ⟨hid e he, hfree e he⟩
    exact ⟨_, hT⟩

/-- With values that fit their columns, the insertion is its trigger and its row. -/
theorem insertEmployee_ok_iff (hf : firstName.length ≤ 32) (hl : lastName.length ≤ 32) (he : email.length ≤ 32)
    (created : Option Datetime) :
    (∃ s', (insertEmployee now ⟨none, some firstName, some lastName, some email, created⟩).atomic s = .ok s') ↔
      ∃ name, (some (concatName firstName lastName)).mapM (varchar 32 "prefix_name") = .ok name ∧
        ∃ count s₁, (nextCount name (s.existed name)).run s = (.ok count, s₁) ∧
          ∃ s', storeEmployee now (some firstName) (some lastName) (some email) count s₁ = .ok s' := by
  have hrun : (insertEmployee now ⟨none, some firstName, some lastName, some email, created⟩).run s =
      (triggerInsertEmployee (some firstName) (some lastName) >>= fun userId =>
        Proc.exec .insertEmployee (storeRow now userId (some firstName) (some lastName) (some email))).run s := by
    unfold insertEmployee
    simp only [mapM_varchar hf, mapM_varchar hl, mapM_varchar he]
    rfl
  simp only [Proc.atomic_eq_ok, hrun, triggerInsertEmployee_run]
  have hname : Option.map₂ concatName (some firstName) (some lastName) =
      some (concatName firstName lastName) := rfl
  rw [hname]
  rcases (some (concatName firstName lastName)).mapM (varchar 32 "prefix_name") with e | name
  · simp
  rcases hnext : (nextCount name (s.existed name)).run s with ⟨e | count, s₁⟩
  · simp [hnext]
  rcases hst : storeEmployee now (some firstName) (some lastName) (some email) count s₁ with e | s'
  · simp [hnext, hst]
  · simp [hnext, hst]

/-- The trigger writes down the next number, if it fits its variable. -/
theorem nextCount_run (hcount : s.maxValue (some (concatName firstName lastName)) =
      if s.lastNumber firstName lastName = 0 then none else some (s.lastNumber firstName lastName))
    (hlt : s.lastNumber firstName lastName + 1 < 2 ^ 31) :
    ∃ s₁, (nextCount (some (concatName firstName lastName))
      (s.existed (some (concatName firstName lastName)))).run s =
      (.ok (some (s.lastNumber firstName lastName + 1)), s₁) := by
  rw [existed_eq_isSome, hcount]
  by_cases hm : s.lastNumber firstName lastName = 0
  · rw [if_pos hm] at hcount ⊢
    obtain ⟨s₁, hs₁⟩ := insertCount_eq_ok hcount
    refine ⟨s₁, ?_⟩
    show (Proc.exec Stmt.insertCount (insertCount _) >>= fun _ => Proc.ret (some 1)).run s = _
    rw [Proc.run_exec_bind, hs₁, hm]
    rfl
  · rw [if_neg hm] at hcount ⊢
    obtain ⟨T, hT, -⟩ := updateCount_rows (concatName firstName lastName) (s.lastNumber firstName lastName + 1) s
    refine ⟨{ s with userPrefixCount := T }, ?_⟩
    have hint : ((s.maxValue (some (concatName firstName lastName))).map (· + 1)).mapM (int "count") =
        .ok (some (s.lastNumber firstName lastName + 1)) := by
      rw [hcount]
      exact mapM_eq_ok_some.2 ⟨_, rfl, int_eq_ok.2 ⟨hlt, rfl⟩⟩
    show (Proc.query Stmt.selectMaxValue (fun s : State C =>
      ((s.maxValue (some (concatName firstName lastName))).map (· + 1)).mapM (int "count")) >>= fun count =>
        Proc.exec Stmt.updateCount (updateCount (some (concatName firstName lastName)) count) >>= fun _ =>
          Proc.ret count).run s = _
    rw [Proc.run_query_bind, hint]
    simp only [Proc.run_exec_bind, hT, Proc.run_ret]

/-- **When an insertion succeeds**, in every state of every run. -/
theorem insertion_accepted_iff (ops : List Op) (now : Datetime) (hf : firstName.length ≤ 32)
    (hl : lastName.length ≤ 32) (he : email.length ≤ 32) (created : Option Datetime) :
    (∃ s', (insertEmployee now ⟨none, some firstName, some lastName, some email, created⟩).atomic
        (run ops (.empty : State C)) = .ok s') ↔
      (run ops (.empty : State C)).NextFits firstName lastName ∧
        (run ops (.empty : State C)).freeEmail email := by
  obtain ⟨hcount, hids⟩ := run_numbered (C := C) ops firstName lastName
  set s := run ops (.empty : State C)
  rw [insertEmployee_ok_iff hf hl he created]
  constructor
  · rintro ⟨name, hname, count, s₁, hnext, hstored⟩
    -- a row without a number would have no id
    obtain ⟨n, rfl⟩ : ∃ n, count = some n := by
      cases count with
      | none =>
        obtain ⟨s', hs'⟩ := hstored
        cases hs'
      | some n => exact ⟨n, rfl⟩
    obtain ⟨hlen, -, hfree⟩ := storeEmployee_ok_iff.1 hstored
    have hshort := (length_concatName_le firstName lastName _).trans hlen
    rw [mapM_varchar hshort] at hname
    cases hname
    obtain ⟨hn, hlt, hcounted⟩ := nextCount_ok hnext
    have hnum : n = s.lastNumber firstName lastName + 1 := hn
    unfold State.freeEmail at hfree
    rw [hcounted.employee] at hfree
    rw [hnum] at hlen hlt
    exact ⟨⟨hlen, hlt⟩, hfree⟩
  · rintro ⟨⟨hlen, hlt⟩, hfree⟩
    have hshort := (length_concatName_le firstName lastName _).trans hlen
    obtain ⟨s₁, hs₁⟩ := nextCount_run hcount hlt
    obtain ⟨-, -, hcounted⟩ := nextCount_ok hs₁
    refine ⟨_, mapM_varchar hshort, _, s₁, hs₁, storeEmployee_ok_iff.2 ⟨hlen, ?_, ?_⟩⟩
    · rw [hcounted.employee]
      exact fun e he => hids e he _ (Nat.lt_succ_self _)
    · unfold State.freeEmail
      rw [hcounted.employee]
      exact hfree

/-- The insertion is refused for a taken email only, and a refused one changes nothing. -/
structure RefusedForEmailOnly (s : State C) (now : Datetime) (firstName lastName email : Text)
    (created : Option Datetime) : Prop where
  accepted : (∃ s', (Op.insert now ⟨none, some firstName, some lastName, some email, created⟩).exec s = .ok s') ↔
    s.freeEmail email
  unchanged : ∀ e, (Op.insert now ⟨none, some firstName, some lastName, some email, created⟩).exec s = .error e →
    Op.run s (.insert now ⟨none, some firstName, some lastName, some email, created⟩) = s

/-- **A taken email is the only reason for a refusal**, in a state of a run, if and only if
it is taken or the next id and the next number fit. -/
theorem refused_for_email_only_iff (C : Collation) (ops : List Op) (now : Datetime)
    (firstName lastName email : Text) (created : Option Datetime) (hf : firstName.length ≤ 32)
    (hl : lastName.length ≤ 32) (he : email.length ≤ 32) :
    RefusedForEmailOnly (run ops (.empty : State C)) now firstName lastName email created ↔
      ((run ops (.empty : State C)).freeEmail email →
        (run ops (.empty : State C)).NextFits firstName lastName) := by
  have hiff := insertion_accepted_iff (C := C) ops now hf hl he created
  constructor
  · intro h hfree
    exact (hiff.1 (h.accepted.2 hfree)).1
  · intro h
    refine ⟨?_, ?_⟩
    · refine hiff.trans ⟨fun hok => hok.2, fun hfree => ⟨h hfree, hfree⟩⟩
    · intro e hexec
      unfold Op.run
      rw [hexec]

/-- A third namesake, after the first one has left. -/
theorem refused_for_email_only_smith :
    let john (email : String) : Op :=
      .insert 0 ⟨none, some "John".toList, some "Smith".toList, some email.toList, none⟩
    let s := run [john "js1", john "js2", .delete fun e => e.email == "js1".toList] (.empty : State asciiCi)
    s.employee.rows.map Employee.userId = ["John.Smith.2".toList] ∧
      RefusedForEmailOnly s 0 "john".toList "smith".toList "js1".toList none :=
  ⟨by decide +kernel,
    (refused_for_email_only_iff asciiCi _ 0 "john".toList "smith".toList "js1".toList none (by decide) (by decide)
      (by decide)).2 fun _ => ⟨by decide +kernel, by decide +kernel⟩⟩

/-- Names of 16 and 14 characters fit their columns; with the dots and the number they
are 33. -/
theorem long_names_refused :
    (∀ e ∈ (run [] (.empty : State asciiCi)).employee.rows, asciiCi.eq "cw1".toList e.email = false) ∧
      ¬RefusedForEmailOnly (run [] (.empty : State asciiCi)) 0 "Christopherlynne".toList "Wolfeschlegels".toList
        "cw1".toList none := by
  have hfree : (run [] (.empty : State asciiCi)).freeEmail "cw1".toList := nofun
  refine ⟨hfree, fun h => ?_⟩
  obtain ⟨s', hs'⟩ := h.accepted.2 hfree
  have hfail :
      ((Op.insert 0 ⟨none, some "Christopherlynne".toList, some "Wolfeschlegels".toList, some "cw1".toList,
    none⟩).exec (run [] (.empty : State asciiCi))).toBool = false := by decide +kernel
  rw [hs'] at hfail
  cases hfail

end Coms4111.Staff
