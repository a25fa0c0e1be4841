import Coms4111.Sql.Concat
import Coms4111.Proof.Outcomes

/-!
# Generated unis

`generate_uni` numbers a uni by counting the unis that match its stem. The number is
free as long as no uni has a greater one than the count of its stem (`Numbered`).

* `generateUni_free`: so it is along every run in which the stems of new unis do not end
  in a digit and have no `\`, and in which no deletion takes a number below the last.
* `generated_uni_taken`: the second of two namesakes is left after the first one is
  deleted, and the next one is given the same uni.
* `unis_numbered_in_order`: if nobody is deleted and names are of ASCII letters, the `k`-th
  person with the same four letters gets the number `k`.
-/

namespace Coms4111.School

open Sql

variable {S : Server} {s s' : State S}

/-- A stem that can be told from the number after it, and that its own pattern matches. -/
def CleanStem (stem : Text) : Prop := '\\' ∉ stem ∧ ∀ h : stem ≠ [], (stem.getLast h).isDigit = false

/-- No uni has a greater number than its stem is counted. -/
def Numbered (s : State S) : Prop :=
  ∀ stem, CleanStem stem → ∀ p ∈ s.person.rows, ∀ n,
    S.eq p.uni (stem ++ Nat.toDigits 10 n) = true → n ≤ s.uniCount stem

/-- What a run must not do: store a person whose stem is not clean, or delete a person
while, for a stem that its uni matches, somebody else has the last number. A deletion that fails
deletes nobody. -/
def KeepsNumbers (s : State S) : Op → Prop
  | .insert _ lastName firstName => ∀ l f, lastName = some l → firstName = some f → CleanStem (uniStem S l f)
  | .delete k uni => ((Op.delete k uni).proc.run s).1 = .ok () →
      ∀ p ∈ s.person.rows, S.eqN (some p.uni) uni = true → ∀ stem, CleanStem stem →
        S.like (stem ++ ['%']) p.uni = true → ∀ q ∈ s.person.rows, q ≠ p →
          S.eq q.uni (stem ++ Nat.toDigits 10 (s.uniCount stem)) = false
  | _ => True

theorem uniCount_append {p : Person} (h : s'.person.rows = s.person.rows ++ [p]) (stem : Text) :
    s'.uniCount stem = s.uniCount stem + if S.like (stem ++ ['%']) p.uni then 1 else 0 := by
  unfold State.uniCount
  rw [h, length_filter_concat]

theorem uniCount_renamed {uni : Option Text} {l f : Text}
    (h : s'.person.rows = s.person.rows.map (renamed S uni l f)) (stem : Text) :
    s'.uniCount stem = s.uniCount stem := by
  unfold State.uniCount
  rw [h, List.filter_map, List.length_map]
  congr 1
  apply List.filter_congr
  intro p _
  simp

/-- A deletion takes at most one uni from a count. -/
theorem uniCount_delete {uni : Option Text}
    (h : s'.person.rows = s.person.rows.filter fun p => !S.eqN (some p.uni) uni) (stem : Text) :
    s.uniCount stem ≤ s'.uniCount stem + 1 ∧
      ((∀ p ∈ s.person.rows, S.eqN (some p.uni) uni = true → S.like (stem ++ ['%']) p.uni = false) →
        s.uniCount stem = s'.uniCount stem) := by
  have hsplit :=
    List.length_eq_length_filter_add (l := s.person.rows.filter fun p => S.like (stem ++ ['%']) p.uni)
      fun p => S.eqN (some p.uni) uni
  have hrest : s'.uniCount stem = ((s.person.rows.filter fun p => S.like (stem ++ ['%']) p.uni).filter
      fun p => !S.eqN (some p.uni) uni).length := by
    unfold State.uniCount; rw [h, List.filter_filter, List.filter_filter]
    congr 2; funext p; exact Bool.and_comm _ _
  have hone : ((s.person.rows.filter fun p => S.like (stem ++ ['%']) p.uni).filter
      fun p => S.eqN (some p.uni) uni).length ≤ 1 := by
    refine (List.Sublist.length_le (List.Sublist.filter _ List.filter_sublist)).trans
      (s.person.filter_le_one ?_)
    intro p q hp hq
    rw [Unique.key_clash]
    cases uni with
    | none => cases hp
    | some v => exact Collation.trans hp (Collation.symm hq)
  unfold State.uniCount at hrest ⊢
  refine ⟨by omega, fun hno => ?_⟩
  have hnil : ((s.person.rows.filter fun p => S.like (stem ++ ['%']) p.uni).filter
      fun p => S.eqN (some p.uni) uni) = [] := by
    rw [List.filter_eq_nil_iff]
    intro p hp he
    obtain ⟨hp, hlike⟩ := List.mem_filter.1 hp
    rw [hno p hp he] at hlike; cases hlike
  rw [hnil, List.length_nil] at hsplit
  omega

/-- A new uni has the number of its own count. -/
theorem Numbered.append (hs : Numbered s) {l f u : Text} {p : Person}
    (hu : generateUni s (some l) (some f) = some u) (hclean : CleanStem (uniStem S l f)) (hp : p.uni = u)
    (hrows : s'.person.rows = s.person.rows ++ [p]) :
    Numbered s' := by
  obtain ⟨_, _, hl, hf, hu⟩ := generateUni_some hu
  cases hl; cases hf
  intro stem hstem q hq n he
  rw [uniCount_append hrows]
  rw [hrows, List.mem_append, List.mem_singleton] at hq
  rcases hq with hq | rfl
  · have := hs stem hstem q hq n he; omega
  · rw [hp, hu] at he ⊢
    obtain ⟨hw, hn⟩ := numeral_inj hclean.2 hstem.2 he
    have hlike : ∀ t, S.like (stem ++ ['%']) t = S.like (uniStem S l f ++ ['%']) t := fun t =>
      Collation.like_pattern_congr hstem.1 hclean.1 hw.symm t
    have hcount : s.uniCount stem = s.uniCount (uniStem S l f) := by
      unfold State.uniCount; simp only [hlike]
    rw [hlike, Collation.like_self hclean.1, if_pos rfl, hcount]
    omega

theorem Numbered.same (hs : Numbered s) (h : s'.person = s.person) : Numbered s' := by
  unfold Numbered State.uniCount at *
  rw [h]; exact hs

theorem Numbered.renamed (hs : Numbered s) {uni : Option Text} {l f : Text}
    (h : s'.person.rows = s.person.rows.map (renamed S uni l f)) : Numbered s' := by
  intro stem hstem p hp n he
  rw [h, List.mem_map] at hp
  obtain ⟨p₀, hp₀, rfl⟩ := hp
  rw [renamed_uni] at he
  rw [uniCount_renamed h]
  exact hs stem hstem p₀ hp₀ n he

theorem Outcome.numbered {op : Op} {out : Except SqlError Unit} (hs : Numbered s) (hop : KeepsNumbers s op)
    (hout : out = (op.proc.run s).1) (h : Outcome s op out s') : Numbered s' := by
  cases h with
  | insertRefused | updateRefused | deleteRefused | sectionRefused | participantRefused => exact hs
  | insertHalf hu _ hrows => exact hs.append hu.1 (hop _ _ rfl rfl) rfl hrows
  | insertDone hu _ hrows => exact hs.append hu.1 (hop _ _ rfl rfl) rfl hrows
  | updateHalf _ _ _ hrows => exact hs.renamed hrows
  | updateDone _ _ hrows => exact hs.renamed hrows
  | @deleteHalf k uni => exact hs.same (deleteSub_sameBut k uni s).person
  | @deleteDone k uni _ _ _ hrows _ _ =>
    intro stem hstem p hp n he
    obtain ⟨hle, hsame⟩ := uniCount_delete hrows stem
    rw [hrows] at hp
    obtain ⟨hp, hpu⟩ := List.mem_filter.1 hp
    have hn := hs stem hstem p hp n he
    by_cases hex : ∃ d ∈ s.person.rows, S.eqN (some d.uni) uni = true ∧ S.like (stem ++ ['%']) d.uni = true
    · -- the number that is lost is not the last one
      obtain ⟨d, hd, hdu, hlike⟩ := hex
      have hne : n ≠ s.uniCount stem := by
        rintro rfl
        have hpd : p ≠ d := by
          rintro rfl; simp [hdu] at hpu
        rw [hop hout.symm d hd hdu stem hstem hlike p hp hpd] at he; cases he
      omega
    · rw [← hsame]
      · exact hn
      · intro d hd hdu
        rw [Bool.eq_false_iff]
        intro hlike
        exact hex ⟨d, hd, hdu, hlike⟩
  | sectionDone | participantDone | participantDeleted => exact hs

/-- **A generated uni is free**, in every state of a run that keeps its numbers, for
every name whose stem is clean. -/
theorem generateUni_free (s : State S) (ops : List Op)
    (hops : Along (fun s op => op.run s) KeepsNumbers s.cleared ops) (l f u : Text)
    (hclean : CleanStem (uniStem S l f)) (hu : generateUni (run ops s.cleared) (some l) (some f) = some u) :
    ∀ p ∈ (run ops s.cleared).person.rows, S.eq p.uni u = false := by
  have hs := (run_keeps (I := Numbered) (fun _ hs hop hout h => h.numbered hs hop hout) (foreignKeys_cleared s)
    (fun stem _ p hp => by simp [State.cleared, Table.empty] at hp) hops).2
  obtain ⟨_, _, hl, hf, rfl⟩ := generateUni_some hu
  cases hl; cases hf
  intro p hp
  rw [Bool.eq_false_iff]
  intro he
  have := hs _ hclean p hp _ he
  omega

/-- After a deletion that leaves nobody of the same stem. -/
theorem generateUni_free_after_delete : ((run [
      .insert (.student (some "cs".toList) (some "2016".toList)) (some "peters".toList) (some "justin".toList),
      .delete .student (some "peju1".toList),
      .insert (.student (some "cs".toList) (some "2017".toList)) (some "perez".toList) (some "julia".toList)]
      (State.empty : State asciiServer).cleared).person.rows.any fun p => asciiServer.eq p.uni "PEJU2".toList) =
    false := by
  have hclean : CleanStem "PEJU".toList := by unfold CleanStem; decide
  have hinsert : ∀ (s : State asciiServer) (year : String) (lastName firstName : String),
      uniStem asciiServer lastName.toList firstName.toList = "PEJU".toList → KeepsNumbers s
        (.insert (.student (some "cs".toList) (some year.toList)) (some lastName.toList)
          (some firstName.toList)) := by
    intro s year lastName firstName hstem l f hl hf
    cases hl; cases hf
    rw [hstem]; exact hclean
  rw [List.any_eq_false]
  intro p hp
  rw [Bool.not_eq_true]
  refine generateUni_free (S := asciiServer) .empty _ ?_ "Peck".toList "Jude".toList _ hclean (by decide) p hp
  refine ⟨hinsert _ "2016" "peters" "justin" (by decide), ?_,
    hinsert _ "2017" "perez" "julia" (by decide), trivial⟩
  -- nobody else is there
  intro _ p hp _ stem _ _ q hq hne
  have hrows : (Op.run (.insert (.student (some "cs".toList) (some "2016".toList)) (some "peters".toList)
      (some "justin".toList)) (State.empty : State asciiServer).cleared).person.rows =
      [⟨"PEJU1".toList, "peters".toList, "justin".toList, "Student".toList⟩] := by decide
  rw [hrows, List.mem_singleton] at hp hq
  exact absurd (hq.trans hp.symm) hne

/-- The first of two namesakes is deleted: the count is one, and the number two is taken. -/
theorem generated_uni_taken : ∃ u, generateUni (run [
      .insert (.student (some "cs".toList) (some "2016".toList)) (some "peters".toList) (some "justin".toList),
      .insert (.student (some "cs".toList) (some "2017".toList)) (some "perez".toList) (some "julia".toList),
      .delete .student (some "peju1".toList)] (State.empty : State asciiServer).cleared)
      (some "Peck".toList) (some "Jude".toList) = some u ∧
    ¬∀ p ∈ (run [
      .insert (.student (some "cs".toList) (some "2016".toList)) (some "peters".toList) (some "justin".toList),
      .insert (.student (some "cs".toList) (some "2017".toList)) (some "perez".toList) (some "julia".toList),
      .delete .student (some "peju1".toList)] (State.empty : State asciiServer).cleared).person.rows,
      asciiServer.eq p.uni u = false :=
  ⟨"PEJU2".toList, by decide, by decide⟩

/-! ## Without deletions -/

/-- A call of `insert_student` or `insert_faculty`. -/
structure NewPerson where
  sub : Sub
  lastName : Text
  firstName : Text

namespace NewPerson

def op (c : NewPerson) : Op := .insert c.sub (some c.lastName) (some c.firstName)

/-- The first two letters of last and first name, in upper case. -/
def letters (c : NewPerson) : Text := (c.lastName.take 2 ++ c.firstName.take 2).map Char.toUpper

/-- Names that consist of ASCII letters, at least two each. -/
structure Lettered (c : NewPerson) : Prop where
  lastName : 2 ≤ c.lastName.length ∧ ∀ x ∈ c.lastName, x.isAlpha = true
  firstName : 2 ≤ c.firstName.length ∧ ∀ x ∈ c.firstName, x.isAlpha = true

variable {c d : NewPerson}

theorem Lettered.length_letters (hc : c.Lettered) : c.letters.length = 4 := by
  have h1 := hc.lastName.1
  have h2 := hc.firstName.1
  simp only [letters, List.length_map, List.length_append, List.length_take]
  omega

theorem Lettered.mem_letters (hc : c.Lettered) {y : Char} (hy : y ∈ c.letters) :
    ∃ x : Char, x.isAlpha = true ∧ y = x.toUpper := by
  obtain ⟨x, hx, rfl⟩ := List.mem_map.1 hy
  refine ⟨x, ?_, rfl⟩
  rcases List.mem_append.1 hx with hx | hx
  · exact hc.lastName.2 x (List.mem_of_mem_take hx)
  · exact hc.firstName.2 x (List.mem_of_mem_take hx)

theorem Lettered.map_toUpper (hc : c.Lettered) : c.letters.map Char.toUpper = c.letters := by
  conv_rhs => rw [← List.map_id' c.letters]
  apply List.map_congr_left
  intro y hy
  obtain ⟨x, hx, rfl⟩ := hc.mem_letters hy
  exact (toUpper_letter hx).2.1

end NewPerson

theorem initials_letters (hupper : ∀ x : Char, x.isAlpha = true → S.upper x = x.toUpper) {name : Text}
    (hname : ∀ x ∈ name, x.isAlpha = true) : initials S name = (name.take 2).map Char.toUpper := by
  have hmap : (name.take 2).map S.upper = (name.take 2).map Char.toUpper :=
    List.map_congr_left fun x hx => hupper x (hname x (List.mem_of_mem_take hx))
  unfold initials
  rw [hmap]
  apply rdropWhile_self
  intro hne
  rw [beq_eq_false_iff_ne]
  obtain ⟨x, hx, he⟩ := List.mem_map.1 (List.getLast_mem hne)
  rw [← he]
  exact (toUpper_letter (hname x (List.mem_of_mem_take hx))).2.2.2.2.2

theorem uniStem_letters (hupper : ∀ x : Char, x.isAlpha = true → S.upper x = x.toUpper) {c : NewPerson}
    (hc : c.Lettered) : uniStem S c.lastName c.firstName = c.letters := by
  unfold uniStem NewPerson.letters
  rw [initials_letters hupper hc.lastName.2, initials_letters hupper hc.firstName.2, List.map_append]

/-- A uni matches the pattern of four letters if it begins with them. -/
theorem like_letters {c d : NewPerson} (hc : c.Lettered) (hd : d.Lettered) (t : Text) :
    S.like (c.letters ++ ['%']) (d.letters ++ t) = true ↔ d.letters = c.letters := by
  have hplain : ∀ y ∈ c.letters, tokOf y = .lit y := by
    intro y hy
    obtain ⟨x, hx, rfl⟩ := hc.mem_letters hy
    obtain ⟨-, -, h1, h2, -⟩ := toUpper_letter hx
    simp only [tokOf, if_neg h1, if_neg h2]
  have hback : '\\' ∉ c.letters := by
    intro hy
    obtain ⟨x, hx, he⟩ := hc.mem_letters hy
    exact (toUpper_letter hx).2.2.2.2.1 he.symm
  rw [Collation.like_stem hplain hback, List.map_append]
  constructor
  · rintro ⟨r, hr⟩
    -- both are four letters
    have hlen : (c.letters.map S.weight).length = (d.letters.map S.weight).length := by
      rw [List.length_map, List.length_map, hc.length_letters, hd.length_letters]
    have halike : Alike S.weight c.letters d.letters := (List.append_inj hr hlen).1
    have hascii : ∀ {c : NewPerson}, c.Lettered → ∀ y ∈ c.letters, y.toNat < 128 := by
      intro c hc y hy
      obtain ⟨x, hx, rfl⟩ := hc.mem_letters hy
      exact (toUpper_letter hx).1
    have := Collation.map_toUpper_eq (hascii hc) (hascii hd) halike
    rw [hc.map_toUpper, hd.map_toUpper] at this
    exact this.symm
  · intro h
    rw [h]
    exact List.prefix_append _ _

/-- What the tables have after the calls `done`. -/
structure Counted (s : State S) (done : List NewPerson) : Prop where
  person : s.person.rows.length = done.length
  sub : ∀ k, (s.subUnis k).length = done.countP fun d => d.sub.kind = k
  letters : ∀ c : NewPerson, c.Lettered → s.uniCount c.letters = done.countP fun d => d.letters = c.letters

/-- The uni of the person `c`, inserted after the persons `done`. -/
def NewPerson.uniAfter (c : NewPerson) (done : List NewPerson) : Text :=
  c.letters ++ Nat.toDigits 10 ((done.countP fun d => d.letters = c.letters) + 1)

/-- **One call** stores the person and its row under the next number of its letters. -/
theorem Counted.call (hupper : ∀ x : Char, x.isAlpha = true → S.upper x = x.toUpper) {done : List NewPerson}
    {c : NewPerson} (hs : Counted s done) (hfk : ForeignKeys s) (hc : c.Lettered)
    (hok : (c.op.proc.run s).1 = .ok ()) :
    (c.op.run s).person.rows =
        s.person.rows ++ [⟨c.uniAfter done, c.lastName, c.firstName, c.sub.kind.type⟩] ∧
      (c.op.run s).subUnis c.sub.kind = s.subUnis c.sub.kind ++ [c.uniAfter done] ∧
      Counted (c.op.run s) (done ++ [c]) := by
  have hout := op_outcome hfk c.op
  rw [hok] at hout
  cases hout with
  | @insertDone _ _ _ u s' hu _ hrows hsub hother _ =>
    obtain ⟨_, _, hl, hf, hu⟩ := generateUni_some hu.1
    cases hl; cases hf
    have huni : u = c.uniAfter done := by
      rw [hu, uniStem_letters hupper hc, hs.letters c hc]; rfl
    rw [huni] at hrows hsub
    refine ⟨hrows, hsub, ?_, ?_, ?_⟩
    · rw [hrows, List.length_append, List.length_append, hs.person]; rfl
    · intro k
      rw [List.countP_append, List.countP_singleton, ← hs.sub k]
      rcases Kind.eq_or_other c.sub.kind k with rfl | rfl
      · rw [hsub, List.length_append]; simp
      · rw [hother, if_neg (by cases c.sub.kind <;> decide), Nat.add_zero]
    · intro d hd
      rw [uniCount_append hrows, List.countP_append, List.countP_singleton, hs.letters d hd]
      congr 1
      simp only [NewPerson.uniAfter, like_letters hd hc, decide_eq_true_eq]

/-- The tables after a run of successful calls. -/
theorem counted_run (hupper : ∀ x : Char, x.isAlpha = true → S.upper x = x.toUpper) (s : State S)
    (calls : List NewPerson) (hnames : ∀ c ∈ calls, c.Lettered)
    (hok : Along (fun s op => op.run s) (fun s op => (op.proc.run s).1 = .ok ()) s.cleared
      (calls.map NewPerson.op)) :
    ForeignKeys (run (calls.map NewPerson.op) s.cleared) ∧
      Counted (run (calls.map NewPerson.op) s.cleared) calls := by
  induction calls using List.reverseRecOn with
  | nil =>
    refine ⟨foreignKeys_cleared s, rfl, ?_, ?_⟩
    · intro k; cases k <;> rfl
    · intro c _; rfl
  | append_singleton calls c ih =>
    rw [List.map_append, List.map_singleton] at hok ⊢
    obtain ⟨hcalls, hcall⟩ := along_concat.1 hok
    obtain ⟨hfk, hcount⟩ := ih (fun d hd => hnames d (List.mem_append_left _ hd)) hcalls
    have hrun : run (calls.map NewPerson.op ++ [c.op]) s.cleared =
        c.op.run (run (calls.map NewPerson.op) s.cleared) := List.foldl_append ..
    rw [hrun]
    exact ⟨(op_outcome hfk c.op).foreignKeys hfk,
      (hcount.call hupper hfk (hnames c (List.mem_append_right _ List.mem_cons_self)) hcall).2.2⟩

theorem Outcome.insert_grows {c : Sub} {lastName firstName : Option Text} {out : Except SqlError Unit}
    (h : Outcome s (.insert c lastName firstName) out s') :
    s.person.rows <+: s'.person.rows ∧ ∀ k, s.subUnis k <+: s'.subUnis k := by
  cases h with
  | insertRefused => exact ⟨List.prefix_refl _, fun k => List.prefix_refl _⟩
  | @insertHalf _ _ _ _ _ T _ _ hrows =>
    refine ⟨by rw [hrows]; exact List.prefix_append _ _, fun k => ?_⟩
    rw [subUnis_person T s k]
  | insertDone _ _ hrows hsub hother =>
    refine ⟨by rw [hrows]; exact List.prefix_append _ _, fun k => ?_⟩
    rcases Kind.eq_or_other c.kind k with rfl | rfl
    · rw [hsub]; exact List.prefix_append _ _
    · rw [hother]

/-- Calls of the two procedures only add rows, at the end. -/
theorem rows_grow (hs : ForeignKeys s) (calls : List NewPerson) :
    s.person.rows <+: (run (calls.map NewPerson.op) s).person.rows ∧
      ∀ k, s.subUnis k <+: (run (calls.map NewPerson.op) s).subUnis k := by
  induction calls generalizing s with
  | nil => exact ⟨List.prefix_refl _, fun k => List.prefix_refl _⟩
  | cons c calls ih =>
    have hout := op_outcome hs c.op
    obtain ⟨hperson, hsub⟩ := ih (hout.foreignKeys hs)
    have hstep := hout.insert_grows
    exact ⟨hstep.1.trans hperson, fun k => (hstep.2 k).trans (hsub k)⟩

/-- **Unis are numbered in order.** In a run of successful calls of `insert_student` and
`insert_faculty` from an empty `Person`, with names of ASCII letters, whoever comes after
the persons `before` gets its four letters and, as number, how many have had them so far,
itself included: in `Person`, and in the row of its derived entity. -/
theorem unis_numbered_in_order (hupper : ∀ x : Char, x.isAlpha = true → S.upper x = x.toUpper) (s : State S)
    (before : List NewPerson) (c : NewPerson) (after : List NewPerson)
    (hnames : ∀ d ∈ before ++ c :: after, d.Lettered)
    (hok : Along (fun s op => op.run s) (fun s op => (op.proc.run s).1 = .ok ()) s.cleared
      ((before ++ c :: after).map NewPerson.op)) :
    let s' := run ((before ++ c :: after).map NewPerson.op) s.cleared
    let u := c.letters ++ Nat.toDigits 10 ((before.countP fun d => d.letters = c.letters) + 1)
    s'.person.rows[before.length]? = some ⟨u, c.lastName, c.firstName, c.sub.kind.type⟩ ∧
      (s'.subUnis c.sub.kind)[before.countP fun d => d.sub.kind = c.sub.kind]? = some u := by
  intro s' u
  rw [List.map_append, List.map_cons] at hok
  obtain ⟨hbefore, hcall, -⟩ := along_append.1 hok
  obtain ⟨hfk, hcount⟩ := counted_run hupper s before (fun d hd => hnames d (List.mem_append_left _ hd)) hbefore
  obtain ⟨hrows, hsub, -⟩ :=
    hcount.call hupper hfk (hnames c (List.mem_append_right _ List.mem_cons_self)) hcall
  obtain ⟨⟨r, hr⟩, hsubs⟩ := rows_grow ((op_outcome hfk c.op).foreignKeys hfk) after
  obtain ⟨q, hq⟩ := hsubs c.sub.kind
  have hs' : s' = run (after.map NewPerson.op) (c.op.run (run (before.map NewPerson.op) s.cleared)) := by
    show run _ _ = _
    rw [List.map_append, List.map_cons]
    exact List.foldl_append ..
  rw [hs', ← hr, ← hq, hrows, hsub, ← hcount.person, ← hcount.sub c.sub.kind]
  constructor
  · simp [NewPerson.uniAfter, u]
  · simp [NewPerson.uniAfter, u]

/-- Two students and a faculty member: the second of the two `PEJU`. -/
theorem unis_numbered_second_peju :
    let peters : NewPerson := ⟨.student (some "cs".toList) (some "2016".toList), "peters".toList, "justin".toList⟩
    let lewis : NewPerson := ⟨.faculty (some "1".toList) (some "professor".toList) (some "cs".toList),
      "Lewis".toList, "Deirdre".toList⟩
    let perez : NewPerson := ⟨.student (some "cs".toList) (some "2017".toList), "Perez".toList, "julia".toList⟩
    let s := run ([peters, lewis, perez].map NewPerson.op) (State.empty : State asciiServer).cleared
    s.person.rows[2]? = some ⟨"PEJU2".toList, "Perez".toList, "julia".toList, "Student".toList⟩ ∧
      (s.subUnis .student)[1]? = some "PEJU2".toList := by
  intro peters lewis perez s
  have hnames : ∀ d ∈ [peters, lewis] ++ perez :: [], d.Lettered := by
    intro d hd
    simp only [List.cons_append, List.nil_append, List.mem_cons, List.not_mem_nil, or_false] at hd
    rcases hd with rfl | rfl | rfl
    · exact ⟨⟨by decide, List.all_eq_true.1 (by decide)⟩, by decide, List.all_eq_true.1 (by decide)⟩
    · exact ⟨⟨by decide, List.all_eq_true.1 (by decide)⟩, by decide, List.all_eq_true.1 (by decide)⟩
    · exact ⟨⟨by decide, List.all_eq_true.1 (by decide)⟩, by decide, List.all_eq_true.1 (by decide)⟩
  have h := unis_numbered_in_order (S := asciiServer) (fun _ _ => rfl) .empty [peters, lewis] perez [] hnames
    (by decide)
  have hu : perez.letters ++ Nat.toDigits 10 (([peters, lewis].countP fun d => d.letters = perez.letters) + 1) =
      "PEJU2".toList := by decide
  rw [← hu]
  exact h

end Coms4111.School
