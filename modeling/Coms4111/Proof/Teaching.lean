import Coms4111.Proof.Sections

/-!
# The teaching limit along runs

Along **every** run, also with failing calls, nobody of type `Faculty` takes part in more
than three sections of one semester (`teaching_limit`). The trigger counts the
participations of the uni in the semester; the invariant `Teaching` says that there are at
most three of them, and `sectionsOf_le` that there are as many as sections.
-/

namespace Coms4111.School

open Sql

variable {S : Server} {s s' : State S}

/-- The participation is in a section of the semester. -/
def State.inSemester (s : State S) (year : ℤ) (semester : Text) (q : Participant) : Bool :=
  (s.sectionAt (some q.sectionCallNo)).any fun c => c.year == year && S.eq c.semester semester

/-- The participations of the uni in the semester. -/
def State.taught (s : State S) (u : Text) (year : ℤ) (semester : Text) : List Participant :=
  s.participant.rows.filter fun q => S.eq q.uni u && s.inSemester year semester q

/-- The sections of the semester that the uni takes part in. -/
def State.sectionsOf (s : State S) (u : Text) (year : ℤ) (semester : Text) : List Section :=
  s.sections.rows.filter fun c => c.year == year && S.eq c.semester semester &&
    s.participant.rows.any fun q => S.eq q.uni u && S.eq q.sectionCallNo c.callNo

/-- What `faculty_limit` counts. -/
theorem facultyLimit_eq {u v : Text} {callNo : Option Text} {c : Section} (hv : varchar 11 "this_uni" u = .ok v)
    (hc : s.sectionAt callNo = some c) :
    facultyLimit (some u) callNo s = .ok (decide ((s.taught u c.year c.semester).length < 3)) := by
  unfold facultyLimit
  rw [mapM_eq_ok_some.2 ⟨u, rfl, hv⟩, hc]
  simp only [ok_bind, Option.map_some, pure, Except.pure]
  congr 3
  unfold State.taught
  congr 1
  apply List.filter_congr
  intro q _
  rw [Collation.eqN_some, Collation.eq_congr_right (varchar_eq hv)]
  unfold State.inSemester
  congr 1
  cases s.sectionAt (some q.sectionCallNo) with
  | none => rfl
  | some d =>
    simp only [Option.any_some, Collation.eqN_some]
    congr 1
    rw [Bool.eq_iff_iff, beq_iff_eq, beq_iff_eq, Option.some.injEq]
    exact eq_comm

theorem facultyLimit_true {u n : Text} {c : Section} (hc : c ∈ s.sections.rows) (he : S.eq c.callNo n = true)
    (h : facultyLimit (some u) (some n) s = .ok true) : (s.taught u c.year c.semester).length < 3 := by
  have hv : ∃ v, varchar 11 "this_uni" u = .ok v := by
    unfold facultyLimit at h
    rw [bind_eq_ok] at h
    obtain ⟨o, ho, -⟩ := h
    rcases mapM_eq_ok.1 ho with ⟨hn, -⟩ | ⟨_, v, hu, hv, rfl⟩
    · cases hn
    · cases hu; exact ⟨v, hv⟩
  obtain ⟨v, hv⟩ := hv
  rw [facultyLimit_eq hv (sectionAt_eq hc he)] at h
  simpa using h

/-- Every participant of type `Faculty` teaches at most three sections a semester. -/
def Teaching (s : State S) : Prop := ∀ q ∈ s.participant.rows, s.isKind .faculty q.uni = true →
  ∀ year semester, (s.taught q.uni year semester).length ≤ 3

theorem taught_congr {u v : Text} (h : S.eq u v = true) (s : State S) (year : ℤ) (semester : Text) :
    s.taught u year semester = s.taught v year semester := by
  unfold State.taught
  apply List.filter_congr
  intro q _
  rw [Collation.eq_congr_right h]

/-- Who takes part in no section teaches none. -/
theorem Teaching.all (hs : Teaching s) {u : Text} (hk : s.isKind .faculty u = true) (year : ℤ) (semester : Text) :
    (s.taught u year semester).length ≤ 3 := by
  by_cases hex : ∃ q ∈ s.participant.rows, S.eq q.uni u = true
  · -- the invariant speaks of the uni as the participant has it
    obtain ⟨q, hq, he⟩ := hex
    rw [← taught_congr he]
    exact hs q hq (by rw [isKind_congr he]; exact hk) year semester
  · have hnil : s.taught u year semester = [] := by
      unfold State.taught
      rw [List.filter_eq_nil_iff]
      intro q hq hc
      exact hex ⟨q, hq, (Bool.and_eq_true _ _ ▸ hc).1⟩
    rw [hnil]; simp

/-! ## One operation -/

/-- Participations are counted by the sections they are in. -/
theorem taught_same (hq : s'.participant = s.participant)
    (hat : ∀ r ∈ s.participant.rows, s'.sectionAt (some r.sectionCallNo) = s.sectionAt (some r.sectionCallNo))
    (u : Text) (year : ℤ) (semester : Text) : s'.taught u year semester = s.taught u year semester := by
  unfold State.taught
  rw [hq]
  apply List.filter_congr
  intro r hr
  unfold State.inSemester
  rw [hat r hr]

theorem taught_append (hc : s'.sections = s.sections) {q : Participant}
    (hq : s'.participant.rows = s.participant.rows ++ [q]) (u : Text) (year : ℤ) (semester : Text) :
    (s'.taught u year semester).length =
      (s.taught u year semester).length + if S.eq q.uni u && s.inSemester year semester q then 1 else 0 := by
  have hin : s'.inSemester year semester = s.inSemester year semester := by
    funext t; unfold State.inSemester State.sectionAt; rw [hc]
  unfold State.taught
  rw [hq, hin, length_filter_concat]

theorem taught_semester {m m' : Text} (h : S.eq m m' = true) (s : State S) (u : Text) (year : ℤ) :
    s.taught u year m = s.taught u year m' := by
  unfold State.taught
  apply List.filter_congr
  intro t _
  unfold State.inSemester
  congr 2; funext d
  rw [Collation.eq_congr_right h]

/-- A faculty member is admitted with fewer than three participations in the semester of
the section. -/
theorem Admits.taught_lt {now : Date} {p : Person} {q : Participant} {c : Section}
    (hadm : Admits s now p (some q.uni) (some q.sectionCallNo)) (hc : c ∈ s.sections.rows)
    (hcn : S.eq c.callNo q.sectionCallNo = true) (ht : S.eq p.type Kind.faculty.type = true) {year : ℤ}
    {semester : Text} (hin : s.inSemester year semester q = true) :
    (s.taught q.uni year semester).length < 3 := by
  have hlt := facultyLimit_true hc hcn (hadm.faculty ht)
  unfold State.inSemester at hin
  rw [sectionAt_eq hc hcn, Option.any_some, Bool.and_eq_true, beq_iff_eq] at hin
  obtain ⟨hy, hm⟩ := hin
  rw [hy, taught_semester hm] at hlt
  exact hlt

/-- **Every operation keeps the teaching limit.** -/
theorem Outcome.teaching {op : Op} {out : Except SqlError Unit} (hfk : ForeignKeys s) (hs : Teaching s)
    (h : Outcome s op out s') : Teaching s' := by
  have hkind := h.isKind_eq hfk .faculty
  rcases h.sections_cases with ⟨hq, hc⟩ | ⟨hq, c, _, _, _, _, _, _, -, hc, hno, -⟩ |
    ⟨hc, q, p, c, now, hq, hp, hpu, hcm, hcn, hadm, hper⟩ | ⟨hc, hq⟩
  · intro r hr hk year semester
    rw [hq] at hr
    rw [hkind r hr] at hk
    have hsame := taught_same hq (fun t _ => by unfold State.sectionAt; rw [hc]) r.uni year semester
    rw [hsame]; exact hs r hr hk year semester
  · intro r hr hk year semester
    rw [hq] at hr
    rw [hkind r hr] at hk
    -- the section of a participant was there before the new one
    have hat : ∀ t ∈ s.participant.rows, s'.sectionAt (some t.sectionCallNo) =
        s.sectionAt (some t.sectionCallNo) := by
      intro t ht
      obtain ⟨d, hd, he⟩ := hfk.sections t ht
      rw [sectionAt_eq hd he]
      exact sectionAt_eq (by rw [hc]; exact List.mem_append_left _ hd) he
    rw [taught_same hq hat]; exact hs r hr hk year semester
  · intro r hr hk year semester
    have hk : s.isKind .faculty r.uni = true := by unfold State.isKind at hk ⊢; rwa [hper] at hk
    rw [taught_append hc hq]
    split
    · -- the new participation counts: the trigger has counted the others
      rename_i hcond
      rw [Bool.and_eq_true] at hcond
      rw [← isKind_congr hcond.1] at hk
      have hlt := hadm.taught_lt hcm hcn (isKind_person hp hpu hk) hcond.2
      rw [taught_congr hcond.1] at hlt
      omega
    · exact hs.all hk year semester
  · intro r hr hk year semester
    have hr₀ := hq.subset hr
    rw [hkind r hr₀] at hk
    have hle : (s'.taught r.uni year semester).length ≤ (s.taught r.uni year semester).length := by
      unfold State.taught State.inSemester State.sectionAt
      rw [hc]; exact (hq.filter _).length_le
    exact hle.trans (hs r hr₀ hk year semester)

/-! ## Runs -/

/-- Every section counts once. -/
theorem sectionsOf_le (s : State S) (u : Text) (year : ℤ) (semester : Text) :
    (s.sectionsOf u year semester).length ≤ (s.taught u year semester).length := by
  have hnodup : ((s.sectionsOf u year semester).map fun c => S.key c.callNo).Nodup := by
    rw [List.Nodup, List.pairwise_map]
    refine (s.sections.unique.sublist List.filter_sublist).imp fun {c d} hcd he => ?_
    have hclash : ((Unique.key fun c : Section => S.key c.callNo).clash c d || _) = false := hcd
    rw [Unique.key_clash, Collation.eq_iff.2 he] at hclash
    cases hclash
  -- a section of the uni has a participation of the uni in it
  have hsub : (s.sectionsOf u year semester).map (fun c => S.key c.callNo) ⊆
      (s.taught u year semester).map fun q => S.key q.sectionCallNo := by
    intro w hw
    obtain ⟨c, hc, rfl⟩ := List.mem_map.1 hw
    obtain ⟨hcm, hcond⟩ := List.mem_filter.1 hc
    rw [Bool.and_eq_true, List.any_eq_true] at hcond
    obtain ⟨hsem, q, hq, hqc⟩ := hcond
    rw [Bool.and_eq_true] at hqc
    refine List.mem_map.2 ⟨q, List.mem_filter.2 ⟨hq, ?_⟩, Collation.eq_iff.1 hqc.2⟩
    rw [hqc.1, Bool.true_and]
    unfold State.inSemester
    rw [sectionAt_eq hcm (Collation.symm hqc.2)]
    exact hsem
  have := (List.subperm_of_subset hnodup hsub).length_le
  rwa [List.length_map, List.length_map] at this

/-- **The teaching limit**, in every state of every run: somebody of type `Faculty`
takes part in at most three sections of a year and semester. -/
theorem teaching_limit (s : State S) (ops : List Op) (p : Person) (hp : p ∈ (run ops s.cleared).person.rows)
    (ht : S.eq p.type Kind.faculty.type = true) (year : ℤ) (semester : Text) :
    ((run ops s.cleared).sectionsOf p.uni year semester).length ≤ 3 := by
  have hs := run_invariant (I := Teaching) (fun hfk hs h => h.teaching hfk hs) ops (foreignKeys_cleared s)
    (fun q hq => by simp [State.cleared, Table.empty] at hq)
  exact (sectionsOf_le _ p.uni year semester).trans
    (hs.all (isKind_iff.2 ⟨p, hp, S.eq_self _, ht⟩) year semester)

/-- Somebody with three sections, who is refused a fourth. -/
theorem teaching_limit_lewis :
    let section_ (callNo sectionNo : String) : Op :=
      .insertSection (some callNo.toList) (some "COMSE1006".toList) (some sectionNo.toList) (some 2017)
        (some "1".toList) none
    let teach (callNo : String) : Op := .insertParticipant ⟨2017, 10⟩ (some "lede1".toList) (some callNo.toList)
    let s := run [.insert (.faculty (some "1".toList) (some "professor".toList) (some "cs".toList))
        (some "Lewis".toList) (some "Deirdre".toList),
      section_ "00003" "1", section_ "00004" "2", section_ "00005" "3", section_ "00006" "4",
      teach "00003", teach "00004", teach "00005", teach "00006"] oneCourse.cleared
    (s.sectionsOf "LEDE1".toList 2017 "1".toList).map Section.callNo =
        ["00003".toList, "00004".toList, "00005".toList] ∧
      (s.sectionsOf "LEDE1".toList 2017 "1".toList).length ≤ 3 :=
  ⟨by decide +kernel, teaching_limit oneCourse _ ⟨"LEDE1".toList, "Lewis".toList, "Deirdre".toList,
    "Faculty".toList⟩ (by decide +kernel) (by decide) 2017 "1".toList⟩

end Coms4111.School
