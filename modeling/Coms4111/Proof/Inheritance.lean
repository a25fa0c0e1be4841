import Coms4111.Proof.Outcomes

/-!
# The inheritance is total and disjoint

`Person.type` says which derived entity a person belongs to.

* `run_typed`: along **every** run, also with failing calls, a row of a derived entity
  belongs to a person of its type.
* `inheritance_of_successes`: along runs of successful operations, every person has one
  row in the derived entity of its type and none in the other, and the two views
  together list every person once.
-/

namespace Coms4111.School

open Sql

variable {S : Server} {s s' : State S}

/-! ## Types -/

/-- Every person has one of the two types, and the rows of the derived entities belong
to persons of their type. -/
structure Typed (s : State S) : Prop where
  type : ∀ p ∈ s.person.rows, ∃ k : Kind, p.type = k.type
  sub : ∀ k, ∀ u ∈ s.subUnis k, ∀ p ∈ s.person.rows, S.eq p.uni u = true → p.type = k.type

/-- A person stored with a fresh uni. -/
theorem Typed.append (hfk : ForeignKeys s) (hs : Typed s) {u l f : Text} {k : Kind}
    (hu : s.hasPerson (some u) = false) (hrows : s'.person.rows = s.person.rows ++ [⟨u, l, f, k.type⟩])
    (hsub : ∀ k', ∀ v ∈ s'.subUnis k', v ∈ s.subUnis k' ∨ (v = u ∧ k' = k)) : Typed s' := by
  have hnot := hasPerson_eq_false.1 hu
  refine ⟨?_, ?_⟩
  · intro p hp
    rw [hrows, List.mem_append, List.mem_singleton] at hp
    rcases hp with hp | rfl
    · exact hs.type p hp
    · exact ⟨k, rfl⟩
  · intro k' v hv p hp he
    rw [hrows, List.mem_append, List.mem_singleton] at hp
    rcases hsub k' v hv with hv | ⟨rfl, rfl⟩
    · rcases hp with hp | rfl
      · exact hs.sub k' v hv p hp he
      · rw [Collation.eq_symm, hfk.no_sub hu k' v hv] at he; cases he
    · rcases hp with hp | rfl
      · rw [hnot p hp] at he; cases he
      · rfl

/-- No person is new and no row of a derived entity is new. -/
theorem Typed.shrink (hs : Typed s)
    (hp : ∀ p ∈ s'.person.rows, ∃ p₀ ∈ s.person.rows, p.uni = p₀.uni ∧ p.type = p₀.type)
    (hsub : ∀ k, ∀ u ∈ s'.subUnis k, u ∈ s.subUnis k) : Typed s' := by
  refine ⟨?_, ?_⟩
  · intro p hpm
    obtain ⟨p₀, hp₀, -, ht⟩ := hp p hpm
    rw [ht]; exact hs.type p₀ hp₀
  · intro k u hu p hpm he
    obtain ⟨p₀, hp₀, hun, ht⟩ := hp p hpm
    rw [ht]; exact hs.sub k u (hsub k u hu) p₀ hp₀ (hun ▸ he)

theorem mem_renamed {uni : Option Text} {l f : Text}
    (hrows : s'.person.rows = s.person.rows.map (renamed S uni l f)) :
    ∀ p ∈ s'.person.rows, ∃ p₀ ∈ s.person.rows, p.uni = p₀.uni ∧ p.type = p₀.type := by
  intro p hp
  rw [hrows, List.mem_map] at hp
  obtain ⟨p₀, hp₀, rfl⟩ := hp
  exact ⟨p₀, hp₀, renamed_uni uni l f p₀, renamed_type uni l f p₀⟩

theorem Outcome.typed {op : Op} {out : Except SqlError Unit} (hfk : ForeignKeys s) (hs : Typed s)
    (h : Outcome s op out s') : Typed s' := by
  cases h with
  | insertRefused | updateRefused | deleteRefused | sectionRefused | participantRefused => exact hs
  | insertHalf hu _ hrows =>
    exact hs.append hfk hu.2.2 hrows fun k' v hv => .inl (by rwa [subUnis_person] at hv)
  | insertDone hu _ hrows hnew hother _ =>
    exact hs.append hfk hu.2.2 hrows fun k' v hv => mem_subUnis_append hnew hother hv
  | updateHalf _ _ _ hrows =>
    exact hs.shrink (mem_renamed hrows) fun k u hu => by rwa [subUnis_person] at hu
  | updateDone _ _ hrows hsub _ => exact hs.shrink (mem_renamed hrows) fun k u hu => by rwa [hsub] at hu
  | @deleteHalf k uni =>
    refine hs.shrink (fun p hp => ⟨p, ?_, rfl, rfl⟩) fun k' u hu => mem_deleteSub hu
    rwa [(deleteSub_sameBut k uni s).person] at hp
  | deleteDone _ _ hrows hsub _ =>
    refine hs.shrink (fun p hp => ⟨p, ?_, rfl, rfl⟩) fun k' u hu => ?_
    · rw [hrows] at hp; exact List.mem_of_mem_filter hp
    · rw [hsub] at hu; exact mem_deleteSub hu
  | sectionDone | participantDone | participantDeleted => exact ⟨hs.type, hs.sub⟩

theorem typed_cleared (s : State S) : Typed s.cleared := by
  refine ⟨fun p hp => ?_, fun k u _ p hp => ?_⟩ <;> simp [State.cleared, Table.empty] at hp

/-- **Types are right in every reachable state**, also after calls that failed. -/
theorem run_typed (ops : List Op) (hfk : ForeignKeys s) (hs : Typed s) : Typed (run ops s) :=
  run_invariant (fun hfk hs h => h.typed hfk hs) ops hfk hs

/-! ## Successful runs -/

/-- Every person has a row in the derived entity of its type, and none in the other. -/
def Inherits (s : State S) : Prop :=
  ∀ p ∈ s.person.rows, ∃ k : Kind, p.type = k.type ∧ s.hasSub k (some p.uni) = true ∧
    s.hasSub k.other (some p.uni) = false

theorem hasSub_append {k : Kind} {u : Text} (h : s'.subUnis k = s.subUnis k ++ [u]) (v : Text) :
    s'.hasSub k (some v) = (s.hasSub k (some v) || S.eq u v) := by
  unfold State.hasSub; rw [h, List.any_append]; simp [Collation.eqN_some]

theorem hasSub_congr {k : Kind} (h : s'.subUnis k = s.subUnis k) (uni : Option Text) :
    s'.hasSub k uni = s.hasSub k uni := by
  unfold State.hasSub; rw [h]

/-- A deletion from a derived entity leaves the rows of other unis. -/
theorem hasSub_deleteSub {k : Kind} {uni : Option Text} {u : Text} (hu : S.eqN (some u) uni = false) (k' : Kind) :
    (deleteSub k uni s).hasSub k' (some u) = s.hasSub k' (some u) := by
  rcases Kind.eq_or_other k k' with rfl | rfl
  · unfold State.hasSub
    rw [deleteSub_subUnis, List.any_filter]
    congr 1
    funext v
    rw [Collation.eqN_some]
    by_cases he : S.eq v u = true
    · have hv : S.eqN (some v) uni = false := by
        cases uni with
        | none => rfl
        | some w => rw [Collation.eqN_some, Collation.eq_congr he]; exact hu
      rw [hv]; rfl
    · rw [Bool.eq_false_iff.2 he, Bool.and_false]
  · exact hasSub_congr (deleteSub_sameBut k uni s).other _

theorem Outcome.inherits {op : Op} (hfk : ForeignKeys s) (hs : Inherits s)
    (h : Outcome s op (.ok ()) s') : Inherits s' := by
  cases h with
  | @insertDone c l f u _ hu _ hrows hnew hother _ =>
    intro p hp
    rw [hrows, List.mem_append, List.mem_singleton] at hp
    rcases hp with hp | rfl
    · obtain ⟨k, ht, h1, h2⟩ := hs p hp
      have hne : S.eq u p.uni = false := by
        rw [Collation.eq_symm]; exact hasPerson_eq_false.1 hu.2.2 p hp
      have hsame : ∀ k, s'.hasSub k (some p.uni) = s.hasSub k (some p.uni) := by
        intro k
        rcases Kind.eq_or_other c.kind k with rfl | rfl
        · rw [hasSub_append hnew, hne, Bool.or_false]
        · exact hasSub_congr hother _
      exact ⟨k, ht, by rw [hsame, h1], by rw [hsame, h2]⟩
    · refine ⟨c.kind, rfl, ?_, ?_⟩
      · rw [hasSub_append hnew]; simp
      · rw [hasSub_congr hother, Bool.eq_false_iff, Ne, hasSub_iff]
        rintro ⟨v, hv, he⟩
        rw [hfk.no_sub hu.2.2 _ v hv] at he; cases he
  | updateDone _ _ hrows hsub _ =>
    intro p hp
    obtain ⟨p₀, hp₀, hun, ht⟩ := mem_renamed hrows p hp
    obtain ⟨k, ht₀, h1, h2⟩ := hs p₀ hp₀
    rw [hun, ht]
    exact ⟨k, ht₀, by rw [hasSub_congr (hsub k), h1], by rw [hasSub_congr (hsub _), h2]⟩
  | deleteDone _ _ hrows hsub _ =>
    intro p hp
    rw [hrows] at hp
    obtain ⟨hp, hne⟩ := List.mem_filter.1 hp
    obtain ⟨k', ht, h1, h2⟩ := hs p hp
    have hsame : ∀ k', s'.hasSub k' (some p.uni) = s.hasSub k' (some p.uni) := by
      intro k'
      rw [hasSub_congr (hsub k'), hasSub_deleteSub (by simpa using hne)]
    exact ⟨k', ht, by rw [hsame, h1], by rw [hsame, h2]⟩
  | sectionDone | participantDone | participantDeleted => exact hs

/-! ## What it means for the tables and the views -/

/-- How many rows the derived entity has for the uni. -/
def State.subCount (s : State S) (k : Kind) (u : Text) : ℕ := ((s.subUnis k).filter fun v => S.eq v u).length

/-- The person is of the kind `k`: by its type, and by the rows it has. -/
def IsA (s : State S) (k : Kind) (p : Person) : Prop :=
  S.eq p.type k.type = true ∧ s.subCount k p.uni = 1 ∧ s.subCount k.other p.uni = 0

/-- **The inheritance is total and disjoint.** -/
structure Inheritance (s : State S) : Prop where
  exactlyOne : ∀ p ∈ s.person.rows, Xor (IsA s .student p) (IsA s .faculty p)
  hasPerson : ∀ k, ∀ u ∈ s.subUnis k, s.hasPerson (some u) = true
  views : ((studentView s).map (fun v => S.key v.uni) ++ (facultyView s).map fun v => S.key v.uni).Perm
    (s.person.rows.map fun p => S.key p.uni)

/-- The two types compare different: their first letters do. -/
theorem type_eq_iff {k k' : Kind} : S.eq k.type k'.type = true ↔ k = k' := by
  have hne : ¬S.eq Kind.student.type Kind.faculty.type = true := by
    intro h
    rw [Collation.eq_iff, Collation.key_eq_map (by decide), Collation.key_eq_map (by decide)] at h
    have hw : S.weight 'S' = S.weight 'F' := (List.cons.inj h).1
    exact absurd ((S.ascii 'S' 'F' (by decide) (by decide)).1 hw) (by decide)
  cases k <;> cases k'
  · simp
  · simpa using hne
  · rw [Collation.eq_symm]; simpa using hne
  · simp

theorem keys_pairwise {α : Type} (f : α → Text) (T : Table α (Unique.key fun a => S.key (f a))) :
    (T.rows.map f).Pairwise fun u v => S.key u ≠ S.key v := by
  rw [List.pairwise_map]
  refine T.unique.imp fun {a b} hab he => ?_
  unfold Unique.Apart at hab
  rw [Unique.key_clash, Collation.eq_iff.2 he] at hab
  cases hab

theorem subUnis_pairwise (s : State S) (k : Kind) : (s.subUnis k).Pairwise fun u v => S.key u ≠ S.key v := by
  cases k with
  | student => exact keys_pairwise Student.uni s.student
  | faculty => exact keys_pairwise Faculty.uni s.faculty

theorem subCount_eq (s : State S) (k : Kind) (u : Text) :
    s.subCount k u = if s.hasSub k (some u) then 1 else 0 := by
  unfold State.subCount
  split
  · rename_i h
    obtain ⟨v, hv, he⟩ := hasSub_iff.1 h
    have hle := (subUnis_pairwise s k).sublist (List.filter_sublist (p := fun v => S.eq v u))
    have hmem : v ∈ (s.subUnis k).filter fun v => S.eq v u := List.mem_filter.2 ⟨hv, he⟩
    match hm : (s.subUnis k).filter fun v => S.eq v u with
    | [] => rw [hm] at hmem; cases hmem
    | [_] => rfl
    | a :: b :: l =>
      -- two rows with this uni would have the same key
      have ha : a ∈ (s.subUnis k).filter fun v => S.eq v u := by rw [hm]; simp
      have hb : b ∈ (s.subUnis k).filter fun v => S.eq v u := by rw [hm]; simp
      rw [hm] at hle
      refine absurd ?_ ((List.pairwise_cons.1 hle).1 b List.mem_cons_self)
      exact (Collation.eq_iff.1 (List.mem_filter.1 ha).2).trans (Collation.eq_iff.1 (List.mem_filter.1 hb).2).symm
  · rename_i h
    rw [List.length_eq_zero_iff, List.filter_eq_nil_iff]
    intro v hv he
    exact h (hasSub_iff.2 ⟨v, hv, he⟩)

/-- A join that finds one partner for each row. -/
theorem flatMap_one {α β γ : Type} (f : α → List β) (g : α → γ) : ∀ (l : List α), (∀ a ∈ l, (f a).length = 1) →
    (l.flatMap fun a => (f a).map fun _ => g a) = l.map g := by
  intro l
  induction l with
  | nil => intro _; rfl
  | cons a l ih =>
    intro h
    obtain ⟨b, hb⟩ := List.length_eq_one_iff.1 (h a List.mem_cons_self)
    rw [List.flatMap_cons, ih fun c hc => h c (List.mem_cons_of_mem _ hc), hb]
    rfl

/-- A uni that somebody has, one person has. -/
theorem person_filter_one {u : Text} (h : s.hasPerson (some u) = true) :
    (s.person.rows.filter fun p => S.eq p.uni u).length = 1 := by
  obtain ⟨p, hp, he⟩ := hasPerson_iff.1 h
  have hle := s.person.filter_le_one (p := fun p => S.eq p.uni u) (by
    intro a b ha hb
    rw [Unique.key_clash]
    exact Collation.trans ha (Collation.symm hb))
  have hmem : p ∈ s.person.rows.filter fun p => S.eq p.uni u := List.mem_filter.2 ⟨hp, he⟩
  have hpos := List.length_pos_of_mem hmem
  omega

/-- The views list the rows of their derived entities. -/
theorem views_unis (hfk : ForeignKeys s) : (studentView s).map StudentView.uni = s.subUnis .student ∧
    (facultyView s).map FacultyView.uni = s.subUnis .faculty := by
  constructor
  · unfold studentView
    rw [List.map_flatMap]
    simp only [List.map_map, Function.comp_def]
    exact flatMap_one _ _ _ fun r hr => person_filter_one (hfk.sub .student r.uni (List.mem_map_of_mem hr))
  · unfold facultyView
    rw [List.map_flatMap]
    simp only [List.map_map, Function.comp_def]
    exact flatMap_one _ _ _ fun r hr => person_filter_one (hfk.sub .faculty r.uni (List.mem_map_of_mem hr))

theorem Inherits.exactlyOne (hs : Inherits s) :
    ∀ p ∈ s.person.rows, Xor (IsA s .student p) (IsA s .faculty p) := by
  intro p hp
  obtain ⟨k, ht, h1, h2⟩ := hs p hp
  simp only [IsA, ht, type_eq_iff, subCount_eq]
  cases k with
  | student => left; exact ⟨⟨rfl, by rw [h1]; rfl, by rw [h2]; rfl⟩, fun h => by cases h.1⟩
  | faculty => right; exact ⟨⟨rfl, by rw [h1]; rfl, by rw [h2]; rfl⟩, fun h => by cases h.1⟩

/-- Nobody has a row in both derived entities. -/
theorem Inherits.disjoint (hfk : ForeignKeys s) (hs : Inherits s) {u v : Text} (hu : u ∈ s.subUnis .student)
    (hv : v ∈ s.subUnis .faculty) : S.key u ≠ S.key v := by
  intro heq
  obtain ⟨p, hp, he⟩ := hasPerson_iff.1 (hfk.sub .student u hu)
  have h1 : s.hasSub .student (some p.uni) = true := hasSub_iff.2 ⟨u, hu, Collation.symm he⟩
  have h2 : s.hasSub .faculty (some p.uni) = true :=
    hasSub_iff.2 ⟨v, hv, Collation.eq_iff.2 (heq.symm.trans (Collation.eq_iff.1 he).symm)⟩
  obtain ⟨k, -, -, h3⟩ := hs p hp
  cases k with
  | student => rw [show Kind.student.other = .faculty from rfl, h2] at h3; cases h3
  | faculty => rw [show Kind.faculty.other = .student from rfl, h1] at h3; cases h3

theorem Inherits.views (hfk : ForeignKeys s) (hs : Inherits s) :
    ((studentView s).map (fun v => S.key v.uni) ++ (facultyView s).map fun v => S.key v.uni).Perm
      (s.person.rows.map fun p => S.key p.uni) := by
  obtain ⟨hv1, hv2⟩ := views_unis hfk
  have hviews : (studentView s).map (fun v => S.key v.uni) ++ (facultyView s).map (fun v => S.key v.uni) =
      (s.subUnis .student).map S.key ++ (s.subUnis .faculty).map S.key := by
    rw [← hv1, ← hv2, List.map_map, List.map_map]; rfl
  have hsubs : ((s.subUnis .student).map S.key ++ (s.subUnis .faculty).map S.key).Nodup := by
    have hnodup : ∀ k, ((s.subUnis k).map S.key).Nodup := fun k => List.pairwise_map.2 (subUnis_pairwise s k)
    refine List.nodup_append.2 ⟨hnodup _, hnodup _, ?_⟩
    intro w hw w' hw'
    obtain ⟨u, hu, rfl⟩ := List.mem_map.1 hw
    obtain ⟨v, hv, rfl⟩ := List.mem_map.1 hw'
    exact hs.disjoint hfk hu hv
  have hperson : (s.person.rows.map fun p => S.key p.uni).Nodup := by
    have := keys_pairwise Person.uni s.person
    rw [List.pairwise_map] at this
    exact List.pairwise_map.2 this
  rw [hviews, List.perm_ext_iff_of_nodup hsubs hperson]
  intro w
  rw [List.mem_append, List.mem_map, List.mem_map, List.mem_map]
  constructor
  · have hto : ∀ k, (∃ u ∈ s.subUnis k, S.key u = w) → ∃ p ∈ s.person.rows, S.key p.uni = w := by
      rintro k ⟨u, hu, rfl⟩
      obtain ⟨p, hp, he⟩ := hasPerson_iff.1 (hfk.sub k u hu)
      exact ⟨p, hp, Collation.eq_iff.1 he⟩
    rintro (h | h)
    · exact hto _ h
    · exact hto _ h
  · rintro ⟨p, hp, rfl⟩
    obtain ⟨k, -, h1, -⟩ := hs p hp
    obtain ⟨u, hu, he⟩ := hasSub_iff.1 h1
    cases k with
    | student => left; exact ⟨u, hu, Collation.eq_iff.1 he⟩
    | faculty => right; exact ⟨u, hu, Collation.eq_iff.1 he⟩

/-- **Successful runs** from empty tables keep the inheritance total and disjoint:
calls of the six procedures, with any arguments, and operations on sections and
participants. -/
theorem inheritance_of_successes (s : State S) (ops : List Op)
    (hops : Along (fun s op => op.run s) (fun s op => (op.proc.run s).1 = .ok ()) s.cleared ops) :
    Inheritance (run ops s.cleared) := by
  obtain ⟨hfk, hs⟩ := run_keeps (I := Inherits) (fun hfk hs hok hout h => by
    rw [hout, hok] at h; exact h.inherits hfk hs) (foreignKeys_cleared s)
    (fun p hp => by simp [State.cleared, Table.empty] at hp) hops
  exact ⟨hs.exactlyOne, hfk.sub, hs.views hfk⟩

/-- A student, a faculty member, a renaming and a deletion. -/
theorem inheritance_of_four_calls :
    Inheritance (run
      [.insert (.student (some "cs".toList) (some "2016".toList)) (some "peters".toList) (some "justin".toList),
      .insert (.faculty (some "1".toList) (some "professor".toList) (some "cs".toList)) (some "Lewis".toList)
        (some "Deirdre".toList),
      .update (.student (some "ee".toList) (some "2017".toList)) (some "peju1".toList) (some "Peters".toList)
        (some "Justin".toList),
      .delete .student (some "PEJU1".toList)] (State.empty : State asciiServer).cleared) :=
  inheritance_of_successes .empty _ (by decide)

end Coms4111.School
