import Coms4111.Spec.Powerset
import Coms4111.Sql.Text
import Mathlib.Data.List.Lex
import Mathlib.Data.Char

/-!
# The two power sets

A row stands for the set of its words (`Row.words`), and a set of at most three words for
one row: its words in descending order, and `NULL`s behind them (`subsetRow`).

* `union_query_lists_subsets`: **the query lists every set of at most three words of
  `base_table` in one row**, and nothing else, however often a word is repeated.
* `constructions_agree_iff`: where there are at most three different words, the `INSERT`s
  list the same sets as the query, whatever `rand()` picks, **exactly when** no word is
  repeated and there are not exactly two. `two_words_lose_their_pair` has two words:
  `temp_table` is empty then, and the set of both is missing.
-/

namespace Coms4111.Powerset

open Sql

variable {W : Type*} [LinearOrder W] {base : List W}

/-! ## Rows and sets -/

/-- The words of a row. -/
def Row.words (row : Row W) : Finset W := [row.word1, row.word2, row.word3].reduceOption.toFinset

/-- The first three words of a list, padded with `NULL`s on the right. -/
def padded (words : List W) : Row W := ⟨words[0]?, words[1]?, words[2]?⟩

/-- **The row of a set**: its words in descending order. -/
def subsetRow (S : Finset W) : Row W := padded (S.sort (· ≥ ·))

theorem words_padded : ∀ words : List W, words.length ≤ 3 → (padded words).words = words.toFinset
  | [], _ => rfl
  | [_], _ => rfl
  | [_, _], _ => rfl
  | [_, _, _], _ => rfl
  | _ :: _ :: _ :: _ :: _, h => by simp only [List.length_cons] at h; omega

/-- A set of at most three words is the set of its row. -/
theorem words_subsetRow {S : Finset W} (hS : S.card ≤ 3) : (subsetRow S).words = S := by
  rw [subsetRow, words_padded _ (by rw [Finset.length_sort]; exact hS), Finset.sort_toFinset]

theorem subsetRow_inj {S T : Finset W} (hS : S.card ≤ 3) (hT : T.card ≤ 3) (h : subsetRow S = subsetRow T) :
    S = T := by
  rw [← words_subsetRow hS, h, words_subsetRow hT]

/-! ## The query -/

/-- The rows of the query are those of the strictly descending lists of at most three words. -/
theorem mem_unionQuery {row : Row W} : row ∈ unionQuery base ↔
    ∃ words : List W, words.Pairwise (· > ·) ∧ words.length ≤ 3 ∧ (∀ a ∈ words, a ∈ base) ∧
      row = padded words := by
  simp only [unionQuery, union, List.mem_dedup, List.mem_append, List.mem_singleton, List.mem_map,
    List.mem_filter, Prod.exists, List.mem_product, decide_eq_true_eq]
  constructor
  · rintro (((rfl | ⟨a, ha, rfl⟩) | ⟨a, b, ⟨⟨ha, hb⟩, hab⟩, rfl⟩) | ⟨a, b, c, ⟨⟨ha, hb, hc⟩, hab, hbc⟩, rfl⟩)
    · exact ⟨[], by simp, by simp, by simp, rfl⟩
    · exact ⟨[a], by simp, by simp, by simpa using ha, rfl⟩
    · exact ⟨[a, b], by simpa using hab, by simp, by simp [ha, hb], rfl⟩
    · have hac : c < a := hbc.trans hab
      exact ⟨[a, b, c], by simp [hab, hac, hbc], by simp, by simp [ha, hb, hc], rfl⟩
  · rintro ⟨words, hdesc, hlen, hmem, rfl⟩
    match words with
    | [] => exact .inl (.inl (.inl rfl))
    | [a] => exact .inl (.inl (.inr ⟨a, hmem a (by simp), rfl⟩))
    | [a, b] =>
      have hab : a > b := by simpa using hdesc
      exact .inl (.inr ⟨a, b, ⟨⟨hmem a (by simp), hmem b (by simp)⟩, hab⟩, rfl⟩)
    | [a, b, c] =>
      have h : (a > b ∧ a > c) ∧ b > c := by simpa using hdesc
      exact .inr ⟨a, b, c, ⟨⟨hmem a (by simp), hmem b (by simp), hmem c (by simp)⟩, h.1.1, h.2⟩, rfl⟩
    | _ :: _ :: _ :: _ :: _ =>
      simp only [List.length_cons] at hlen
      omega

/-- The rows of the query are those of the sets of at most three words. -/
theorem mem_unionQuery_iff_subset {row : Row W} : row ∈ unionQuery base ↔
    ∃ S : Finset W, (S ⊆ base.toFinset ∧ S.card ≤ 3) ∧ row = subsetRow S := by
  rw [mem_unionQuery]
  constructor
  · rintro ⟨words, hdesc, hlen, hmem, rfl⟩
    have hnodup : words.Nodup := hdesc.imp fun h => ne_of_gt h
    have hsort : words.toFinset.sort (· ≥ ·) = words :=
      (List.toFinset_sort _ hnodup).2 (hdesc.imp fun h => le_of_lt h)
    refine ⟨words.toFinset, ⟨?_, ?_⟩, by rw [subsetRow, hsort]⟩
    · intro a ha
      exact List.mem_toFinset.2 (hmem a (List.mem_toFinset.1 ha))
    · rw [List.toFinset_card_of_nodup hnodup]
      exact hlen
  · rintro ⟨S, ⟨hS, hcard⟩, rfl⟩
    refine ⟨S.sort (· ≥ ·), (Finset.sortedGT_sort S).pairwise, ?_, ?_, rfl⟩
    · rw [Finset.length_sort]
      exact hcard
    · intro a ha
      exact List.mem_toFinset.1 (hS ((Finset.mem_sort _).1 ha))

theorem unionQuery_nodup (base : List W) : (unionQuery base).Nodup := List.nodup_dedup _

omit [LinearOrder W] in
/-- A list with every subset of `s`, and no longer than it must be, is the power set. -/
theorem perm_powerset {s : Finset W} {sets : List (Finset W)} (hlen : sets.length ≤ 2 ^ s.card)
    (hmem : ∀ S ⊆ s, S ∈ sets) : sets.Perm s.powerset.toList := by
  have hsub : s.powerset.toList.Subperm sets := by
    refine List.subperm_of_subset (Finset.nodup_toList _) ?_
    intro S hS
    exact hmem S (Finset.mem_powerset.1 (Finset.mem_toList.1 hS))
  refine (hsub.perm_of_length_le ?_).symm
  rw [Finset.length_toList, Finset.card_powerset]
  exact hlen

/-- With at most three different words, the query is the power set. -/
theorem unionQuery_perm_powerset (hbase : base.toFinset.card ≤ 3) :
    ((unionQuery base).map Row.words).Perm base.toFinset.powerset.toList := by
  have hnodup : ((unionQuery base).map Row.words).Nodup := by
    refine (unionQuery_nodup base).map_on ?_
    intro r hr r' hr' h
    obtain ⟨S, ⟨-, hS⟩, rfl⟩ := mem_unionQuery_iff_subset.1 hr
    obtain ⟨T, ⟨-, hT⟩, rfl⟩ := mem_unionQuery_iff_subset.1 hr'
    rw [words_subsetRow hS, words_subsetRow hT] at h
    rw [h]
  refine List.perm_of_nodup_nodup_toFinset_eq hnodup (Finset.nodup_toList _) ?_
  ext S
  simp only [List.mem_toFinset, List.mem_map, Finset.mem_toList, Finset.mem_powerset]
  constructor
  · rintro ⟨row, hrow, rfl⟩
    obtain ⟨T, ⟨hT, hcard⟩, rfl⟩ := mem_unionQuery_iff_subset.1 hrow
    rw [words_subsetRow hcard]
    exact hT
  · intro hS
    have hcard : S.card ≤ 3 := (Finset.card_le_card hS).trans hbase
    exact ⟨subsetRow S, mem_unionQuery_iff_subset.2 ⟨S, ⟨hS, hcard⟩, rfl⟩, words_subsetRow hcard⟩

/-- **The query lists every set of at most three words once**: the set has its row, of its
words in descending order, every row is that of one such set, and with at most three
different words the sets are all there are. -/
theorem union_query_lists_subsets (base : List W) :
    (∀ S ⊆ base.toFinset, S.card ≤ 3 → (unionQuery base).count (subsetRow S) = 1) ∧
      (∀ row ∈ unionQuery base, ∃! S : Finset W, (S ⊆ base.toFinset ∧ S.card ≤ 3) ∧ row = subsetRow S) ∧
      (base.toFinset.card ≤ 3 → ((unionQuery base).map Row.words).Perm base.toFinset.powerset.toList) := by
  refine ⟨?_, ?_, unionQuery_perm_powerset⟩
  · intro S hS hcard
    exact List.count_eq_one_of_mem (unionQuery_nodup base) (mem_unionQuery_iff_subset.2 ⟨S, ⟨hS, hcard⟩, rfl⟩)
  · intro row hrow
    obtain ⟨S, ⟨hS, hcard⟩, rfl⟩ := mem_unionQuery_iff_subset.1 hrow
    refine ⟨S, ⟨⟨hS, hcard⟩, rfl⟩, ?_⟩
    rintro T ⟨⟨-, hT⟩, h⟩
    exact subsetRow_inj hT hcard h.symm

/-! ## The `INSERT`s -/

theorem mem_combinations {a b c : W} : (a, b, c) ∈ combinations base ↔
    (a ∈ base ∧ b ∈ base ∧ c ∈ base) ∧ a ≠ b ∧ a ≠ c ∧ b ≠ c := by
  simp only [combinations, List.mem_filter, List.mem_product, decide_eq_true_eq]

/-- **`temp_table`** is empty with fewer than three different words, and has one row of
different words otherwise. -/
theorem tempTable_cases (rand : Rand (W × W × W)) (base : List W) :
    base.toFinset.card < 3 ∧ tempTable rand base = [] ∨
      ∃ a b c, (a, b, c) ∈ combinations base ∧ tempTable rand base = [(a, b, c)] := by
  rcases hrows : rand.order (combinations base) with _ | ⟨⟨a, b, c⟩, rows⟩
  · refine .inl ⟨?_, by rw [tempTable, hrows]; rfl⟩
    have hnone : combinations base = [] := by
      have hperm := rand.perm (combinations base)
      rw [hrows] at hperm
      exact hperm.nil_eq.symm
    -- three different words would have been combined
    by_contra hcard
    obtain ⟨S, hS, h3⟩ := Finset.exists_subset_card_eq (not_lt.1 hcard)
    obtain ⟨a, b, c, hab, hac, hbc, rfl⟩ := Finset.card_eq_three.1 h3
    have hin : ∀ w ∈ ({a, b, c} : Finset W), w ∈ base := fun w hw => List.mem_toFinset.1 (hS hw)
    have hmem : (a, b, c) ∈ combinations base :=
      mem_combinations.2 ⟨⟨hin a (by simp), hin b (by simp), hin c (by simp)⟩, hab, hac, hbc⟩
    rw [hnone] at hmem
    cases hmem
  · have hmem : (a, b, c) ∈ rand.order (combinations base) := by
      rw [hrows]
      exact List.mem_cons_self
    exact .inr ⟨a, b, c, (rand.perm _).mem_iff.1 hmem, by rw [tempTable, hrows]; rfl⟩

/-- A word is joined with itself as often as it is there. -/
theorem leftJoin_self (base : List W) :
    (leftJoin base base fun A B => A = B).map Prod.fst = base.flatMap fun a =>
      List.replicate (base.count a) a := by
  rw [leftJoin, List.map_flatMap]
  refine List.flatMap_congr ?_
  intro a ha
  have hlen : (base.filter fun B => a = B).length = base.count a := by
    rw [List.count_eq_countP, List.countP_eq_length_filter]
    refine congrArg List.length (List.filter_congr ?_)
    intro b _
    simp only [beq_eq_decide, eq_comm]
  have hmem : a ∈ base.filter fun B => a = B := List.mem_filter.2 ⟨ha, by simp⟩
  cases hrows : base.filter fun B => a = B with
  | nil =>
    rw [hrows] at hmem
    cases hmem
  | cons b rows =>
    rw [← hlen, hrows]
    simp only [List.map_map, Function.comp_def, List.map_const']

/-- The sets that the `INSERT`s list. -/
theorem powersetTable_words (rand : Rand (W × W × W)) (base : List W) :
    (powersetTable rand base).map Row.words =
      ∅ :: ((base.flatMap fun a => List.replicate (base.count a) a).map singleton
        ++ (tempTable rand base).map (fun (a, b, _) => {a, b})
        ++ (tempTable rand base).map (fun (a, _, c) => {a, c})
        ++ (tempTable rand base).map (fun (_, b, c) => {b, c})
        ++ (tempTable rand base).map (fun (a, b, c) => {a, b, c})) := by
  have hpair : ∀ a b : W, (⟨some a, some b, none⟩ : Row W).words = {a, b} := by
    intro a b
    exact (words_padded [a, b] (by simp)).trans (by simp)
  have htriple : ∀ a b c : W, (⟨some a, some b, some c⟩ : Row W).words = {a, b, c} := by
    intro a b c
    exact (words_padded [a, b, c] (by simp)).trans (by simp)
  rw [← leftJoin_self]
  simp only [powersetTable, List.map_append, List.map_map, List.map_cons, Function.comp_def, hpair, htriple,
    List.cons_append, List.nil_append, List.append_assoc]
  rfl

/-- Every word has a row of its own, at least. -/
theorem sublist_flatMap_replicate {words : List W} (hwords : ∀ a ∈ words, a ∈ base) :
    words.Sublist (words.flatMap fun a => List.replicate (base.count a) a) := by
  induction words with
  | nil => exact List.Sublist.slnil
  | cons a words ih =>
    have hcount : 0 < base.count a := List.count_pos_iff.2 (hwords a List.mem_cons_self)
    have hhead : [a].Sublist (List.replicate (base.count a) a) :=
      List.singleton_sublist.2 (List.mem_replicate.2 ⟨by omega, rfl⟩)
    rw [List.flatMap_cons]
    exact hhead.append (ih fun b hb => hwords b (List.mem_cons_of_mem _ hb))

/-- Without repetitions, every word has one row of its own. -/
theorem flatMap_replicate_of_nodup (hbase : base.Nodup) :
    (base.flatMap fun a => List.replicate (base.count a) a) = base := by
  have hone : ∀ a ∈ base, List.replicate (base.count a) a = [a] := by
    intro a ha
    rw [List.count_eq_one_of_mem hbase ha]
    rfl
  rw [List.flatMap_congr hone, List.flatMap_singleton']

/-- The subsets of three words. -/
theorem subset_triple {a b c : W} {S : Finset W} (hS : S ⊆ {a, b, c}) :
    S = ∅ ∨ S = {a} ∨ S = {b} ∨ S = {c} ∨ S = {a, b} ∨ S = {a, c} ∨ S = {b, c} ∨ S = {a, b, c} := by
  have h := Finset.mem_powerset.2 hS
  simp only [Finset.powerset_insert, Finset.mem_union, Finset.mem_image, Finset.mem_powerset,
    Finset.subset_singleton_iff, or_and_right, exists_or, exists_eq_left, exists_eq_left'] at h
  rcases h with ((rfl | rfl) | rfl | rfl) | (rfl | rfl) | rfl | rfl <;> simp

/-- Fewer than three words: there is nothing to combine. -/
theorem powersetTable_words_nil {rand : Rand (W × W × W)} (htemp : tempTable rand base = []) :
    (powersetTable rand base).map Row.words =
      ∅ :: (base.flatMap fun a => List.replicate (base.count a) a).map singleton := by
  rw [powersetTable_words, htemp]
  simp only [List.map_nil, List.append_nil]

theorem powersetTable_words_singleton {rand : Rand (W × W × W)} {a b c : W}
    (htemp : tempTable rand base = [(a, b, c)]) :
    (powersetTable rand base).map Row.words =
      ∅ :: ((base.flatMap fun a => List.replicate (base.count a) a).map singleton
        ++ [{a, b}, {a, c}, {b, c}, {a, b, c}]) := by
  rw [powersetTable_words, htemp]
  simp only [List.map_cons, List.map_nil, List.append_assoc, List.cons_append, List.nil_append]

/-- A row of `temp_table` has all the words there are. -/
theorem toFinset_eq_triple {a b c : W} (habc : (a, b, c) ∈ combinations base) (hbase : base.toFinset.card ≤ 3) :
    base.toFinset = {a, b, c} := by
  obtain ⟨⟨ha, hb, hc⟩, hab, hac, hbc⟩ := mem_combinations.1 habc
  refine (Finset.eq_of_subset_of_card_le ?_ ?_).symm
  · intro w hw
    simp only [Finset.mem_insert, Finset.mem_singleton] at hw
    rcases hw with rfl | rfl | rfl <;> simpa
  · rw [Finset.card_eq_three.2 ⟨a, b, c, hab, hac, hbc, rfl⟩]
    exact hbase

/-- Where the sets are listed once, the words are, and there are not two of them. -/
theorem conditions_of_perm {rand : Rand (W × W × W)}
    (h : ((powersetTable rand base).map Row.words).Perm base.toFinset.powerset.toList) :
    base.Nodup ∧ base.toFinset.card ≠ 2 := by
  constructor
  · have hsub : (base.map singleton).Sublist ((powersetTable rand base).map Row.words) := by
      have hsingle := (sublist_flatMap_replicate fun a (ha : a ∈ base) => ha).map (singleton (β := Finset W))
      rw [powersetTable_words]
      simp only [List.append_assoc]
      exact (hsingle.trans (List.sublist_append_left _ _)).cons _
    exact ((h.nodup_iff.2 (Finset.nodup_toList _)).sublist hsub).of_map _
  · intro htwo
    rcases tempTable_cases rand base with ⟨-, htemp⟩ | ⟨a, b, c, habc, -⟩
    · -- the set of both words is not listed
      have hmem : base.toFinset ∈ (powersetTable rand base).map Row.words :=
        h.mem_iff.2 (Finset.mem_toList.2 (Finset.mem_powerset_self _))
      rw [powersetTable_words_nil htemp, List.mem_cons, List.mem_map] at hmem
      rcases hmem with h0 | ⟨a, -, h1⟩
      · rw [h0, Finset.card_empty] at htwo
        omega
      · rw [← h1, Finset.card_singleton] at htwo
        omega
    · obtain ⟨-, hab, hac, hbc⟩ := mem_combinations.1 habc
      have hthree : ({a, b, c} : Finset W).card = 3 := Finset.card_eq_three.2 ⟨a, b, c, hab, hac, hbc, rfl⟩
      rw [toFinset_eq_triple habc (by omega)] at htwo
      omega

theorem perm_of_conditions (rand : Rand (W × W × W)) (hbase : base.toFinset.card ≤ 3) (hnodup : base.Nodup)
    (htwo : base.toFinset.card ≠ 2) :
    ((powersetTable rand base).map Row.words).Perm base.toFinset.powerset.toList := by
  have hlen : base.toFinset.card = base.length := List.toFinset_card_of_nodup hnodup
  rcases tempTable_cases rand base with ⟨hfew, htemp⟩ | ⟨a, b, c, habc, htemp⟩
  · rw [powersetTable_words_nil htemp, flatMap_replicate_of_nodup hnodup]
    have hone : base.toFinset.card ≤ 1 := by omega
    refine perm_powerset ?_ ?_
    · rw [List.length_cons, List.length_map, ← hlen]
      exact Nat.lt_two_pow_self
    · intro S hS
      rcases S.eq_empty_or_nonempty with rfl | ⟨a, ha⟩
      · exact List.mem_cons_self
      · have hSa : S = {a} :=
          Finset.eq_singleton_iff_unique_mem.2 ⟨ha, fun b hb => Finset.card_le_one.1 hone b (hS hb) a (hS ha)⟩
        rw [hSa]
        exact List.mem_cons_of_mem _ (List.mem_map_of_mem (List.mem_toFinset.1 (hS ha)))
  · have hwords := toFinset_eq_triple habc hbase
    obtain ⟨⟨ha, hb, hc⟩, hab, hac, hbc⟩ := mem_combinations.1 habc
    have hthree : base.toFinset.card = 3 := by
      rw [hwords]
      exact Finset.card_eq_three.2 ⟨a, b, c, hab, hac, hbc, rfl⟩
    rw [powersetTable_words_singleton htemp, flatMap_replicate_of_nodup hnodup]
    refine perm_powerset ?_ ?_
    · simp only [List.length_cons, List.length_append, List.length_map, List.length_nil, ← hlen, hthree]
      norm_num
    · intro S hS
      rw [hwords] at hS
      simp only [List.mem_cons, List.mem_append, List.mem_map, List.not_mem_nil, or_false]
      rcases subset_triple hS with h | h | h | h | h | h | h | h
      · exact .inl h
      · exact .inr (.inl ⟨a, ha, h.symm⟩)
      · exact .inr (.inl ⟨b, hb, h.symm⟩)
      · exact .inr (.inl ⟨c, hc, h.symm⟩)
      · exact .inr (.inr (.inl h))
      · exact .inr (.inr (.inr (.inl h)))
      · exact .inr (.inr (.inr (.inr (.inl h))))
      · exact .inr (.inr (.inr (.inr (.inr h))))

/-- **The `INSERT`s list the same sets as the query**, each once, whatever `rand()` picks, if
and only if no word of `base_table` is repeated and there are not exactly two words. -/
theorem constructions_agree_iff (rand : Rand (W × W × W)) (base : List W) (hbase : base.toFinset.card ≤ 3) :
    ((powersetTable rand base).map Row.words).Perm ((unionQuery base).map Row.words) ↔
      base.Nodup ∧ base.toFinset.card ≠ 2 := by
  have hquery := unionQuery_perm_powerset hbase
  constructor
  · intro h
    exact conditions_of_perm (h.trans hquery)
  · rintro ⟨hnodup, htwo⟩
    exact (perm_of_conditions rand hbase hnodup htwo).trans hquery.symm

/-- The rows stay in the order they are in. -/
def inOrder : Rand (Text × Text × Text) := ⟨id, fun _ => .refl _⟩

theorem constructions_agree_three_words :
    let base := ["whale".toList, "mouse".toList, "fence".toList]
    ((powersetTable inOrder base).map Row.words).Perm ((unionQuery base).map Row.words) :=
  (constructions_agree_iff inOrder _ (by decide +kernel)).2 (by decide +kernel)

/-- With two words, the set of both is in the query and not in the table. With one word
twice, the table has its set four times. -/
theorem two_words_lose_their_pair :
    let whale := "whale".toList
    let mouse := "mouse".toList
    powersetTable inOrder [whale, mouse] = [padded [], padded [whale], padded [mouse]] ∧
      padded [whale, mouse] ∈ unionQuery [whale, mouse] ∧
      ¬((powersetTable inOrder [whale, mouse]).map Row.words).Perm ((unionQuery [whale, mouse]).map Row.words) ∧
      powersetTable inOrder [whale, whale] =
        [padded [], padded [whale], padded [whale], padded [whale], padded [whale]] ∧
      unionQuery [whale, whale] = [padded [], padded [whale]] := by
  decide +kernel

end Coms4111.Powerset
