import Coms4111.Sql.Table

/-!
# Joins and `DISTINCT`

* `join_perm`: a join over a key, seen from the other side: every row that refers to a key gives at
  most one row of the join.
* `Table.filter_eq_toList`: a selection by a key is a lookup.
* `exists_mem_distinct`, `distinct_pairwise`: `DISTINCT` loses no value and repeats none.
-/

namespace Coms4111.Sql

variable {α β γ : Type}

/-- `l JOIN r ON on`. -/
def join (on : α → β → Bool) (l : List α) (r : List β) : List (α × β) :=
  l.flatMap fun a => (r.filter (on a)).map fun b => (a, b)

/-- One row more on the right. -/
theorem join_cons_right (on : α → β → Bool) (l : List α) (b : β) (r : List β) :
    (join on l (b :: r)).Perm ((l.filter fun a => on a b).map (fun a => (a, b)) ++ join on l r) := by
  induction l with
  | nil => exact List.Perm.refl _
  | cons a l ih =>
    have hleft : join on (a :: l) (b :: r) = ((b :: r).filter (on a)).map (fun b => (a, b)) ++
        join on l (b :: r) := rfl
    have hright : join on (a :: l) r = (r.filter (on a)).map (fun b => (a, b)) ++ join on l r := rfl
    have hswap : ∀ x y z : List (α × β), (x ++ (y ++ z)).Perm (y ++ (x ++ z)) := List.perm_append_comm_assoc
    rw [hleft, hright]
    cases hab : on a b with
    | false =>
      rw [List.filter_cons_of_neg (by rw [hab]; exact Bool.false_ne_true),
        List.filter_cons_of_neg (by rw [hab]; exact Bool.false_ne_true)]
      exact (ih.append_left _).trans (hswap _ _ _)
    | true =>
      have hl : ((a :: l).filter fun a => on a b) = a :: l.filter fun a => on a b := List.filter_cons_of_pos hab
      rw [List.filter_cons_of_pos hab, hl, List.map_cons, List.map_cons, List.cons_append, List.cons_append]
      exact ((ih.append_left _).trans (hswap _ _ _)).cons (a, b)

/-- **A join over a key.** If the rows on the left that a row on the right refers to are at most
one, the join goes through the rows on the right. -/
theorem join_perm (on : α → β → Bool) (l : List α) (r : List β) (p : β → Option α)
    (h : ∀ b ∈ r, (l.filter fun a => on a b) = (p b).toList) :
    (join on l r).Perm (r.filterMap fun b => (p b).map fun a => (a, b)) := by
  induction r with
  | nil =>
    have hnil : join on l [] = [] := by
      unfold join
      simp only [List.filter_nil, List.map_nil, List.flatMap_eq_nil_iff, implies_true]
    rw [hnil]
    exact List.Perm.refl _
  | cons b r ih =>
    have hrest := ih fun b hb => h b (List.mem_cons_of_mem _ hb)
    refine (join_cons_right on l b r).trans ?_
    rw [h b List.mem_cons_self]
    cases hp : p b with
    | none =>
      rw [List.filterMap_cons_none (by rw [hp]; rfl)]
      exact hrest
    | some a =>
      rw [List.filterMap_cons_some (by rw [hp]; rfl)]
      exact hrest.cons (a, b)

/-- A join with a key on the right goes through the rows on the left. -/
theorem join_eq_filterMap (on : α → β → Bool) (l : List α) (r : List β) (q : α → Option β)
    (h : ∀ a ∈ l, r.filter (on a) = (q a).toList) : join on l r = l.filterMap fun a => (q a).map fun b =>
    (a, b) := by
  unfold join
  rw [List.filterMap_eq_flatMap_toList]
  refine List.flatMap_congr fun a ha => ?_
  rw [h a ha]
  cases q a <;> rfl

/-- The rows of a join in another order. -/
theorem join_perm_right (on : α → β → Bool) (l : List α) {r r' : List β} (h : r.Perm r') :
    (join on l r).Perm (join on l r') := by
  unfold join
  refine List.Perm.flatMap_left l fun a _ => ?_
  exact (h.filter _).map _

theorem join_perm_left (on : α → β → Bool) {l l' : List α} (r : List β) (h : l.Perm l') :
    (join on l r).Perm (join on l' r) :=
  h.flatMap_right _

theorem mem_join {on : α → β → Bool} {l : List α} {r : List β} {a : α} {b : β} :
    (a, b) ∈ join on l r ↔ a ∈ l ∧ b ∈ r ∧ on a b = true := by
  unfold join
  simp only [List.mem_flatMap, List.mem_map, List.mem_filter, Prod.mk.injEq]
  constructor
  · rintro ⟨a', ha, b', ⟨hb, hon⟩, rfl, rfl⟩
    exact ⟨ha, hb, hon⟩
  · rintro ⟨ha, hb, hon⟩
    exact ⟨a, ha, b, ⟨hb, hon⟩, rfl, rfl⟩

/-- **A selection by a key** finds what a lookup finds. -/
theorem Table.filter_eq_toList {K : Unique α} (T : Table α K) {p : α → Bool}
    (hp : ∀ a b, p a = true → p b = true → K.clash a b = true) : T.rows.filter p = (T.rows.find? p).toList := by
  have hle := T.filter_le_one hp
  rw [← List.head?_filter]
  generalize T.rows.filter p = l at hle
  cases l with
  | nil => rfl
  | cons a l =>
    rw [List.length_cons] at hle
    rw [List.eq_nil_of_length_eq_zero (by omega : l.length = 0)]
    rfl

/-! ## `DISTINCT` -/

/-- `SELECT DISTINCT`: a row is left out if one before it has the same values. -/
def distinct (same : α → α → Bool) (l : List α) : List α :=
  (l.reverse.pwFilter fun a b => same a b = false).reverse

variable {same : α → α → Bool}

theorem distinct_pairwise (hsymm : ∀ a b, same a b = same b a) (l : List α) :
    (distinct same l).Pairwise fun a b => same a b = false := by
  unfold distinct
  rw [List.pairwise_reverse]
  refine (List.pairwise_pwFilter l.reverse).imp fun {a b} h => ?_
  rw [hsymm]
  exact h

theorem distinct_subset (l : List α) : distinct same l ⊆ l := by
  intro a ha
  unfold distinct at ha
  rw [List.mem_reverse] at ha
  exact List.mem_reverse.1 (List.pwFilter_subset _ ha)

/-- Every row has one with its values among those that are left. -/
theorem exists_mem_distinct (hrefl : ∀ a, same a a = true)
    (htrans : ∀ a b c, same a b = true → same b c = true → same a c = true) {l : List α} {a : α} (ha : a ∈ l) :
    ∃ b ∈ distinct same l, same a b = true := by
  by_contra hno
  push Not at hno
  have hall : ∀ b ∈ l.reverse.pwFilter fun a b => same a b = false, same a b = false := by
    intro b hb
    have hne := hno b (List.mem_reverse.2 hb)
    simpa using hne
  have hneg : ∀ {x y z : α}, same x z = false → same x y = false ∨ same y z = false := by
    intro x y z hxz
    by_contra hboth
    rw [not_or, Bool.not_eq_false, Bool.not_eq_false] at hboth
    rw [htrans x y z hboth.1 hboth.2] at hxz
    cases hxz
  have hself := (List.forall_mem_pwFilter (R := fun a b => same a b = false) hneg a l.reverse).1 hall a
    (List.mem_reverse.2 ha)
  rw [hrefl a] at hself
  cases hself

end Coms4111.Sql
