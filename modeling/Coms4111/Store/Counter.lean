import Mathlib.Data.Fintype.Card
import Mathlib.Order.Interval.Finset.Nat
import Mathlib.Logic.Function.Basic

/-!
# Numbers given out by a counter

A counter that stood at `m` stands at `k`, and in between it has given out each number to
one client.

* `Assigned.next`: a client without a number gets the next one.
* `Assigned.card`: the counter has advanced by the number of clients that have one.
-/

namespace Coms4111.Store

variable {ι : Type} {m k : ℕ} {num : ι → Option ℕ}

/-- The clients that have a number have the numbers from `m + 1` to `k`, one each. -/
structure Assigned (m k : ℕ) (num : ι → Option ℕ) : Prop where
  le : m ≤ k
  numbers : ∀ n, (∃ i, num i = some n) ↔ m < n ∧ n ≤ k
  inj : ∀ i j n, num i = some n → num j = some n → i = j

theorem Assigned.start (m : ℕ) : Assigned m m fun _ : ι => none := by
  refine ⟨le_rfl, fun n => ?_, nofun⟩
  constructor
  · rintro ⟨i, hi⟩; cases hi
  · intro hn; omega

/-- A client gets the next number. -/
theorem Assigned.next [DecidableEq ι] (h : Assigned m k num) {i : ι} (hi : num i = none) :
    Assigned m (k + 1) (Function.update num i (some (k + 1))) := by
  have hother : ∀ {j n}, num j = some n → j ≠ i := by
    rintro j n hj rfl
    rw [hi] at hj
    cases hj
  have hle : ∀ {j n}, num j = some n → n ≤ k := fun hj => ((h.numbers _).1 ⟨_, hj⟩).2
  refine ⟨h.le.trans (Nat.le_succ k), fun n => ?_, ?_⟩
  · constructor
    · rintro ⟨j, hj⟩
      by_cases hji : j = i
      · rw [hji, Function.update_self] at hj
        cases hj
        have := h.le
        omega
      · rw [Function.update_of_ne hji] at hj
        have := (h.numbers n).1 ⟨j, hj⟩
        omega
    · intro hn
      by_cases hnk : n = k + 1
      · exact ⟨i, by rw [hnk, Function.update_self]⟩
      · obtain ⟨j, hj⟩ := (h.numbers n).2 ⟨hn.1, by omega⟩
        exact ⟨j, by rw [Function.update_of_ne (hother hj)]; exact hj⟩
  · intro a b n ha hb
    by_cases hai : a = i <;> by_cases hbi : b = i
    · rw [hai, hbi]
    · rw [hai, Function.update_self] at ha
      rw [Function.update_of_ne hbi] at hb
      cases ha
      have := hle hb
      omega
    · rw [hbi, Function.update_self] at hb
      rw [Function.update_of_ne hai] at ha
      cases hb
      have := hle ha
      omega
    · rw [Function.update_of_ne hai] at ha
      rw [Function.update_of_ne hbi] at hb
      exact h.inj a b n ha hb

/-- There are as many numbers as clients that have one. -/
theorem Assigned.card [Fintype ι] [DecidableEq ι] (h : Assigned m k num) :
    k = m + (Finset.univ.filter fun i => (num i).isSome).card := by
  have hcard : (Finset.univ.filter fun i => (num i).isSome).card = (Finset.Ioc m k).card := by
    refine Finset.card_bij (fun i _ => (num i).getD 0) ?_ ?_ ?_
    · intro i hi
      obtain ⟨n, hn⟩ := Option.isSome_iff_exists.1 (Finset.mem_filter.1 hi).2
      rw [hn, Finset.mem_Ioc]
      exact (h.numbers n).1 ⟨i, hn⟩
    · intro i hi j hj hij
      obtain ⟨n, hn⟩ := Option.isSome_iff_exists.1 (Finset.mem_filter.1 hi).2
      obtain ⟨n', hn'⟩ := Option.isSome_iff_exists.1 (Finset.mem_filter.1 hj).2
      rw [hn, hn'] at hij
      exact h.inj i j n hn (hn'.trans (congrArg some hij.symm))
    · intro n hn
      obtain ⟨i, hi⟩ := (h.numbers n).2 (Finset.mem_Ioc.1 hn)
      exact ⟨i, by simp [hi], by rw [hi]; rfl⟩
  rw [hcard, Nat.card_Ioc]
  have := h.le
  omega

theorem Assigned.lt [Fintype ι] [DecidableEq ι] (h : Assigned m k num) {i : ι} (hi : num i = none) :
    k < m + Fintype.card ι := by
  have hlt : (Finset.univ.filter fun i => (num i).isSome).card < Fintype.card ι :=
    Finset.card_lt_univ_of_notMem (x := i) (by simp [hi])
  have := h.card
  omega

end Coms4111.Store
