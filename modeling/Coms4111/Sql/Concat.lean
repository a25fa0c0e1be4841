import Coms4111.Sql.Text

/-!
# Keys made by concatenation

A key that is the concatenation of several parts, without separators, does not always
determine its parts. Two keys are the same, symbol by symbol, exactly when their parts are
or when at the first part that differs one row's part **has taken symbols** from the parts
that follow it (`Moved`).

* `alike_flatten_iff`: this, for keys of any number of parts.
* `Collation.eq_iff_alike_pad`: how the comparison of strings, for which blanks at the end
  do not count, is one of symbols.
* `decimal_alike`: numerals compare as numbers.
-/

namespace Coms4111.Sql

/-! ## The same symbols -/

section Alike

variable {α β : Type} {w : α → β} {s s' t t' u x : List α}

/-- The same symbols, as far as `w` tells them apart. -/
def Alike (w : α → β) (s t : List α) : Prop := s.map w = t.map w

instance [DecidableEq β] : Decidable (Alike w s t) := inferInstanceAs (Decidable (_ = _))

@[simp] theorem Alike.refl (s : List α) : Alike w s s := rfl

theorem Alike.symm (h : Alike w s t) : Alike w t s := Eq.symm h

theorem Alike.trans (h : Alike w s t) (h' : Alike w t u) : Alike w s u := Eq.trans h h'

theorem Alike.length_eq (h : Alike w s t) : s.length = t.length := by
  have := congrArg List.length h
  simpa using this

theorem Alike.append (h : Alike w s s') (h' : Alike w t t') : Alike w (s ++ t) (s' ++ t') := by
  unfold Alike at *
  rw [List.map_append, List.map_append, h, h']

/-- What stands after parts of the same length. -/
theorem alike_append_iff_of_length (h : s.length = s'.length) :
    Alike w (s ++ t) (s' ++ t') ↔ Alike w s s' ∧ Alike w t t' := by
  unfold Alike
  rw [List.map_append, List.map_append]
  constructor
  · intro he; exact List.append_inj he (by simpa using h)
  · rintro ⟨hs, ht⟩; rw [hs, ht]

/-- The longer of two first parts is the shorter one, with symbols from its second part. -/
theorem Alike.cut (hle : s.length ≤ s'.length) (h : Alike w (s ++ t) (s' ++ t')) :
    Alike w s' (s ++ s'.drop s.length) ∧ Alike w t (s'.drop s.length ++ t') := by
  have hlen : s.length = (s'.take s.length).length := by rw [List.length_take]; omega
  have h' : Alike w (s ++ t) (s'.take s.length ++ (s'.drop s.length ++ t')) := by
    rw [← List.append_assoc, List.take_append_drop]; exact h
  obtain ⟨hhead, htail⟩ := (alike_append_iff_of_length hlen).1 h'
  have hs' := hhead.symm.append (Alike.refl (w := w) (s'.drop s.length))
  rw [List.take_append_drop] at hs'
  exact ⟨hs', htail⟩

/-- A text can be cut in two places. -/
theorem alike_of_cut (hs : Alike w s' (s ++ x)) (ht : Alike w t (x ++ t')) : Alike w (s ++ t) (s' ++ t') := by
  have h := (Alike.refl s).append ht
  rw [← List.append_assoc] at h
  exact h.trans (hs.symm.append (Alike.refl t'))

/-- **Two cuts of one text**: the first part of one is the first part of the other, with
symbols from its second part. -/
theorem alike_append_iff : Alike w (s ++ t) (s' ++ t') ↔
    (∃ x, Alike w s' (s ++ x) ∧ Alike w t (x ++ t')) ∨ ∃ x, x ≠ [] ∧ Alike w s (s' ++ x) ∧
      Alike w t' (x ++ t) := by
  constructor
  · intro h
    rcases Nat.lt_or_ge s'.length s.length with hlt | hle
    · right
      refine ⟨s.drop s'.length, ?_, h.symm.cut (by omega)⟩
      rw [Ne, List.drop_eq_nil_iff]
      omega
    · left; exact ⟨_, h.cut hle⟩
  · rintro (⟨x, hs, ht⟩ | ⟨x, -, hs, ht⟩)
    · exact alike_of_cut hs ht
    · exact (alike_of_cut hs ht).symm

/-- **Codes of which none begins another** can be read off the front. -/
theorem alike_append_of_code (hs : ∀ x, Alike w s' (s ++ x) → x = []) (hs' : ∀ x, Alike w s (s' ++ x) → x = [])
    (h : Alike w (s ++ t) (s' ++ t')) : Alike w s s' ∧ Alike w t t' := by
  rcases alike_append_iff.1 h with ⟨x, hx, ht⟩ | ⟨x, hne, hx, -⟩
  · have hnil := hs x hx
    subst hnil
    rw [List.append_nil] at hx
    exact ⟨hx.symm, ht⟩
  · exact absurd (hs' x hx) hne

/-! ## Parts -/

/-- The parts of one key are those of the other up to one, which **has taken symbols**
from the parts after it. -/
def Moved (w : α → β) : List (List α) → List (List α) → Prop
  | p :: ps, q :: qs =>
    (∃ x, x ≠ [] ∧ Alike w q (p ++ x) ∧ Alike w ps.flatten (x ++ qs.flatten)) ∨ (Alike w p q ∧ Moved w ps qs)
  | _, _ => False

/-- The last part has nothing to take from. -/
theorem not_moved_singleton (p q : List α) : ¬Moved w [p] [q] := by
  rintro (⟨x, hx, -, h⟩ | ⟨-, h⟩)
  · have := h.length_eq
    simp only [List.flatten_nil, List.length_nil, List.append_nil] at this
    exact hx (List.length_eq_zero_iff.1 this.symm)
  · exact h

/-- **When two keys are the same**, for as many parts. -/
theorem alike_flatten_iff {ps qs : List (List α)} (h : ps.length = qs.length) :
    Alike w ps.flatten qs.flatten ↔ List.Forall₂ (Alike w) ps qs ∨ Moved w ps qs ∨ Moved w qs ps := by
  induction ps generalizing qs with
  | nil =>
    cases qs with
    | nil => simp
    | cons q qs => simp at h
  | cons p ps ih =>
    cases qs with
    | nil => simp at h
    | cons q qs =>
      simp only [List.length_cons, add_left_inj] at h
      have ih := ih h
      rw [List.flatten_cons, List.flatten_cons, alike_append_iff, List.forall₂_cons]
      constructor
      · rintro (⟨x, hq, hrest⟩ | ⟨x, hx, hp, hrest⟩)
        · by_cases hx : x = []
          · -- nothing moves here
            subst hx
            rw [List.append_nil] at hq
            rw [List.nil_append] at hrest
            rcases ih.1 hrest with hall | hm | hm
            · left; exact ⟨hq.symm, hall⟩
            · right; left; right; exact ⟨hq.symm, hm⟩
            · right; right; right; exact ⟨hq, hm⟩
          · right; left; left; exact ⟨x, hx, hq, hrest⟩
        · right; right; left; exact ⟨x, hx, hp, hrest⟩
      · rintro (⟨hpq, hall⟩ | (⟨x, -, hq, hrest⟩ | ⟨hpq, hm⟩) | (⟨x, hx, hp, hrest⟩ | ⟨hqp, hm⟩))
        · left; exact ⟨[], by rw [List.append_nil]; exact hpq.symm, ih.2 (.inl hall)⟩
        · left; exact ⟨x, hq, hrest⟩
        · left; exact ⟨[], by rw [List.append_nil]; exact hpq.symm, ih.2 (.inr (.inl hm))⟩
        · right; exact ⟨x, hx, hp, hrest⟩
        · left; exact ⟨[], by rw [List.append_nil]; exact hqp, ih.2 (.inr (.inr hm))⟩

/-- Symbols in front of a text that is not made of them alone show. -/
theorem eq_nil_of_shift {P : β → Bool} {k l l' y : List β} (hy : ∀ b ∈ y, P b = true) (hk : ∃ b ∈ k, P b = false)
    (h : k ++ l = y ++ (k ++ l')) : y = [] := by
  have hlen : ¬(k.takeWhile P).length = k.length := by
    intro he
    obtain ⟨b, hb, hn⟩ := hk
    have hall := List.takeWhile_eq_self_iff.1 ((List.takeWhile_prefix P).eq_of_length he)
    rw [hall b hb] at hn; cases hn
  have h' := congrArg (List.takeWhile P) h
  rw [List.takeWhile_append_of_pos hy, List.takeWhile_append, List.takeWhile_append, if_neg hlen,
    if_neg hlen] at h'
  have := congrArg List.length h'
  rw [List.length_append] at this
  exact List.length_eq_zero_iff.1 (by omega)

end Alike

/-! ## Strings -/

namespace Collation

variable {C : Collation} {s s' t t' x : Text}

theorem blank_iff {c : Char} : C.weight c = C.weight ' ' ↔ c = ' ' := by
  constructor
  · intro h; exact (C.sign ' ' c (by decide) (by decide) h.symm).symm
  · rintro rfl; rfl

/-- A string is what it compares by, and blanks. -/
theorem map_weight_eq (s : Text) : ∃ n, s.map C.weight = C.key s ++ List.replicate n (C.weight ' ') := by
  refine ⟨((s.map C.weight).rtakeWhile (· == C.weight ' ')).length, ?_⟩
  have hblank : (s.map C.weight).rtakeWhile (· == C.weight ' ') =
      List.replicate ((s.map C.weight).rtakeWhile (· == C.weight ' ')).length (C.weight ' ') := by
    rw [List.eq_replicate_iff]
    exact ⟨rfl, fun b hb => by simpa using List.mem_rtakeWhile_imp hb⟩
  rw [← hblank]
  exact List.rdropWhile_append_rtakeWhile.symm

/-- Texts of ASCII characters are told apart by their upper case. -/
theorem map_toUpper_eq (hs : ∀ c ∈ s, c.toNat < 128) (ht : ∀ c ∈ t, c.toNat < 128) (h : Alike C.weight s t) :
    s.map Char.toUpper = t.map Char.toUpper := by
  induction s generalizing t with
  | nil => rw [List.length_eq_zero_iff.1 h.length_eq.symm]
  | cons a s ih =>
    cases t with
    | nil => simpa using h.length_eq
    | cons b t =>
      unfold Alike at h
      rw [List.map_cons, List.map_cons, List.cons.injEq] at h
      have hab := (C.ascii a b (hs a List.mem_cons_self) (ht b List.mem_cons_self)).1 h.1
      rw [List.map_cons, List.map_cons, hab, ih (fun c hc => hs c (List.mem_cons_of_mem _ hc))
        (fun c hc => ht c (List.mem_cons_of_mem _ hc)) h.2]

theorem eq_of_alike (h : Alike C.weight s t) : C.eq s t = true := by
  rw [eq_iff]; unfold key; rw [h]

theorem eq_nil_iff : C.eq s [] = true ↔ ∀ c ∈ s, c = ' ' := by
  have hnil : C.key [] = [] := rfl
  rw [eq_iff, hnil, key, List.rdropWhile_eq_nil_iff]
  simp [blank_iff]

/-- A string that is all blank does not count at the end. -/
theorem eq_append_blank (s : Text) (h : C.eq x [] = true) : C.eq (s ++ x) s = true := by
  rw [eq_iff, key_append_blank (eq_nil_iff.1 h)]

/-- **A comparison of strings** is one of their symbols, once blanks are added. -/
theorem eq_iff_alike_pad : C.eq s t = true ↔
    ∃ m n, Alike C.weight (s ++ List.replicate m ' ') (t ++ List.replicate n ' ') := by
  constructor
  · intro h
    obtain ⟨i, hi⟩ := C.map_weight_eq s
    obtain ⟨j, hj⟩ := C.map_weight_eq t
    refine ⟨j, i, ?_⟩
    unfold Alike
    rw [List.map_append, List.map_append, hi, hj, eq_iff.1 h, List.map_replicate, List.map_replicate,
      List.append_assoc, List.append_assoc, List.replicate_append_replicate, List.replicate_append_replicate,
      Nat.add_comm]
  · rintro ⟨m, n, h⟩
    have hpad : ∀ k, C.eq (List.replicate k ' ') [] = true := fun k =>
      eq_nil_iff.2 fun c hc => List.eq_of_mem_replicate hc
    exact trans (symm (eq_append_blank s (hpad m))) (trans (eq_of_alike h) (eq_append_blank t (hpad n)))

/-- Strings that do not end in a blank compare by their symbols. -/
theorem eq_iff_alike (hs : ∀ h : s ≠ [], s.getLast h ≠ ' ') (ht : ∀ h : t ≠ [], t.getLast h ≠ ' ') :
    C.eq s t = true ↔ Alike C.weight s t := by
  rw [eq_iff, key_eq_map hs, key_eq_map ht]; rfl

theorem eq_append (hs : Alike C.weight s s') (ht : C.eq t t' = true) : C.eq (s ++ t) (s' ++ t') = true := by
  obtain ⟨m, n, h⟩ := eq_iff_alike_pad.1 ht
  refine eq_iff_alike_pad.2 ⟨m, n, ?_⟩
  rw [List.append_assoc, List.append_assoc]
  exact hs.append h

theorem key_ne_nil (h : C.eq s [] = false) : C.key s ≠ [] := by
  intro hk
  rw [Bool.eq_false_iff] at h
  exact h (eq_iff.2 hk)

/-- What stands before a string that is not blank counts in full. -/
theorem key_append (s : Text) (ht : C.eq t [] = false) : C.key (s ++ t) = s.map C.weight ++ C.key t := by
  have hne : ¬((t.map C.weight).reverse.dropWhile (· == C.weight ' ')).isEmpty = true := by
    rw [List.isEmpty_iff]
    intro h
    exact key_ne_nil ht (congrArg List.reverse h)
  unfold key List.rdropWhile
  rw [List.map_append, List.reverse_append, List.dropWhile_append, if_neg hne, List.reverse_append,
    List.reverse_reverse]

/-- Nothing can stand before a string that is not blank and leave it as it is. -/
theorem eq_nil_of_append (ht : C.eq t [] = false) (h : C.eq t (x ++ t) = true) : x = [] := by
  rw [eq_iff, key_append x ht] at h
  have := congrArg List.length h
  rw [List.length_append, List.length_map] at this
  exact List.length_eq_zero_iff.1 (by omega)

/-- Only blanks can stand after a string and leave it as it is. -/
theorem blank_of_eq_append (h : C.eq s (s ++ x) = true) : C.eq x [] = true := by
  by_contra hx
  have hx := Bool.eq_false_iff.2 hx
  have hlen := congrArg List.length (eq_iff.1 h)
  rw [key_append s hx, List.length_append, List.length_map] at hlen
  have hle : (C.key s).length ≤ s.length := by
    have := (List.rdropWhile_prefix (· == C.weight ' ') (s.map C.weight)).length_le
    rwa [List.length_map] at this
  have hpos := List.length_pos_iff.2 (key_ne_nil hx)
  omega

/-- Blanks can not stand before a string that is not blank, whatever follows it. -/
theorem eq_nil_of_blank (hx : C.eq x [] = true) (hs : C.eq s [] = false) (hss : C.eq s s' = true)
    (h : C.eq (s ++ t) (x ++ (s' ++ t')) = true) : x = [] := by
  obtain ⟨m, n, h⟩ := eq_iff_alike_pad.1 h
  obtain ⟨i, hi⟩ := C.map_weight_eq s
  obtain ⟨j, hj⟩ := C.map_weight_eq s'
  unfold Alike at h
  simp only [List.map_append, hi, hj, eq_iff.1 hss, List.append_assoc] at h
  -- what a string compares by ends in a symbol that is no blank
  have hne : C.key s' ≠ [] := by rw [← eq_iff.1 hss]; exact key_ne_nil hs
  have hshift := eq_nil_of_shift (P := (· == C.weight ' ')) ?_ ?_ h
  · simpa using hshift
  · simpa [blank_iff] using eq_nil_iff.1 hx
  · exact ⟨_, List.getLast_mem hne, Bool.eq_false_iff.2 (List.rdropWhile_last_not _ _ hne)⟩

end Collation

/-! ## Numerals -/

section Numeral

variable {C : Collation}

theorem decimal_signs {n : ℤ} : ∀ c ∈ decimal n, c.toNat < 128 ∧ c.isAlpha = false := by
  intro c hc
  cases n with
  | ofNat n => exact isDigit_ascii (mem_toDigits_isDigit hc)
  | negSucc n =>
    rcases List.mem_cons.1 hc with rfl | hc
    · decide
    · exact isDigit_ascii (mem_toDigits_isDigit hc)

/-- No numeral of a natural number has a minus in front. -/
theorem toDigits_ne_minus (n : ℕ) (t : Text) : Nat.toDigits 10 n ≠ '-' :: t := by
  intro h
  have : '-'.isDigit = true := mem_toDigits_isDigit (n := n) (by rw [h]; exact List.mem_cons_self)
  exact absurd this (by decide)

theorem decimal_inj {m n : ℤ} (h : decimal m = decimal n) : m = n := by
  cases m with
  | ofNat m =>
    cases n with
    | ofNat n => rw [toDigits_inj h]
    | negSucc n => exact absurd h (toDigits_ne_minus m _)
  | negSucc m =>
    cases n with
    | ofNat n => exact absurd h.symm (toDigits_ne_minus n _)
    | negSucc n =>
      have := toDigits_inj (List.cons.inj h).2
      rw [Nat.add_right_cancel this]

/-- **Numerals compare as numbers.** -/
theorem decimal_alike {m n : ℤ} : Alike C.weight (decimal m) (decimal n) ↔ m = n := by
  constructor
  · intro h; exact decimal_inj (map_weight_signs_inj decimal_signs h)
  · rintro rfl; exact Alike.refl _

end Numeral

end Coms4111.Sql
