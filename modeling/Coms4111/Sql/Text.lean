import Mathlib

/-!
# Character strings as a server compares them

Strings are compared by a **collation**: two characters are equal when they have
the same weight, and blanks at the end of a string do not count. `LIKE` goes
character by character over the same weights, with `%`, `_` and the escape `\`.

* `Collation.key`: what a string compares by. `Collation.eq` is equality of keys.
* `Collation.like`: the pattern test.
* `length_splitOn_intercalate`: how many pieces a joined list of texts is split into.
* `numeral_inj`: a text that does not end in a digit, followed by a decimal
  numeral, determines both parts. This is what makes numbered names distinct.
-/

namespace Coms4111.Sql

/-- A character string. -/
abbrev Text := List Char

/-! ## Joining and splitting -/

section Split

variable {α : Type} [BEq α] (x : α)

theorem length_splitOn (w : List α) : (w.splitOn x).length = w.count x + 1 := by
  induction w with
  | nil => rfl
  | cons a w ih =>
    rw [List.splitOn_cons_eq_if_modifyHead, List.count_cons]
    split
    · rw [List.length_cons, ih]
    · rw [List.length_modifyHead, ih, add_zero]

/-- There is one piece for every text, and one more for every separator inside a text. -/
theorem length_splitOn_intercalate [LawfulBEq α] {ls : List (List α)} (h : ls ≠ []) :
    (([x].intercalate ls).splitOn x).length = ls.length + (ls.map (List.count x)).sum := by
  rw [length_splitOn]
  induction ls with
  | nil => exact absurd rfl h
  | cons l ls ih =>
    rcases ls with _ | ⟨m, ls⟩
    · simp only [List.intercalate_singleton, List.length_singleton, List.map_singleton, List.sum_singleton]
      omega
    · have ih := ih (List.cons_ne_nil m ls)
      rw [List.intercalate_cons_cons]
      simp only [List.count_append, List.count_singleton_self, List.length_cons, List.map_cons,
        List.sum_cons] at ih ⊢
      omega

end Split

/-! ## Collations -/

/-- **A collation** that gives every character one weight, and does not tell an
ASCII letter's two cases apart (`utf8_general_ci`). Accented letters may share the
weight of a plain one; a digit, a blank or a sign of ASCII shares its weight with
no other character. -/
structure Collation where
  weight : Char → ℕ
  ascii : ∀ a b : Char, a.toNat < 128 → b.toNat < 128 → (weight a = weight b ↔ a.toUpper = b.toUpper)
  sign : ∀ a b : Char, a.toNat < 128 → a.isAlpha = false → weight a = weight b → a = b

theorem toUpper_cases (c : Char) : c.toUpper = c ∨ c.toUpper.isAlpha = true := by
  unfold Char.toUpper
  split
  · rename_i h
    right
    simp only [Char.isAlpha, Char.isUpper, UInt32.le_iff_toNat_le, ge_iff_le, Bool.or_eq_true,
      decide_eq_true_eq, UInt32.toNat_add] at h ⊢
    left
    have h1 : ('A'.val - 'a'.val).toNat = 4294967264 := rfl
    have h2 : 'A'.val.toNat = 65 := rfl
    have h3 : 'Z'.val.toNat = 90 := rfl
    have h4 : 'a'.val.toNat = 97 := rfl
    have h5 : 'z'.val.toNat = 122 := rfl
    omega
  · left; rfl

/-- What the capital of a letter is not. -/
theorem toUpper_letter {c : Char} (hc : c.isAlpha = true) :
    c.toUpper.toNat < 128 ∧ c.toUpper.toUpper = c.toUpper ∧
    c.toUpper ≠ '%' ∧ c.toUpper ≠ '_' ∧ c.toUpper ≠ '\\' ∧ c.toUpper ≠ ' ' := by
  have hascii : c.toNat < 123 := by
    simp only [Char.isAlpha, Char.isUpper, Char.isLower, UInt32.le_iff_toNat_le, ge_iff_le, Bool.or_eq_true,
      Bool.and_eq_true, decide_eq_true_eq] at hc
    have h1 : 'Z'.val.toNat = 90 := rfl
    have h2 : 'z'.val.toNat = 122 := rfl
    have h3 : c.toNat = c.val.toNat := rfl
    omega
  have hall : ∀ n < 123, (Char.ofNat n).isAlpha = true → (Char.ofNat n).toUpper.toNat < 128 ∧
      (Char.ofNat n).toUpper.toUpper = (Char.ofNat n).toUpper ∧ (Char.ofNat n).toUpper ≠ '%' ∧
      (Char.ofNat n).toUpper ≠ '_' ∧ (Char.ofNat n).toUpper ≠ '\\' ∧ (Char.ofNat n).toUpper ≠ ' ' := by
    decide +kernel
  have h := hall c.toNat hascii
  rw [Char.ofNat_toNat] at h
  exact h hc

/-- The collation that knows ASCII letters only. -/
def asciiCi : Collation where
  weight c := c.toUpper.toNat
  ascii a b _ _ := Char.toNat_inj
  sign a b _ hna h := by
    have hup : a.toUpper = b.toUpper := Char.toNat_inj.1 h
    have ha : a.toUpper = a := by
      unfold Char.toUpper
      rw [dif_neg]
      intro hl
      simp only [Char.isAlpha, Char.isLower, Bool.or_eq_false_iff, Bool.and_eq_false_iff,
        decide_eq_false_iff_not] at hna
      rcases hna.2 with hn | hn
      · exact hn hl.1
      · exact hn hl.2
    rcases toUpper_cases b with hb | hb
    · rw [← ha, hup, hb]
    · rw [← hup, ha, hna] at hb; cases hb

/-- One position of a `LIKE` pattern. -/
inductive Tok
  | many
  | one
  | lit (c : Char)
  deriving DecidableEq

/-- The position a character stands for outside an escape. -/
def tokOf (c : Char) : Tok := if c = '%' then .many else if c = '_' then .one else .lit c

/-- The positions of a pattern. A `\` takes the next character as it is; at the very
end it stands for itself. -/
def tokens : Text → List Tok
  | [] => []
  | [c] => [tokOf c]
  | c :: d :: p => if c = '\\' then .lit d :: tokens p else tokOf c :: tokens (d :: p)

namespace Collation

variable (C : Collation)

/-- What a string compares by: its weights, without the blanks at the end. -/
def key (s : Text) : List ℕ := (s.map C.weight).rdropWhile (· == C.weight ' ')

/-- `s = t`. -/
def eq (s t : Text) : Bool := C.key s == C.key t

/-- `s = t` is true, for columns and variables that may be `NULL`. -/
def eqN : Option Text → Option Text → Bool
  | some s, some t => C.eq s t
  | _, _ => false

/-- Matching against a parsed pattern. -/
def glob : List Tok → Text → Bool
  | [], s => s.isEmpty
  | .many :: p, s => s.tails.any (glob p)
  | .one :: _, [] => false
  | .one :: p, _ :: s => glob p s
  | .lit _ :: _, [] => false
  | .lit c :: p, x :: s => C.weight x == C.weight c && glob p s

/-- `s LIKE p`, with the pattern first. -/
def like (p s : Text) : Bool := C.glob (tokens p) s

/-- `s LIKE p` is true, for a string that may be `NULL`. -/
def likeN (p : Text) : Option Text → Bool
  | some s => C.like p s
  | none => false

end Collation

/-- An integer in decimal, as `CONCAT` writes it. -/
def decimal : ℤ → Text
  | .ofNat n => Nat.toDigits 10 n
  | .negSucc n => '-' :: Nat.toDigits 10 (n + 1)

/-! ## Cutting the end of a list -/

section Cut

variable {α : Type} {P : α → Bool}

theorem rdropWhile_append_all {l d : List α} (hd : ∀ x ∈ d, P x = true) :
    (l ++ d).rdropWhile P = l.rdropWhile P := by
  induction d using List.reverseRecOn with
  | nil => rw [List.append_nil]
  | append_singleton d x ih =>
    rw [← List.append_assoc, List.rdropWhile_concat_pos _ _ _ (hd x (by simp))]
    exact ih fun y hy => hd y (by simp [hy])

theorem rdropWhile_self {l : List α} (hl : ∀ h : l ≠ [], P (l.getLast h) = false) : l.rdropWhile P = l :=
  List.rdropWhile_eq_self_iff.2 fun h => by rw [hl h]; exact Bool.false_ne_true

/-- The cut does not touch a beginning whose last element stays. -/
theorem prefix_rdropWhile {l m : List α} (hl : ∀ h : l ≠ [], P (l.getLast h) = false) :
    l <+: m.rdropWhile P ↔ l <+: m := by
  constructor
  · intro h; exact h.trans (List.rdropWhile_prefix P m)
  rintro ⟨r, rfl⟩
  induction r using List.reverseRecOn with
  | nil => rw [List.append_nil, rdropWhile_self hl]
  | append_singleton r x ih =>
    rw [← List.append_assoc]
    by_cases hx : P x = true
    · rw [List.rdropWhile_concat_pos _ _ _ hx]; exact ih
    · rw [List.rdropWhile_concat_neg _ _ _ hx, List.append_assoc]; exact List.prefix_append _ _

end Cut

/-! ## Keys -/

namespace Collation

variable {C : Collation}

theorem eq_iff {s t : Text} : C.eq s t = true ↔ C.key s = C.key t := by
  simp [Collation.eq]

@[simp] theorem eq_self (s : Text) : C.eq s s = true := eq_iff.2 rfl

theorem eq_symm (s t : Text) : C.eq s t = C.eq t s := by
  rw [Bool.eq_iff_iff, eq_iff, eq_iff]; exact ⟨Eq.symm, Eq.symm⟩

theorem symm {s t : Text} (h : C.eq s t = true) : C.eq t s = true := by rw [eq_symm]; exact h

/-- Equal strings are equal to the same strings. -/
theorem eq_congr {s t : Text} (h : C.eq s t = true) (u : Text) : C.eq s u = C.eq t u := by
  unfold Collation.eq; rw [eq_iff.1 h]

theorem eq_congr_right {s t : Text} (h : C.eq s t = true) (u : Text) : C.eq u s = C.eq u t := by
  unfold Collation.eq; rw [eq_iff.1 h]

theorem trans {s t u : Text} (h : C.eq s t = true) (h' : C.eq t u = true) : C.eq s u = true := by
  rw [eq_congr h]; exact h'

theorem eqN_some {s t : Text} : C.eqN (some s) (some t) = C.eq s t := rfl

theorem eqN_none (o : Option Text) : C.eqN o none = false := by cases o <;> rfl

theorem eqN_symm (o o' : Option Text) : C.eqN o o' = C.eqN o' o := by
  rcases o with _ | s <;> rcases o' with _ | t <;> first | rfl | exact eq_symm _ _

/-- Two strings that are equal to a third. -/
theorem eqN_trans {o o' o'' : Option Text} (h : C.eqN o o' = true) (h' : C.eqN o o'' = true) :
    C.eqN o' o'' = true := by
  match o, o', o'', h, h' with
  | some _, some _, some _, h, h' => exact trans (symm h) h'

/-- A string that does not end in a blank compares by all its characters. -/
theorem key_eq_map {s : Text} (h : ∀ hs : s ≠ [], s.getLast hs ≠ ' ') : C.key s = s.map C.weight := by
  apply rdropWhile_self
  intro hne
  have hs : s ≠ [] := by rintro rfl; exact hne rfl
  rw [List.getLast_map, beq_eq_false_iff_ne]
  intro hw
  exact h hs (C.sign ' ' _ (by decide) (by decide) hw.symm).symm

/-- Blanks at the end do not count. -/
theorem key_append_blank {s d : Text} (hd : ∀ c ∈ d, c = ' ') : C.key (s ++ d) = C.key s := by
  unfold Collation.key
  rw [List.map_append, rdropWhile_append_all]
  intro x hx
  obtain ⟨c, hc, rfl⟩ := List.mem_map.1 hx
  rw [hd c hc, beq_self_eq_true]

end Collation

/-! ## Patterns -/

theorem tokOf_cases (c : Char) : tokOf c = .many ∨ tokOf c = .one ∨ tokOf c = .lit c := by
  unfold tokOf
  split
  · left; rfl
  · right; split
    · left; rfl
    · right; rfl

theorem tokens_cons {c : Char} (hc : c ≠ '\\') (p : Text) : tokens (c :: p) = tokOf c :: tokens p := by
  cases p with
  | nil => rfl
  | cons d p => simp only [tokens, if_neg hc]

theorem tokens_append {p q : Text} (hp : '\\' ∉ p) : tokens (p ++ q) = p.map tokOf ++ tokens q := by
  induction p with
  | nil => rfl
  | cons c p ih =>
    simp only [List.mem_cons, not_or] at hp
    rw [List.cons_append, tokens_cons (Ne.symm hp.1), ih hp.2, List.map_cons, List.cons_append]

namespace Collation

variable {C : Collation}

theorem glob_many_iff {p : List Tok} {s : Text} :
    C.glob (.many :: p) s = true ↔ ∃ k, C.glob p (s.drop k) = true := by
  simp only [glob, List.any_eq_true, List.mem_tails]
  constructor
  · rintro ⟨t, ht, h⟩
    rw [List.suffix_iff_eq_drop] at ht
    exact ⟨_, ht ▸ h⟩
  · rintro ⟨k, h⟩; exact ⟨_, List.drop_suffix k s, h⟩

theorem glob_many_nil (s : Text) : C.glob [.many] s = true :=
  glob_many_iff.2 ⟨s.length, by simp [glob]⟩

/-- A string matches its own beginning followed by `%`, whatever `%` and `_` are in it. -/
theorem like_self {p : Text} (hp : '\\' ∉ p) (s : Text) : C.like (p ++ ['%']) (p ++ s) = true := by
  unfold like
  rw [tokens_append hp]
  clear hp
  induction p with
  | nil => exact glob_many_nil s
  | cons c p ih =>
    simp only [List.map_cons, List.cons_append]
    rcases tokOf_cases c with h | h | h <;> rw [h]
    · exact glob_many_iff.2 ⟨1, ih⟩
    · simpa only [glob] using ih
    · simpa only [glob, beq_self_eq_true, Bool.true_and] using ih

/-- Patterns with the same weights and no escape match the same strings. -/
theorem like_pattern_congr {p q : Text} (hp : '\\' ∉ p) (hq : '\\' ∉ q)
    (h : p.map C.weight = q.map C.weight) (s : Text) :
    C.like (p ++ ['%']) s = C.like (q ++ ['%']) s := by
  unfold like
  rw [tokens_append hp, tokens_append hq]
  clear hp hq
  induction p generalizing q s with
  | nil =>
    have : q = [] := by simpa using h.symm
    rw [this]
  | cons c p ih =>
    cases q with
    | nil => simp at h
    | cons d q =>
      simp only [List.map_cons, List.cons.injEq] at h
      simp only [List.map_cons, List.cons_append]
      have hih := fun s => ih h.2 s
      -- `%` and `_` are told apart from every other character
      have hc : ∀ e : Char, e.toNat < 128 → e.isAlpha = false → (c = e ↔ d = e) := fun e he hna =>
        ⟨fun hce => (C.sign e d he hna (hce ▸ h.1)).symm, fun hde => (C.sign e c he hna (hde ▸ h.1.symm)).symm⟩
      by_cases h1 : c = '%'
      · rw [(hc '%' (by decide) (by decide)).1 h1, h1, Bool.eq_iff_iff]
        simp only [tokOf, if_true]
        rw [glob_many_iff, glob_many_iff]
        simp only [hih]
      · by_cases h2 : c = '_'
        · rw [(hc '_' (by decide) (by decide)).1 h2, h2]
          cases s <;> simp [tokOf, glob, hih]
        · have h1' : d ≠ '%' := fun hd => h1 ((hc '%' (by decide) (by decide)).2 hd)
          have h2' : d ≠ '_' := fun hd => h2 ((hc '_' (by decide) (by decide)).2 hd)
          simp only [tokOf, h1, h2, h1', h2', if_false]
          cases s with
          | nil => rfl
          | cons x s => simp only [glob, h.1, hih]

/-- A plain stem followed by `%` asks for the stem's weights at the front. -/
theorem like_stem {p : Text} (hp : ∀ c ∈ p, tokOf c = .lit c) (hb : '\\' ∉ p) (s : Text) :
    C.like (p ++ ['%']) s = true ↔ p.map C.weight <+: s.map C.weight := by
  unfold like
  rw [tokens_append hb]
  clear hb
  induction p generalizing s with
  | nil =>
    simp only [List.map_nil, List.nil_append, List.nil_prefix, iff_true]
    exact glob_many_nil s
  | cons c p ih =>
    simp only [List.map_cons, List.cons_append, hp c List.mem_cons_self]
    cases s with
    | nil => simp [glob]
    | cons x s =>
      simp only [glob, Bool.and_eq_true, beq_iff_eq, List.map_cons, List.cons_prefix_cons]
      rw [ih (fun d hd => hp d (List.mem_cons_of_mem _ hd))]
      exact ⟨fun h => ⟨h.1.symm, h.2⟩, fun h => ⟨h.1.symm, h.2⟩⟩

/-- Equal strings begin with the same stems, as long as a stem does not end in a blank. -/
theorem like_stem_congr {p : Text} (hp : ∀ c ∈ p, tokOf c = .lit c) (hb : '\\' ∉ p)
    (hlast : ∀ h : p ≠ [], p.getLast h ≠ ' ') {s t : Text} (h : C.eq s t = true) :
    C.like (p ++ ['%']) s = C.like (p ++ ['%']) t := by
  have hcut : ∀ u : Text, p.map C.weight <+: C.key u ↔ p.map C.weight <+: u.map C.weight := by
    intro u
    apply prefix_rdropWhile
    intro hne
    have hne' : p ≠ [] := by rintro rfl; exact hne rfl
    rw [List.getLast_map, beq_eq_false_iff_ne]
    intro hw
    exact hlast hne' (C.sign ' ' _ (by decide) (by decide) hw.symm).symm
  rw [Bool.eq_iff_iff, like_stem hp hb, like_stem hp hb, ← hcut s, ← hcut t, eq_iff.1 h]

end Collation

/-! ## Numerals -/

section Numeral

variable {C : Collation}

theorem isDigit_ascii {c : Char} (h : c.isDigit = true) : c.toNat < 128 ∧ c.isAlpha = false := by
  simp only [Char.isDigit, Bool.and_eq_true, decide_eq_true_eq, UInt32.le_iff_toNat_le, ge_iff_le] at h
  have h0 : '0'.val.toNat = 48 := rfl
  have h9 : '9'.val.toNat = 57 := rfl
  have hc : c.toNat = c.val.toNat := rfl
  refine ⟨by omega, ?_⟩
  have hA : 'A'.val.toNat = 65 := rfl
  have ha : 'a'.val.toNat = 97 := rfl
  simp only [Char.isAlpha, Char.isUpper, Char.isLower, Bool.or_eq_false_iff, Bool.and_eq_false_iff,
    decide_eq_false_iff_not, UInt32.le_iff_toNat_le, ge_iff_le]
  omega

theorem mem_toDigits_isDigit {n : ℕ} {c : Char} (h : c ∈ Nat.toDigits 10 n) : c.isDigit = true :=
  Nat.isDigit_of_mem_toDigits (by decide) (by decide) h

theorem toDigits_inj {n m : ℕ} (h : Nat.toDigits 10 n = Nat.toDigits 10 m) : n = m := by
  have := congrArg (fun ds => Nat.ofDigitChars 10 ds 0) h
  simpa using this

/-- On the digits and signs of ASCII the weight is injective. -/
theorem map_weight_signs_inj : ∀ {s t : Text}, (∀ c ∈ s, c.toNat < 128 ∧ c.isAlpha = false) →
    s.map C.weight = t.map C.weight → s = t := by
  intro s
  induction s with
  | nil => intro t _ h; simpa using h.symm
  | cons a s ih =>
    intro t hs h
    cases t with
    | nil => simp at h
    | cons b t =>
      simp only [List.map_cons, List.cons.injEq] at h
      have ha := hs a List.mem_cons_self
      rw [C.sign a b ha.1 ha.2 h.1, ih (fun c hc => hs c (List.mem_cons_of_mem _ hc)) h.2]

/-- **A stem and a number.** Two texts that do not end in a digit, each followed by
a numeral, compare equal only if the texts have the same weights and the numbers
are equal. -/
theorem numeral_inj {s t : Text} {n m : ℕ} (hs : ∀ h : s ≠ [], (s.getLast h).isDigit = false)
    (ht : ∀ h : t ≠ [], (t.getLast h).isDigit = false)
    (h : C.eq (s ++ Nat.toDigits 10 n) (t ++ Nat.toDigits 10 m) = true) :
    s.map C.weight = t.map C.weight ∧ n = m := by
  classical
  -- a numeral does not end in a blank, so the keys are the full weights
  have hlast : ∀ (s : Text) (n : ℕ) (hne : s ++ Nat.toDigits 10 n ≠ []),
      (s ++ Nat.toDigits 10 n).getLast hne ≠ ' ' := by
    intro s n hne hb
    rw [List.getLast_append_of_ne_nil _ Nat.toDigits_ne_nil] at hb
    have := mem_toDigits_isDigit (List.getLast_mem (Nat.toDigits_ne_nil (b := 10) (n := n)))
    rw [hb] at this; exact absurd this (by decide)
  rw [Collation.eq_iff, Collation.key_eq_map (hlast s n), Collation.key_eq_map (hlast t m), List.map_append,
    List.map_append] at h
  -- drop the weights of digits from the right on both sides
  let P : ℕ → Bool := fun w => decide (∃ c : Char, c.isDigit = true ∧ C.weight c = w)
  have hd : ∀ n, ∀ x ∈ (Nat.toDigits 10 n).map C.weight, P x = true := by
    intro n x hx
    obtain ⟨c, hc, rfl⟩ := List.mem_map.1 hx
    simpa [P] using ⟨c, mem_toDigits_isDigit hc, rfl⟩
  have hl : ∀ s : Text, (∀ h : s ≠ [], (s.getLast h).isDigit = false) →
      ∀ h : s.map C.weight ≠ [], P ((s.map C.weight).getLast h) = false := by
    intro s hs h
    have hne : s ≠ [] := by rintro rfl; exact h rfl
    rw [List.getLast_map]
    simp only [P, decide_eq_false_iff_not, not_exists, not_and]
    intro c hc hw
    have hca := isDigit_ascii hc
    rw [C.sign c _ hca.1 hca.2 hw, hs hne] at hc
    exact absurd hc Bool.false_ne_true
  have h1 := congrArg (List.rdropWhile P) h
  rw [rdropWhile_append_all (hd n), rdropWhile_append_all (hd m), rdropWhile_self (hl s hs),
    rdropWhile_self (hl t ht)] at h1
  rw [h1] at h
  exact ⟨h1, toDigits_inj (map_weight_signs_inj (fun c hc => isDigit_ascii (mem_toDigits_isDigit hc))
    (List.append_cancel_left h))⟩

end Numeral

end Coms4111.Sql
