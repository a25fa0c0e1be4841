import Coms4111.Spec.Ziplist

/-!
# Numbers are stored under their own text

`string2ll` takes a text for a number only if it is the text that the server would write for
it. So a ziplist may keep the number instead of the text.

* `text_of_string2ll`: `ll2string` gives back the text that `string2ll` has read, and so does
  `sdsfromlonglong` (`sdsfromlonglong_eq`).
* `string2ll_digits`: and it reads every number up to its bound.
* `length_ll2string`: how long the text is (`sdigits10`).
-/

namespace Coms4111.Server

open Store

/-- The digits of a number, without leading zeros. -/
def digits (n : ℕ) : Bytes := if n < 10 then [digit n] else digits (n / 10) ++ [digit (n % 10)]

theorem digits_step {n d : ℕ} (hn : 0 < n) (hd : d < 10) : digits (n * 10 + d) = digits n ++ [digit d] := by
  rw [digits, if_neg (by omega), show (n * 10 + d) / 10 = n by omega, show (n * 10 + d) % 10 = d by omega]

theorem digits_of_ten_le {n : ℕ} (hn : 10 ≤ n) : digits n = digits (n / 10) ++ [digit (n % 10)] := by
  rw [digits, if_neg (by omega)]

theorem ll2stringLoop_eq (n : ℕ) (dst : Bytes) : ll2stringLoop n dst = digits n ++ dst := by
  fun_induction ll2stringLoop n dst with
  | case1 n dst h1 h2 => rw [digits, if_pos h2]; rfl
  | case2 n dst h1 h2 =>
    rw [digits, if_neg h2, digits, if_pos (by omega)]
    rfl
  | case3 n dst h1 ih =>
    rw [ih, digits_of_ten_le (show 10 ≤ n by omega), digits_of_ten_le (show 10 ≤ n / 10 by omega),
      show n / 10 / 10 = n / 100 by omega, show n / 10 % 10 = n % 100 / 10 by omega,
      show n % 100 % 10 = n % 10 by omega]
    simp only [List.append_assoc, List.cons_append, List.nil_append]

theorem sdsll2strLoop_eq (n : ℕ) : (sdsll2strLoop n).reverse = digits n := by
  fun_induction sdsll2strLoop n with
  | case1 n ih =>
    rw [List.reverse_cons]
    split_ifs with h
    · rw [digits, if_pos (by omega), show n % 10 = n by omega]
      rfl
    · rw [ih h, ← digits_of_ten_le (by omega)]

theorem sdsfromlonglong_eq (v : ℤ) : sdsfromlonglong v = ll2string v := by
  unfold sdsfromlonglong ll2string
  rw [List.reverse_append, sdsll2strLoop_eq, ll2stringLoop_eq, List.append_nil]
  split_ifs <;> rfl

theorem length_digits_div (j : ℕ) {n : ℕ} (hn : 10 ^ j ≤ n) :
    (digits n).length = (digits (n / 10 ^ j)).length + j := by
  induction j generalizing n with
  | zero => rw [Nat.pow_zero, Nat.div_one, Nat.add_zero]
  | succ j ih =>
    have hpow : 10 ^ (j + 1) = 10 * 10 ^ j := by rw [Nat.pow_succ, Nat.mul_comm]
    have hpos : 0 < 10 ^ j := Nat.pow_pos (by decide)
    have hten : 10 ≤ n := by omega
    have hdiv : 10 ^ j ≤ n / 10 := (Nat.le_div_iff_mul_le (by decide)).2 (by omega)
    rw [digits_of_ten_le hten, List.length_append, List.length_singleton, ih hdiv, hpow, ← Nat.div_div_eq_div_mul]
    omega

/-- The number of digits, between two powers of ten. -/
theorem length_digits {k n : ℕ} (hlow : 10 ^ k ≤ n) (hhigh : n < 10 ^ (k + 1)) : (digits n).length = k + 1 := by
  have hlt : n / 10 ^ k < 10 := by
    rw [Nat.div_lt_iff_lt_mul (Nat.pow_pos (by decide)), Nat.mul_comm, ← Nat.pow_succ]
    exact hhigh
  rw [length_digits_div k hlow, digits, if_pos hlt, List.length_singleton, Nat.add_comm]

theorem length_digits_le (k : ℕ) {n : ℕ} (hn : n < 10 ^ (k + 1)) : (digits n).length ≤ k + 1 := by
  induction k with
  | zero =>
    have h10 : n < 10 := hn
    rw [digits, if_pos h10]
    exact Nat.le_refl _
  | succ k ih =>
    by_cases h : n < 10 ^ (k + 1)
    · exact Nat.le_succ_of_le (ih h)
    · exact Nat.le_of_eq (length_digits (Nat.not_lt.1 h) hn)

theorem digits10_eq (n : ℕ) : digits10 n = (digits n).length := by
  induction n using Nat.strongRecOn with
  | ind n ih =>
    rw [digits10]
    by_cases h12 : n < 10 ^ 12
    · by_cases h1 : n < 10
      · rw [if_pos h1, digits, if_pos h1]
        rfl
      · rw [if_neg h1]
        split_ifs
        · exact (length_digits (k := 1) (by omega) (by omega)).symm
        · exact (length_digits (k := 2) (by omega) (by omega)).symm
        · exact (length_digits (k := 3) (by omega) (by omega)).symm
        · exact (length_digits (k := 5) (by omega) (by omega)).symm
        · exact (length_digits (k := 4) (by omega) (by omega)).symm
        · exact (length_digits (k := 7) (by omega) (by omega)).symm
        · exact (length_digits (k := 6) (by omega) (by omega)).symm
        · exact (length_digits (k := 9) (by omega) (by omega)).symm
        · exact (length_digits (k := 8) (by omega) (by omega)).symm
        · exact (length_digits (k := 11) (by omega) (by omega)).symm
        · exact (length_digits (k := 10) (by omega) (by omega)).symm
    · rw [if_neg (by omega), if_neg (by omega), if_neg (by omega), if_neg h12,
        ih (n / 10 ^ 12) (by omega), Nat.add_comm, length_digits_div (n := n) 12 (by omega)]

/-- **How long the text of a number is.** -/
theorem length_ll2string (v : ℤ) : (ll2string v).length = sdigits10 v := by
  unfold ll2string sdigits10
  simp only [ll2stringLoop_eq, List.append_nil, digits10_eq]
  split_ifs <;> rfl

theorem length_ll2string_le {v : ℤ} (h1 : -2 ^ 63 ≤ v) (h2 : v < 2 ^ 63) : (ll2string v).length ≤ 20 := by
  have hle := length_digits_le 18 (n := v.natAbs) (by omega)
  unfold ll2string
  simp only [ll2stringLoop_eq, List.append_nil]
  split_ifs
  · rw [List.length_cons]; omega
  · omega

theorem digit_toNat {c : UInt8} (h : isDigit c = true) : c.toNat - 48 < 10 ∧ digit (c.toNat - 48) = c := by
  simp only [isDigit, decide_eq_true_eq] at h
  have h1 : 48 ≤ c.toNat := UInt8.le_iff_toNat_le.1 h.1
  have h2 : c.toNat ≤ 57 := UInt8.le_iff_toNat_le.1 h.2
  refine ⟨by omega, ?_⟩
  rw [digit, show 48 + (c.toNat - 48) = c.toNat by omega]
  exact UInt8.ofNat_toNat

/-- The loop reads on the digits of what it has read. -/
theorem string2llLoop_eq {cs : Bytes} {v r : ℕ} (hv : 0 < v) (h : string2llLoop v cs = some r) :
    v ≤ r ∧ digits r = digits v ++ cs := by
  induction cs generalizing v with
  | nil =>
    rw [string2llLoop] at h
    cases h
    exact ⟨Nat.le_refl _, (List.append_nil _).symm⟩
  | cons c cs ih =>
    rw [string2llLoop] at h
    split_ifs at h with hc h1 h2
    obtain ⟨hlt, hdigit⟩ := digit_toNat hc
    obtain ⟨hle, hr⟩ := ih (by omega) h
    refine ⟨by omega, ?_⟩
    rw [hr, digits_step hv hlt, hdigit, List.append_assoc]
    rfl

/-- A first digit that is not 0, and the digits after it. -/
theorem digits_of_loop {c : UInt8} {cs : Bytes} {r : ℕ} (hc : 49 ≤ c ∧ c ≤ 57)
    (h : string2llLoop (c.toNat - 48) cs = some r) : 0 < r ∧ digits r = c :: cs := by
  have h49 : 49 ≤ c.toNat := UInt8.le_iff_toNat_le.1 hc.1
  have hdig : isDigit c = true := by
    simp only [isDigit, decide_eq_true_eq]
    exact ⟨UInt8.le_trans (by decide) hc.1, hc.2⟩
  obtain ⟨hlt, hdigit⟩ := digit_toNat hdig
  obtain ⟨hle, hr⟩ := string2llLoop_eq (by omega) h
  refine ⟨by omega, ?_⟩
  rw [hr, digits, if_pos hlt, hdigit]
  rfl

theorem ll2string_neg {n : ℕ} (hn : 0 < n) : ll2string (-(n : ℤ)) = 45 :: digits n := by
  rw [ll2string, if_pos (by omega), ll2stringLoop_eq, List.append_nil, Int.natAbs_neg, Int.natAbs_natCast]

theorem ll2string_natCast (n : ℕ) : ll2string (n : ℤ) = digits n := by
  rw [ll2string, if_neg (by omega), ll2stringLoop_eq, List.append_nil, Int.natAbs_natCast]

/-- **The text of a number that `string2ll` has read is the text it was read from.** -/
theorem text_of_string2ll {s : Bytes} {v : ℤ} (h : string2ll s = some v) :
    ll2string v = s ∧ -2 ^ 63 ≤ v ∧ v < 2 ^ 63 := by
  unfold string2ll at h
  simp only at h
  split_ifs at h with h1 h2 hneg
  · cases h
    rw [h2]
    decide +kernel
  · cases s with
    | nil => exact absurd rfl h1
    | cons b s =>
      obtain rfl : b = 45 := hneg
      rw [List.drop_one, List.tail_cons] at h
      cases s with
      | nil => cases h
      | cons c cs =>
        simp only at h
        split_ifs at h with hc
        cases hl : string2llLoop (c.toNat - 48) cs with
        | none => rw [hl] at h; cases h
        | some r =>
          obtain ⟨hpos, hr⟩ := digits_of_loop hc hl
          rw [hl] at h
          simp only at h
          split_ifs at h with hbig
          cases h
          exact ⟨by rw [ll2string_neg hpos, hr], by omega, by omega⟩
  · cases s with
    | nil => cases h
    | cons c cs =>
      simp only at h
      split_ifs at h with hc
      cases hl : string2llLoop (c.toNat - 48) cs with
      | none => rw [hl] at h; cases h
      | some r =>
        obtain ⟨-, hr⟩ := digits_of_loop hc hl
        rw [hl] at h
        simp only at h
        split_ifs at h with hbig
        cases h
        exact ⟨by rw [ll2string_natCast, hr], by omega, by omega⟩

theorem string2llLoop_concat (v : ℕ) (cs : Bytes) (c : UInt8) :
    string2llLoop v (cs ++ [c]) = (string2llLoop v cs).bind fun r => string2llLoop r [c] := by
  induction cs generalizing v with
  | nil => rfl
  | cons b cs ih =>
    rw [List.cons_append, string2llLoop, string2llLoop]
    split_ifs
    · rfl
    · rfl
    · exact ih _
    · rfl

theorem digit_eq {d : ℕ} (hd : d < 10) : (digit d).toNat = 48 + d ∧ isDigit (digit d) = true := by
  have htoNat : (digit d).toNat = 48 + d := by
    rw [digit, UInt8.toNat_ofNat']
    omega
  refine ⟨htoNat, ?_⟩
  simp only [isDigit, decide_eq_true_eq, UInt8.le_iff_toNat_le, htoNat]
  exact ⟨Nat.le_add_right 48 d, show 48 + d ≤ 57 by omega⟩

theorem isDigit_of_mem {n : ℕ} {b : UInt8} (hb : b ∈ digits n) : isDigit b = true := by
  induction n using Nat.strongRecOn with
  | _ n ih =>
    rw [digits] at hb
    split_ifs at hb with hn
    · rw [List.mem_singleton.1 hb]
      exact (digit_eq hn).2
    · rw [List.mem_append, List.mem_singleton] at hb
      rcases hb with hb | rfl
      · exact ih (n / 10) (by omega) hb
      · exact (digit_eq (Nat.mod_lt n (by decide))).2

/-- The loop reads the digits of a number. -/
theorem string2llLoop_digits {n : ℕ} (hpos : 0 < n) (hmax : n ≤ ullongMax) :
    ∃ c cs, digits n = c :: cs ∧ (49 ≤ c ∧ c ≤ 57) ∧ string2llLoop (c.toNat - 48) cs = some n := by
  induction n using Nat.strongRecOn with
  | _ n ih =>
    by_cases hn : n < 10
    · have htoNat := (digit_eq hn).1
      refine ⟨digit n, [], by rw [digits, if_pos hn], ?_, ?_⟩
      · rw [UInt8.le_iff_toNat_le, UInt8.le_iff_toNat_le, htoNat]
        exact ⟨show 49 ≤ 48 + n by omega, show 48 + n ≤ 57 by omega⟩
      · rw [htoNat, Nat.add_sub_cancel_left]
        rfl
    · obtain ⟨c, cs, hdigits, hc, hloop⟩ := ih (n / 10) (by omega) (by omega) (by omega)
      have hlast := digit_eq (Nat.mod_lt n (by decide : 0 < 10))
      refine ⟨c, cs ++ [digit (n % 10)], ?_, hc, ?_⟩
      · rw [digits_of_ten_le (by omega), hdigits, List.cons_append]
      · rw [string2llLoop_concat, hloop, Option.bind_some, string2llLoop, if_pos hlast.2, hlast.1,
          Nat.add_sub_cancel_left]
        have hle : ¬ullongMax / 10 < n / 10 := by omega
        have hle' : ¬ullongMax - n % 10 < n / 10 * 10 := by omega
        rw [if_neg hle, if_neg hle', string2llLoop]
        exact congrArg some (by omega)

/-- **Every number is read from its digits.** -/
theorem string2ll_digits {n : ℕ} (hn : n < 2 ^ 63) : string2ll (digits n) = some (n : ℤ) := by
  rcases Nat.eq_zero_or_pos n with rfl | hpos
  · decide +kernel
  · have hmax : n ≤ ullongMax := by unfold ullongMax; omega
    obtain ⟨c, cs, hdigits, hc, hloop⟩ := string2llLoop_digits hpos hmax
    have h49 : 49 ≤ c.toNat := UInt8.le_iff_toNat_le.1 hc.1
    have hzero : c :: cs ≠ [48] := by
      intro heq
      rw [(List.cons.inj heq).1] at h49
      exact absurd h49 (by decide)
    have hminus : byteAt (c :: cs) 0 ≠ 45 := by
      intro heq
      rw [show c = 45 from heq] at h49
      exact absurd h49 (by decide)
    rw [hdigits, string2ll, if_neg (by rw [List.length_cons]; omega), if_neg hzero]
    simp only [if_neg hminus, if_pos hc, hloop]
    rw [if_neg (by omega)]

end Coms4111.Server
