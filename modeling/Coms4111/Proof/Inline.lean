import Coms4111.Proof.Requests

/-!
# Inline requests

`sdssplitargs` reads what `sdscatrepr` writes, for all bytes. So every command can be sent in one
line, except that arguments without bytes are dropped.

* `sdssplitargs_reprLine`: arguments in a line are read back.
* `inline_requests`: so is a request that ends in `\r\n`. If it ends in `\n` alone the first byte of
  what follows is lost, because `processInlineBuffer` drops two bytes in any case.
-/

namespace Coms4111.Server

open Store

/-- Arguments in a line, as `sdscatrepr` writes each of them. -/
def reprLine : List Bytes → Bytes
  | [] => []
  | [arg] => sdscatrepr [] arg
  | arg :: argv => sdscatrepr [] arg ++ 32 :: reprLine argv

/-! ## One byte -/

theorem isHexDigit_hexDigit : ∀ n < 16, isHexDigit (hexDigit n) = true ∧ hexDigitToInt (hexDigit n) = n := by
  decide

/-- **A byte in quotes is read as it was written.** -/
theorem splitToken_reprByte (current : Bytes) (b : UInt8) (p : Bytes) :
    splitToken .inq current (reprByte b ++ p) = splitToken .inq (current ++ [b]) p := by
  unfold reprByte
  split_ifs with hquote hn hr ht ha hb hprint
  · rcases hquote with rfl | rfl
    · simp [splitToken, unescape]
    · simp [splitToken, unescape]
  · subst hn
    simp [ascii, splitToken, unescape]
  · subst hr
    simp [ascii, splitToken, unescape]
  · subst ht
    simp [ascii, splitToken, unescape]
  · subst ha
    simp [ascii, splitToken, unescape]
  · subst hb
    simp [ascii, splitToken, unescape]
  · rw [not_or] at hquote
    rw [List.singleton_append, splitToken]
    · rw [if_neg hquote.2]
    · intro h l q hb
      exact absurd hb hquote.1
    · intro e q hb
      exact absurd hb hquote.1
  · have hlt := b.toNat_lt
    obtain ⟨hhigh, hhigh'⟩ := isHexDigit_hexDigit (b.toNat / 16) (by omega)
    obtain ⟨hlow, hlow'⟩ := isHexDigit_hexDigit (b.toNat % 16) (by omega)
    have hbyte : UInt8.ofNat (b.toNat / 16 * 16 + b.toNat % 16) = b := by
      rw [Nat.div_add_mod']
      exact UInt8.ofNat_toNat
    have hx : ascii "\\x" ++ [hexDigit (b.toNat / 16), hexDigit (b.toNat % 16)] ++ p =
        92 :: 120 :: hexDigit (b.toNat / 16) :: hexDigit (b.toNat % 16) :: p := rfl
    rw [hx, splitToken, hhigh, hlow, hhigh', hlow', hbyte]
    rfl

theorem le_hexDigit : ∀ n < 16, 32 ≤ hexDigit n := by decide

theorem le_of_mem_pair {a b x : UInt8} (ha : 32 ≤ a) (hb : 32 ≤ b) (hx : x ∈ [a, b]) : 32 ≤ x := by
  simp only [List.mem_cons, List.not_mem_nil, or_false] at hx
  rcases hx with rfl | rfl
  · exact ha
  · exact hb

/-- What is written contains neither zeros nor line breaks. -/
theorem le_reprByte {b x : UInt8} (hx : x ∈ reprByte b) : 32 ≤ x := by
  have hescape : ∀ e : UInt8, 32 ≤ e → x ∈ [92, e] → 32 ≤ x := fun e he => le_of_mem_pair (by decide) he
  unfold reprByte at hx
  split_ifs at hx with hquote hn hr ht ha hb hprint
  · refine hescape b ?_ hx
    rcases hquote with rfl | rfl <;> decide
  · exact hescape 110 (by decide) hx
  · exact hescape 114 (by decide) hx
  · exact hescape 116 (by decide) hx
  · exact hescape 97 (by decide) hx
  · exact hescape 98 (by decide) hx
  · rw [List.mem_singleton] at hx
    rw [hx]
    exact (decide_eq_true_iff.1 hprint).1
  · have hlt := b.toNat_lt
    rcases List.mem_append.1 hx with hx | hx
    · exact hescape 120 (by decide) hx
    · exact le_of_mem_pair (le_hexDigit _ (by omega)) (le_hexDigit _ (by omega)) hx

/-! ## A line -/

theorem splitToken_quoted (current arg p : Bytes) :
    splitToken .inq current (arg.flatMap reprByte ++ 34 :: p) = closed (current ++ arg) p := by
  induction arg generalizing current with
  | nil =>
    rw [List.flatMap_nil, List.nil_append, List.append_nil, splitToken, if_pos rfl]
    · intro h l q hb
      exact absurd hb (by decide)
    · intro e q hb
      exact absurd hb (by decide)
  | cons b arg ih =>
    rw [List.flatMap_cons, List.append_assoc, splitToken_reprByte, ih, List.append_assoc, List.singleton_append]

theorem reprLine_cons (arg : Bytes) (argv : List Bytes) :
    reprLine (arg :: argv) =
      34 :: (arg.flatMap reprByte ++ 34 :: if argv = [] then [] else 32 :: reprLine argv) := by
  cases argv with
  | nil => simp [reprLine, sdscatrepr]
  | cons arg' argv => simp [reprLine, sdscatrepr]

/-- A token is read up to the space behind it. -/
theorem splitToken_reprLine (arg : Bytes) (argv : List Bytes) :
    splitToken .bare [] (reprLine (arg :: argv)) = some (arg, if argv = [] then [] else 32 :: reprLine argv) := by
  have hspace : closed arg (if argv = [] then [] else 32 :: reprLine argv) =
      some (arg, if argv = [] then [] else 32 :: reprLine argv) := by
    split_ifs
    · rfl
    · rfl
  rw [reprLine_cons, splitToken, if_neg (by decide), if_pos rfl, splitToken_quoted, List.nil_append]
  exact hspace

theorem splitLoop_reprLine {argv : List Bytes} {n : ℕ} (hn : argv.length < n) :
    splitLoop n (reprLine argv) = some argv ∧ splitLoop n (32 :: reprLine argv) = some argv := by
  -- blanks before a line make no difference
  have hblank : ∀ n p, splitLoop n (32 :: p) = splitLoop n p := by
    intro n p
    cases n with
    | zero => rfl
    | succ n =>
      rw [splitLoop, splitLoop, List.dropWhile_cons_of_pos (by decide)]
  rw [hblank, and_self]
  induction argv generalizing n with
  | nil =>
    obtain ⟨n, rfl⟩ := Nat.exists_eq_succ_of_ne_zero (by omega : n ≠ 0)
    rfl
  | cons arg argv ih =>
    obtain ⟨n, rfl⟩ := Nat.exists_eq_succ_of_ne_zero (by omega : n ≠ 0)
    rw [List.length_cons] at hn
    have hdrop : (reprLine (arg :: argv)).dropWhile isspace = reprLine (arg :: argv) := by
      rw [reprLine_cons, List.dropWhile_cons_of_neg (by decide)]
    have hrest : splitLoop n (if argv = [] then [] else 32 :: reprLine argv) = some argv := by
      split_ifs with hnil
      · have hih := ih (n := n) (by omega)
        rw [hnil] at hih ⊢
        exact hih
      · rw [hblank]
        exact ih (by omega)
    have htoken := splitToken_reprLine arg argv
    rw [splitLoop, hdrop]
    rw [reprLine_cons] at htoken ⊢
    simp only [htoken, Option.bind_eq_bind, Option.bind_some, hrest]
    rfl

theorem le_reprLine (argv : List Bytes) : ∀ x ∈ reprLine argv, 32 ≤ x := by
  induction argv with
  | nil => exact fun x hx => absurd hx List.not_mem_nil
  | cons arg argv ih =>
    intro x hx
    rw [reprLine_cons, List.mem_cons, List.mem_append, List.mem_cons] at hx
    rcases hx with rfl | hx | rfl | hx
    · decide
    · obtain ⟨b, -, hb⟩ := List.mem_flatMap.1 hx
      exact le_reprByte hb
    · decide
    · split_ifs at hx
      · exact absurd hx List.not_mem_nil
      · rcases List.mem_cons.1 hx with rfl | hx
        · decide
        · exact ih x hx

theorem reprLine_bytes (argv : List Bytes) : ∀ x ∈ reprLine argv, x ≠ 10 ∧ x ≠ 0 ∧ x ≠ 13 := by
  intro x hx
  have hle := le_reprLine argv x hx
  refine ⟨?_, ?_, ?_⟩
  · rintro rfl
    exact absurd hle (by decide)
  · rintro rfl
    exact absurd hle (by decide)
  · rintro rfl
    exact absurd hle (by decide)

theorem length_le_reprLine (argv : List Bytes) : argv.length ≤ (reprLine argv).length := by
  induction argv with
  | nil => exact Nat.le_refl 0
  | cons arg argv ih =>
    rw [reprLine_cons, List.length_cons, List.length_cons, List.length_append, List.length_cons]
    split_ifs with hnil
    · rw [hnil, List.length_nil]
      omega
    · rw [List.length_cons]
      omega

/-- **Arguments in a line are read back.** -/
theorem sdssplitargs_reprLine (argv : List Bytes) : sdssplitargs (reprLine argv) = some argv := by
  have hline : (reprLine argv ++ []).takeWhile (· ≠ 0) = reprLine argv ++ [].takeWhile (· ≠ 0) :=
    List.takeWhile_append_of_pos fun x hx => decide_eq_true (reprLine_bytes argv x hx).2.1
  rw [List.takeWhile_nil, List.append_nil] at hline
  have hlen := length_le_reprLine argv
  rw [sdssplitargs, hline]
  exact (splitLoop_reprLine (by omega)).1

/-! ## A request -/

/-- **Inline requests.** Arguments in a line are read back, and a command in a line arrives without
its empty ones. Behind `\r\n` the next request follows; behind `\n` alone it has lost its first byte. -/
theorem inline_requests (c : Client) (argv : List Bytes) (rest : Bytes) :
    sdssplitargs (reprLine argv) = some argv ∧
      processInlineBuffer { c with querybuf := reprLine argv ++ 13 :: 10 :: rest } =
        (true, { c with querybuf := rest, argv := argv.filter (· ≠ []) }) ∧
      processInlineBuffer { c with querybuf := reprLine argv ++ 10 :: rest } =
        (true, { c with querybuf := rest.drop 1, argv := argv.filter (· ≠ []) }) := by
  have hbytes := reprLine_bytes argv
  have hsplit := sdssplitargs_reprLine argv
  generalize reprLine argv = line at hbytes hsplit ⊢
  refine ⟨hsplit, ?_, ?_⟩
  · have hnewline : strchr (line ++ 13 :: 10 :: rest) 0 10 = some (line.length + 1) := by
      have hcr : ∀ x ∈ line ++ [13], x ≠ 10 ∧ x ≠ 0 := by
        intro x hx
        rcases List.mem_append.1 hx with hx | hx
        · exact ⟨(hbytes x hx).1, (hbytes x hx).2.1⟩
        · rw [List.mem_singleton.1 hx]
          decide
      have hfound : strchr (line ++ [13] ++ 10 :: rest) 0 10 = some (line ++ [13]).length :=
        strchr_append (by decide) hcr
      rwa [List.append_assoc, List.length_append] at hfound
    have hcr : line.length + 1 ≠ 0 ∧ byteAt (line ++ 13 :: 10 :: rest) line.length = 13 :=
      ⟨by omega, byteAt_append rfl⟩
    unfold processInlineBuffer
    simp only [hnewline, Nat.add_sub_cancel, if_pos hcr, List.take_left, hsplit]
    rw [List.drop_append, List.drop_of_length_le (by omega), Nat.add_sub_cancel_left]
    rfl
  · have hnewline : strchr (line ++ 10 :: rest) 0 10 = some line.length :=
      strchr_append (by decide) fun x hx => ⟨(hbytes x hx).1, (hbytes x hx).2.1⟩
    have hcr : ¬(line.length ≠ 0 ∧ byteAt (line ++ 10 :: rest) (line.length - 1) = 13) := by
      rintro ⟨hpos, hlast⟩
      have hlt : line.length - 1 < line.length := by omega
      have hmem : byteAt (line ++ 10 :: rest) (line.length - 1) ∈ line := by
        rw [byteAt, List.getD_eq_getElem?_getD, List.getElem?_append_left hlt, List.getElem?_eq_getElem hlt,
          Option.getD_some]
        exact List.getElem_mem hlt
      exact (hbytes _ hmem).2.2 hlast
    unfold processInlineBuffer
    simp only [hnewline, if_neg hcr, List.take_left, hsplit]
    rw [List.drop_append, List.drop_of_length_le (by omega), Nat.add_sub_cancel_left]
    rfl

end Coms4111.Server
