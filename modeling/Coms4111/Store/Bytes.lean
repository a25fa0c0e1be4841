import Mathlib.Algebra.Group.Int.Defs
import Mathlib.Algebra.Group.Nat.Defs
import Mathlib.Tactic.Common

/-!
# Byte buffers

A buffer is a list of bytes, a pointer into it an offset. Reading and writing are stated for
buffers that are split at the offset: what is before it, what is read or overwritten, and the
rest.
-/

namespace Coms4111.Store

abbrev Bytes := List UInt8

/-! ## Little-endian numbers -/

/-- The `n` bytes of a number, the lowest first. -/
def leBytes : ℕ → ℕ → Bytes
  | 0, _ => []
  | n + 1, v => UInt8.ofNat v :: leBytes n (v / 256)

/-- The number that bytes stand for, the lowest first. -/
def ofLe : Bytes → ℕ
  | [] => 0
  | b :: bs => b.toNat + 256 * ofLe bs

@[simp] theorem length_leBytes (n v : ℕ) : (leBytes n v).length = n := by
  induction n generalizing v with
  | zero => rfl
  | succ n ih => rw [leBytes, List.length_cons, ih]

theorem ofLe_leBytes (n v : ℕ) : ofLe (leBytes n v) = v % 256 ^ n := by
  induction n generalizing v with
  | zero => rw [Nat.pow_zero, Nat.mod_one]; rfl
  | succ n ih =>
    have hb : (UInt8.ofNat v).toNat = v % 256 := UInt8.toNat_ofNat'
    rw [leBytes, ofLe, ih, hb, Nat.pow_succ, Nat.mul_comm (256 ^ n), Nat.mod_mul]

theorem ofLe_leBytes_of_lt {n v : ℕ} (h : v < 256 ^ n) : ofLe (leBytes n v) = v := by
  rw [ofLe_leBytes, Nat.mod_eq_of_lt h]

theorem leBytes_mod (n v : ℕ) : leBytes n (v % 256 ^ n) = leBytes n v := by
  induction n generalizing v with
  | zero => rfl
  | succ n ih =>
    have hlow : UInt8.ofNat (v % 256 ^ (n + 1)) = UInt8.ofNat v := by
      rw [← UInt8.toNat_inj, UInt8.toNat_ofNat', UInt8.toNat_ofNat']
      exact Nat.mod_mod_of_dvd v ⟨256 ^ n, by rw [Nat.pow_succ, Nat.mul_comm]⟩
    have hhigh : v % 256 ^ (n + 1) / 256 = v / 256 % 256 ^ n := by
      rw [Nat.pow_succ, Nat.mul_comm, Nat.mod_mul_right_div_self]
    rw [leBytes, leBytes, hlow, hhigh, ih]

/-- The `n` bytes of a signed number. -/
def signedBytes (n : ℕ) (v : ℤ) : Bytes := leBytes n (v % (256 ^ n : ℕ)).toNat

/-- The signed number that bytes stand for. -/
def ofSigned (bs : Bytes) : ℤ := (ofLe bs : ℤ).bmod (256 ^ bs.length)

@[simp] theorem length_signedBytes (n : ℕ) (v : ℤ) : (signedBytes n v).length = n := length_leBytes n _

theorem signedBytes_natCast (n v : ℕ) : signedBytes n v = leBytes n v := by
  rw [signedBytes, ← leBytes_mod n v, ← Int.natCast_emod, Int.toNat_natCast]

theorem ofSigned_signedBytes {n : ℕ} {v : ℤ} (h1 : -(256 ^ n : ℕ) ≤ v * 2) (h2 : v * 2 < (256 ^ n : ℕ)) :
    ofSigned (signedBytes n v) = v := by
  have hpos : (0 : ℤ) < (256 ^ n : ℕ) := Int.natCast_pos.2 (Nat.pow_pos (by decide))
  have hmod : ((v % (256 ^ n : ℕ)).toNat : ℤ) = v % (256 ^ n : ℕ) :=
    Int.toNat_of_nonneg (Int.emod_nonneg _ (Int.ne_of_gt hpos))
  have hlt : (v % (256 ^ n : ℕ)).toNat < 256 ^ n := by
    have := Int.emod_lt_of_pos v hpos
    omega
  rw [ofSigned, length_signedBytes, signedBytes, ofLe_leBytes_of_lt hlt, hmod, Int.emod_bmod,
    Int.bmod_eq_of_le_mul_two h1 h2]

/-! ## Reading and writing -/

/-- The byte at an offset. -/
def byteAt (buf : Bytes) (i : ℕ) : UInt8 := buf.getD i 0

/-- `n` bytes from an offset on. -/
def slice (buf : Bytes) (off n : ℕ) : Bytes := (buf.drop off).take n

/-- The buffer with bytes stored at an offset. -/
def write (buf : Bytes) (off : ℕ) (bs : Bytes) : Bytes := buf.take off ++ bs ++ buf.drop (off + bs.length)

/-- `memmove`: the bytes are read before any is written. -/
def memmove (buf : Bytes) (dst src n : ℕ) : Bytes := write buf dst (slice buf src n)

/-- `realloc`: what fits is kept. -/
def realloc (buf : Bytes) (n : ℕ) : Bytes := buf.take n ++ List.replicate (n - buf.length) 0

variable {a b c bs old buf : Bytes} {off dst src n : ℕ} {x : UInt8}

theorem byteAt_append (ha : a.length = off) : byteAt (a ++ x :: b) off = x := by
  subst ha
  simp [byteAt]

theorem slice_append (ha : a.length = off) (hb : b.length = n) : slice (a ++ (b ++ c)) off n = b := by
  subst ha hb
  simp [slice]

/-- **Bytes are exchanged for others.** -/
theorem write_append (ha : a.length = off) (hlen : bs.length = old.length) :
    write (a ++ (old ++ c)) off bs = a ++ (bs ++ c) := by
  subst ha
  simp [write, hlen]

/-- What is written over bytes that have just been moved. Only those behind it were worth
moving. -/
theorem write_memmove (hdst : dst + n ≤ buf.length) (hsrc : src + n ≤ buf.length) (hn : bs.length ≤ n) :
    write (memmove buf dst src n) dst bs =
      buf.take dst ++ (bs ++ (slice buf (src + bs.length) (n - bs.length) ++ buf.drop (dst + n))) := by
  have hlen : (slice buf src n).length = n := by simp only [slice, List.length_take, List.length_drop]; omega
  have htake : (buf.take dst).length = dst := by rw [List.length_take]; omega
  have hslice : slice buf src n = (slice buf src n).take bs.length ++
      slice buf (src + bs.length) (n - bs.length) := by
    conv_lhs => rw [← List.take_append_drop bs.length (slice buf src n)]
    rw [slice, slice, List.drop_take, List.drop_drop]
  have hmove : memmove buf dst src n = buf.take dst ++ ((slice buf src n).take bs.length ++
      (slice buf (src + bs.length) (n - bs.length) ++ buf.drop (dst + n))) := by
    rw [memmove, write, hlen, ← List.append_assoc ((slice buf src n).take bs.length), ← hslice, List.append_assoc]
  rw [hmove]
  refine write_append htake ?_
  rw [List.length_take, hlen]
  omega

/-- **A field is widened**: what follows is moved back by as much as has been added to the
buffer, and the field overwritten. -/
theorem widen_eq (x m g e bs : Bytes) (ha : a.length = off) (hg : x.length + g.length = bs.length) :
    write (memmove (a ++ (x ++ (m ++ (g ++ e)))) (off + bs.length) (off + x.length) m.length) off bs =
      a ++ (bs ++ (m ++ e)) := by
  have hslice : slice (a ++ (x ++ (m ++ (g ++ e)))) (off + x.length) m.length = m := by
    rw [← List.append_assoc a x]
    exact slice_append (by rw [List.length_append, ha]) rfl
  have htail : (a ++ (x ++ (m ++ (g ++ e)))).drop (off + bs.length + m.length) = e := by
    have hcut : off + bs.length + m.length = (a ++ (x ++ (m ++ g))).length := by
      simp only [List.length_append]
      omega
    rw [hcut, show a ++ (x ++ (m ++ (g ++ e))) = (a ++ (x ++ (m ++ g))) ++ e by simp only [List.append_assoc],
      List.drop_left]
  have hhead : (a ++ (x ++ (m ++ (g ++ e)))).take (off + bs.length) =
      a ++ (x ++ (m ++ (g ++ e))).take bs.length := by
    rw [← ha, List.take_length_add_append]
  have hmove : memmove (a ++ (x ++ (m ++ (g ++ e)))) (off + bs.length) (off + x.length) m.length =
      a ++ ((x ++ (m ++ (g ++ e))).take bs.length ++ (m ++ e)) := by
    rw [memmove, hslice, write, hhead, htail, List.append_assoc, List.append_assoc]
  rw [hmove]
  refine write_append ha ?_
  rw [List.length_take, List.length_append, List.length_append, List.length_append]
  omega

/-- **Bytes that end where others ended.** -/
theorem write_ending (a x c bs : Bytes) (ha : a.length ≤ off) (hend : off + bs.length = a.length + x.length) :
    ∃ d : Bytes, a.length + d.length = off ∧ write (a ++ (x ++ c)) off bs = a ++ (d ++ (bs ++ c)) := by
  have hd : (x.take (off - a.length)).length = off - a.length := by rw [List.length_take]; omega
  have hold : bs.length = (x.drop (off - a.length)).length := by rw [List.length_drop]; omega
  refine ⟨x.take (off - a.length), by omega, ?_⟩
  have hsplit : a ++ (x ++ c) = (a ++ x.take (off - a.length)) ++ (x.drop (off - a.length) ++ c) := by
    rw [List.append_assoc, ← List.append_assoc (x.take _), List.take_append_drop]
  rw [hsplit, write_append (by rw [List.length_append]; omega) hold, List.append_assoc]

/-- **Room is made** for `dst - off` bytes before a field, and the field is exchanged. What is
moved begins so that the new field ends where the old one did. -/
theorem gap_eq (x m g e bs : Bytes) (ha : a.length = off) (hd : off ≤ dst) (hs : src + bs.length = off + x.length)
    (hg : dst + bs.length = off + x.length + g.length) :
    ∃ j : Bytes, off + j.length = dst ∧
      write (memmove (a ++ (x ++ (m ++ (g ++ e)))) dst src (bs.length + m.length)) dst bs =
        a ++ (j ++ (bs ++ (m ++ e))) := by
  have hlen : (a ++ (x ++ (m ++ (g ++ e)))).length = off + x.length + m.length + g.length + e.length := by
    simp only [List.length_append, ha]
    omega
  have hslice : slice (a ++ (x ++ (m ++ (g ++ e)))) (src + bs.length) m.length = m := by
    rw [hs, ← List.append_assoc a x]
    exact slice_append (by rw [List.length_append, ha]) rfl
  have htail : (a ++ (x ++ (m ++ (g ++ e)))).drop (dst + (bs.length + m.length)) = e := by
    have hcut : dst + (bs.length + m.length) = (a ++ (x ++ (m ++ g))).length := by
      simp only [List.length_append]
      omega
    rw [hcut, show a ++ (x ++ (m ++ (g ++ e))) = (a ++ (x ++ (m ++ g))) ++ e by simp only [List.append_assoc],
      List.drop_left]
  have hhead : (a ++ (x ++ (m ++ (g ++ e)))).take dst = a ++ (x ++ (m ++ (g ++ e))).take (dst - off) := by
    rw [← List.take_length_add_append, ha, Nat.add_sub_cancel' hd]
  refine ⟨(x ++ (m ++ (g ++ e))).take (dst - off), ?_, ?_⟩
  · rw [List.length_take]
    simp only [List.length_append]
    omega
  · rw [write_memmove (by omega) (by omega) (Nat.le_add_right _ _), Nat.add_sub_cancel_left, hslice, htail, hhead,
      List.append_assoc]

/-- **A gap is closed.** -/
theorem memmove_back (d m e : Bytes) (ha : a.length = off) :
    ∃ j : Bytes, j.length = d.length + e.length ∧
      memmove (a ++ (d ++ (m ++ e))) off (off + d.length) m.length = a ++ (m ++ j) := by
  have hslice : slice (a ++ (d ++ (m ++ e))) (off + d.length) m.length = m := by
    rw [← List.append_assoc a d]
    exact slice_append (by rw [List.length_append, ha]) rfl
  refine ⟨(d ++ (m ++ e)).drop m.length, ?_, ?_⟩
  · rw [List.length_drop]
    simp only [List.length_append]
    omega
  · rw [memmove, hslice, write, ← ha, List.take_left, List.drop_length_add_append, List.append_assoc]

end Coms4111.Store
