import Coms4111.Proof.Requests

/-!
# The query buffer, whatever is sent

A client may send any bytes. Until it is stopped, by a protocol error or by a command, the buffer holds
at most a line that is too long by one read (`lineBound`), or one argument.

* `ProtocolError.text_bytes`: the error is one line, whatever has led to it.
* `query_buffer_bounded`: as long as the client is not stopped the buffer stays below the limit of
  the longest argument, every read asks for something, and no assertion fails.
-/

namespace Coms4111.Server

open Store

variable {c : Client} {pos n : ℕ}

/-- The longest line without an end, and one read more. -/
def lineBound : ℕ := protoInlineMaxSize + protoIobufLen

/-- **What may be in the buffer before it is processed**, from an offset on: behind an argument
or a line that is complete, not more than `lineBound`. -/
def Loaded (c : Client) (pos : ℕ) : Prop :=
  match c.bulklen with
  | some m => m ≤ maxBulk ∧ c.querybuf.length - pos ≤ m + 2 + lineBound
  | none => c.querybuf.length - pos ≤ lineBound ∨
    ∃ p, strchr c.querybuf pos 13 = some p ∧ p + 2 ≤ c.querybuf.length ∧ c.querybuf.length ≤ p + 2 + lineBound

/-- **What may be left in it**: an argument or a line that is not complete. -/
def Waits (c : Client) (pos : ℕ) : Prop :=
  match c.bulklen with
  | some m => m ≤ maxBulk ∧ c.querybuf.length - pos < m + 2
  | none => c.querybuf.length - pos ≤ lineBound ∧ (c.querybuf.length - pos ≤ protoInlineMaxSize ∨
    ∃ p, strchr c.querybuf pos 13 = some p ∧ c.querybuf.length < p + 2)

theorem le_of_strchr {buf : Bytes} {ch : UInt8} {p : ℕ} (h : strchr buf pos ch = some p) : pos ≤ p := by
  unfold strchr at h
  obtain ⟨i, -, rfl⟩ := Option.map_eq_some_iff.1 h
  exact Nat.le_add_right pos i

theorem lt_of_strchr {buf : Bytes} {ch : UInt8} {p : ℕ} (h : strchr buf 0 ch = some p) : p < buf.length := by
  unfold strchr at h
  simp only [List.drop_zero, Nat.zero_add, Option.map_id'] at h
  obtain ⟨hlt, -⟩ := List.findIdx?_eq_some_iff_getElem.1 h
  exact Nat.lt_of_lt_of_le hlt (List.takeWhile_prefix _).length_le

/-! ## Errors -/

theorem ascii_bytes {s : String} (h : (ascii s).all (fun x => x ≠ 13 && x ≠ 10) = true) :
    ∀ x ∈ ascii s, x ≠ 13 ∧ x ≠ 10 := by
  intro x hx
  have hboth := List.all_eq_true.1 h x hx
  simpa only [Bool.and_eq_true, decide_eq_true_eq] using hboth

/-- **An error is sent as one line**: not even the byte that is quoted in it breaks the line. -/
theorem ProtocolError.text_bytes (e : ProtocolError) : ∀ x ∈ e.text, x ≠ 13 ∧ x ≠ 10 := by
  cases e with
  | tooBigMbulkCount => exact ascii_bytes (by decide +kernel)
  | invalidMultibulkLength => exact ascii_bytes (by decide +kernel)
  | tooBigBulkCount => exact ascii_bytes (by decide +kernel)
  | invalidBulkLength => exact ascii_bytes (by decide +kernel)
  | tooBigInline => exact ascii_bytes (by decide +kernel)
  | unbalancedQuotes => exact ascii_bytes (by decide +kernel)
  | expectedDollar got =>
    intro x hx
    rw [ProtocolError.text, List.mem_append, List.mem_append, List.mem_singleton] at hx
    rcases hx with (hx | rfl) | hx
    · exact ascii_bytes (by decide +kernel) x hx
    · split_ifs with hbreak
      · decide
      · exact not_or.1 hbreak
    · exact ascii_bytes (by decide +kernel) x hx

/-- After an error the connection is closed. -/
theorem Client.setProtocolError_closes (c : Client) (e : ProtocolError) (pos : ℕ) :
    (c.setProtocolError e pos).closeAfterReply ≠ none :=
  Option.some_ne_none _

/-! ## Arguments -/

/-- Reading the length of an argument, whatever the bytes are. -/
theorem readBulklen_cases (c : Client) (pos : ℕ) :
    (∃ e q, readBulklen c pos = .error e q) ∨
      (readBulklen c pos = .wait ∧ (c.querybuf.length ≤ protoInlineMaxSize ∨
        ∃ p, strchr c.querybuf pos 13 = some p ∧ c.querybuf.length < p + 2)) ∨
      ∃ b m p pos', readBulklen c pos = .next { c with querybuf := b, bulklen := some m } pos' ∧ m ≤ maxBulk ∧
        strchr c.querybuf pos 13 = some p ∧ p + 2 ≤ c.querybuf.length ∧
        b.length - pos' = c.querybuf.length - (p + 2) := by
  unfold readBulklen
  cases hnl : strchr c.querybuf pos 13 with
  | none =>
    simp only
    split_ifs with hbig
    · exact .inl ⟨_, _, rfl⟩
    · exact .inr (.inl ⟨rfl, .inl (Nat.not_lt.1 hbig)⟩)
  | some p =>
    simp only
    split_ifs with hlate hdollar
    · exact .inr (.inl ⟨rfl, .inr ⟨p, rfl, hlate⟩⟩)
    · exact .inl ⟨_, _, rfl⟩
    · cases string2ll (slice c.querybuf (pos + 1) (p - (pos + 1))) with
      | none => exact .inl ⟨_, _, rfl⟩
      | some ll =>
        simp only
        split_ifs with hrange hlarge
        · exact .inl ⟨_, _, rfl⟩
        · refine .inr (.inr ⟨_, _, p, _, rfl, by omega, rfl, by omega, ?_⟩)
          rw [List.length_drop, Nat.sub_zero]
        · exact .inr (.inr ⟨c.querybuf, _, p, _, rfl, by omega, rfl, by omega, rfl⟩)

theorem knowBulklen_cases (h : Loaded c pos) :
    (∃ e q, knowBulklen c pos = .error e q) ∨ (knowBulklen c pos = .wait ∧ Waits c pos) ∨
      ∃ b m pos', knowBulklen c pos = .next { c with querybuf := b, bulklen := some m } pos' ∧ m ≤ maxBulk ∧
        b.length - pos' ≤ c.querybuf.length - pos ∧ b.length - pos' ≤ m + 2 + lineBound := by
  unfold Loaded at h
  unfold knowBulklen Waits
  cases hb : c.bulklen with
  | some m =>
    rw [hb] at h
    have hself : c = { c with bulklen := some m } := by rw [← hb]
    exact .inr (.inr ⟨c.querybuf, m, pos, congrArg (BulkStep.next · pos) hself, h.1, Nat.le_refl _, h.2⟩)
  | none =>
    rw [hb] at h
    simp only at h ⊢
    rcases readBulklen_cases c pos with herror | ⟨hwait, hline⟩ | ⟨b, m, p, pos', hnext, hm, hp, hple, hleft⟩
    · exact .inl herror
    · refine .inr (.inl ⟨hwait, ?_⟩)
      rcases hline with hsmall | ⟨p, hp, hlate⟩
      · unfold lineBound
        exact ⟨by omega, .inl (by omega)⟩
      · rcases h with h | ⟨p', hp', hple, -⟩
        · exact ⟨h, .inr ⟨p, hp, hlate⟩⟩
        · rw [hp] at hp'
          cases hp'
          omega
    · have hge := le_of_strchr hp
      refine .inr (.inr ⟨b, m, pos', hnext, hm, by omega, ?_⟩)
      rcases h with h | ⟨p', hp', -, hle⟩
      · omega
      · rw [hp] at hp'
        cases hp'
        omega

theorem readBulk_cases (c : Client) (pos m : ℕ) :
    (readBulk c pos m = .wait ∧ c.querybuf.length - pos < m + 2) ∨
      ∃ a b pos', readBulk c pos m = .next { c with querybuf := b, argv := a, bulklen := none,
                                                    multibulklen := c.multibulklen - 1 } pos' ∧
        b.length - pos' + (m + 2) ≤ c.querybuf.length - pos := by
  unfold readBulk
  split_ifs with hshort hbig
  · exact .inl ⟨rfl, hshort⟩
  · refine .inr ⟨_, [], 0, rfl, ?_⟩
    rw [List.length_nil]
    omega
  · exact .inr ⟨_, c.querybuf, _, rfl, by omega⟩

/-- **The loop over the arguments**, whatever the bytes are. -/
theorem multibulkLoop_cases (hn : c.multibulklen = n) (hfits : Loaded c pos)
    (hzero : n = 0 → c.bulklen = none ∧ c.querybuf.length - pos ≤ lineBound) :
    (∃ c', multibulkLoop n c pos = (c', none) ∧ c'.closeAfterReply ≠ none) ∨
      ∃ c' pos', multibulkLoop n c pos = (c', some pos') ∧ c'.reqtype = c.reqtype ∧
        c'.flags = c.flags ∧ c'.querybuf.length - pos' ≤ c.querybuf.length - pos ∧
        (c'.multibulklen = 0 → c'.querybuf.length - pos' ≤ lineBound ∧
          (n ≠ 0 → c'.querybuf.length - pos' < c.querybuf.length - pos)) ∧
        (c'.multibulklen ≠ 0 → Waits c' pos') := by
  induction n generalizing c pos with
  | zero =>
    refine .inr ⟨c, pos, rfl, rfl, rfl, Nat.le_refl _, fun _ => ?_, fun hne => absurd hn hne⟩
    exact ⟨(hzero rfl).2, fun hne => absurd rfl hne⟩
  | succ n ih =>
    rw [multibulkLoop]
    rcases knowBulklen_cases hfits with ⟨e, q, herror⟩ | ⟨hwait, hwaits⟩ | ⟨b, m, p, hnext, hm, hle, hbound⟩
    · rw [herror]
      exact .inl ⟨_, rfl, c.setProtocolError_closes e q⟩
    · rw [hwait]
      refine .inr ⟨c, pos, rfl, rfl, rfl, Nat.le_refl _, fun hnil => ?_, fun _ => hwaits⟩
      omega
    · rw [hnext]
      simp only [Option.getD_some]
      rcases readBulk_cases { c with querybuf := b, bulklen := some m } p m with ⟨hwait, hshort⟩ |
        ⟨a, b', p', hread, hleft⟩
      · rw [hwait]
        refine .inr ⟨_, p, rfl, rfl, rfl, hle, fun hnil => ?_, fun _ => ⟨hm, hshort⟩⟩
        simp only at hnil
        omega
      · rw [hread]
        simp only at hleft
        have hsmall : b'.length - p' ≤ lineBound := by omega
        have hfits' : Loaded { c with querybuf := b', argv := a, bulklen := none,
                                      multibulklen := c.multibulklen - 1 } p' := .inl hsmall
        rcases ih (by simp only; omega) hfits' (fun _ => ⟨rfl, hsmall⟩) with
          hclosed | ⟨c', pos', hloop, hreq, hclose, hless, hdone, hwaits⟩
        · exact .inl hclosed
        · simp only at hreq hclose hless
          refine .inr ⟨c', pos', hloop, hreq, hclose, by omega, fun hnil => ⟨(hdone hnil).1, fun _ => ?_⟩, hwaits⟩
          omega

/-- What has been read is dropped from the buffer. -/
theorem Waits.trim (h : Waits c pos) : Waits { c with querybuf := c.querybuf.drop pos } 0 := by
  unfold Waits at h ⊢
  cases hb : c.bulklen with
  | some m =>
    rw [hb] at h
    simpa only [List.length_drop, Nat.sub_zero] using h
  | none =>
    rw [hb] at h
    simp only [List.length_drop, Nat.sub_zero] at h ⊢
    refine ⟨h.1, ?_⟩
    rcases h.2 with hsmall | ⟨p, hp, hlate⟩
    · exact .inl hsmall
    · rw [strchr_drop] at hp
      obtain ⟨q, hq, rfl⟩ := Option.map_eq_some_iff.1 hp
      exact .inr ⟨q, hq, by omega⟩

/-- **How a round ends**, whatever the bytes are: with an error, with a command, or waiting. -/
def RoundCases (result : Bool × Client) (c : Client) (len : ℕ) : Prop :=
  result.1 = false ∧ result.2.closeAfterReply ≠ none ∨
    (result.2.flags = c.flags ∧
      (result.1 = true ∧ result.2.querybuf.length ≤ lineBound ∧ result.2.querybuf.length < len ∨
        result.1 = false ∧ result.2.reqtype = c.reqtype ∧ result.2.multibulklen ≠ 0 ∧ Waits result.2 0))

theorem readArguments_cases (hfits : Loaded c pos) (hn : c.multibulklen ≠ 0) :
    RoundCases (readArguments c pos) c (c.querybuf.length - pos) := by
  unfold readArguments
  rcases multibulkLoop_cases rfl hfits (fun hnil => absurd hnil hn) with
    ⟨c', hloop, hclosed⟩ | ⟨c', pos', hloop, hreq, hclose, -, hdone, hwaits⟩
  · rw [hloop]
    exact .inl ⟨rfl, hclosed⟩
  · rw [hloop]
    refine .inr ⟨hclose, ?_⟩
    by_cases hnil : c'.multibulklen = 0
    · obtain ⟨hsmall, hless⟩ := hdone hnil
      refine .inl ⟨by simp [hnil], ?_, ?_⟩
      · simp only [List.length_drop]
        exact hsmall
      · simp only [List.length_drop]
        exact hless hn
    · exact .inr ⟨by simp [hnil], hreq, hnil, (hwaits hnil).trim⟩

/-! ## Rounds -/

/-- What the assertions of `processMultibulkBuffer` rely on. -/
structure Regular (c : Client) : Prop where
  open_ : c.flags = (none, none)
  idle : c.multibulklen = 0 → c.argv = [] ∧ c.bulklen = none
  star : c.reqtype = some .multibulk → c.multibulklen = 0 → byteAt c.querybuf 0 = 42
  within : c.multibulklen ≠ 0 → c.reqtype = some .multibulk

/-- **Between two reads.** -/
structure Steady (c : Client) : Prop extends Regular c where
  waits : Waits c 0
  inline : c.reqtype ≠ some .multibulk → c.querybuf.length ≤ protoInlineMaxSize

/-- **After a read.** -/
structure Fed (c : Client) : Prop extends Regular c where
  fits : Loaded c 0
  inline : c.reqtype ≠ some .multibulk → c.querybuf.length ≤ lineBound

theorem Fed.steady (h : Fed c) (hnil : c.querybuf = []) : Steady c := by
  refine ⟨h.toRegular, ?_, fun _ => by rw [hnil]; exact Nat.zero_le _⟩
  have hfits := h.fits
  unfold Loaded at hfits
  unfold Waits
  rw [hnil, List.length_nil] at hfits ⊢
  cases hb : c.bulklen with
  | some m =>
    rw [hb] at hfits
    exact ⟨hfits.1, by omega⟩
  | none => exact ⟨Nat.zero_le _, .inl (Nat.zero_le _)⟩

/-- The header of a command. -/
theorem processMultibulkBuffer_cases (h : Regular c) (hfits : Loaded c 0) (hreq : c.reqtype = some .multibulk)
    (hnil : c.multibulklen = 0) :
    ∃ result, processMultibulkBuffer c = some result ∧
      (result.1 = false ∧ result.2.closeAfterReply ≠ none ∨ result = (false, c) ∧ Waits c 0 ∨
        result.2.flags = (none, none) ∧ result.1 = true ∧ result.2.querybuf.length ≤ lineBound ∧
          result.2.querybuf.length < c.querybuf.length ∨
        result.2.flags = (none, none) ∧ result.1 = false ∧ result.2.reqtype = some .multibulk ∧
          result.2.multibulklen ≠ 0 ∧ Waits result.2 0) := by
  obtain ⟨hargv, hbulk⟩ := h.idle hnil
  have hstar := h.star hreq hnil
  unfold Loaded at hfits
  rw [hbulk] at hfits
  simp only [Nat.sub_zero] at hfits
  unfold processMultibulkBuffer
  rw [if_pos hnil, if_neg (fun hne => hne hargv)]
  cases hp : strchr c.querybuf 0 13 with
  | none =>
    simp only
    split_ifs with hbig
    · exact ⟨_, rfl, .inl ⟨rfl, c.setProtocolError_closes _ 0⟩⟩
    · refine ⟨_, rfl, .inr (.inl ⟨rfl, ?_⟩)⟩
      unfold Waits
      rw [hbulk]
      simp only [Nat.sub_zero]
      unfold lineBound
      exact ⟨by omega, .inl (by omega)⟩
  | some p =>
    rw [hp] at hfits
    simp only
    have hrest : c.querybuf.length - (p + 2) ≤ lineBound := by
      rcases hfits with hfits | ⟨p', hp', -, hle⟩
      · omega
      · cases hp'
        omega
    split_ifs with hlate hother
    · refine ⟨_, rfl, .inr (.inl ⟨rfl, ?_⟩)⟩
      unfold Waits
      rw [hbulk]
      simp only [Nat.sub_zero]
      refine ⟨?_, .inr ⟨p, hp, hlate⟩⟩
      rcases hfits with hfits | ⟨p', hp', hple, -⟩
      · exact hfits
      · cases hp'
        omega
    · exact absurd hstar hother
    · cases string2ll (slice c.querybuf 1 (p - 1)) with
      | none => exact ⟨_, rfl, .inl ⟨rfl, c.setProtocolError_closes _ 0⟩⟩
      | some ll =>
        simp only
        split_ifs with hmax hneg
        · exact ⟨_, rfl, .inl ⟨rfl, c.setProtocolError_closes _ 0⟩⟩
        · refine ⟨_, rfl, .inr (.inr (.inl ⟨h.open_, rfl, ?_, ?_⟩))⟩
          · rw [List.length_drop]
            exact hrest
          · rw [List.length_drop]
            omega
        · have hfits' : Loaded { c with multibulklen := ll.toNat } (p + 2) := by
            unfold Loaded
            rw [hbulk]
            exact .inl hrest
          rcases readArguments_cases hfits' (by simp only; omega) with
            hclose | ⟨hopen, ⟨htrue, hsmall, hless⟩ | ⟨hfalse, hreq', hne, hwaits⟩⟩
          · exact ⟨_, rfl, .inl hclose⟩
          · exact ⟨_, rfl, .inr (.inr (.inl ⟨hopen.trans h.open_, htrue, hsmall, by simp only at hless; omega⟩))⟩
          · exact ⟨_, rfl, .inr (.inr (.inr ⟨hopen.trans h.open_, hfalse, hreq'.trans hreq, hne, hwaits⟩))⟩

theorem processInlineBuffer_cases (hne : c.querybuf ≠ []) (hlen : c.querybuf.length ≤ lineBound) :
    (processInlineBuffer c).1 = false ∧ (processInlineBuffer c).2.closeAfterReply ≠ none ∨
      processInlineBuffer c = (false, c) ∧ c.querybuf.length ≤ protoInlineMaxSize ∨
      (processInlineBuffer c).2.flags = c.flags ∧ (processInlineBuffer c).1 = true ∧
        (processInlineBuffer c).2.querybuf.length ≤ lineBound ∧
        (processInlineBuffer c).2.querybuf.length < c.querybuf.length := by
  have hpos := List.length_pos_iff.2 hne
  unfold processInlineBuffer
  cases strchr c.querybuf 0 10 with
  | none =>
    simp only
    split_ifs with hbig
    · exact .inl ⟨rfl, c.setProtocolError_closes _ 0⟩
    · exact .inr (.inl ⟨rfl, Nat.not_lt.1 hbig⟩)
  | some p =>
    simp only
    split
    · exact .inl ⟨rfl, c.setProtocolError_closes _ 0⟩
    · refine .inr (.inr ⟨rfl, rfl, ?_, ?_⟩)
      · rw [List.length_drop]
        omega
      · rw [List.length_drop]
        omega

/-- The type of a request goes with its first byte. -/
theorem Fed.withReqtype (h : Fed c) : Fed c.withReqtype ∧ c.withReqtype.querybuf = c.querybuf ∧
    c.withReqtype.reqtype ≠ none := by
  unfold Client.withReqtype
  cases hreq : c.reqtype with
  | some r => exact ⟨h, rfl, by simp only [hreq, ne_eq, reduceCtorEq, not_false_eq_true]⟩
  | none =>
    have hnil : c.multibulklen = 0 := by
      by_contra hne
      have hmulti := h.within hne
      rw [hreq] at hmulti
      cases hmulti
    have hlen := h.inline (by rw [hreq]; exact fun heq => by cases heq)
    simp only
    refine ⟨⟨⟨h.open_, h.idle, fun hmulti _ => ?_, fun hne => absurd hnil hne⟩, ?_, fun _ => hlen⟩, trivial,
      fun heq => by cases heq⟩
    · by_contra hother
      rw [if_neg hother] at hmulti
      cases hmulti
    · have hfits := h.fits
      unfold Loaded at hfits ⊢
      exact hfits

/-- **A round of `processInputBuffer`**, whatever the bytes are. -/
theorem process_cases (h : Fed c) (hne : c.querybuf ≠ []) :
    ∃ result, c.withReqtype.process = some result ∧
      (result.1 = false ∧ result.2.closeAfterReply ≠ none ∨ result.1 = false ∧ Steady result.2 ∨
        result.1 = true ∧ result.2.flags = (none, none) ∧ result.2.querybuf.length ≤ lineBound ∧
          result.2.querybuf.length < c.querybuf.length) := by
  obtain ⟨hfed, hbuf, hreq⟩ := h.withReqtype
  rw [← hbuf] at hne ⊢
  generalize c.withReqtype = c' at hfed hne hreq ⊢
  unfold Client.process
  cases hr : c'.reqtype with
  | none => exact absurd hr hreq
  | some r =>
    cases r with
    | multibulk =>
      simp only
      -- a command that has been waited for is never idle
      have hsteady : ∀ c₁ : Client, c₁.flags = (none, none) → c₁.reqtype = some .multibulk → c₁.multibulklen ≠ 0 →
          Waits c₁ 0 → Steady c₁ := by
        intro c₁ hopen hreq₁ hne₁ hwaits
        exact ⟨⟨hopen, fun hnil => absurd hnil hne₁, fun _ hnil => absurd hnil hne₁, fun _ => hreq₁⟩, hwaits,
          fun hother => absurd hreq₁ hother⟩
      by_cases hnil : c'.multibulklen = 0
      · obtain ⟨result, hprocess, hcases⟩ := processMultibulkBuffer_cases hfed.toRegular hfed.fits hr hnil
        refine ⟨result, hprocess, ?_⟩
        rcases hcases with hclosed | ⟨rfl, hwaits⟩ | ⟨hopen, htrue, hsmall, hless⟩ |
          ⟨hopen, hfalse, hreq₁, hne₁, hwaits⟩
        · exact .inl hclosed
        · exact .inr (.inl ⟨rfl, hfed.toRegular, hwaits, fun hother => absurd hr hother⟩)
        · exact .inr (.inr ⟨htrue, hopen, hsmall, hless⟩)
        · exact .inr (.inl ⟨hfalse, hsteady _ hopen hreq₁ hne₁ hwaits⟩)
      · refine ⟨readArguments c' 0, by rw [processMultibulkBuffer, if_neg hnil], ?_⟩
        rcases readArguments_cases hfed.fits hnil with
          hclosed | ⟨hopen, ⟨htrue, hsmall, hless⟩ | ⟨hfalse, hreq₁, hne₁, hwaits⟩⟩
        · exact .inl hclosed
        · exact .inr (.inr ⟨htrue, hopen.trans hfed.open_, hsmall, hless⟩)
        · exact .inr (.inl ⟨hfalse, hsteady _ (hopen.trans hfed.open_) (hreq₁.trans hr) hne₁ hwaits⟩)
    | inline =>
      simp only
      have hother : c'.reqtype ≠ some .multibulk := by
        rw [hr]
        exact fun heq => by cases heq
      have hnil : c'.multibulklen = 0 := by
        by_contra hne'
        exact hother (hfed.within hne')
      refine ⟨processInlineBuffer c', rfl, ?_⟩
      rcases processInlineBuffer_cases hne (hfed.inline hother) with hclosed | ⟨hwait, hsmall⟩ |
        ⟨hopen, htrue, hsmall, hless⟩
      · exact .inl hclosed
      · rw [hwait]
        refine .inr (.inl ⟨rfl, hfed.toRegular, ?_, fun _ => hsmall⟩)
        unfold Waits
        rw [(hfed.idle hnil).2]
        simp only [Nat.sub_zero]
        unfold lineBound
        exact ⟨by omega, .inl hsmall⟩
      · exact .inr (.inr ⟨htrue, hopen.trans hfed.open_, hsmall, hless⟩)

section

variable {σ : Type} {Z : Service σ}

/-- After a command. -/
theorem Fed.resetClient (hopen : c.flags = (none, none)) (hsmall : c.querybuf.length ≤ lineBound) :
    Fed c.resetClient := by
  refine ⟨⟨hopen, fun _ => ⟨rfl, rfl⟩, fun hreq => ?_, fun hne => absurd rfl hne⟩, .inl hsmall, fun _ => hsmall⟩
  cases hreq

/-- **`processInputBuffer`** leaves a steady client behind, or one that is stopped. -/
theorem processInputLoop_cases {s : σ} (h : Fed c) (hs : Z.clientsArePaused s = false)
    (hn : c.querybuf.length ≤ n) :
    ∃ c' s', processInputLoop Z n c s = some (c', s') ∧
      (c'.Stopped Z s' ∨ Steady c' ∧ Z.clientsArePaused s' = false) := by
  induction n generalizing c s with
  | zero => exact ⟨c, s, rfl, .inr ⟨h.steady (List.eq_nil_of_length_eq_zero (by omega)), hs⟩⟩
  | succ n ih =>
    rw [processInputLoop]
    by_cases hnil : c.querybuf = []
    · exact ⟨c, s, if_pos hnil, .inr ⟨h.steady hnil, hs⟩⟩
    · have hgoes : ¬(Z.clientsArePaused s = true ∨ c.blocked ≠ none ∨ c.closeAfterReply ≠ none) :=
        Client.not_stopped h.open_ hs
      rw [if_neg hnil, if_neg hgoes]
      obtain ⟨⟨ready, c'⟩, hprocess, hcases⟩ := process_cases h hnil
      rw [hprocess]
      rcases hcases with ⟨rfl, hclosed⟩ | ⟨rfl, hsteady⟩ | ⟨rfl, hopen, hsmall, hless⟩
      · exact ⟨c', s, rfl, .inl (.inr (.inr hclosed))⟩
      · exact ⟨c', s, rfl, .inr ⟨hsteady, hs⟩⟩
      · change ∃ c'' s', afterCommand Z n c' s = some (c'', s') ∧ _
        by_cases hstops : Stops Z c'.argv s
        · have hserve : serve Z [c'.argv] s = (Z.processCommand c'.argv s).2 := if_neg hstops.1
          rw [afterCommand_of_stops hstops, hserve]
          exact ⟨_, _, rfl, .inl (hstops.stopped c')⟩
        · have hgo : GoOn Z [c'.argv] s := ⟨hstops, trivial⟩
          rw [afterCommand_of_not_stops hstops]
          simp only at hless
          exact ih (.resetClient hopen hsmall) (hgo.unpaused hs) (show c'.querybuf.length ≤ n by omega)

/-! ## Reads -/

/-- What is found stays where it is when more arrives. -/
theorem strchr_append_right {buf : Bytes} {ch : UInt8} {p : ℕ} (h : strchr buf 0 ch = some p) (x : Bytes) :
    strchr (buf ++ x) 0 ch = some p := by
  unfold strchr at h ⊢
  simp only [List.drop_zero, Nat.zero_add, Option.map_id'] at h ⊢
  rw [List.takeWhile_append]
  split_ifs with hall
  · have hbuf : buf.takeWhile (fun b => decide (b ≠ 0)) = buf :=
      (List.takeWhile_prefix _).eq_of_length hall
    rw [hbuf] at h
    rw [List.findIdx?_append, h, Option.some_or]
  · exact h

theorem Steady.left (h : Steady c) : ∀ n, c.bulklen = some n → c.querybuf.length < n + 2 := by
  intro n hn
  have hwaits := h.waits
  unfold Waits at hwaits
  rw [hn] at hwaits
  exact hwaits.2

/-- **A read** of some bytes that have been sent. -/
theorem Steady.read (h : Steady c) {x : Bytes} (hx : x ≠ []) (hlen : x.length ≤ c.readlen.toNat) :
    Fed { c with querybuf := c.querybuf ++ x } ∧ c.querybuf.length + x.length ≤ protoMaxQuerybufLen := by
  have hwaits := h.waits
  unfold Waits at hwaits
  obtain ⟨-, hpiece, -⟩ := readlen_spec h.left
  have hpos := List.length_pos_iff.2 hx
  have hregular : Regular { c with querybuf := c.querybuf ++ x } := by
    refine ⟨h.open_, h.idle, fun hreq hnil => ?_, h.within⟩
    have hstar := h.star hreq hnil
    cases hbuf : c.querybuf with
    | nil =>
      rw [hbuf] at hstar
      exact absurd hstar (by decide)
    | cons b buf =>
      rw [hbuf] at hstar
      exact hstar
  unfold protoIobufLen at hpiece
  rcases Option.eq_none_or_eq_some c.bulklen with hb | ⟨m, hb⟩
  · rw [hb] at hwaits
    simp only [Nat.sub_zero] at hwaits
    have hline := hwaits.1
    unfold lineBound protoInlineMaxSize protoIobufLen at hline
    refine ⟨⟨hregular, ?_, fun hother => ?_⟩, ?_⟩
    · unfold Loaded lineBound protoIobufLen
      simp only [hb, List.length_append, Nat.sub_zero]
      rcases hwaits.2 with hsmall | ⟨p, hp, hlate⟩
      · exact .inl (by omega)
      · have hlt := lt_of_strchr hp
        exact .inr ⟨p, strchr_append_right hp x, by omega, by omega⟩
    · have hsmall := h.inline hother
      simp only [List.length_append]
      unfold lineBound protoIobufLen
      omega
    · unfold protoMaxQuerybufLen
      omega
  · rw [hb] at hwaits
    simp only [Nat.sub_zero] at hwaits
    have hmulti : c.reqtype = some .multibulk := by
      refine h.within fun hnil => ?_
      rw [(h.idle hnil).2] at hb
      cases hb
    refine ⟨⟨hregular, ?_, fun hother => absurd hmulti hother⟩, ?_⟩
    · unfold Loaded lineBound protoInlineMaxSize protoIobufLen
      simp only [hb, List.length_append, Nat.sub_zero]
      exact ⟨hwaits.1, by omega⟩
    · have hmax := hwaits.1
      unfold maxBulk at hmax
      unfold protoMaxQuerybufLen
      omega

/-- One read: the client goes on, or is stopped. -/
theorem readQueryFromClient_cases {C : Connection σ} (h : Steady C.client)
    (hs : Z.clientsArePaused C.server = false) (n : ℕ) :
    ∃ C', readQueryFromClient Z n C = .ok C' ∧
      (C'.client.Stopped Z C'.server ∨ Steady C'.client ∧ Z.clientsArePaused C'.server = false) := by
  unfold readQueryFromClient
  by_cases hnone : n = 0 ∨ C.sent = []
  · exact ⟨C, if_pos hnone, .inr ⟨h, hs⟩⟩
  · rw [if_neg hnone]
    rw [not_or] at hnone
    obtain ⟨hpos, -, -⟩ := readlen_spec h.left
    have hzero : min n C.client.readlen.toNat ≠ 0 := by omega
    have hsent := List.length_pos_iff.2 hnone.2
    have hx : C.sent.take (min n C.client.readlen.toNat) ≠ [] := by
      intro hnil
      have hlen := congrArg List.length hnil
      rw [List.length_take, List.length_nil] at hlen
      omega
    obtain ⟨hfed, hmax⟩ := h.read hx (by rw [List.length_take]; omega)
    obtain ⟨c', s', hloop, hcases⟩ := processInputLoop_cases hfed hs (Nat.le_refl _)
    have hprocess : processInputBuffer Z _ C.server = some (c', s') := hloop
    rw [← List.length_append] at hmax
    refine ⟨⟨c', s', C.sent.drop (min n C.client.readlen.toNat)⟩, ?_, hcases⟩
    simp only [if_neg hzero, if_neg (Nat.not_lt.2 hmax), hprocess]

theorem Steady.bounds (h : Steady c) : c.querybuf.length ≤ maxBulk + 1 ∧ 0 < c.readlen := by
  have hwaits := h.waits
  unfold Waits at hwaits
  have hpos := (readlen_spec h.left).1
  refine ⟨?_, by omega⟩
  cases hb : c.bulklen with
  | some m =>
    rw [hb] at hwaits
    simp only at hwaits
    omega
  | none =>
    rw [hb] at hwaits
    have hline := hwaits.1
    unfold lineBound protoInlineMaxSize protoIobufLen at hline
    unfold maxBulk
    omega

theorem readAll_cases {C : Connection σ} (h : Steady C.client) (hs : Z.clientsArePaused C.server = false)
    (reads : List ℕ) :
    (∃ k C', readAll Z (reads.take k) C = .ok C' ∧ C'.client.Stopped Z C'.server) ∨
      ∃ C', readAll Z reads C = .ok C' ∧ Steady C'.client ∧ Z.clientsArePaused C'.server = false := by
  induction reads generalizing C with
  | nil => exact .inr ⟨C, rfl, h, hs⟩
  | cons n reads ih =>
    obtain ⟨C₁, hread, hcases⟩ := readQueryFromClient_cases h hs n
    have hstep : ∀ ns, readAll Z (n :: ns) C = readAll Z ns C₁ := by
      intro ns
      rw [readAll, hread]
      rfl
    rcases hcases with hstopped | ⟨hsteady, hs₁⟩
    · exact .inl ⟨1, C₁, hstep [], hstopped⟩
    · rcases ih hsteady hs₁ with ⟨k, C', hall, hstopped⟩ | ⟨C', hall, hsteady'⟩
      · exact .inl ⟨k + 1, C', by rw [List.take_succ_cons, hstep]; exact hall, hstopped⟩
      · exact .inr ⟨C', by rw [hstep]; exact hall, hsteady'⟩

/-- **The query buffer, whatever is sent.** Either the client is stopped after some of the reads, by a
protocol error, by a command, or because the clients are paused; or all of the reads have gone well: the
buffer is not longer than the longest argument and one byte, and the next read asks for something. -/
theorem query_buffer_bounded (s : σ) (sent : Bytes) (reads : List ℕ) :
    (∃ k C, readAll Z (reads.take k) ⟨.create, s, sent⟩ = .ok C ∧ C.client.Stopped Z C.server) ∨
      ∃ C, readAll Z reads ⟨.create, s, sent⟩ = .ok C ∧ ¬C.client.Stopped Z C.server ∧
        C.client.querybuf.length ≤ maxBulk + 1 ∧ 0 < C.client.readlen := by
  have hsteady : Steady Client.create :=
    ⟨⟨rfl, fun _ => ⟨rfl, rfl⟩, fun hreq => (by cases hreq), fun hne => absurd rfl hne⟩,
      ⟨Nat.zero_le _, .inl (Nat.zero_le _)⟩, fun _ => Nat.zero_le _⟩
  cases hs : Z.clientsArePaused s with
  | true => exact .inl ⟨0, ⟨.create, s, sent⟩, rfl, .inl hs⟩
  | false =>
    rcases readAll_cases (C := ⟨.create, s, sent⟩) hsteady hs reads with hstopped | ⟨C, hall, h, hs'⟩
    · exact .inl hstopped
    · exact .inr ⟨C, hall, Client.not_stopped h.open_ hs', h.bounds⟩

end

end Coms4111.Server
