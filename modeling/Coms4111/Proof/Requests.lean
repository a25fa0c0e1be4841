import Coms4111.Proof.Decimal
import Coms4111.Spec.Protocol

/-!
# Requests arrive as they were sent

The limit on lines without an end (`protoInlineMaxSize`) is tested against the whole buffer, also what
has been read of it already. A request that is well-formed stays below: at most a small argument
(`protoMbulkBigArg`) is left in the buffer before the next read (`protoIobufLen`), and a large one is read
up to its end and no further.

* `requests_delivered`: however the bytes of any commands are split into reads, the server executes
  these commands, in their order and up to one that stops the client, and never answers with a
  protocol error.
-/

namespace Coms4111.Server

open Store

variable {d sent more l u : Bytes} {pos n : ℕ} {mark ch : UInt8} {c : Client} {a : Bytes} {todo : List Bytes}

/-- What may stop a client: the flags for its end and for a block. -/
def Client.flags (c : Client) : Option Closing × Option Btype := (c.closeAfterReply, c.blocked)

/-! ## Lines -/

theorem strchr_drop (buf : Bytes) (pos : ℕ) (ch : UInt8) :
    strchr buf pos ch = (strchr (buf.drop pos) 0 ch).map (pos + ·) := by
  unfold strchr
  rw [List.drop_zero, Option.map_map]
  congr 1
  funext i
  rw [Function.comp_apply, Nat.zero_add]

theorem strchr_append (hch : ch ≠ 0) (hl : ∀ b ∈ l, b ≠ ch ∧ b ≠ 0) :
    strchr (l ++ ch :: more) 0 ch = some l.length := by
  unfold strchr
  rw [List.drop_zero]
  induction l with
  | nil => simp [hch, List.findIdx?_cons]
  | cons b l ih =>
    obtain ⟨hb, h0⟩ := hl b List.mem_cons_self
    have hrest := ih fun b hb => hl b (List.mem_cons_of_mem _ hb)
    simp only [Nat.zero_add, Option.map_id'] at hrest ⊢
    rw [List.cons_append, List.takeWhile_cons_of_pos (by simpa using h0), List.findIdx?_cons, hrest]
    simp [hb]

theorem strchr_eq_none (hd : ∀ b ∈ d, b ≠ ch) : strchr d 0 ch = none := by
  unfold strchr
  rw [List.drop_zero, Option.map_eq_none_iff, List.findIdx?_eq_none_iff]
  intro b hb
  rw [beq_eq_false_iff_ne]
  exact hd b (List.takeWhile_subset _ hb)

theorem byteAt_drop (buf : Bytes) (pos i : ℕ) : byteAt (buf.drop pos) i = byteAt buf (pos + i) := by
  simp only [byteAt, List.getD_eq_getElem?_getD, List.getElem?_drop]

theorem slice_drop (buf : Bytes) (pos i n : ℕ) : slice (buf.drop pos) i n = slice buf (pos + i) n := by
  rw [slice, slice, List.drop_drop]

/-- What has arrived of a text: not all of it, or all and more. -/
theorem arrived_cases (h : d ++ sent = u ++ more) :
    d.length < u.length ∧ sent ≠ [] ∨ ∃ d', d = u ++ d' ∧ d' ++ sent = more := by
  rcases List.append_eq_append_iff.1 h with ⟨a, ha, hsent⟩ | ⟨a, ha, hmore⟩
  · cases a with
    | nil => exact .inr ⟨[], by rw [List.append_nil] at ha ⊢; exact ha.symm, hsent⟩
    | cons b a =>
      refine .inl ⟨?_, by rw [hsent]; exact List.cons_ne_nil _ _⟩
      rw [ha, List.length_append, List.length_cons]
      omega
  · exact .inr ⟨a, ha, hmore.symm⟩

/-- A line with a number, as it stands before an argument or a command. -/
def countLine (mark : UInt8) (n : ℕ) : Bytes := mark :: digits n ++ crlf

theorem length_countLine (mark : UInt8) (n : ℕ) : (countLine mark n).length = (digits n).length + 3 := by
  simp [countLine, crlf]

theorem countLine_bytes (hmark : mark ≠ 13 ∧ mark ≠ 0) : ∀ b ∈ mark :: digits n, b ≠ 13 ∧ b ≠ 0 := by
  intro b hb
  rcases List.mem_cons.1 hb with rfl | hb
  · exact hmark
  · have hdigit := isDigit_of_mem hb
    constructor
    · rintro rfl
      exact absurd hdigit (by decide)
    · rintro rfl
      exact absurd hdigit (by decide)

/-- **A line that is not complete**: there is no end of it, or one without its second byte. -/
theorem strchr_partial (hmark : mark ≠ 13 ∧ mark ≠ 0) (h : d ++ sent = countLine mark n ++ more)
    (hd : d.length < (countLine mark n).length) :
    strchr d 0 13 = none ∨ ∃ i, strchr d 0 13 = some i ∧ d.length < i + 2 := by
  have htake : d = (countLine mark n).take d.length := by
    have heq := congrArg (List.take d.length) h
    rwa [List.take_left, List.take_append_of_le_length (by omega)] at heq
  rw [length_countLine] at hd
  have hlen : (mark :: digits n).length = (digits n).length + 1 := List.length_cons
  rcases Nat.lt_or_ge (mark :: digits n).length d.length with hlt | hle
  · have hfull : d = mark :: digits n ++ [13] := by
      rw [htake, countLine, List.take_append, List.take_of_length_le (by omega),
        show d.length - (mark :: digits n).length = 1 by omega]
      rfl
    right
    rw [hfull]
    refine ⟨_, strchr_append (by decide) (countLine_bytes hmark), ?_⟩
    rw [List.length_append, List.length_singleton]
    omega
  · left
    refine strchr_eq_none fun b hb => ?_
    rw [htake, countLine, List.take_append_of_le_length hle] at hb
    exact (countLine_bytes hmark b (List.take_subset _ _ hb)).1

/-- **A line that is complete**, and the number in it. -/
theorem strchr_countLine (hmark : mark ≠ 13 ∧ mark ≠ 0) (n : ℕ) (d : Bytes) :
    strchr (countLine mark n ++ d) 0 13 = some ((digits n).length + 1) ∧
      slice (countLine mark n ++ d) 1 (digits n).length = digits n ∧ byteAt (countLine mark n ++ d) 0 = mark := by
  have hsplit : countLine mark n ++ d = (mark :: digits n) ++ 13 :: 10 :: d := by simp [countLine, crlf]
  refine ⟨?_, ?_, rfl⟩
  · rw [hsplit]
    exact strchr_append (by decide) (countLine_bytes hmark)
  · rw [hsplit]
    exact slice_append (a := [mark]) rfl rfl

/-! ## The arguments of a command -/

theorem formatArgument_eq (a : Bytes) : formatArgument a = countLine 36 a.length ++ (a ++ crlf) := by
  rw [formatArgument, countLine, sdsfromlonglong_eq, ll2string_natCast]
  simp only [List.cons_append, List.append_assoc]

theorem redisFormatSdsCommandArgv_eq (argv : List Bytes) :
    redisFormatSdsCommandArgv argv = countLine 42 argv.length ++ argv.flatMap formatArgument := by
  rw [redisFormatSdsCommandArgv, countLine, sdsfromlonglong_eq, ll2string_natCast]

/-- What is to come of the arguments `todo`, if the length of the first has been read and if not. -/
def toCome : Option ℕ → List Bytes → Bytes
  | some _, a :: todo => a ++ crlf ++ todo.flatMap formatArgument
  | _, todo => todo.flatMap formatArgument

@[simp] theorem toCome_none (todo : List Bytes) : toCome none todo = todo.flatMap formatArgument := by
  cases todo <;> rfl

/-- **In the middle of a command.** The client waits for the arguments `todo`, and these bytes
are on their way, first in the buffer from an offset on and then in what has not been read. -/
structure Receives (c : Client) (pos : ℕ) (sent : Bytes) (todo : List Bytes) (more : Bytes) : Prop where
  pos_le : pos ≤ c.querybuf.length
  bytes : c.querybuf.drop pos ++ sent = toCome c.bulklen todo ++ more
  left : c.multibulklen = todo.length
  bulk : ∀ n, c.bulklen = some n → ∃ a rest, todo = a :: rest ∧ a.length = n
  fits : c.querybuf.length ≤ protoInlineMaxSize ∨
    ∃ n, c.bulklen = some n ∧ protoMbulkBigArg ≤ n ∧ pos = 0 ∧ c.querybuf.length ≤ n + 2

theorem Receives.length_eq (h : Receives c pos sent todo more) :
    c.querybuf.length = pos + (c.querybuf.drop pos).length := by
  have hpos := h.pos_le
  rw [List.length_drop]
  omega

/-- **Little is left in the buffer**: not an argument, or not a line. -/
def Short (c : Client) (pos : ℕ) : Prop :=
  match c.bulklen with
  | some n => c.querybuf.length - pos < n + 2
  | none => c.querybuf.length - pos ≤ 32

theorem length_countLine_le (mark : UInt8) (hn : n ≤ maxBulk) : (countLine mark n).length ≤ 32 := by
  have hlen := length_digits_le 18 (n := n) (by unfold maxBulk at hn; omega)
  rw [length_countLine]
  omega

/-- Reading the length of an argument. -/
theorem readBulklen_spec (hbulk : c.bulklen = none) (h : Receives c pos sent (a :: todo) more)
    (ha : a.length ≤ maxBulk) :
    (readBulklen c pos = .wait ∧ Short c pos ∧ sent ≠ []) ∨
      ∃ b pos', readBulklen c pos = .next { c with querybuf := b, bulklen := some a.length } pos' ∧
        Receives { c with querybuf := b, bulklen := some a.length } pos' sent (a :: todo) more := by
  have hfit : c.querybuf.length ≤ protoInlineMaxSize := by
    rcases h.fits with hfit | ⟨n, hn, -⟩
    · exact hfit
    · rw [hbulk] at hn
      cases hn
  have hbytes := h.bytes
  rw [hbulk, toCome_none, List.flatMap_cons, formatArgument_eq, List.append_assoc, List.append_assoc] at hbytes
  have hlen := h.length_eq
  have hmark : (36 : UInt8) ≠ 13 ∧ (36 : UInt8) ≠ 0 := by decide
  rcases arrived_cases hbytes with ⟨hlt, hsent⟩ | ⟨d, hd, hrest⟩
  · left
    refine ⟨?_, ?_, hsent⟩
    · unfold readBulklen
      rw [strchr_drop]
      rcases strchr_partial hmark hbytes hlt with hnone | ⟨i, hi, hilt⟩
      · rw [hnone]
        simp only [Option.map_none, if_neg (Nat.not_lt.2 hfit)]
      · rw [hi]
        simp only [Option.map_some]
        rw [if_pos (by omega)]
    · unfold Short
      rw [hbulk]
      have hle := length_countLine_le 36 ha
      simp only
      omega
  · right
    obtain ⟨hnl, hslice, hdollar⟩ := strchr_countLine hmark a.length d
    have hstrchr : strchr c.querybuf pos 13 = some (pos + ((digits a.length).length + 1)) := by
      rw [strchr_drop, hd, hnl, Option.map_some]
    have hbyte : byteAt c.querybuf pos = 36 := by
      rw [← hdollar, ← hd, byteAt_drop, Nat.add_zero]
    have hnumber : slice c.querybuf (pos + 1) (pos + ((digits a.length).length + 1) - (pos + 1)) =
        digits a.length := by
      rw [show pos + ((digits a.length).length + 1) - (pos + 1) = (digits a.length).length by omega,
        ← slice_drop, hd]
      exact hslice
    have hdrop : c.querybuf.drop (pos + ((digits a.length).length + 1) + 2) = d := by
      rw [show pos + ((digits a.length).length + 1) + 2 = pos + (countLine 36 a.length).length by
        rw [length_countLine]; omega, ← List.drop_drop, hd, List.drop_left]
    have hle : pos + ((digits a.length).length + 1) + 2 ≤ c.querybuf.length := by
      rw [hlen, hd, List.length_append, length_countLine]
      omega
    have hread : string2ll (digits a.length) = some (a.length : ℤ) :=
      string2ll_digits (by unfold maxBulk at ha; omega)
    have htoCome : d ++ sent = toCome (some a.length) (a :: todo) ++ more := by
      rw [hrest, toCome]
      simp only [List.append_assoc]
    unfold readBulklen
    rw [hstrchr]
    simp only [hnumber, hread, hbyte, ne_eq, not_true_eq_false, if_false]
    rw [if_neg (by omega), if_neg (by omega)]
    by_cases hbig : protoMbulkBigArg ≤ a.length
    · rw [if_pos (by omega), hdrop]
      refine ⟨_, _, rfl, Nat.zero_le _, htoCome, h.left, fun n hn => ?_, .inl ?_⟩
      · cases hn
        exact ⟨a, todo, rfl, rfl⟩
      · have hdlen : d.length ≤ c.querybuf.length := by
          rw [← hdrop, List.length_drop]
          omega
        exact Nat.le_trans hdlen hfit
    · rw [if_neg (by omega)]
      refine ⟨_, _, rfl, hle, ?_, h.left, fun n hn => ?_, .inl hfit⟩
      · simp only
        rw [hdrop]
        exact htoCome
      · cases hn
        exact ⟨a, todo, rfl, rfl⟩

theorem knowBulklen_spec (h : Receives c pos sent (a :: todo) more) (ha : a.length ≤ maxBulk) :
    (knowBulklen c pos = .wait ∧ Short c pos ∧ sent ≠ []) ∨
      ∃ b pos', knowBulklen c pos = .next { c with querybuf := b, bulklen := some a.length } pos' ∧
        Receives { c with querybuf := b, bulklen := some a.length } pos' sent (a :: todo) more := by
  unfold knowBulklen
  cases hbulk : c.bulklen with
  | none => exact readBulklen_spec hbulk h ha
  | some n =>
    obtain ⟨a', rest, htodo, hn⟩ := h.bulk n hbulk
    obtain ⟨rfl, rfl⟩ := List.cons.inj htodo
    have hself : c = { c with bulklen := some a.length } := by
      rw [hn, ← hbulk]
    refine .inr ⟨c.querybuf, pos, ?_, ?_⟩
    · exact congrArg (BulkStep.next · pos) hself
    · rw [← hself]
      exact h

/-- Reading an argument. -/
theorem readBulk_spec (hbulk : c.bulklen = some a.length) (h : Receives c pos sent (a :: todo) more) :
    (readBulk c pos a.length = .wait ∧ Short c pos ∧ sent ≠ []) ∨
      ∃ b pos', readBulk c pos a.length =
          .next { c with querybuf := b, argv := c.argv ++ [a], bulklen := none, multibulklen := todo.length }
            pos' ∧
        Receives { c with querybuf := b, argv := c.argv ++ [a], bulklen := none, multibulklen := todo.length }
          pos' sent todo more := by
  have hbytes := h.bytes
  rw [hbulk, toCome, List.append_assoc] at hbytes
  have hlen := h.length_eq
  have hcrlf : (a ++ crlf).length = a.length + 2 := List.length_append
  have hleft : c.multibulklen - 1 = todo.length := by
    rw [h.left, List.length_cons]
    omega
  have hunknown : ∀ n, (none : Option ℕ) = some n → ∃ a rest, todo = a :: rest ∧ a.length = n := by
    intro n hn
    cases hn
  unfold readBulk
  rcases arrived_cases hbytes with ⟨hlt, hsent⟩ | ⟨d, hd, hrest⟩
  · left
    have hshort : c.querybuf.length - pos < a.length + 2 := by omega
    refine ⟨if_pos hshort, ?_, hsent⟩
    unfold Short
    rw [hbulk]
    exact hshort
  · right
    have hdlen : (c.querybuf.drop pos).length = a.length + 2 + d.length := by
      rw [hd, List.length_append, hcrlf]
    rw [if_neg (by omega), hleft]
    split_ifs with hbig
    · obtain ⟨rfl, -, heq⟩ := hbig
      have hnil : d = [] := List.eq_nil_of_length_eq_zero (by omega)
      have hbuf : c.querybuf = a ++ crlf := by
        rw [List.drop_zero, hnil, List.append_nil] at hd
        exact hd
      refine ⟨[], 0, ?_, Nat.zero_le _, ?_, rfl, hunknown, .inl (Nat.zero_le _)⟩
      · rw [hbuf, List.take_left]
      · rw [hnil] at hrest
        simpa using hrest
    · have hslice : slice c.querybuf pos a.length = a := by
        rw [slice, hd, List.append_assoc, List.take_left]
      have hdrop : c.querybuf.drop (pos + (a.length + 2)) = d := by
        rw [← hcrlf, ← List.drop_drop, hd, List.drop_left]
      refine ⟨c.querybuf, _, by rw [hslice], by simp only; omega, ?_, rfl, hunknown, .inl ?_⟩
      · simp only [toCome_none]
        rw [hdrop, hrest]
      · simp only
        rcases h.fits with hfit | ⟨n, hn, hbign, hpos, hle⟩
        · exact hfit
        · rw [hbulk] at hn
          cases hn
          exact absurd ⟨hpos, hbign, by omega⟩ hbig

/-- **The loop over the arguments** takes those that have arrived. -/
theorem multibulkLoop_spec (h : Receives c pos sent todo more) (hsize : ∀ a ∈ todo, a.length ≤ maxBulk) :
    ∃ c' pos' taken todo', multibulkLoop todo.length c pos = (c', some pos') ∧ todo = taken ++ todo' ∧
      c'.argv = c.argv ++ taken ∧ c'.reqtype = c.reqtype ∧ c'.flags = c.flags ∧
      Receives c' pos' sent todo' more ∧ (todo' ≠ [] → Short c' pos' ∧ sent ≠ []) := by
  induction todo generalizing c pos with
  | nil => exact ⟨c, pos, [], [], rfl, rfl, (List.append_nil _).symm, rfl, rfl, h, fun hne => absurd rfl hne⟩
  | cons a todo ih =>
    have ha := hsize a List.mem_cons_self
    rw [List.length_cons, multibulkLoop]
    rcases knowBulklen_spec h ha with ⟨hwait, hshort, hsent⟩ | ⟨b, p, hnext, hknown⟩
    · rw [hwait]
      exact ⟨c, pos, [], a :: todo, rfl, rfl, (List.append_nil _).symm, rfl, rfl, h, fun _ => ⟨hshort, hsent⟩⟩
    · rw [hnext]
      simp only [Option.getD_some]
      rcases readBulk_spec rfl hknown with ⟨hwait, hshort, hsent⟩ | ⟨b', p', hread, hrest⟩
      · rw [hwait]
        exact ⟨_, p, [], a :: todo, rfl, rfl, (List.append_nil _).symm, rfl, rfl, hknown, fun _ =>
          ⟨hshort, hsent⟩⟩
      · rw [hread]
        obtain ⟨c', pos', taken, todo', hloop, htodo, hargv, hreq, hclose, hrec, hwait⟩ :=
          ih hrest fun a ha => hsize a (List.mem_cons_of_mem _ ha)
        refine ⟨c', pos', a :: taken, todo', hloop,
          by rw [htodo, List.cons_append], ?_, hreq, hclose, hrec, hwait⟩
        rw [hargv, List.append_assoc, List.singleton_append]

/-- What has been read is dropped from the buffer. -/
theorem Receives.trim (h : Receives c pos sent todo more) :
    Receives { c with querybuf := c.querybuf.drop pos } 0 sent todo more := by
  refine ⟨Nat.zero_le _, h.bytes, h.left, h.bulk, ?_⟩
  rcases h.fits with hfit | ⟨n, hn, hbig, rfl, hle⟩
  · left
    simp only [List.length_drop]
    omega
  · exact .inr ⟨n, hn, hbig, rfl, hle⟩

/-- The end of `processMultibulkBuffer`. -/
theorem readArguments_spec (h : Receives c pos sent todo more) (hsize : ∀ a ∈ todo, a.length ≤ maxBulk) :
    ∃ c' taken todo', readArguments c pos = (decide (todo' = []), c') ∧ todo = taken ++ todo' ∧
      c'.argv = c.argv ++ taken ∧ c'.reqtype = c.reqtype ∧ c'.flags = c.flags ∧
      Receives c' 0 sent todo' more ∧ (todo' ≠ [] → Short c' 0 ∧ sent ≠ []) := by
  obtain ⟨c', pos', taken, todo', hloop, htodo, hargv, hreq, hclose, hrec, hwait⟩ := multibulkLoop_spec h hsize
  refine ⟨{ c' with querybuf := c'.querybuf.drop pos' }, taken, todo', ?_, htodo, hargv, hreq, hclose, hrec.trim,
    fun hne => ⟨?_, (hwait hne).2⟩⟩
  · unfold readArguments
    rw [h.left, hloop]
    simp only [hrec.left, List.length_eq_zero_iff]
  · have hshort := (hwait hne).1
    unfold Short at hshort ⊢
    simpa only [List.length_drop, Nat.sub_zero] using hshort

/-! ## Commands -/

/-- A command that can be sent: the server limits the number of arguments and their
lengths. -/
structure Sendable (argv : List Bytes) : Prop where
  count : argv.length ≤ maxMultibulk
  size : ∀ a ∈ argv, a.length ≤ maxBulk

/-- **Between the commands.** The client expects a command, and these bytes are on their way. -/
structure Idle (c : Client) (sent : Bytes) (cmds : List (List Bytes)) : Prop where
  reqtype : c.reqtype = none ∨ c.reqtype = some .multibulk
  multibulklen : c.multibulklen = 0
  bulklen : c.bulklen = none
  argv : c.argv = []
  bytes : c.querybuf ++ sent = cmds.flatMap redisFormatSdsCommandArgv
  fits : c.querybuf.length ≤ protoInlineMaxSize

/-- The line before the arguments. -/
theorem processMultibulkBuffer_idle {cmd : List Bytes} {cmds : List (List Bytes)} (h : Idle c sent (cmd :: cmds))
    (hcmd : Sendable cmd) :
    (processMultibulkBuffer c = some (false, c) ∧ Short c 0 ∧ sent ≠ []) ∨
      (cmd = [] ∧ ∃ b, processMultibulkBuffer c = some (true, { c with querybuf := b }) ∧
        b ++ sent = cmds.flatMap redisFormatSdsCommandArgv) ∨
      (cmd ≠ [] ∧
        ∃ pos, processMultibulkBuffer c = some (readArguments { c with multibulklen := cmd.length } pos) ∧
          Receives { c with multibulklen := cmd.length } pos sent cmd
            (cmds.flatMap redisFormatSdsCommandArgv)) := by
  have hbytes := h.bytes
  rw [List.flatMap_cons, redisFormatSdsCommandArgv_eq, List.append_assoc] at hbytes
  have hmark : (42 : UInt8) ≠ 13 ∧ (42 : UInt8) ≠ 0 := by decide
  have hcount : cmd.length ≤ maxBulk := by
    have hle := hcmd.count
    unfold maxMultibulk at hle
    unfold maxBulk
    omega
  unfold processMultibulkBuffer
  rw [if_pos h.multibulklen, if_neg (fun hne => hne h.argv)]
  rcases arrived_cases hbytes with ⟨hlt, hsent⟩ | ⟨d, hd, hrest⟩
  · left
    refine ⟨?_, ?_, hsent⟩
    · rcases strchr_partial hmark hbytes hlt with hnone | ⟨i, hi, hilt⟩
      · rw [hnone]
        simp only [if_neg (Nat.not_lt.2 h.fits)]
      · rw [hi]
        simp only [if_pos hilt]
    · have hle := length_countLine_le 42 hcount
      unfold Short
      rw [h.bulklen]
      simp only
      omega
  · right
    obtain ⟨hnl, hslice, hstar⟩ := strchr_countLine hmark cmd.length d
    rw [← hd] at hnl hslice hstar
    have hread : string2ll (digits cmd.length) = some (cmd.length : ℤ) :=
      string2ll_digits (by unfold maxBulk at hcount; omega)
    have hlen : c.querybuf.length = (digits cmd.length).length + 1 + 2 + d.length := by
      rw [hd, List.length_append, length_countLine]
    have hdrop : c.querybuf.drop ((digits cmd.length).length + 1 + 2) = d := by
      rw [hd, ← length_countLine 42, List.drop_left]
    have hmax := hcmd.count
    rw [hnl]
    simp only [Nat.add_sub_cancel, hslice, hstar, hread, ne_eq, not_true_eq_false, if_false]
    rw [if_neg (by omega), if_neg (by omega)]
    cases cmd with
    | nil =>
      left
      exact ⟨rfl, d, by rw [if_pos (by exact Int.le_refl 0), hdrop], hrest⟩
    | cons a todo =>
      right
      refine ⟨List.cons_ne_nil _ _, _, by rw [if_neg (by rw [List.length_cons]; omega), Int.toNat_natCast], ?_⟩
      refine ⟨by simp only; omega, ?_, rfl, fun n hn => ?_, .inl h.fits⟩
      · simp only
        rw [hdrop, hrest, h.bulklen, toCome_none]
      · rw [h.bulklen] at hn
        cases hn

/-- **What a client expects** that is to receive commands: a command, or the rest of one. -/
inductive Expects (c : Client) (sent : Bytes) : List (List Bytes) → Prop
  | idle {cmds : List (List Bytes)} (h : Idle c sent cmds) : Expects c sent cmds
  | within {todo : List Bytes} {cmds : List (List Bytes)} (hreq : c.reqtype = some .multibulk) (hne : todo ≠ [])
      (h : Receives c 0 sent todo (cmds.flatMap redisFormatSdsCommandArgv)) :
      Expects c sent ((c.argv ++ todo) :: cmds)

theorem Receives.toCome_ne_nil (h : Receives c pos sent todo more) (hne : todo ≠ []) :
    toCome c.bulklen todo ≠ [] := by
  cases todo with
  | nil => exact absurd rfl hne
  | cons a todo =>
    cases c.bulklen with
    | none => simp [formatArgument]
    | some n => simp [toCome, crlf]

/-- A client expects something before the commands behind the first. -/
theorem Expects.bytes {cmd : List Bytes} {cmds : List (List Bytes)} (h : Expects c sent (cmd :: cmds)) :
    ∃ u, u ≠ [] ∧ c.querybuf ++ sent = u ++ cmds.flatMap redisFormatSdsCommandArgv := by
  cases h with
  | idle h => exact ⟨_, List.cons_ne_nil _ _, by rw [h.bytes, List.flatMap_cons]; rfl⟩
  | within hreq hne h => exact ⟨_, h.toCome_ne_nil hne, h.bytes⟩

theorem Expects.of_nil {cmds : List (List Bytes)} (h : Expects c sent cmds) (hnil : c.querybuf = []) :
    Short c 0 ∧ (sent = [] → cmds = []) := by
  constructor
  · unfold Short
    rw [hnil, List.length_nil]
    cases c.bulklen <;> simp only <;> omega
  · rintro rfl
    cases cmds with
    | nil => rfl
    | cons cmd cmds =>
      obtain ⟨u, hu, hbytes⟩ := h.bytes
      rw [hnil, List.nil_append] at hbytes
      exact absurd (List.append_eq_nil_iff.1 hbytes.symm).1 hu

/-- When all arguments have been read the client expects the next command. -/
theorem Receives.idle {cmds : List (List Bytes)}
    (h : Receives c 0 sent [] (cmds.flatMap redisFormatSdsCommandArgv)) :
    Idle c.resetClient sent cmds := by
  have hbulk : c.bulklen = none := by
    cases hb : c.bulklen with
    | none => rfl
    | some n =>
      obtain ⟨a, rest, hnil, -⟩ := h.bulk n hb
      cases hnil
  refine ⟨.inl rfl, rfl, rfl, rfl, ?_, ?_⟩
  · have hbytes := h.bytes
    rw [hbulk] at hbytes
    exact hbytes
  · rcases h.fits with hfit | ⟨n, hn, -⟩
    · exact hfit
    · rw [hbulk] at hn
      cases hn

/-- How a round of `processInputBuffer` ends: waiting for the rest of a command, or with a
command. -/
def RoundEnds (result : Bool × Client) (sent : Bytes) (cmd : List Bytes) (cmds : List (List Bytes)) : Prop :=
  result.2.flags = (none, none) ∧
    (result.1 = false ∧ Expects result.2 sent (cmd :: cmds) ∧ Short result.2 0 ∧ sent ≠ [] ∨
      result.1 = true ∧ result.2.argv = cmd ∧ result.2.multibulklen = 0 ∧ Idle result.2.resetClient sent cmds)

theorem readArguments_ends {cmds : List (List Bytes)}
    (h : Receives c pos sent todo (cmds.flatMap redisFormatSdsCommandArgv)) (hreq : c.reqtype = some .multibulk)
    (hopen : c.flags = (none, none)) (hsize : ∀ a ∈ todo, a.length ≤ maxBulk) :
    RoundEnds (readArguments c pos) sent (c.argv ++ todo) cmds := by
  obtain ⟨c', taken, todo', hread, htodo, hargv, hreq', hopen', hrec, hwait⟩ := readArguments_spec h hsize
  rw [hread]
  refine ⟨hopen'.trans hopen, ?_⟩
  by_cases hdone : todo' = []
  · subst hdone
    rw [List.append_nil] at htodo
    exact .inr ⟨by simp, by rw [hargv, htodo], hrec.left, hrec.idle⟩
  · have hcmd : c.argv ++ todo = c'.argv ++ todo' := by
      rw [hargv, htodo, List.append_assoc]
    obtain ⟨hshort, hsent⟩ := hwait hdone
    refine .inl ⟨decide_eq_false hdone, ?_, hshort, hsent⟩
    rw [hcmd]
    exact .within (hreq'.trans hreq) hdone hrec

/-- A request that starts with an asterisk is of the type `multibulk`. -/
theorem Idle.withReqtype {cmd : List Bytes} {cmds : List (List Bytes)} (h : Idle c sent (cmd :: cmds))
    (hne : c.querybuf ≠ []) : c.withReqtype = { c with reqtype := some .multibulk } := by
  have hstar : byteAt c.querybuf 0 = 42 := by
    have hbytes := h.bytes
    cases hbuf : c.querybuf with
    | nil => exact absurd hbuf hne
    | cons b buf =>
      rw [hbuf, List.flatMap_cons, redisFormatSdsCommandArgv] at hbytes
      exact (List.cons.inj hbytes).1
  unfold Client.withReqtype
  rcases h.reqtype with hreq | hreq
  · rw [hreq]
    simp only [hstar, if_true]
  · rw [hreq]
    simp only
    rw [← hreq]

/-- **A round of `processInputBuffer`.** -/
theorem process_spec {cmd : List Bytes} {cmds : List (List Bytes)} (h : Expects c sent (cmd :: cmds))
    (hne : c.querybuf ≠ []) (hopen : c.flags = (none, none)) (hcmd : Sendable cmd) :
    ∃ result, c.withReqtype.process = some result ∧ RoundEnds result sent cmd cmds := by
  cases h with
  | within hreq hne' hrec =>
    have hwith : c.withReqtype = c := by
      unfold Client.withReqtype
      rw [hreq]
    have hlen : c.multibulklen ≠ 0 := by
      rw [hrec.left]
      exact fun hnil => hne' (List.length_eq_zero_iff.1 hnil)
    refine ⟨readArguments c 0, ?_, ?_⟩
    · rw [hwith, Client.process, hreq]
      simp only [processMultibulkBuffer, if_neg hlen]
    · exact readArguments_ends hrec hreq hopen fun a ha => hcmd.size a (List.mem_append_right _ ha)
  | idle h =>
    rw [h.withReqtype hne]
    have hidle : Idle { c with reqtype := some .multibulk } sent (cmd :: cmds) :=
      ⟨.inr rfl, h.multibulklen, h.bulklen, h.argv, h.bytes, h.fits⟩
    unfold Client.process
    simp only
    rcases processMultibulkBuffer_idle hidle hcmd with ⟨hwait, hshort, hsent⟩ | ⟨rfl, b, hnone, hrest⟩ |
      ⟨-, pos, hread, hrec⟩
    · exact ⟨_, hwait, hopen, .inl ⟨rfl, .idle hidle, hshort, hsent⟩⟩
    · refine ⟨_, hnone, hopen, .inr ⟨rfl, h.argv, h.multibulklen, .inl rfl, rfl, rfl, rfl, hrest, ?_⟩⟩
      have hlen := congrArg List.length (hidle.bytes.trans List.flatMap_cons)
      have hlen' := congrArg List.length hrest
      have hfit := h.fits
      simp only [List.length_append, Client.resetClient] at hlen hlen' ⊢
      omega
    · refine ⟨_, hread, ?_⟩
      have hends := readArguments_ends hrec rfl hopen hcmd.size
      simp only [h.argv, List.nil_append] at hends ⊢
      exact hends

/-! ## Stopping a client -/

variable {σ : Type} (Z : Service σ)

/-- The server after commands. One without arguments is skipped. -/
def serve : List (List Bytes) → σ → σ
  | [], s => s
  | cmd :: cmds, s => serve cmds (if cmd = [] then s else (Z.processCommand cmd s).2)

/-- **The command stops its client**: it blocks it or ends the connection, or the clients are
paused after it. -/
def Stops (cmd : List Bytes) (s : σ) : Prop :=
  cmd ≠ [] ∧ ((Z.processCommand cmd s).1 ≠ .goesOn ∨ Z.clientsArePaused (Z.processCommand cmd s).2 = true)

/-- None of the commands stops the client. -/
def GoOn : List (List Bytes) → σ → Prop
  | [], _ => True
  | cmd :: cmds, s => ¬Stops Z cmd s ∧ GoOn cmds (serve Z [cmd] s)

/-- The last of the commands stops the client, and no other. -/
def StopsLast (done : List (List Bytes)) (s : σ) : Prop :=
  ∃ init cmd, done = init ++ [cmd] ∧ GoOn Z init s ∧ Stops Z cmd (serve Z init s)

/-- What `processInputBuffer` asks before each command. -/
def Client.Stopped (c : Client) (s : σ) : Prop :=
  Z.clientsArePaused s = true ∨ c.blocked ≠ none ∨ c.closeAfterReply ≠ none

variable {Z} {s : σ} {done cmds : List (List Bytes)} {cmd : List Bytes}

theorem serve_append (done cmds : List (List Bytes)) (s : σ) :
    serve Z (done ++ cmds) s = serve Z cmds (serve Z done s) := by
  induction done generalizing s with
  | nil => rfl
  | cons cmd done ih => exact ih _

theorem goOn_append : GoOn Z (done ++ cmds) s ↔ GoOn Z done s ∧ GoOn Z cmds (serve Z done s) := by
  induction done generalizing s with
  | nil => exact (iff_of_eq (true_and _)).symm
  | cons cmd done ih =>
    rw [List.cons_append, GoOn, ih, GoOn, and_assoc]
    rfl

theorem StopsLast.append (h : StopsLast Z cmds (serve Z done s)) (hdone : GoOn Z done s) :
    StopsLast Z (done ++ cmds) s := by
  obtain ⟨init, cmd, rfl, hinit, hstops⟩ := h
  exact ⟨done ++ init, cmd, (List.append_assoc _ _ _).symm, goOn_append.2 ⟨hdone, hinit⟩, by rwa [serve_append]⟩

/-- As long as no command stops the client, the clients are not paused. -/
theorem GoOn.unpaused (h : GoOn Z done s) (hs : Z.clientsArePaused s = false) :
    Z.clientsArePaused (serve Z done s) = false := by
  induction done generalizing s with
  | nil => exact hs
  | cons cmd done ih =>
    refine ih h.2 ?_
    split_ifs with hnil
    · exact hs
    · rw [← Bool.not_eq_true]
      exact fun hpaused => h.1 ⟨hnil, .inr hpaused⟩

theorem Client.not_stopped (hopen : c.flags = (none, none)) (hs : Z.clientsArePaused s = false) :
    ¬c.Stopped Z s := by
  obtain ⟨hclose, hblocked⟩ := Prod.mk.inj hopen
  rintro (h | h | h)
  · rw [hs] at h
    cases h
  · exact h hblocked
  · exact h hclose

/-- A client that is stopped leaves its buffer alone. -/
theorem processInputLoop_stopped (h : c.Stopped Z s) (n : ℕ) : processInputLoop Z n c s = some (c, s) := by
  cases n with
  | zero => rfl
  | succ n =>
    have hstopped : Z.clientsArePaused s = true ∨ c.blocked ≠ none ∨ c.closeAfterReply ≠ none := h
    rw [processInputLoop, if_pos hstopped]
    exact ite_self _

theorem Stops.stopped (h : Stops Z cmd s) (c : Client) :
    (c.executed (Z.processCommand cmd s).1).Stopped Z (Z.processCommand cmd s).2 := by
  cases heffect : (Z.processCommand cmd s).1 with
  | goesOn => exact .inl (h.2.resolve_left fun hne => hne heffect)
  | closes => exact .inr (.inr (Option.some_ne_none _))
  | quits => exact .inr (.inr (Option.some_ne_none _))
  | blocks btype => cases btype <;> exact .inr (.inl (Option.some_ne_none _))

/-- The rest of a round in which a command is complete. -/
def afterCommand (Z : Service σ) (n : ℕ) (c : Client) (s : σ) : Option (Client × σ) :=
  if c.argv = [] then processInputLoop Z n c.resetClient s
  else processInputLoop Z n (c.executed (Z.processCommand c.argv s).1) (Z.processCommand c.argv s).2

theorem afterCommand_of_stops (h : Stops Z c.argv s) (n : ℕ) :
    afterCommand Z n c s = some (c.executed (Z.processCommand c.argv s).1, serve Z [c.argv] s) := by
  have hserve : serve Z [c.argv] s = (Z.processCommand c.argv s).2 := if_neg h.1
  rw [afterCommand, if_neg h.1, hserve]
  exact processInputLoop_stopped (h.stopped c) n

theorem afterCommand_of_not_stops (h : ¬Stops Z c.argv s) (n : ℕ) :
    afterCommand Z n c s = processInputLoop Z n c.resetClient (serve Z [c.argv] s) := by
  unfold afterCommand
  simp only [serve]
  split_ifs with hargv
  · rfl
  · have hgoes : (Z.processCommand c.argv s).1 = .goesOn := by
      by_contra hne
      exact h ⟨hargv, .inl hne⟩
    rw [hgoes]
    rfl

/-- **A client that a command has stopped**: not for a protocol error, and between commands. -/
structure Halted (Z : Service σ) (c : Client) (s : σ) : Prop where
  stopped : c.Stopped Z s
  noError : ∀ e, c.closeAfterReply ≠ some (.protocolError e)
  between : c.multibulklen = 0

/-- The client after a command that stops it. -/
theorem Stops.halted (h : Stops Z c.argv s) (hopen : c.flags = (none, none)) (hlen : c.multibulklen = 0) :
    Halted Z (c.executed (Z.processCommand c.argv s).1) (serve Z [c.argv] s) := by
  have hserve : serve Z [c.argv] s = (Z.processCommand c.argv s).2 := if_neg h.1
  have hstopped := h.stopped c
  have hnone : ∀ e, c.closeAfterReply ≠ some (.protocolError e) := by
    intro e heq
    rw [(Prod.mk.inj hopen).1] at heq
    cases heq
  have hcommand : ∀ e, some Closing.command ≠ some (.protocolError e) := fun e heq => by cases heq
  rw [← hserve] at hstopped
  refine ⟨hstopped, ?_, ?_⟩
  · cases (Z.processCommand c.argv s).1 with
    | goesOn => exact hnone
    | closes => exact hcommand
    | quits => exact hcommand
    | blocks btype => cases btype <;> exact hnone
  · cases (Z.processCommand c.argv s).1 with
    | goesOn => rfl
    | closes => rfl
    | quits => exact hlen
    | blocks btype => cases btype <;> first | rfl | exact hlen

/-- **What `processInputBuffer` leaves behind**: a client that expects the other commands, or one that
has been stopped. -/
def LoopEnds (Z : Service σ) (c : Client) (s : σ) (sent : Bytes) (done rest : List (List Bytes)) : Prop :=
  GoOn Z done s ∧ Expects c sent rest ∧ c.flags = (none, none) ∧ Short c 0 ∧ (sent = [] → rest = []) ∨
    StopsLast Z done s ∧ Halted Z c (serve Z done s)

theorem LoopEnds.cons {rest : List (List Bytes)} (hcmd : ¬Stops Z cmd s)
    (h : LoopEnds Z c (serve Z [cmd] s) sent done rest) : LoopEnds Z c s sent (cmd :: done) rest := by
  rcases h with ⟨hgo, hexp⟩ | ⟨hlast, hhalted⟩
  · exact .inl ⟨⟨hcmd, hgo⟩, hexp⟩
  · have hgo : GoOn Z [cmd] s := ⟨hcmd, trivial⟩
    exact .inr ⟨hlast.append hgo, hhalted⟩

/-- **`processInputBuffer`** executes the commands that have arrived. -/
theorem processInputLoop_spec (h : Expects c sent cmds) (hopen : c.flags = (none, none))
    (hs : Z.clientsArePaused s = false) (hcmds : ∀ cmd ∈ cmds, Sendable cmd) (hn : c.querybuf.length ≤ n) :
    ∃ c' done rest, processInputLoop Z n c s = some (c', serve Z done s) ∧ cmds = done ++ rest ∧
      LoopEnds Z c' s sent done rest := by
  induction n generalizing c cmds s with
  | zero =>
    obtain ⟨hshort, hrest⟩ := h.of_nil (List.eq_nil_of_length_eq_zero (by omega))
    exact ⟨c, [], cmds, rfl, rfl, .inl ⟨trivial, h, hopen, hshort, hrest⟩⟩
  | succ n ih =>
    rw [processInputLoop]
    by_cases hnil : c.querybuf = []
    · obtain ⟨hshort, hrest⟩ := h.of_nil hnil
      exact ⟨c, [], cmds, if_pos hnil, rfl, .inl ⟨trivial, h, hopen, hshort, hrest⟩⟩
    · have hgoes : ¬(Z.clientsArePaused s = true ∨ c.blocked ≠ none ∨ c.closeAfterReply ≠ none) :=
        Client.not_stopped hopen hs
      rw [if_neg hnil, if_neg hgoes]
      cases cmds with
      | nil =>
        -- bytes in the buffer belong to a command
        cases h with
        | idle h => exact absurd (List.append_eq_nil_iff.1 h.bytes).1 hnil
      | cons cmd cmds =>
        obtain ⟨⟨ready, c'⟩, hprocess, hopen', hends⟩ := process_spec h hnil hopen (hcmds cmd List.mem_cons_self)
        rw [hprocess]
        rcases hends with ⟨rfl, hexp, hshort, hsent⟩ | ⟨rfl, rfl, hlen, hidle⟩
        · exact ⟨c', [], cmd :: cmds, rfl, rfl,
            .inl ⟨trivial, hexp, hopen', hshort, fun hnil => absurd hnil hsent⟩⟩
        · -- the command has been taken out of the buffer
          have hshorter : c'.resetClient.querybuf.length ≤ n := by
            obtain ⟨u, hu, hbytes⟩ := h.bytes
            have hlen := congrArg List.length hbytes
            have hlen' : (c'.resetClient.querybuf ++ sent).length = _ := congrArg List.length hidle.bytes
            have hpos := List.length_pos_iff.2 hu
            rw [List.length_append, List.length_append] at hlen
            rw [List.length_append] at hlen'
            omega
          have hothers : ∀ cmd ∈ cmds, Sendable cmd := fun cmd hcmd => hcmds cmd (List.mem_cons_of_mem _ hcmd)
          change ∃ c'' done rest, afterCommand Z n c' s = some (c'', serve Z done s) ∧ _
          by_cases hstops : Stops Z c'.argv s
          · rw [afterCommand_of_stops hstops]
            exact ⟨_, [c'.argv], cmds, rfl, rfl,
              .inr ⟨⟨[], c'.argv, rfl, trivial, hstops⟩, hstops.halted hopen' hlen⟩⟩
          · have hgo : GoOn Z [c'.argv] s := ⟨hstops, trivial⟩
            obtain ⟨c'', done, rest, hloop, hdone, hends⟩ :=
              ih (.idle hidle) hopen' (hgo.unpaused hs) hothers hshorter
            rw [afterCommand_of_not_stops hstops]
            exact ⟨c'', c'.argv :: done, rest, hloop, by rw [hdone, List.cons_append], hends.cons hstops⟩

/-! ## Reads -/

/-- **How much is read**: something, not more than a piece, and not more than is left of a large
argument. -/
theorem readlen_spec (hleft : ∀ n, c.bulklen = some n → c.querybuf.length < n + 2) :
    0 < c.readlen.toNat ∧ c.readlen.toNat ≤ protoIobufLen ∧
      ∀ n, c.bulklen = some n → protoMbulkBigArg ≤ n → c.reqtype = some .multibulk → c.multibulklen ≠ 0 →
        c.querybuf.length + c.readlen.toNat ≤ n + 2 := by
  have hpiece : 0 < (protoIobufLen : ℤ).toNat ∧ (protoIobufLen : ℤ).toNat ≤ protoIobufLen := by decide
  unfold Client.readlen
  cases hb : c.bulklen with
  | none => exact ⟨hpiece.1, hpiece.2, fun n hn => by cases hn⟩
  | some n =>
    have hlt := hleft n hb
    simp only
    split_ifs with hbig
    · refine ⟨by omega, by omega, fun n' hn' _ _ _ => ?_⟩
      cases hn'
      omega
    · refine ⟨hpiece.1, hpiece.2, fun n' hn' hbig' hreq hlen => ?_⟩
      cases hn'
      exact absurd ⟨hreq, hlen, hbig'⟩ hbig

theorem Short.left (hshort : Short c 0) : ∀ n, c.bulklen = some n → c.querybuf.length < n + 2 := by
  intro n hn
  unfold Short at hshort
  rw [hn] at hshort
  exact hshort

/-- The client has read more. -/
theorem Expects.read {cmds : List (List Bytes)} (h : Expects c sent cmds) (hshort : Short c 0) {k : ℕ}
    (hk : k ≤ c.readlen.toNat) :
    Expects { c with querybuf := c.querybuf ++ sent.take k } (sent.drop k) cmds := by
  obtain ⟨-, hpiece, hlarge⟩ := readlen_spec hshort.left
  have hlen : (c.querybuf ++ sent.take k).length ≤ c.querybuf.length + k := by
    rw [List.length_append, List.length_take]
    omega
  have hbytes : c.querybuf ++ sent.take k ++ sent.drop k = c.querybuf ++ sent := by
    rw [List.append_assoc, List.take_append_drop]
  unfold protoIobufLen at hpiece
  unfold Short at hshort
  cases h with
  | idle h =>
    rw [h.bulklen] at hshort
    simp only [Nat.sub_zero] at hshort
    refine .idle ⟨h.reqtype, h.multibulklen, h.bulklen, h.argv, hbytes.trans h.bytes, ?_⟩
    simp only [protoInlineMaxSize]
    omega
  | @within todo cmds hreq hne h =>
    refine .within hreq hne ⟨Nat.zero_le _, hbytes.trans h.bytes, h.left, h.bulk, ?_⟩
    have hleft : c.multibulklen ≠ 0 := by
      rw [h.left]
      exact fun hnil => hne (List.length_eq_zero_iff.1 hnil)
    cases hb : c.bulklen with
    | none =>
      rw [hb] at hshort
      simp only [Nat.sub_zero] at hshort
      left
      simp only [protoInlineMaxSize]
      omega
    | some n =>
      rw [hb] at hshort
      simp only [Nat.sub_zero] at hshort
      by_cases hbig : protoMbulkBigArg ≤ n
      · have hle := hlarge n hb hbig hreq hleft
        exact .inr ⟨n, rfl, hbig, rfl, by simp only; omega⟩
      · left
        unfold protoMbulkBigArg at hbig
        simp only [protoInlineMaxSize]
        omega

/-- The query buffer is never too long. -/
theorem Expects.length_le {cmds : List (List Bytes)} (h : Expects c sent cmds)
    (hcmds : ∀ cmd ∈ cmds, Sendable cmd) :
    c.querybuf.length ≤ protoMaxQuerybufLen := by
  have hsmall : c.querybuf.length ≤ protoInlineMaxSize → c.querybuf.length ≤ protoMaxQuerybufLen := by
    unfold protoInlineMaxSize protoMaxQuerybufLen
    omega
  cases h with
  | idle h => exact hsmall h.fits
  | @within todo cmds hreq hne h =>
    rcases h.fits with hfit | ⟨n, hn, -, -, hle⟩
    · exact hsmall hfit
    · obtain ⟨a, rest, rfl, rfl⟩ := h.bulk n hn
      have hsize := (hcmds _ List.mem_cons_self).size a (List.mem_append_right _ List.mem_cons_self)
      unfold maxBulk at hsize
      unfold protoMaxQuerybufLen
      omega

/-- **A connection on which commands arrive.** -/
structure Delivers (Z : Service σ) (C : Connection σ) (cmds : List (List Bytes)) : Prop where
  expects : Expects C.client C.sent cmds
  open_ : C.client.flags = (none, none)
  unpaused : Z.clientsArePaused C.server = false
  short : Short C.client 0
  done : C.sent = [] → cmds = []

/-- **One read** executes the commands that are complete with it. -/
theorem readQueryFromClient_spec {C : Connection σ} (h : Delivers Z C cmds) (hcmds : ∀ cmd ∈ cmds, Sendable cmd)
    (n : ℕ) :
    ∃ C' done rest, readQueryFromClient Z n C = .ok C' ∧ cmds = done ++ rest ∧ C'.server = serve Z done C.server ∧
      (GoOn Z done C.server ∧ Delivers Z C' rest ∧ (0 < n → C'.sent.length ≤ C.sent.length - 1) ∨
        StopsLast Z done C.server ∧ Halted Z C'.client C'.server) := by
  unfold readQueryFromClient
  by_cases hnone : n = 0 ∨ C.sent = []
  · refine ⟨C, [], cmds, if_pos hnone, rfl, rfl, .inl ⟨trivial, h, fun hn => ?_⟩⟩
    rcases hnone with rfl | hnil
    · exact absurd hn (Nat.lt_irrefl 0)
    · rw [hnil]
      exact Nat.zero_le _
  · rw [not_or] at hnone
    obtain ⟨hpos, -, -⟩ := readlen_spec h.short.left
    have hread := h.expects.read h.short (Nat.min_le_right n C.client.readlen.toNat)
    obtain ⟨c', done, rest, hloop, hdone, hends⟩ :=
      processInputLoop_spec hread h.open_ h.unpaused hcmds (Nat.le_refl _)
    refine ⟨⟨c', serve Z done C.server, C.sent.drop (min n C.client.readlen.toNat)⟩, done, rest, ?_,
      hdone, rfl, ?_⟩
    · have hzero : min n C.client.readlen.toNat ≠ 0 := by omega
      have hlen := hread.length_le hcmds
      have hprocess : processInputBuffer Z _ C.server = some (c', serve Z done C.server) := hloop
      rw [if_neg (by rw [not_or]; exact hnone)]
      simp only [if_neg hzero, if_neg (Nat.not_lt.2 hlen), hprocess]
    · rcases hends with ⟨hgo, hexp, hopen, hshort, hrest⟩ | hhalted
      · refine .inl ⟨hgo, ⟨hexp, hopen, hgo.unpaused h.unpaused, hshort, hrest⟩, fun _ => ?_⟩
        simp only [List.length_drop]
        omega
      · exact .inr hhalted

/-- **A read for a client that has been stopped** only fills the buffer, until it is too long. -/
theorem Halted.read {C : Connection σ} (h : Halted Z C.client C.server) (n : ℕ) :
    readQueryFromClient Z n C = .error .maxQuerybuf ∨
      ∃ C', readQueryFromClient Z n C = .ok C' ∧ C'.server = C.server ∧ Halted Z C'.client C'.server := by
  unfold readQueryFromClient
  by_cases hnone : n = 0 ∨ C.sent = []
  · exact .inr ⟨C, if_pos hnone, rfl, h⟩
  · rw [if_neg hnone]
    rw [not_or] at hnone
    have hreadlen : C.client.readlen = protoIobufLen := by
      unfold Client.readlen
      cases C.client.bulklen with
      | none => rfl
      | some k => exact if_neg fun hbig => hbig.2.1 h.between
    have hzero : min n C.client.readlen.toNat ≠ 0 := by
      rw [hreadlen]
      unfold protoIobufLen
      omega
    simp only [if_neg hzero]
    split_ifs with hmax
    · exact .inl rfl
    · have hstopped : Client.Stopped Z
          { C.client with querybuf := C.client.querybuf ++ C.sent.take (min n C.client.readlen.toNat) }
            C.server :=
        h.stopped
      rw [processInputBuffer, processInputLoop_stopped hstopped]
      exact .inr ⟨_, rfl, rfl, hstopped, h.noError, h.between⟩

theorem Halted.readAll {C : Connection σ} (h : Halted Z C.client C.server) (reads : List ℕ) :
    readAll Z reads C = .error .maxQuerybuf ∨
      ∃ C', readAll Z reads C = .ok C' ∧ C'.server = C.server ∧ Halted Z C'.client C'.server := by
  induction reads generalizing C with
  | nil => exact .inr ⟨C, rfl, rfl, h⟩
  | cons n reads ih =>
    rcases h.read n with hread | ⟨C₁, hread, hserver, hhalted⟩
    · left
      rw [Server.readAll, hread]
      rfl
    · rw [Server.readAll, hread, ← hserver]
      exact ih hhalted

theorem readAll_spec {C : Connection σ} (h : Delivers Z C cmds) (hcmds : ∀ cmd ∈ cmds, Sendable cmd)
    (reads : List ℕ) :
    ∃ done rest, cmds = done ++ rest ∧
      ((GoOn Z done C.server ∧ ∃ C', readAll Z reads C = .ok C' ∧ C'.server = serve Z done C.server ∧
          Delivers Z C' rest ∧ ((∀ n ∈ reads, 0 < n) → C'.sent.length ≤ C.sent.length - reads.length)) ∨
        (StopsLast Z done C.server ∧ (readAll Z reads C = .error .maxQuerybuf ∨
          ∃ C', readAll Z reads C = .ok C' ∧ C'.server = serve Z done C.server ∧
            Halted Z C'.client C'.server))) := by
  induction reads generalizing C cmds with
  | nil => exact ⟨[], cmds, rfl, .inl ⟨trivial, C, rfl, rfl, h, fun _ => Nat.le_refl _⟩⟩
  | cons n reads ih =>
    obtain ⟨C₁, done, rest, hread, rfl, hserver, hcases⟩ := readQueryFromClient_spec h hcmds n
    have hall : readAll Z (n :: reads) C = readAll Z reads C₁ := by
      rw [readAll, hread]
      rfl
    rw [hall]
    rcases hcases with ⟨hgo, hdel, hless⟩ | ⟨hlast, hhalted⟩
    · obtain ⟨done', rest', rfl, hends⟩ := ih hdel fun cmd hcmd => hcmds cmd (List.mem_append_right _ hcmd)
      rw [hserver, ← serve_append] at hends
      refine ⟨done ++ done', rest', (List.append_assoc _ _ _).symm, ?_⟩
      rcases hends with ⟨hgo', C₂, hread₂, hserver₂, hdel₂, hless₂⟩ | ⟨hlast, hread₂⟩
      · refine .inl ⟨goOn_append.2 ⟨hgo, hgo'⟩, C₂, hread₂, hserver₂, hdel₂, fun hpos => ?_⟩
        have h₁ := hless (hpos n List.mem_cons_self)
        have h₂ := hless₂ fun n hn => hpos n (List.mem_cons_of_mem _ hn)
        rw [List.length_cons]
        omega
      · exact .inr ⟨hlast.append hgo, hread₂⟩
    · refine ⟨done, rest, rfl, .inr ⟨hlast, ?_⟩⟩
      rw [← hserver]
      exact hhalted.readAll reads

/-- A server that notes down its commands. -/
def noting : Service (List (List Bytes)) := ⟨fun argv s => (.goesOn, s ++ [argv]), fun _ => false⟩

end Coms4111.Server
