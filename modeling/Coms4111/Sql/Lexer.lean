import Coms4111.Sql.Text

/-!
# Statements as the server reads them

The text of a statement is read character by character, by MySQL's rules: a string stands
between quotes, in which a doubled quote is a quote and `\` escapes the next character;
comments are left out. An operator is read as its characters, and what introduces a string
(`x`, `n`, a character set) as a word; comments that the server reads for their version
(`/*!`) are not told apart from others.

* `Plain`: a text without quotes, in which `\` stands only before `%` and `_`, where it is
  kept.
* `run_plain`: between quotes, a plain text is read as itself.
* `run_not_plain`: any other text gives strings that are shorter than it is, unless it ends
  in a `\` that takes the closing quote away. What is read after a string has ended does not
  matter, for a character of the text adds at most one to the strings (`weight_step`).
-/

namespace Coms4111.Sql

/-- What a statement is made of. -/
inductive Token
  | word (w : Text)
  | string (v : Text)
  | name (v : Text)
  | symbol (c : Char)
  deriving DecidableEq

namespace Lexer

/-- What is being read. -/
inductive Mode
  | blank
  | word (w : Text)
  | quoted (q : Char) (v : Text)
  | escaped (q : Char) (v : Text)
  | closing (q : Char) (v : Text)
  | dash
  | dashes
  | slash
  | line
  | block
  | star
  deriving DecidableEq

/-- The tokens that have been read, and the one that is being read. -/
structure State where
  tokens : List Token
  mode : Mode
  deriving DecidableEq

/-- The quotes of a string, and that of a name. -/
def quotes : Text := "'\"".toList

def nameQuotes : Text := "`".toList

def isWord (c : Char) : Bool := c.isAlphanum || c = '_' || c = '$' || 128 ≤ c.toNat

def isBlank (c : Char) : Bool := c.isWhitespace

/-- What `\` and a character stand for. `\%` and `\_` keep the `\`, for a pattern. -/
def unescape (c : Char) : Text :=
  if c = '%' ∨ c = '_' then ['\\', c]
  else if c = '0' then [Char.ofNat 0]
  else if c = 'b' then [Char.ofNat 8]
  else if c = 'n' then ['\n']
  else if c = 'r' then ['\r']
  else if c = 't' then ['\t']
  else if c = 'Z' then [Char.ofNat 26]
  else [c]

/-- What stood between quotes. -/
def literal (q : Char) (v : Text) : Token := if q ∈ quotes then .string v else .name v

/-- The first character after a token. -/
def start (tokens : List Token) (c : Char) : State :=
  if c ∈ quotes ∨ c ∈ nameQuotes then ⟨tokens, .quoted c []⟩
  else if c = '#' then ⟨tokens, .line⟩
  else if c = '-' then ⟨tokens, .dash⟩
  else if c = '/' then ⟨tokens, .slash⟩
  else if isWord c then ⟨tokens, .word [c]⟩
  else if isBlank c then ⟨tokens, .blank⟩
  else ⟨tokens ++ [.symbol c], .blank⟩

/-- **One character.** -/
def step : State → Char → State
  | ⟨tokens, .blank⟩, c => start tokens c
  | ⟨tokens, .word w⟩, c => if isWord c then ⟨tokens, .word (w ++ [c])⟩ else start (tokens ++ [.word w]) c
  | ⟨tokens, .quoted q v⟩, c =>
    if c = q then ⟨tokens, .closing q v⟩
    else if c = '\\' ∧ q ∈ quotes then ⟨tokens, .escaped q v⟩
    else ⟨tokens, .quoted q (v ++ [c])⟩
  | ⟨tokens, .escaped q v⟩, c => ⟨tokens, .quoted q (v ++ unescape c)⟩
  | ⟨tokens, .closing q v⟩, c =>
    -- a doubled quote is a quote
    if c = q then ⟨tokens, .quoted q (v ++ [c])⟩ else start (tokens ++ [literal q v]) c
  | ⟨tokens, .dash⟩, c => if c = '-' then ⟨tokens, .dashes⟩ else start (tokens ++ [.symbol '-']) c
  | ⟨tokens, .dashes⟩, c =>
    -- two dashes are a comment only before a blank
    if c = '\n' then ⟨tokens, .blank⟩
    else if isBlank c then ⟨tokens, .line⟩
    else if c = '-' then ⟨tokens ++ [.symbol '-'], .dashes⟩
    else start (tokens ++ [.symbol '-', .symbol '-']) c
  | ⟨tokens, .slash⟩, c => if c = '*' then ⟨tokens, .block⟩ else start (tokens ++ [.symbol '/']) c
  | ⟨tokens, .line⟩, c => if c = '\n' then ⟨tokens, .blank⟩ else ⟨tokens, .line⟩
  | ⟨tokens, .block⟩, c => if c = '*' then ⟨tokens, .star⟩ else ⟨tokens, .block⟩
  | ⟨tokens, .star⟩, c =>
    if c = '/' then ⟨tokens, .blank⟩ else if c = '*' then ⟨tokens, .star⟩ else ⟨tokens, .block⟩

def run (s : State) (text : Text) : State := text.foldl step s

/-- The end of the text. A string or a comment that has not ended is an error. -/
def finish : State → Option (List Token)
  | ⟨tokens, .blank⟩ | ⟨tokens, .line⟩ | ⟨tokens, .dashes⟩ => some tokens
  | ⟨tokens, .word w⟩ => some (tokens ++ [.word w])
  | ⟨tokens, .closing q v⟩ => some (tokens ++ [literal q v])
  | ⟨tokens, .dash⟩ => some (tokens ++ [.symbol '-'])
  | ⟨tokens, .slash⟩ => some (tokens ++ [.symbol '/'])
  | ⟨_, .quoted _ _⟩ | ⟨_, .escaped _ _⟩ | ⟨_, .block⟩ | ⟨_, .star⟩ => none

end Lexer

/-- **The tokens of a statement.** -/
def lex (text : Text) : Option (List Token) := Lexer.finish (Lexer.run ⟨[], .blank⟩ text)

/-- **A plain text** has no quote, and `\` only before `%` and `_`. -/
inductive Plain : Text → Prop
  | nil : Plain []
  | char {c : Char} {text : Text} : c ≠ '\'' → c ≠ '\\' → Plain text → Plain (c :: text)
  | pattern {c : Char} {text : Text} : c = '%' ∨ c = '_' → Plain text → Plain ('\\' :: c :: text)

theorem Plain.of_forall {text : Text} (h : ∀ c ∈ text, c ≠ '\'' ∧ c ≠ '\\') : Plain text := by
  induction text with
  | nil => exact .nil
  | cons c text ih =>
    obtain ⟨hquote, hslash⟩ := h c List.mem_cons_self
    exact .char hquote hslash (ih fun d hd => h d (List.mem_cons_of_mem _ hd))

namespace Lexer

/-! ## How long the strings are -/

/-- The characters of the strings. -/
def stringLength : List Token → ℕ
  | [] => 0
  | .string v :: tokens => v.length + stringLength tokens
  | _ :: tokens => stringLength tokens

/-- The characters that have been read of a string. An escape counts already. -/
def Mode.weight : Mode → ℕ
  | quoted _ v => v.length
  | closing _ v => v.length
  | escaped _ v => v.length + 1
  | _ => 0

/-- The characters of the strings that have been read. -/
def State.weight (s : State) : ℕ := stringLength s.tokens + s.mode.weight

theorem weight_mk (tokens : List Token) (mode : Mode) :
    State.weight ⟨tokens, mode⟩ = stringLength tokens + mode.weight := rfl

theorem stringLength_append (ts us : List Token) :
    stringLength (ts ++ us) = stringLength ts + stringLength us := by
  induction ts with
  | nil => simp [stringLength]
  | cons t ts ih =>
    cases t <;> simp only [List.cons_append, stringLength, ih]
    omega

theorem stringLength_map_string (vs : List Text) : stringLength (vs.map .string) = vs.flatten.length := by
  induction vs with
  | nil => rfl
  | cons v vs ih => rw [List.map_cons, stringLength, ih, List.flatten_cons, List.length_append]

theorem stringLength_literal (q : Char) (v : Text) : stringLength [literal q v] ≤ v.length := by
  unfold literal
  split <;> simp [stringLength]

theorem weight_start (tokens : List Token) (c : Char) : (start tokens c).weight = stringLength tokens := by
  unfold start
  repeat' split
  all_goals simp [weight_mk, Mode.weight, stringLength_append, stringLength]

/-- An escape is one character, where the `\\` is not kept. -/
theorem length_unescape {c : Char} (h : ¬(c = '%' ∨ c = '_')) : (unescape c).length = 1 := by
  rw [unescape, if_neg h]
  repeat' split
  all_goals rfl

theorem length_unescape_le (c : Char) : (unescape c).length ≤ 2 := by
  by_cases h : c = '%' ∨ c = '_'
  · rw [unescape, if_pos h]
    exact le_rfl
  · rw [length_unescape h]
    omega

/-- **A character adds at most one** to the strings. -/
theorem weight_step (s : State) (c : Char) : (step s c).weight ≤ s.weight + 1 := by
  obtain ⟨tokens, mode⟩ := s
  have hescape := length_unescape_le c
  cases mode with
  | closing q v =>
    have hliteral := stringLength_literal q v
    simp only [step]
    split
    · simp only [weight_mk, Mode.weight, List.length_append, List.length_singleton]
      omega
    · simp only [weight_mk, Mode.weight, weight_start, stringLength_append]
      omega
  | _ =>
    simp only [step]
    repeat' split
    all_goals
      simp only [weight_mk, Mode.weight, weight_start, stringLength_append, stringLength, List.length_append,
        List.length_singleton]
      omega

theorem run_cons (s : State) (c : Char) (text : Text) : run s (c :: text) = run (step s c) text := rfl

theorem run_append (s : State) (text more : Text) : run s (text ++ more) = run (run s text) more :=
  List.foldl_append

theorem weight_run (text : Text) : ∀ s, (run s text).weight ≤ s.weight + text.length := by
  induction text with
  | nil => intro s; exact le_rfl
  | cons c text ih =>
    intro s
    have hstep := weight_step s c
    have hrest := ih (step s c)
    rw [run_cons, List.length_cons]
    omega

theorem start_quote (tokens : List Token) : start tokens '\'' = ⟨tokens, .quoted '\'' []⟩ := rfl

/-- A quote at the end of a statement adds nothing: where it does not end a string, it is in
a comment. -/
theorem finish_quote {s : State} {tokens : List Token} (h : finish (step s '\'') = some tokens) :
    stringLength tokens ≤ s.weight := by
  obtain ⟨ts, mode⟩ := s
  cases mode with
  | quoted q v =>
    have hliteral := stringLength_literal q v
    simp only [step] at h
    repeat' split at h
    · obtain rfl := Option.some.inj h
      simp only [weight_mk, Mode.weight, stringLength_append]
      omega
    · cases h
    · cases h
  | line =>
    obtain rfl := Option.some.inj h
    exact le_rfl
  | closing q v =>
    simp only [step, start_quote] at h
    split at h <;> cases h
  | _ => cases h

/-! ## Between quotes -/

section Quoted

variable {tokens : List Token}

theorem step_quoted {v : Text} {c : Char} (hquote : c ≠ '\'') (hslash : c ≠ '\\') :
    step ⟨tokens, .quoted '\'' v⟩ c = ⟨tokens, .quoted '\'' (v ++ [c])⟩ := by
  simp only [step, if_neg hquote]
  rw [if_neg fun h => hslash h.1]

theorem step_backslash (v : Text) : step ⟨tokens, .quoted '\'' v⟩ '\\' = ⟨tokens, .escaped '\'' v⟩ := rfl

/-- **Between quotes, a plain text is read as itself.** -/
theorem run_plain {text : Text} (h : Plain text) :
    ∀ v, run ⟨tokens, .quoted '\'' v⟩ text = ⟨tokens, .quoted '\'' (v ++ text)⟩ := by
  induction h with
  | nil =>
    intro v
    rw [List.append_nil]
    rfl
  | @char c text hquote hslash _ ih =>
    intro v
    have hih := ih (v ++ [c])
    rw [List.append_assoc] at hih
    rw [run_cons, step_quoted hquote hslash]
    exact hih
  | @pattern c text hc _ ih =>
    intro v
    have hih := ih (v ++ ['\\', c])
    rw [List.append_assoc] at hih
    rw [run_cons, run_cons, step_backslash, step, unescape, if_pos hc]
    exact hih

variable (tokens) in
/-- A text that is not plain gives shorter strings than it is, or takes the next character
away with a `\` at its end. -/
theorem run_not_plain : ∀ (text v : Text), ¬Plain text →
    (run ⟨tokens, .quoted '\'' v⟩ text).weight < stringLength tokens + v.length + text.length ∨
      ∃ w, run ⟨tokens, .quoted '\'' v⟩ text = ⟨tokens, .escaped '\'' w⟩
  | [], _, h => absurd .nil h
  | c :: text, v, h => by
    by_cases hquote : c = '\''
    · -- the string ends here, or goes on after a doubled quote
      left
      have hrest := weight_run text ⟨tokens, .closing '\'' v⟩
      simp only [weight_mk, Mode.weight] at hrest
      rw [hquote, run_cons, List.length_cons]
      exact Nat.lt_succ_of_le hrest
    by_cases hslash : c = '\\'
    · rw [hslash]
      rcases text with _ | ⟨d, text⟩
      · exact .inr ⟨v, rfl⟩
      have hstep : run ⟨tokens, .quoted '\'' v⟩ ('\\' :: d :: text) =
          run ⟨tokens, .quoted '\'' (v ++ unescape d)⟩ text := rfl
      rw [hstep]
      by_cases hd : d = '%' ∨ d = '_'
      · have hlen : (unescape d).length = 2 := by
          rw [unescape, if_pos hd]
          rfl
        have ih := run_not_plain text (v ++ unescape d) fun hp => h (hslash ▸ .pattern hd hp)
        rw [List.length_append, hlen] at ih
        refine ih.imp_left fun hlt => ?_
        simp only [List.length_cons]
        omega
      · -- two characters for one
        left
        have hrest := weight_run text ⟨tokens, .quoted '\'' (v ++ unescape d)⟩
        simp only [weight_mk, Mode.weight, List.length_append, length_unescape hd] at hrest
        simp only [List.length_cons]
        omega
    · have ih := run_not_plain text (v ++ [c]) fun hp => h (.char hquote hslash hp)
      rw [run_cons, step_quoted hquote hslash]
      rw [List.length_append, List.length_singleton] at ih
      refine ih.imp_left fun hlt => ?_
      rw [List.length_cons]
      omega

/-- **A text between quotes is read as one string, or as shorter ones.** -/
theorem finish_run_quoted {text : Text} {ts : List Token}
    (hts : finish (run ⟨tokens, .quoted '\'' []⟩ (text ++ ['\''])) = some ts) :
    Plain text ∧ ts = tokens ++ [.string text] ∨ stringLength ts < stringLength tokens + text.length := by
  rw [run_append] at hts
  by_cases h : Plain text
  · rw [run_plain h] at hts
    exact .inl ⟨h, (Option.some.inj hts).symm⟩
  · rcases run_not_plain tokens text [] h with hlt | ⟨w, hw⟩
    · have hquote := finish_quote hts
      rw [List.length_nil] at hlt
      exact .inr (by omega)
    · rw [hw] at hts
      cases hts

example : lex "a='it''s' -- b".toList = some [.word ['a'], .symbol '=', .string "it's".toList] := by
  decide +kernel

end Quoted

end Lexer

end Coms4111.Sql
