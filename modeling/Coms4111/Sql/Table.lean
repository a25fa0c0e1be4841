import Coms4111.Sql.Text

/-!
# Tables, columns and statements on one table

A table keeps its rows in the order they were stored, and **carries the proof that
its unique keys hold**: a statement that would break one is refused as a whole.

* `varchar`, `char`, `notNull`: storing a value into a column, in strict mode.
* `scalar`: a subquery used as a value. No row is `NULL`, two rows are an error.
* `Table.insert`, `Table.update`, `Table.delete`: the statements. An update goes row
  by row, and `update_rows` says what it leaves behind.
-/

namespace Coms4111.Sql

/-- Why a statement was refused. -/
inductive SqlError
  | signal (sqlstate message : String)
  | unknownColumn (name : String)
  | notNull (column : String)
  | tooLong (column : String)
  | badInteger (column : String)
  | outOfRange (column : String)
  | duplicateKey
  | foreignKey (constraint : String)
  | moreThanOneRow
  deriving DecidableEq, Repr

section Except

variable {ε α β : Type}

@[simp] theorem ok_bind (a : α) (f : α → Except ε β) : (Except.ok a >>= f) = f a := rfl

@[simp] theorem error_bind (e : ε) (f : α → Except ε β) : ((Except.error e : Except ε α) >>= f) = .error e := rfl

theorem map_eq_ok {x : Except ε α} {f : α → β} {b : β} : x.map f = .ok b ↔ ∃ a, x = .ok a ∧ f a = b := by
  cases x <;> simp [Except.map]

theorem bind_eq_ok {x : Except ε α} {f : α → Except ε β} {b : β} :
    (x >>= f) = .ok b ↔ ∃ a, x = .ok a ∧ f a = .ok b := by
  cases x with
  | error e =>
    constructor
    · intro h; cases h
    · rintro ⟨a, h, -⟩; cases h
  | ok a =>
    constructor
    · intro h; exact ⟨a, rfl, h⟩
    · rintro ⟨a', h, hf⟩; cases h; exact hf

/-- What does not end well ends in an error. -/
theorem exists_error {x : Except ε α} (h : ∀ a, x ≠ .ok a) : ∃ e, x = .error e := by
  cases x with
  | error e => exact ⟨e, rfl⟩
  | ok a => exact absurd rfl (h a)

/-- Storing a value that may be `NULL`. -/
theorem mapM_eq_ok {o : Option α} {f : α → Except ε β} {o' : Option β} :
    o.mapM f = .ok o' ↔ (o = none ∧ o' = none) ∨ ∃ a b, o = some a ∧ f a = .ok b ∧ o' = some b := by
  cases o with
  | none => simp [Option.mapM, pure, Except.pure, eq_comm]
  | some a =>
    show (f a).map some = .ok o' ↔ _
    rw [map_eq_ok]
    simp [eq_comm]

theorem mapM_eq_ok_some {o : Option α} {f : α → Except ε β} {b : β} :
    o.mapM f = .ok (some b) ↔ ∃ a, o = some a ∧ f a = .ok b := by
  rw [mapM_eq_ok]
  constructor
  · rintro (⟨-, h⟩ | ⟨a, b', ha, hb, h⟩)
    · cases h
    · cases h; exact ⟨a, ha, hb⟩
  · rintro ⟨a, ha, hb⟩; exact .inr ⟨a, b, ha, hb, rfl⟩

end Except

/-! ## Columns -/

/-- Storing into a `VARCHAR(n)`: a longer text is refused, unless only blanks at its
end are cut. -/
def varchar (n : ℕ) (column : String) (s : Text) : Except SqlError Text :=
  if s.length ≤ n then .ok s
  else if (s.drop n).all (· == ' ') then .ok (s.take n)
  else .error (.tooLong column)

/-- Storing into a `CHAR(n)`, which does not keep blanks at the end. -/
def char (n : ℕ) (column : String) (s : Text) : Except SqlError Text :=
  (varchar n column s).map (List.rdropWhile (· == ' '))

/-- Storing into a `NOT NULL` column. -/
def notNull {α : Type} (column : String) : Option α → Except SqlError α
  | some a => .ok a
  | none => .error (.notNull column)

theorem notNull_eq_ok {α : Type} {column : String} {o : Option α} {a : α} :
    notNull column o = .ok a ↔ o = some a := by
  cases o <;> simp [notNull]

/-- Storing a count into an `INT`. -/
def int (column : String) (n : ℕ) : Except SqlError ℕ :=
  if n < 2 ^ 31 then .ok n else .error (.outOfRange column)

theorem int_eq_ok {column : String} {n m : ℕ} : int column n = .ok m ↔ n < 2 ^ 31 ∧ m = n := by
  unfold int
  split
  · rename_i h
    simp only [Except.ok.injEq, h, true_and]; exact eq_comm
  · rename_i h
    simp only [h, false_and, iff_false]; intro hc; cases hc

/-- A subquery used as a value. -/
def scalar {α : Type} : List α → Except SqlError (Option α)
  | [] => .ok none
  | [a] => .ok (some a)
  | _ => .error .moreThanOneRow

/-- `IF c THEN SIGNAL`. -/
def signalIf (c : Bool) (sqlstate message : String) : Except SqlError Unit :=
  if c then .error (.signal sqlstate message) else .ok ()

/-- The check of a foreign key. -/
def references (constraint : String) (c : Bool) : Except SqlError Unit :=
  if c then .ok () else .error (.foreignKey constraint)

theorem signalIf_eq_ok {c : Bool} {sqlstate message : String} {u : Unit} :
    signalIf c sqlstate message = .ok u ↔ c = false := by
  cases c <;> simp [signalIf]

theorem references_eq_ok {constraint : String} {c : Bool} {u : Unit} :
    references constraint c = .ok u ↔ c = true := by
  cases c <;> simp [references]

theorem varchar_of_le {n : ℕ} {col : String} {s : Text} (h : s.length ≤ n) : varchar n col s = .ok s :=
  if_pos h

theorem mapM_varchar {n : ℕ} {col : String} {s : Text} (h : s.length ≤ n) :
    (some s).mapM (varchar n col) = .ok (some s) :=
  mapM_eq_ok_some.2 ⟨s, rfl, varchar_of_le h⟩

/-- What is stored compares equal to what was given. -/
theorem varchar_eq {C : Collation} {n : ℕ} {col : String} {s t : Text} (h : varchar n col s = .ok t) :
    C.eq t s = true := by
  unfold varchar at h
  split at h
  · cases h; exact C.eq_self s
  · split at h
    · rename_i hb
      cases h
      rw [Collation.eq_iff]
      conv_rhs => rw [← List.take_append_drop n s]
      rw [Collation.key_append_blank]
      simpa using hb
    · cases h

theorem varchar_length {n : ℕ} {col : String} {s t : Text} (h : varchar n col s = .ok t) : t.length ≤ n := by
  unfold varchar at h
  split at h
  · rename_i hle
    cases h; exact hle
  · split at h
    · cases h; exact List.length_take_le n s
    · cases h

/-- What is stored could have been given. -/
theorem varchar_stored {n : ℕ} {col : String} {s t : Text} (h : varchar n col s = .ok t) :
    varchar n col t = .ok t :=
  varchar_of_le (varchar_length h)

theorem char_eq_self_iff {n : ℕ} {col : String} {s : Text} :
    char n col s = .ok s ↔ s.length ≤ n ∧ ∀ h : s ≠ [], s.getLast h ≠ ' ' := by
  have hcut : s.rdropWhile (· == ' ') = s ↔ ∀ h : s ≠ [], s.getLast h ≠ ' ' := by
    rw [List.rdropWhile_eq_self_iff]; simp
  rw [← hcut]
  unfold char
  rw [map_eq_ok]
  constructor
  · rintro ⟨t, ht, he⟩
    have hlen := varchar_length ht
    have hle : s.length ≤ n := by
      rw [← he]; exact (List.rdropWhile_prefix _ t).length_le.trans hlen
    rw [varchar_of_le hle] at ht
    cases ht
    exact ⟨hle, he⟩
  · rintro ⟨hle, he⟩
    exact ⟨s, varchar_of_le hle, he⟩

theorem char_stored {n : ℕ} {col : String} {s t : Text} (h : char n col s = .ok t) : char n col t = .ok t := by
  unfold char at h ⊢
  obtain ⟨u, hu, rfl⟩ := map_eq_ok.1 h
  have hle : (u.rdropWhile (· == ' ')).length ≤ n :=
    (List.rdropWhile_prefix _ u).length_le.trans (varchar_length hu)
  rw [varchar_of_le hle, map_eq_ok]
  exact ⟨_, rfl, List.rdropWhile_idempotent _ _⟩

/-- A text that ends in a digit is stored as it is or refused. -/
theorem varchar_numeral {n m : ℕ} {col : String} {t u : Text} :
    varchar n col (t ++ Nat.toDigits 10 m) = .ok u ↔
      (t ++ Nat.toDigits 10 m).length ≤ n ∧ u = t ++ Nat.toDigits 10 m := by
  unfold varchar
  split
  · rename_i h
    simp only [Except.ok.injEq, h, true_and]; exact eq_comm
  · rename_i h
    rw [if_neg]
    · simp only [h, false_and, iff_false]; intro hc; cases hc
    intro hall
    have hne : (t ++ Nat.toDigits 10 m).drop n ≠ [] := by
      rw [Ne, List.drop_eq_nil_iff]; exact h
    have hlast := List.all_eq_true.1 hall _ (List.getLast_mem hne)
    rw [List.getLast_drop, List.getLast_append_of_ne_nil _ Nat.toDigits_ne_nil, beq_iff_eq] at hlast
    have hdig := mem_toDigits_isDigit (List.getLast_mem (Nat.toDigits_ne_nil (b := 10) (n := m)))
    rw [hlast] at hdig
    exact absurd hdig (by decide)

/-! ## Rows -/

theorem length_filter_concat {α : Type} (p : α → Bool) (l : List α) (a : α) :
    ((l ++ [a]).filter p).length = (l.filter p).length + if p a then 1 else 0 := by
  rw [← List.countP_eq_length_filter, ← List.countP_eq_length_filter, List.countP_append, List.countP_singleton]

section Forall₂

variable {α β γ : Type}

/-- What holds of rows and their counterparts goes with the rows. -/
theorem forall₂_follow {R : α → γ → Prop} {Q : β → γ → Prop} {U : α → β → Prop}
    (hstep : ∀ a b c, U a b → R a c → Q b c) {l : List α} {m : List β} {n : List γ}
    (hU : List.Forall₂ U l m) (hR : List.Forall₂ R l n) : List.Forall₂ Q m n := by
  induction hU generalizing n with
  | nil => cases hR; exact .nil
  | cons hab _ ih =>
    cases hR with
    | cons hac hrest => exact .cons (hstep _ _ _ hab hac) (ih hrest)

/-- The counterparts of the rows that a filter keeps. -/
theorem forall₂_filter {R : α → β → Prop} (p : α → Bool) {l : List α} {m : List β} (h : List.Forall₂ R l m) :
    List.Forall₂ R (l.filter p) (((l.zip m).filter fun x => p x.1).map Prod.snd) ∧
      (((l.zip m).filter fun x => p x.1).map Prod.snd).Sublist m := by
  induction h with
  | nil => exact ⟨.nil, List.Sublist.refl _⟩
  | @cons a b l m hab _ ih =>
    rw [List.zip_cons_cons]
    by_cases hp : p a = true
    · rw [List.filter_cons_of_pos hp, List.filter_cons_of_pos (by simpa using hp), List.map_cons]
      exact ⟨.cons hab ih.1, ih.2.cons_cons b⟩
    · rw [List.filter_cons_of_neg hp, List.filter_cons_of_neg (by simpa using hp)]
      exact ⟨ih.1, ih.2.cons b⟩

end Forall₂

/-! ## Tables -/

/-- The unique keys of a table: which rows cannot stand side by side. -/
structure Unique (α : Type) where
  clash : α → α → Bool
  symm : ∀ a b, clash a b = clash b a

/-- One key, computed from the row. -/
def Unique.key {α κ : Type} [DecidableEq κ] (f : α → κ) : Unique α where
  clash a b := f a == f b
  symm a b := by rw [Bool.eq_iff_iff, beq_iff_eq, beq_iff_eq]; exact ⟨Eq.symm, Eq.symm⟩

theorem Unique.key_clash {α : Type} {C : Collation} (f : α → Text) (a b : α) :
    (Unique.key fun a => C.key (f a)).clash a b = C.eq (f a) (f b) := by
  rw [Bool.eq_iff_iff, Collation.eq_iff]; simp [Unique.key]

/-- Two keys of one table. -/
def Unique.or {α : Type} (K L : Unique α) : Unique α where
  clash a b := K.clash a b || L.clash a b
  symm a b := by rw [K.symm, L.symm]

/-- The rows `a` and `b` can stand side by side. -/
def Unique.Apart {α : Type} (K : Unique α) (a b : α) : Prop := K.clash a b = false

theorem Unique.Apart.symm {α : Type} {K : Unique α} {a b : α} (h : K.Apart a b) : K.Apart b a := by
  unfold Unique.Apart at *; rw [K.symm]; exact h

instance {α : Type} (K : Unique α) : Std.Symm K.Apart := ⟨fun _ _ => Unique.Apart.symm⟩

/-- A table: its rows, in the order they were stored, under its unique keys. -/
@[ext] structure Table (α : Type) (K : Unique α) where
  rows : List α
  unique : rows.Pairwise K.Apart

namespace Table

variable {α : Type} {K : Unique α}

/-- The empty table. -/
def empty : Table α K := ⟨[], List.Pairwise.nil⟩

theorem insert_unique (T : Table α K) {a : α} (h : ¬T.rows.any (K.clash a) = true) :
    (T.rows ++ [a]).Pairwise K.Apart := by
  rw [List.pairwise_append]
  refine ⟨T.unique, List.pairwise_singleton _ _, ?_⟩
  intro b hb c hc
  rw [List.mem_singleton] at hc; subst hc
  simp only [List.any_eq_true, not_exists, not_and, Bool.not_eq_true] at h
  exact Unique.Apart.symm (h b hb)

/-- `INSERT`, of a row with all its values in place. -/
def insert (T : Table α K) (a : α) : Except SqlError (Table α K) :=
  if h : T.rows.any (K.clash a) = true then .error .duplicateKey
  else .ok ⟨T.rows ++ [a], T.insert_unique h⟩

/-- `DELETE ... WHERE p`. -/
def delete (T : Table α K) (p : α → Bool) : Table α K :=
  ⟨T.rows.filter fun a => !p a, T.unique.sublist List.filter_sublist⟩

/-- The rows an `UPDATE` has still to visit, after those it is done with. Each new
row must keep the unique keys against all others as they stand. -/
def updateRows (K : Unique α) (p : α → Bool) (f : α → Except SqlError α) :
    List α → List α → Except SqlError (List α)
  | done, [] => .ok done
  | done, a :: rest =>
    if p a then
      match f a with
      | .error e => .error e
      -- the key is checked against the rows as they stand now
      | .ok b => if (done ++ rest).any (K.clash b) then .error .duplicateKey
        else updateRows K p f (done ++ [b]) rest
    else updateRows K p f (done ++ [a]) rest

theorem updateRows_unique (p : α → Bool) (f : α → Except SqlError α) :
    ∀ (rest done : List α) {out : List α}, ((done ++ rest).Pairwise K.Apart) →
      updateRows K p f done rest = .ok out → out.Pairwise K.Apart := by
  intro rest
  induction rest with
  | nil =>
    intro done out hd h
    simp only [updateRows, Except.ok.injEq] at h
    rw [← h]; simpa using hd
  | cons a rest ih =>
    intro done out hd h
    unfold updateRows at h
    split at h
    · cases hf : f a with
      | error e => rw [hf] at h; simp at h
      | ok b =>
        rw [hf] at h
        simp only at h
        split at h
        · simp at h
        rename_i hb
        refine ih _ ?_ h
        simp only [List.any_eq_true, not_exists, not_and, Bool.not_eq_true] at hb
        rw [List.pairwise_middle Unique.Apart.symm, List.pairwise_cons] at hd
        rw [List.append_assoc, List.singleton_append, List.pairwise_middle Unique.Apart.symm,
          List.pairwise_cons]
        exact ⟨hb, hd.2⟩
    · exact ih _ (by simpa using hd) h

/-- `UPDATE ... SET f WHERE p`. -/
def update (T : Table α K) (p : α → Bool) (f : α → Except SqlError α) : Except SqlError (Table α K) :=
  match h : updateRows K p f [] T.rows with
  | .error e => .error e
  | .ok rows => .ok ⟨rows, updateRows_unique p f T.rows [] (by simpa using T.unique) h⟩

/-! ## What the statements leave behind -/

theorem insert_ok {T T' : Table α K} {a : α} (h : T.insert a = .ok T') :
    T'.rows = T.rows ++ [a] ∧ ∀ b ∈ T.rows, K.clash a b = false := by
  unfold insert at h
  split at h
  · simp at h
  · rename_i hc
    simp only [List.any_eq_true, not_exists, not_and, Bool.not_eq_true] at hc
    simp only [Except.ok.injEq] at h
    exact ⟨by rw [← h], hc⟩

theorem insert_eq_ok {T : Table α K} {a : α} (h : ∀ b ∈ T.rows, K.clash a b = false) :
    ∃ T', T.insert a = .ok T' ∧ T'.rows = T.rows ++ [a] := by
  unfold insert
  rw [dif_neg (by simpa using h)]
  exact ⟨_, rfl, rfl⟩

theorem delete_eq_self_iff (T : Table α K) (p : α → Bool) : T.delete p = T ↔ T.rows.any p = false := by
  rw [Table.ext_iff]
  show T.rows.filter (fun a => !p a) = T.rows ↔ _
  rw [List.filter_eq_self]
  simp

/-- A row of the table before and after an update. -/
def Updated (p : α → Bool) (f : α → Except SqlError α) (a b : α) : Prop :=
  if p a then f a = .ok b else b = a

theorem updateRows_ok (p : α → Bool) (f : α → Except SqlError α) :
    ∀ (rest done : List α) {out : List α}, updateRows K p f done rest = .ok out →
      ∃ rest', out = done ++ rest' ∧ List.Forall₂ (Updated p f) rest rest' := by
  intro rest
  induction rest with
  | nil =>
    intro done out h
    simp only [updateRows, Except.ok.injEq] at h
    exact ⟨[], by simp [h], List.Forall₂.nil⟩
  | cons a rest ih =>
    intro done out h
    unfold updateRows at h
    split at h
    · rename_i hp
      cases hf : f a with
      | error e => rw [hf] at h; simp at h
      | ok b =>
        rw [hf] at h
        simp only at h
        split at h
        · simp at h
        obtain ⟨rest', rfl, hr⟩ := ih _ h
        exact ⟨b :: rest', by simp, List.Forall₂.cons (by simp [Updated, hp, hf]) hr⟩
    · rename_i hp
      obtain ⟨rest', rfl, hr⟩ := ih _ h
      exact ⟨a :: rest', by simp, List.Forall₂.cons (by simp [Updated, hp]) hr⟩

/-- **What an update leaves behind**: every row, in its place, is the old one or the
one that `SET` computed from it. -/
theorem update_rows {T T' : Table α K} {p : α → Bool} {f : α → Except SqlError α}
    (h : T.update p f = .ok T') : List.Forall₂ (Updated p f) T.rows T'.rows := by
  unfold update at h
  split at h
  · simp at h
  · rename_i rows hr
    simp only [Except.ok.injEq] at h
    obtain ⟨rest', he, hf⟩ := updateRows_ok p f T.rows [] hr
    simp only [List.nil_append] at he
    subst he h; exact hf

theorem updateRows_eq_ok {p : α → Bool} {f : α → Except SqlError α} {g : α → α} :
    ∀ (rest done : List α), (∀ a ∈ rest, p a = true → f a = .ok (g a)) →
      (∀ a ∈ rest, p a = true → ∀ b, K.clash (g a) b = K.clash a b) → (done ++ rest).Pairwise K.Apart →
      updateRows K p f done rest = .ok (done ++ rest.map fun a => if p a then g a else a) := by
  intro rest
  induction rest with
  | nil => intro done _ _ _; simp [updateRows]
  | cons a rest ih =>
    intro done hg hk hd
    have ih' := fun done => ih done (fun b hb => hg b (List.mem_cons_of_mem _ hb))
      (fun b hb => hk b (List.mem_cons_of_mem _ hb))
    unfold updateRows
    have hd' := hd
    rw [List.pairwise_middle Unique.Apart.symm, List.pairwise_cons] at hd'
    split
    · rename_i hp
      have hga : ∀ b ∈ done ++ rest, K.Apart (g a) b := by
        intro b hb
        unfold Unique.Apart; rw [hk a List.mem_cons_self hp]; exact hd'.1 b hb
      rw [hg a List.mem_cons_self hp]
      simp only
      rw [if_neg, ih', List.map_cons, if_pos hp]
      · simp
      · rw [List.append_assoc, List.singleton_append, List.pairwise_middle Unique.Apart.symm,
          List.pairwise_cons]
        exact ⟨hga, hd'.2⟩
      · simp only [List.any_eq_true, not_exists, not_and, Bool.not_eq_true]
        exact hga
    · rename_i hp
      rw [ih' _ (by simpa using hd), List.map_cons, if_neg hp]
      simp

/-- **An update that touches no key goes through**, on every row it selects. -/
theorem update_eq_ok {T : Table α K} {p : α → Bool} {f : α → Except SqlError α} {g : α → α}
    (hg : ∀ a ∈ T.rows, p a = true → f a = .ok (g a))
    (hk : ∀ a ∈ T.rows, p a = true → ∀ b, K.clash (g a) b = K.clash a b) :
    ∃ T', T.update p f = .ok T' ∧ T'.rows = T.rows.map fun a => if p a then g a else a := by
  have hr := updateRows_eq_ok T.rows [] hg hk (by simpa using T.unique)
  unfold update
  split
  · rename_i e he; rw [hr] at he; simp at he
  · rename_i rows he
    rw [hr] at he
    simp only [List.nil_append, Except.ok.injEq] at he
    exact ⟨_, rfl, he.symm⟩

/-- An update that selects no row changes nothing. -/
theorem update_none {T : Table α K} {p : α → Bool} (f : α → Except SqlError α)
    (h : ∀ a ∈ T.rows, p a = false) : T.update p f = .ok T := by
  have hno : ∀ a ∈ T.rows, ¬p a = true := fun a ha => by simp [h a ha]
  obtain ⟨T', hT', hrows⟩ := update_eq_ok (T := T) (f := f) (g := id) (fun a ha hp => absurd hp (hno a ha))
    (fun a ha hp => absurd hp (hno a ha))
  have hsame : T'.rows = T.rows := by
    rw [hrows]
    exact (List.map_congr_left fun a ha => if_neg (hno a ha)).trans (List.map_id' T.rows)
  rw [hT', Table.ext hsame]

theorem updateRows_error {p : α → Bool} {f : α → Except SqlError α}
    (hf : ∀ a, p a = true → ∃ e, f a = .error e) :
    ∀ (rest done : List α), rest.any p = true → ∃ e, updateRows K p f done rest = .error e := by
  intro rest
  induction rest with
  | nil => intro done h; simp at h
  | cons a rest ih =>
    intro done h
    unfold updateRows
    by_cases hp : p a = true
    · obtain ⟨e, he⟩ := hf a hp
      rw [if_pos hp, he]; exact ⟨e, rfl⟩
    · rw [if_neg hp]
      exact ih _ (by simpa [hp] using h)

/-- An update whose `SET` is refused on every row fails as soon as it selects one. -/
theorem update_error {T : Table α K} {p : α → Bool} {f : α → Except SqlError α}
    (hf : ∀ a, p a = true → ∃ e, f a = .error e) (h : T.rows.any p = true) :
    ∃ e, T.update p f = .error e := by
  obtain ⟨e, hr⟩ := updateRows_error (K := K) hf T.rows [] h
  refine ⟨e, ?_⟩
  unfold update
  split
  · rename_i e' he; rw [hr] at he; simp only [Except.error.injEq] at he; rw [he]
  · rename_i rows he; rw [hr] at he; simp at he

/-- An update by key, with values that are accepted or refused for every row alike:
it goes through unless it selects a row and the values are refused. -/
theorem update_by_key {C : Collation} {f : α → Text} (T : Table α (Unique.key fun a => C.key (f a)))
    (p : α → Bool) {set : α → Except SqlError α} {valid : Bool}
    (hok : valid = true → ∃ g : α → α, (∀ a, set a = .ok (g a)) ∧ ∀ a, f (g a) = f a)
    (herr : valid = false → ∀ a b, set a ≠ .ok b) :
    (T.rows.any p = true ∧ valid = false ∧ ∃ e, T.update p set = .error e) ∨
    ((T.rows.any p = true → valid = true) ∧
      ∃ T', T.update p set = .ok T' ∧ T'.rows.map f = T.rows.map f) := by
  by_cases hp : T.rows.any p = true
  · cases hv : valid with
    | false => left; exact ⟨hp, rfl, update_error (fun a _ => exists_error (herr hv a)) hp⟩
    | true =>
      right
      obtain ⟨g, hset, hg⟩ := hok hv
      obtain ⟨T', hT', hrows⟩ := update_eq_ok (T := T) (p := p) (fun a _ _ => hset a) (fun a _ _ b => by
        rw [Unique.key_clash, Unique.key_clash, hg])
      refine ⟨fun _ => rfl, T', hT', ?_⟩
      rw [hrows, List.map_map]
      apply List.map_congr_left
      intro a _
      show f (if p a = true then g a else a) = f a
      split
      · exact hg a
      · rfl
  · right
    refine ⟨fun h => absurd h hp, T, update_none set ?_, rfl⟩
    simpa [List.any_eq_true] using hp

/-- Rows that clash are the same row. -/
theorem eq_of_clash (T : Table α K) {a b : α} (ha : a ∈ T.rows) (hb : b ∈ T.rows)
    (h : K.clash a b = true) : a = b := by
  by_contra hne
  have hap : K.clash a b = false := T.unique.forall ha hb hne
  rw [h] at hap; cases hap

/-- A text selects one row by its key. -/
theorem eqN_iff_eq {C : Collation} {f : α → Text} (T : Table α (Unique.key fun a => C.key (f a)))
    {o : Option Text} {a b : α} (ha : a ∈ T.rows) (hao : C.eqN (some (f a)) o = true) (hb : b ∈ T.rows) :
    C.eqN (some (f b)) o = true ↔ b = a := by
  constructor
  · intro hbo
    rw [Collation.eqN_symm] at hao hbo
    have hkey : C.eq (f b) (f a) = true := Collation.eqN_trans hbo hao
    exact T.eq_of_clash hb ha (by rw [Unique.key_clash]; exact hkey)
  · rintro rfl
    exact hao

/-- A selection by a key finds at most one row. -/
theorem filter_le_one (T : Table α K) {p : α → Bool}
    (hp : ∀ a b, p a = true → p b = true → K.clash a b = true) : (T.rows.filter p).length ≤ 1 := by
  have hu := T.unique.sublist (List.filter_sublist (p := p) (l := T.rows))
  match hm : T.rows.filter p with
  | [] => simp
  | [a] => simp
  | a :: b :: l =>
    rw [hm] at hu
    have ha : a ∈ T.rows.filter p := by rw [hm]; simp
    have hb : b ∈ T.rows.filter p := by rw [hm]; simp
    have hab : K.clash a b = false := (List.pairwise_cons.1 hu).1 b List.mem_cons_self
    rw [hp a b (List.mem_filter.1 ha).2 (List.mem_filter.1 hb).2] at hab
    cases hab

end Table

end Coms4111.Sql
