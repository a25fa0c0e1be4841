import Coms4111.Proof.Conservation

/-!
# Account ids

The triggers make an id from the greatest `id_count` of the rows that are there, not
from the row's own. With `AUTO_INCREMENT` handing out increasing values, an account's
number is at most its own `id_count` and above the `id_count` of every older account
that is still there (`Kept`).

* `account_ids_distinct`: so **no two accounts share an id**, in every reachable state,
  whatever was deleted, and `transfer_commit` never finds two accounts under one id.
* `never_recycled_iff`: over the whole run, deleted accounts included, no id is issued
  twice **exactly when** each new account finds the newest one of its table still there.
  `deleted_id_recycled` is a run that gives the id of a deleted account to a new one.
-/

namespace Coms4111.Bank

open Sql

variable {C : Collation}

/-! ## `AUTO_INCREMENT` -/

/-- The `AUTO_INCREMENT` of the table as it is created. -/
def Kind.first : Kind → ℤ
  | .checking => 14
  | .savings => 1

/-- The values that are handed out to the insertions into table `k`. -/
def idCounts (k : Kind) (ops : List Op) : List ℤ :=
  ops.filterMap fun
    | .insert k' idCount _ _ => if k' = k then some idCount else none
    | _ => none

/-- **`AUTO_INCREMENT`** hands out increasing values, the first of them or a later one
to begin with. There may be gaps. -/
def AutoIncrement (ops : List Op) : Prop :=
  ∀ k, ((k.first - 1) :: idCounts k ops).Pairwise (· < ·)

theorem idCounts_append (k : Kind) (ops ops' : List Op) :
    idCounts k (ops ++ ops') = idCounts k ops ++ idCounts k ops' := List.filterMap_append

theorem AutoIncrement.of_append {ops ops' : List Op} (h : AutoIncrement (ops ++ ops')) : AutoIncrement ops := by
  intro k
  refine (h k).sublist ?_
  rw [idCounts_append]
  exact (List.sublist_append_left _ _).cons_cons _

/-- A new row gets a value above the ones before it. -/
theorem AutoIncrement.insert {ops : List Op} {k : Kind} {i : ℤ} {b l : ℚ}
    (h : AutoIncrement (ops ++ [.insert k i b l])) : k.first ≤ i ∧ ∀ j ∈ idCounts k ops, j < i := by
  have hk := h k
  have hi : idCounts k [.insert k i b l] = [i] := by simp [idCounts]
  rw [idCounts_append, hi, ← List.cons_append, List.pairwise_append] at hk
  have hlt : ∀ j ∈ (k.first - 1) :: idCounts k ops, j < i := fun j hj => hk.2.2 j hj i (List.mem_singleton_self i)
  have hfirst := hlt _ List.mem_cons_self
  exact ⟨by omega, fun j hj => hlt j (List.mem_cons_of_mem _ hj)⟩

/-! ## The ids of the triggers -/

/-- The number in the id of the next account. -/
def nextNumber (k : Kind) (T : Accounts) : ℤ :=
  match (T.rows.map Account.idCount).max? with
  | none => k.first
  | some m => m + 1

/-- The id of account number `n`. -/
def Kind.accountId (k : Kind) (n : ℤ) : Text := k.stem ++ decimal n

theorem triggerInsert_eq (k : Kind) (T : Accounts) : triggerInsert k T = k.accountId (nextNumber k T) := by
  unfold nextNumber
  cases k with
  | checking =>
    simp only [triggerInsert, triggerInsertChecking, newAccountId]
    cases (T.rows.map Account.idCount).max? <;> rfl
  | savings =>
    simp only [triggerInsert, triggerInsertSaving, newAccountId]
    cases (T.rows.map Account.idCount).max? <;> rfl

theorem stem_last (k : Kind) (h : k.stem ≠ []) : (k.stem.getLast h).isDigit = false := by
  cases k <;> rfl

/-- An id is stored as it is or refused. -/
theorem varchar_accountId {k : Kind} {n : ℤ} {m : ℕ} {col : String} {t : Text}
    (h : varchar m col (k.accountId n) = .ok t) : t = k.accountId n := by
  unfold Kind.accountId at h ⊢
  cases n with
  | ofNat n => exact (varchar_numeral.1 h).2
  | negSucc n =>
    have happ : k.stem ++ decimal (.negSucc n) = (k.stem ++ ['-']) ++ Nat.toDigits 10 (n + 1) := by simp [decimal]
    rw [happ] at h ⊢
    exact (varchar_numeral.1 h).2

/-- **An id tells the table and the number.** -/
theorem accountId_inj {k k' : Kind} {n n' : ℤ} (hn : 0 ≤ n) (hn' : 0 ≤ n')
    (h : C.eq (k.accountId n) (k'.accountId n') = true) : k = k' ∧ n = n' := by
  obtain ⟨m, rfl⟩ := Int.eq_ofNat_of_zero_le hn
  obtain ⟨m', rfl⟩ := Int.eq_ofNat_of_zero_le hn'
  have hlike : ∀ (k : Kind) (m : ℕ), C.likeN k.pattern (some (k.accountId m)) = true := by
    intro k m
    exact (like_pattern_iff k _).2 ((List.prefix_append _ _).map C.weight)
  have hk : k = k' := by
    apply pattern_unique (hlike k m)
    have heqN : C.eqN (some (k.accountId m)) (some (k'.accountId m')) = true := h
    rw [eqN_like heqN]
    exact hlike k' m'
  exact ⟨hk, by rw [(numeral_inj (stem_last k) (stem_last k') h).2]⟩

/-- The row that an insertion adds, and nothing else. -/
theorem insertAccount_ok {k : Kind} {i : ℤ} {b l : ℚ} {s s' : State} (h : insertAccount k i b l s = .ok s') :
    (s'.accounts k).rows =
        (s.accounts k).rows ++ [⟨i, some (k.accountId (nextNumber k (s.accounts k))), b, l⟩] ∧
      (∀ k', k' ≠ k → s'.accounts k' = s.accounts k') ∧ s'.log = s.log := by
  unfold insertAccount at h
  obtain ⟨id, hid, h⟩ := bind_eq_ok.1 h
  obtain ⟨T, hT, h⟩ := bind_eq_ok.1 h
  obtain ⟨hrows, -⟩ := Table.insert_ok hT
  simp only [pure, Except.pure, Except.ok.injEq] at h
  subst h
  rw [triggerInsert_eq] at hid
  rw [varchar_accountId hid] at hrows
  refine ⟨?_, ?_, rfl⟩
  · simp only [State.set, Function.update_self, hrows]
  · intro k' hk'
    simp only [State.set, Function.update_of_ne hk']

theorem nextNumber_nil {k : Kind} {T : Accounts} (h : T.rows = []) : nextNumber k T = k.first := by
  unfold nextNumber; rw [h]; rfl

theorem nextNumber_cons {k : Kind} {T : Accounts} (h : T.rows ≠ []) :
    ∃ a ∈ T.rows, nextNumber k T = a.idCount + 1 ∧ ∀ b ∈ T.rows, b.idCount ≤ a.idCount := by
  unfold nextNumber
  rcases hm : (T.rows.map Account.idCount).max? with _ | m
  · rw [List.max?_eq_none_iff, List.map_eq_nil_iff] at hm
    exact absurd hm h
  · obtain ⟨hmem, hle⟩ := List.max?_eq_some_iff.1 hm
    obtain ⟨a, ha, rfl⟩ := List.mem_map.1 hmem
    exact ⟨a, ha, rfl, fun b hb => hle _ (List.mem_map_of_mem hb)⟩

/-! ## Runs with their accounts -/

/-- The tables, and all accounts opened so far, each as it was inserted. -/
structure History where
  tables : State
  opened : Kind → List Account

def History.start : History := ⟨.empty, fun _ => []⟩

variable (C) in
/-- One operation. The row that it adds joins the accounts opened. -/
def History.step (h : History) (op : Op) : History where
  tables := op.run C h.tables
  opened := match op with
    | .insert k idCount balance limit => match insertAccount k idCount balance limit h.tables with
      | .ok s => Function.update h.opened k (h.opened k ++ (s.accounts k).rows.getLast?.toList)
      | .error _ => h.opened
    | _ => h.opened

variable (C) in
/-- A run from the empty tables. -/
def history (ops : List Op) : History := ops.foldl (History.step C) .start

theorem history_concat (ops : List Op) (op : Op) : history C (ops ++ [op]) = (history C ops).step C op := by
  unfold history; rw [List.foldl_append]; rfl

theorem history_tables (ops : List Op) : (history C ops).tables = run C ops .empty := by
  have hstep : ∀ (h : History) (op : Op), Op.run C op h.tables = (h.step C op).tables := fun _ _ => rfl
  exact (List.foldl_hom History.tables hstep).symm

/-- The step opens the account `a` in table `k`. -/
structure Opens (h h' : History) (k : Kind) (a : Account) : Prop where
  id : a.accountId = some (k.accountId (nextNumber k (h.tables.accounts k)))
  rows : (h'.tables.accounts k).rows = (h.tables.accounts k).rows ++ [a]
  others : ∀ k', k' ≠ k → h'.tables.accounts k' = h.tables.accounts k'
  log : h'.tables.log = h.tables.log
  opened : h'.opened = Function.update h.opened k (h.opened k ++ [a])

/-- What the rows of table `k` are told by. -/
def State.keys (s : State) (k : Kind) : List (ℤ × Option Text) :=
  (s.accounts k).rows.map fun a => (a.idCount, a.accountId)

theorem insertAccount_opens {h : History} {k : Kind} {i : ℤ} {b l : ℚ} {s : State}
    (hs : insertAccount k i b l h.tables = .ok s) :
    Opens h (h.step C (.insert k i b l)) k
      ⟨i, some (k.accountId (nextNumber k (h.tables.accounts k))), b, l⟩ := by
  obtain ⟨hrows, hothers, hlog⟩ := insertAccount_ok hs
  have hrun : (Op.insert k i b l).run C h.tables = s := by simp only [Op.run, hs]
  refine ⟨rfl, ?_, ?_, ?_, ?_⟩
  · simp only [History.step, hrun, hrows]
  · intro k' hk'
    simp only [History.step, hrun, hothers k' hk']
  · simp only [History.step, hrun, hlog]
  · simp only [History.step, hs, hrows, List.getLast?_append, List.getLast?_singleton, Option.some_or,
      Option.toList_some]

theorem keys_adds {δ : Kind → Option Text → ℚ} {s s' : State} (h : Adds δ s s') (k : Kind) :
    s'.keys k = s.keys k := by
  unfold State.keys
  rw [h k, List.map_map]
  rfl

theorem keys_outcome {source target : Option Text} {amount : Option ℚ} {s s' : State}
    {out : Except SqlError (Option ℤ)} (h : Outcome C source target amount s out s') (k : Kind) :
    s'.keys k = s.keys k := by
  cases h with
  | ignored _ => rfl
  | aborted _ _ => rfl
  | refused _ _ hacc _ => unfold State.keys; rw [hacc]
  | paid _ _ _ hadd _ => exact keys_adds hadd k
  | lost _ _ hadd _ => exact keys_adds hadd k
  | broken _ _ _ hadd _ => exact keys_adds hadd k

/-- **What an operation does to the ids**: it opens an account, or it opens none and
keeps the accounts that there are, or some of them. -/
theorem step_cases (h : History) (op : Op) :
    (∃ k b l a, op = .insert k a.idCount b l ∧ (∃ s, insertAccount k a.idCount b l h.tables = .ok s) ∧
        Opens h (h.step C op) k a) ∨
      ((h.step C op).opened = h.opened ∧ ∀ k, ((h.step C op).tables.keys k).Sublist (h.tables.keys k)) := by
  cases op with
  | insert k i b l =>
    rcases hs : insertAccount k i b l h.tables with e | s
    · right
      simp only [History.step, hs, Op.run, true_and]
      exact fun k => List.Sublist.refl _
    · exact .inl ⟨k, b, l, _, rfl, ⟨s, hs⟩, insertAccount_opens hs⟩
  | delete k p =>
    right
    refine ⟨rfl, ?_⟩
    intro k'
    unfold State.keys
    apply List.Sublist.map
    simp only [History.step, Op.run, deleteAccounts, State.set]
    by_cases hk : k' = k
    · subst hk
      rw [Function.update_self]
      exact List.filter_sublist
    · rw [Function.update_of_ne hk]
  | transfer source target amount =>
    right
    refine ⟨rfl, fun k => ?_⟩
    simp only [History.step, Op.run, keys_outcome (transferCommit_outcome source target amount h.tables) k,
      List.Sublist.refl]

/-! ## Numbers and `id_count` -/

/-- **The accounts of table `k`** after the run: each was handed out its `id_count`, has
a number that is at most that, and the number is above the `id_count` of every older
account that is still there. -/
structure Kept (ops : List Op) (h : History) (k : Kind) : Prop where
  handed : ∀ o ∈ h.opened k, o.idCount ∈ idCounts k ops
  increasing : (h.opened k).Pairwise fun o o' => o.idCount < o'.idCount
  numbered : ∀ o ∈ h.opened k, ∃ n, o.accountId = some (k.accountId n) ∧ k.first ≤ n ∧ n ≤ o.idCount
  live : (h.tables.keys k).Sublist ((h.opened k).map fun o => (o.idCount, o.accountId))
  apart : (h.tables.keys k).Pairwise fun x y => ∃ n, y.2 = some (k.accountId n) ∧ x.1 < n

theorem Kept.exists_opened {ops : List Op} {h : History} {k : Kind} (hK : Kept ops h k) {a : Account}
    (ha : a ∈ (h.tables.accounts k).rows) : ∃ o ∈ h.opened k, o.idCount = a.idCount ∧
      o.accountId = a.accountId := by
  have hmem := hK.live.subset (List.mem_map_of_mem (f := fun a : Account => (a.idCount, a.accountId)) ha)
  obtain ⟨o, ho, heq⟩ := List.mem_map.1 hmem
  exact ⟨o, ho, (Prod.ext_iff.1 heq).1, (Prod.ext_iff.1 heq).2⟩

/-- The number of a new account is at most its own `id_count` and above those of the
accounts that are there. -/
theorem Kept.next {ops : List Op} {h : History} {k : Kind} (hK : Kept ops h k) {i : ℤ} (hfirst : k.first ≤ i)
    (hlt : ∀ j ∈ idCounts k ops, j < i) :
    k.first ≤ nextNumber k (h.tables.accounts k) ∧ nextNumber k (h.tables.accounts k) ≤ i ∧
      ∀ a ∈ (h.tables.accounts k).rows, a.idCount < nextNumber k (h.tables.accounts k) := by
  by_cases hnil : (h.tables.accounts k).rows = []
  · rw [nextNumber_nil hnil]
    refine ⟨le_refl _, hfirst, ?_⟩
    intro a ha
    rw [hnil] at ha; cases ha
  · obtain ⟨a, ha, hn, hmax⟩ := nextNumber_cons (k := k) hnil
    obtain ⟨o, ho, hio, -⟩ := hK.exists_opened ha
    obtain ⟨n, -, h1, h2⟩ := hK.numbered o ho
    have hlast := hlt _ (hK.handed o ho)
    rw [hn]
    refine ⟨by omega, by omega, ?_⟩
    intro b hb
    have := hmax b hb
    omega

theorem Kept.opens {ops : List Op} {op : Op} {h h' : History} {k : Kind} {a : Account} (hK : Kept ops h k)
    (ho : Opens h h' k a) (hfirst : k.first ≤ a.idCount) (hlt : ∀ j ∈ idCounts k ops, j < a.idCount)
    (hops : idCounts k (ops ++ [op]) = idCounts k ops ++ [a.idCount]) : Kept (ops ++ [op]) h' k := by
  obtain ⟨hn1, hn2, hn3⟩ := hK.next hfirst hlt
  have hopened : h'.opened k = h.opened k ++ [a] := by rw [ho.opened, Function.update_self]
  have hkeys : h'.tables.keys k = h.tables.keys k ++ [(a.idCount, a.accountId)] := by
    unfold State.keys; rw [ho.rows, List.map_append]; rfl
  refine ⟨?_, ?_, ?_, ?_, ?_⟩
  · intro o hmem
    rw [hopened, List.mem_append, List.mem_singleton] at hmem
    rw [hops, List.mem_append, List.mem_singleton]
    rcases hmem with hmem | rfl
    · exact .inl (hK.handed o hmem)
    · exact .inr rfl
  · rw [hopened, List.pairwise_append]
    refine ⟨hK.increasing, List.pairwise_singleton _ _, ?_⟩
    intro o hmem o' hmem'
    rw [List.mem_singleton.1 hmem']
    exact hlt _ (hK.handed o hmem)
  · intro o hmem
    rw [hopened, List.mem_append, List.mem_singleton] at hmem
    rcases hmem with hmem | rfl
    · exact hK.numbered o hmem
    · exact ⟨_, ho.id, hn1, hn2⟩
  · rw [hkeys, hopened, List.map_append]
    exact hK.live.append (List.Sublist.refl _)
  · rw [hkeys, List.pairwise_append]
    refine ⟨hK.apart, List.pairwise_singleton _ _, ?_⟩
    intro x hx y hy
    rw [List.mem_singleton.1 hy]
    obtain ⟨b, hb, rfl⟩ := List.mem_map.1 hx
    exact ⟨_, ho.id, hn3 b hb⟩

/-- A table that opens no account. -/
theorem Kept.shrink {ops : List Op} (op : Op) {h h' : History} {k : Kind} (hK : Kept ops h k)
    (hopened : h'.opened k = h.opened k) (hkeys : (h'.tables.keys k).Sublist (h.tables.keys k)) :
    Kept (ops ++ [op]) h' k := by
  refine ⟨?_, ?_, ?_, ?_, hK.apart.sublist hkeys⟩
  · intro o ho
    rw [hopened] at ho
    rw [idCounts_append]
    exact List.mem_append_left _ (hK.handed o ho)
  · rw [hopened]; exact hK.increasing
  · rw [hopened]; exact hK.numbered
  · rw [hopened]; exact hkeys.trans hK.live

theorem Kept.step {ops : List Op} {op : Op} {h : History} (hA : AutoIncrement (ops ++ [op]))
    (hK : ∀ k, Kept ops h k) (k : Kind) : Kept (ops ++ [op]) (h.step C op) k := by
  rcases step_cases (C := C) h op with ⟨k', b, l, a, rfl, -, ho⟩ | ⟨hopened, hkeys⟩
  · obtain ⟨hfirst, hlt⟩ := hA.insert
    by_cases hk : k = k'
    · subst hk
      refine (hK k).opens ho hfirst hlt ?_
      rw [idCounts_append]
      simp [idCounts]
    · apply (hK k).shrink
      · rw [ho.opened, Function.update_of_ne hk]
      · unfold State.keys
        rw [ho.others k hk]
  · exact (hK k).shrink op (congrFun hopened k) (hkeys k)

/-- **Numbers and `id_count`** after every run. -/
theorem kept_history {ops : List Op} (hA : AutoIncrement ops) : ∀ k, Kept ops (history C ops) k := by
  induction ops using List.reverseRecOn with
  | nil => exact fun k => ⟨nofun, List.Pairwise.nil, nofun, List.Sublist.refl _, List.Pairwise.nil⟩
  | append_singleton ops op ih =>
    rw [history_concat]
    exact fun k => Kept.step hA (ih hA.of_append) k

/-! ## Ids of the accounts that are there -/

/-- All account rows. -/
def State.allAccounts (s : State) : List Account := (s.accounts .checking).rows ++ (s.accounts .savings).rows

/-- Two accounts with different ids, also as the columns compare them. -/
def IdsDiffer (C : Collation) (a b : Account) : Prop :=
  a.accountId ≠ b.accountId ∧ C.eqN a.accountId b.accountId = false

instance : DecidableRel (IdsDiffer C) := fun _ _ => inferInstanceAs (Decidable (_ ∧ _))

theorem idsDiffer_of {k k' : Kind} {n n' : ℤ} {a b : Account} (ha : a.accountId = some (k.accountId n))
    (hb : b.accountId = some (k'.accountId n')) (hn : 0 ≤ n) (hn' : 0 ≤ n') (hne : ¬(k = k' ∧ n = n')) :
    IdsDiffer C a b := by
  have hfalse : C.eqN a.accountId b.accountId = false := by
    rw [ha, hb, Collation.eqN_some]
    by_contra hc
    exact hne (accountId_inj hn hn' (by simpa using hc))
  refine ⟨?_, hfalse⟩
  intro heq
  rw [heq, hb, Collation.eqN_some, Collation.eq_self] at hfalse
  cases hfalse

theorem first_nonneg (k : Kind) : 0 ≤ k.first := by cases k <;> decide

/-- Accounts whose number is at most their own `id_count`, and above the `id_count` of
those before them, have different ids. -/
theorem pairwise_idsDiffer {L : Kind → List Account}
    (hnum : ∀ k, ∀ a ∈ L k, ∃ n, a.accountId = some (k.accountId n) ∧ k.first ≤ n ∧ n ≤ a.idCount)
    (hspread : ∀ k, (L k).Pairwise fun a b => ∃ n, b.accountId = some (k.accountId n) ∧ a.idCount < n) :
    (L .checking ++ L .savings).Pairwise (IdsDiffer C) := by
  have hone : ∀ k, (L k).Pairwise (IdsDiffer C) := by
    intro k
    refine (hspread k).imp_of_mem ?_
    rintro a b ha - ⟨n', hn', hlt⟩
    obtain ⟨n, hn, hge, hle⟩ := hnum k a ha
    have := first_nonneg k
    exact idsDiffer_of hn hn' (by omega) (by omega) (by omega)
  rw [List.pairwise_append]
  refine ⟨hone _, hone _, ?_⟩
  intro a ha b hb
  obtain ⟨n, hn, hge, -⟩ := hnum .checking a ha
  obtain ⟨n', hn', hge', -⟩ := hnum .savings b hb
  exact idsDiffer_of hn hn' ((first_nonneg _).trans hge) ((first_nonneg _).trans hge') nofun

/-- No two accounts share an id. -/
theorem distinct_of_kept {ops : List Op} {h : History} (hK : ∀ k, Kept ops h k) :
    h.tables.allAccounts.Pairwise (IdsDiffer C) := by
  refine pairwise_idsDiffer (L := fun k => (h.tables.accounts k).rows) ?_ fun k =>
    List.pairwise_map.1 (hK k).apart
  intro k a ha
  obtain ⟨o, ho, hi, hid⟩ := (hK k).exists_opened ha
  rw [← hi, ← hid]
  exact (hK k).numbered o ho

/-- Among accounts with different ids, an id names one at most. -/
theorem filter_id_le_one {l : List Account} (h : l.Pairwise (IdsDiffer C)) (id : Option Text) :
    (l.filter fun a => C.eqN a.accountId id).length ≤ 1 := by
  have hp := h.sublist (List.filter_sublist (p := fun a => C.eqN a.accountId id))
  have hid : ∀ a ∈ l.filter (fun a => C.eqN a.accountId id), C.eqN id a.accountId = true := by
    intro a ha
    rw [Collation.eqN_symm]
    exact (List.mem_filter.1 ha).2
  generalize l.filter (fun a => C.eqN a.accountId id) = m at hp hid ⊢
  rcases m with _ | ⟨a, _ | ⟨b, l'⟩⟩
  · exact Nat.zero_le 1
  · exact le_refl 1
  · -- two of them would have equal ids
    have hab := ((List.pairwise_cons.1 hp).1 b List.mem_cons_self).2
    have htrue :=
      Collation.eqN_trans (hid a List.mem_cons_self) (hid b (List.mem_cons_of_mem _ List.mem_cons_self))
    rw [htrue] at hab
    cases hab

theorem named_le_one {s : State} (h : s.allAccounts.Pairwise (IdsDiffer C)) (k : Kind) (id : Option Text) :
    (s.named C k id).length ≤ 1 := by
  unfold State.allAccounts at h
  rw [List.pairwise_append] at h
  cases k with
  | checking => exact filter_id_le_one h.1 id
  | savings => exact filter_id_le_one h.2.1 id

/-! ## The statements of a transfer -/

theorem keys_updateBalance {k : Kind} {id : Option Text} {v : Option ℚ} {s s' : State}
    (h : updateBalance C k id v s = .ok s') : s'.keys = s.keys := by
  unfold updateBalance at h
  obtain ⟨T, hT, h⟩ := bind_eq_ok.1 h
  simp only [pure, Except.pure, Except.ok.injEq] at h
  subst h
  funext k'
  unfold State.keys State.set
  by_cases hk : k' = k
  · subst hk
    simp only [Function.update_self]
    have hsame : List.Forall₂ (fun a b : Account => (a.idCount, a.accountId) = (b.idCount, b.accountId))
        (s.accounts k').rows T.rows := by
      refine (Table.update_rows hT).imp ?_
      intro a b hab
      unfold Table.Updated at hab
      split at hab
      · obtain ⟨v', -, rfl⟩ := map_eq_ok.1 hab
        rfl
      · rw [hab]
    have hmap := List.forall₂_map_left_iff.2 (List.forall₂_map_right_iff.2 hsame)
    rw [List.forall₂_eq_eq_eq] at hmap
    exact hmap.symm
  · simp only [Function.update_of_ne hk]

/-- The statements of `transfer_commit` leave the ids alone. -/
theorem keeps_keys (K : Kind → List (ℤ × Option Text)) (source target : Option Text) (amount : Option ℚ) :
    (transferCommit C source target amount).Keeps fun s => s.keys = K := by
  have hupdate : ∀ k id v (l : Stmt), (Proc.exec l (updateBalance C k id v)).Keeps fun s : State => s.keys = K :=
    fun k id v l => Proc.Keeps.exec fun s s' hs h => (keys_updateBalance h).trans hs
  have hlog : ∀ row (l : Stmt), (Proc.exec l (insertLog row)).Keeps fun s : State => s.keys = K := by
    intro row l
    apply Proc.Keeps.exec
    intro s s' hs h
    cases h
    exact hs
  have hcredit : ∀ k, (credit C k target amount).Keeps fun s : State => s.keys = K := by
    intro k
    unfold credit
    split
    · exact (Proc.Keeps.query _ _).bind fun _ => hupdate _ _ _ _
    · trivial
  have hfrom : ∀ k, (transferFrom C k source target amount).Keeps fun s : State => s.keys = K := by
    intro k
    unfold transferFrom
    refine (Proc.Keeps.query _ _).bind fun b => ?_
    cases b with
    | true =>
      refine Proc.Keeps.bind ((Proc.Keeps.query _ _).bind fun _ => hupdate _ _ _ _) fun _ => ?_
      refine (hcredit _).bind fun _ => (hcredit _).bind fun _ => ?_
      exact (hlog _ _).bind fun _ => trivial
    | false => exact (hlog _ _).bind fun _ => trivial
  unfold transferCommit
  split
  · exact hfrom _
  · split
    · exact hfrom _
    · trivial

/-- Which accounts an id names depends on the ids only. -/
theorem length_named_keys {s s' : State} (h : s'.keys = s.keys) (k : Kind) (id : Option Text) :
    (s'.named C k id).length = (s.named C k id).length := by
  have hcount : ∀ s : State, (s.named C k id).length = (s.keys k).countP fun x => C.eqN x.2 id := by
    intro s
    unfold State.named State.keys
    rw [List.countP_map, List.countP_eq_length_filter]
    rfl
  rw [hcount, hcount, h]

/-- A call is not refused for finding two accounts under one id, if there are none. -/
theorem Outcome.ne_moreThanOneRow {source target : Option Text} {amount : Option ℚ} {s s' : State}
    {out : Except SqlError (Option ℤ)} (h : Outcome C source target amount s out s')
    (hone : ∀ k id, (s.named C k id).length ≤ 1) : out ≠ .error .moreThanOneRow := by
  cases h with
  | ignored _ => simp
  | @aborted k e _ ht =>
    have hk := hone k source
    have hmany := sourceTest_error.1 ⟨e, ht⟩
    omega
  | refused _ _ _ _ => simp
  | paid _ _ _ _ _ => simp
  | lost _ _ _ _ => simp
  | @broken k k' _ _ _ _ _ hmany _ _ =>
    have hk := hone k' target
    omega

/-- **An id names one account.** In every reachable state no two accounts share an id. So
at every statement of a call an id names one account at most: no subquery has two rows,
no update touches two, and no call is refused for that. -/
theorem account_ids_distinct (C : Collation) {ops : List Op} (hA : AutoIncrement ops) :
    let s := run C ops .empty
    s.allAccounts.Pairwise (IdsDiffer C) ∧
      ∀ source target amount,
        (∀ x ∈ (transferCommit C source target amount).trace s, ∀ k id, (x.2.named C k id).length ≤ 1) ∧
          ((transferCommit C source target amount).run s).1 ≠ .error .moreThanOneRow := by
  intro s
  have hd : s.allAccounts.Pairwise (IdsDiffer C) := by
    have := distinct_of_kept (C := C) (kept_history (C := C) hA)
    rwa [history_tables] at this
  refine ⟨hd, ?_⟩
  intro source target amount
  refine ⟨?_, (transferCommit_outcome source target amount s).ne_moreThanOneRow (named_le_one hd)⟩
  intro x hx k id
  rw [length_named_keys ((keeps_keys s.keys source target amount).trace rfl x hx)]
  exact named_le_one hd k id

theorem account_ids_distinct_after_deletion :
    let ops := [Op.insert .checking 14 0 0, .insert .checking 20 100 50, .insert .savings 1 5 0,
      .delete .checking (fun a => a.idCount == 14), .insert .checking 21 7 0]
    AutoIncrement ops ∧ (run asciiCi ops .empty).allAccounts.Pairwise (IdsDiffer asciiCi) :=
  ⟨by intro k; cases k <;> decide, (account_ids_distinct asciiCi (by intro k; cases k <;> decide)).1⟩

/-! ## Ids over the whole run -/

/-- All accounts ever opened. -/
def History.allOpened (h : History) : List Account := h.opened .checking ++ h.opened .savings

/-- **No id is recycled**: no two accounts of the run ever had one id, and a row of the
log names one of them at most. -/
def NeverRecycled (C : Collation) (h : History) : Prop :=
  h.allOpened.Pairwise (IdsDiffer C) ∧ ∀ row ∈ h.tables.log, ∀ id ∈ [row.sourceId, row.targetId],
    (h.allOpened.filter fun o => C.eqN o.accountId id).length ≤ 1

instance (h : History) : Decidable (NeverRecycled C h) := inferInstanceAs (Decidable (_ ∧ _))

/-- A new account, if it is accepted, finds the newest account of its table still there. -/
def NewestThere (h : History) : Op → Prop
  | .insert k idCount balance limit => (∃ s, insertAccount k idCount balance limit h.tables = .ok s) →
      ∀ o ∈ (h.opened k).getLast?, o.idCount ∈ (h.tables.accounts k).rows.map Account.idCount
  | _ => True

instance (h : History) : ∀ op, Decidable (NewestThere h op)
  | .insert k idCount balance limit =>
    match hs : insertAccount k idCount balance limit h.tables with
    | .ok s => decidable_of_iff
        (∀ o ∈ (h.opened k).getLast?, o.idCount ∈ (h.tables.accounts k).rows.map Account.idCount)
        (by simp only [NewestThere, hs, Except.ok.injEq, exists_eq', forall_const])
    | .error e => isTrue (by rintro ⟨s, h⟩; rw [hs] at h; cases h)
  | .delete _ _ => isTrue trivial
  | .transfer _ _ _ => isTrue trivial

/-- The number of each account of table `k` is one more than the `id_count` of the one
opened before it, and so above the `id_count` of all before it. -/
structure Chained (h : History) (k : Kind) : Prop where
  chain : List.IsChain (fun o o' : Account => o'.accountId = some (k.accountId (o.idCount + 1)))
    (⟨k.first - 1, none, 0, 0⟩ :: h.opened k)
  spread : (h.opened k).Pairwise fun o o' => ∃ n, o'.accountId = some (k.accountId n) ∧ o.idCount < n

/-- In a chain, everything but the last is followed by something. -/
theorem exists_next {α : Type} {R : α → α → Prop} {x : α} : ∀ {l : List α}, l.IsChain R → x ∈ l →
    l.getLast? ≠ some x → ∃ y ∈ l.tail, R x y := by
  intro l
  induction l with
  | nil => intro _ hx; cases hx
  | cons a l ih =>
    intro hR hx hlast
    cases l with
    | nil => exact absurd (by rw [List.mem_singleton.1 hx]; rfl) hlast
    | cons b l =>
      rw [List.isChain_cons_cons] at hR
      rcases List.mem_cons.1 hx with rfl | hx
      · exact ⟨b, List.mem_cons_self, hR.1⟩
      · obtain ⟨y, hy, hxy⟩ := ih hR.2 hx (by rwa [List.getLast?_cons_cons] at hlast)
        exact ⟨y, List.mem_of_mem_tail hy, hxy⟩

theorem le_getLast {l : List Account} (h : l.Pairwise fun o o' => o.idCount < o'.idCount) {o x : Account}
    (ho : o ∈ l.getLast?) (hx : x ∈ l) : x.idCount ≤ o.idCount := by
  obtain ⟨m, rfl⟩ := List.getLast?_eq_some_iff.1 ho
  rw [List.pairwise_append] at h
  rcases List.mem_append.1 hx with hx | hx
  · exact (h.2.2 x hx o (List.mem_singleton_self o)).le
  · rw [List.mem_singleton.1 hx]

/-- With the newest account there, a new one gets the number after its `id_count`. -/
theorem Kept.after_newest {ops : List Op} {h : History} {k : Kind} (hK : Kept ops h k) {o : Account}
    (ho : o ∈ (h.opened k).getLast?) (hlive : o.idCount ∈ (h.tables.accounts k).rows.map Account.idCount) :
    nextNumber k (h.tables.accounts k) = o.idCount + 1 := by
  obtain ⟨b, hb, hbo⟩ := List.mem_map.1 hlive
  obtain ⟨a, ha, hn, hmax⟩ := nextNumber_cons (k := k) (List.ne_nil_of_mem hb)
  obtain ⟨x, hx, hxa, -⟩ := hK.exists_opened ha
  have h1 := hmax b hb
  have h2 := le_getLast hK.increasing ho hx
  omega

/-- Without it, a new one gets the id of an account opened before. -/
theorem Chained.reissued {ops : List Op} {h : History} {k : Kind} (hC : Chained h k) (hK : Kept ops h k)
    {o : Account} (ho : o ∈ (h.opened k).getLast?)
    (hgone : o.idCount ∉ (h.tables.accounts k).rows.map Account.idCount) :
    ∃ x ∈ h.opened k, x.accountId = some (k.accountId (nextNumber k (h.tables.accounts k))) := by
  have hlast : (⟨k.first - 1, none, 0, 0⟩ :: h.opened k).getLast? = some o := by
    rw [List.getLast?_cons, Option.mem_def.1 ho]; rfl
  -- the number is one more than the `id_count` of one that is not the newest
  suffices hx : ∃ x ∈ (⟨k.first - 1, none, 0, 0⟩ :: h.opened k : List Account),
      nextNumber k (h.tables.accounts k) = x.idCount + 1 ∧ x ≠ o by
    obtain ⟨x, hx, hn, hne⟩ := hx
    rw [hn]
    exact exists_next hC.chain hx (by rw [hlast]; exact fun he => hne (Option.some.inj he).symm)
  by_cases hnil : (h.tables.accounts k).rows = []
  · refine ⟨_, List.mem_cons_self, by rw [nextNumber_nil hnil]; simp, ?_⟩
    rintro rfl
    obtain ⟨n, hn, -⟩ := hK.numbered _ (List.mem_of_getLast? ho)
    cases hn
  · obtain ⟨a, ha, hn, -⟩ := nextNumber_cons (k := k) hnil
    obtain ⟨x, hx, hxa, -⟩ := hK.exists_opened ha
    refine ⟨x, List.mem_cons_of_mem _ hx, by rw [hn, hxa], ?_⟩
    rintro rfl
    exact hgone (by rw [hxa]; exact List.mem_map_of_mem ha)

theorem Chained.step {ops : List Op} {op : Op} {h : History} (hK : ∀ k, Kept ops h k)
    (hN : NewestThere h op) (hC : ∀ k, Chained h k) (k : Kind) : Chained (h.step C op) k := by
  have hsame : (h.step C op).opened k = h.opened k → Chained (h.step C op) k := by
    intro heq
    exact ⟨by rw [heq]; exact (hC k).chain, by rw [heq]; exact (hC k).spread⟩
  rcases step_cases (C := C) h op with ⟨k', b, l, a, rfl, hs, ho⟩ | ⟨hopened, -⟩
  · by_cases hk : k = k'
    · subst hk
      have hopened : (h.step C (.insert k a.idCount b l)).opened k = h.opened k ++ [a] := by
        rw [ho.opened, Function.update_self]
      have hnext : ∀ o ∈ (h.opened k).getLast?, nextNumber k (h.tables.accounts k) = o.idCount + 1 :=
        fun o hlast => (hK k).after_newest hlast (hN hs o hlast)
      refine ⟨?_, ?_⟩
      · rw [hopened, ← List.cons_append, List.isChain_append]
        refine ⟨(hC k).chain, List.isChain_singleton _, ?_⟩
        intro o hlast y hy
        cases hy
        rw [ho.id]
        rw [List.getLast?_cons] at hlast
        rcases hop : (h.opened k).getLast? with _ | o'
        · -- the first account of the table
          have hnil : (h.tables.accounts k).rows = [] := by
            have hlive := (hK k).live
            rw [List.getLast?_eq_none_iff.1 hop, List.map_nil, List.sublist_nil] at hlive
            exact List.map_eq_nil_iff.1 hlive
          rw [hop] at hlast
          cases hlast
          simp only [nextNumber_nil hnil, Option.getD_none, sub_add_cancel]
        · rw [hop] at hlast
          cases hlast
          simp only [hnext _ hop, Option.getD_some]
      · rw [hopened, List.pairwise_append]
        refine ⟨(hC k).spread, List.pairwise_singleton _ _, ?_⟩
        intro x hx y hy
        rw [List.mem_singleton.1 hy]
        obtain ⟨o, hlast⟩ : ∃ o, o ∈ (h.opened k).getLast? :=
          ⟨_, List.getLast?_eq_some_getLast (List.ne_nil_of_mem hx)⟩
        have hle := le_getLast (hK k).increasing hlast hx
        exact ⟨_, ho.id, by rw [hnext o hlast]; omega⟩
    · exact hsame (by rw [ho.opened, Function.update_of_ne hk])
  · exact hsame (congrFun hopened k)

theorem chained_history {ops : List Op} (hA : AutoIncrement ops)
    (hN : Along (History.step C) NewestThere .start ops) : ∀ k, Chained (history C ops) k := by
  induction ops using List.reverseRecOn with
  | nil => exact fun k => ⟨List.isChain_singleton _, List.Pairwise.nil⟩
  | append_singleton ops op ih =>
    obtain ⟨hN, hlast⟩ := along_concat.1 hN
    rw [history_concat]
    exact Chained.step (kept_history hA.of_append) hlast (ih hA.of_append hN)

/-- Nothing is opened twice: an id that is issued again breaks `IdsDiffer`. -/
theorem newestThere_of_distinct {ops : List Op} {op : Op} {h : History} (hK : ∀ k, Kept ops h k)
    (hC : ∀ k, Chained h k) (hd : (h.step C op).allOpened.Pairwise (IdsDiffer C)) : NewestThere h op := by
  cases op with
  | insert k i b l =>
    rintro ⟨s, hs⟩ o ho
    by_contra hgone
    obtain ⟨x, hx, hid⟩ := (hC k).reissued (hK k) ho hgone
    have hopens := insertAccount_opens (C := C) hs
    have hone : ((h.step C (.insert k i b l)).opened k).Pairwise (IdsDiffer C) := by
      unfold History.allOpened at hd
      rw [List.pairwise_append] at hd
      cases k with
      | checking => exact hd.1
      | savings => exact hd.2.1
    rw [hopens.opened, Function.update_self, List.pairwise_append] at hone
    exact (hone.2.2 x hx _ (List.mem_singleton_self _)).1 hid
  | delete k p => trivial
  | transfer source target amount => trivial

theorem allOpened_step (h : History) (op : Op) : h.allOpened.Sublist (h.step C op).allOpened := by
  rcases step_cases (C := C) h op with ⟨k, b, l, a, rfl, -, ho⟩ | ⟨hopened, -⟩
  · have hsub : ∀ k', (h.opened k').Sublist ((h.step C (.insert k a.idCount b l)).opened k') := by
      intro k'
      rw [ho.opened]
      by_cases hk : k' = k
      · subst hk
        rw [Function.update_self]
        exact List.sublist_append_left _ _
      · rw [Function.update_of_ne hk]
    exact (hsub .checking).append (hsub .savings)
  · unfold History.allOpened
    rw [hopened]

theorem along_of_distinct {ops : List Op} (hA : AutoIncrement ops)
    (hd : (history C ops).allOpened.Pairwise (IdsDiffer C)) :
    Along (History.step C) NewestThere .start ops := by
  induction ops using List.reverseRecOn with
  | nil => trivial
  | append_singleton ops op ih =>
    rw [history_concat] at hd
    have hprev := ih hA.of_append (hd.sublist (allOpened_step _ op))
    have hK := kept_history (C := C) hA.of_append
    exact along_concat.2 ⟨hprev, newestThere_of_distinct hK (chained_history hA.of_append hprev) hd⟩

/-- **When ids are recycled.** No id of the run is issued twice exactly when every new
account that is accepted finds the newest account of its table still there. -/
theorem never_recycled_iff (C : Collation) {ops : List Op} (hA : AutoIncrement ops) :
    NeverRecycled C (history C ops) ↔ Along (History.step C) NewestThere .start ops := by
  constructor
  · rintro ⟨hd, -⟩
    exact along_of_distinct hA hd
  · intro hN
    have hK := kept_history (C := C) hA
    have hC := chained_history hA hN
    have hd : (history C ops).allOpened.Pairwise (IdsDiffer C) :=
      pairwise_idsDiffer (L := (history C ops).opened) (fun k => (hK k).numbered) fun k => (hC k).spread
    exact ⟨hd, fun row _ id _ => filter_id_le_one hd id⟩

theorem never_recycled_oldest_deleted :
    let ops := [Op.insert .checking 14 0 0, .insert .checking 15 100 50,
      .delete .checking (fun a => a.idCount == 14), .insert .checking 17 200 50]
    AutoIncrement ops ∧ NeverRecycled asciiCi (history asciiCi ops) :=
  ⟨by intro k; cases k <;> decide,
    (never_recycled_iff asciiCi (by intro k; cases k <;> decide)).2 (by decide +kernel)⟩

/-- The newest account is deleted, and the next one gets its id: the row of the log that
names it is then about two accounts. -/
theorem deleted_id_recycled :
    let ops := [Op.insert .checking 14 0 0, .insert .checking 15 100 50, .insert .savings 1 760 50,
      .transfer (some "CH-15".toList) (some "SV-1".toList) (some 100),
      .delete .checking (fun a => a.idCount == 15), .insert .checking 16 200 50]
    AutoIncrement ops ∧ ¬NeverRecycled asciiCi (history asciiCi ops) :=
  ⟨by intro k; cases k <;> decide, by decide +kernel⟩

end Coms4111.Bank
