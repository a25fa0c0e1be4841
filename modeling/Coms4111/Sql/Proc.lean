import Coms4111.Sql.Table

/-!
# Stored procedures, alone and interleaved

A procedure is a tree of **statements**. Each statement is atomic: it reads the
tables, and either changes them and hands a value on, or is refused, leaves them as
they are and ends the procedure. There is no transaction around the statements: what
the earlier ones did stays. Every statement carries a label that says what it is.

* `Proc.run`: one session runs the procedure from beginning to end. `Proc.atomic` is
  for the body of a trigger, which is undone with the statement it belongs to.
* `Proc.Keeps.trace`: what every statement keeps holds at every statement of a run.
* `Along.inv`: the rule for invariants of runs, with a condition on every step.
* `Pool`: several sessions, each with its procedure, over the same tables.
  `Pool.run` runs a schedule, one statement at a time, and `Pool.step_phase` follows the
  sessions through the phases of their procedures.
-/

namespace Coms4111.Sql

/-- **A procedure** over tables `σ`, with statements labelled by `L`. -/
inductive Proc (L σ α : Type) : Type 1
  | ret (a : α)
  | fail (e : SqlError)
  | stmt {β : Type} (l : L) (f : σ → Except SqlError (β × σ)) (k : β → Proc L σ α)

namespace Proc

variable {L σ α β γ : Type}

def bind : Proc L σ α → (α → Proc L σ β) → Proc L σ β
  | ret a, k => k a
  | fail e, _ => fail e
  | stmt l f g, k => stmt l f fun b => (g b).bind k

instance : Monad (Proc L σ) where
  pure := ret
  bind := bind

/-- A statement that reads. -/
def query (l : L) (f : σ → Except SqlError α) : Proc L σ α :=
  stmt l (fun s => (f s).map (·, s)) ret

/-- A statement that writes. -/
def exec (l : L) (f : σ → Except SqlError σ) : Proc L σ Unit :=
  stmt l (fun s => (f s).map ((), ·)) ret

/-- What is computed without the tables, such as the values of variables. -/
def value : Except SqlError α → Proc L σ α
  | .ok a => ret a
  | .error e => fail e

/-- **One session alone**: the outcome, and the tables it leaves behind. -/
def run : Proc L σ α → σ → Except SqlError α × σ
  | ret a, s => (.ok a, s)
  | fail e, s => (.error e, s)
  | stmt _ f k, s => match f s with
    | .ok (b, s') => (k b).run s'
    | .error e => (.error e, s)

@[simp] theorem run_ret (a : α) (s : σ) : (ret a : Proc L σ α).run s = (.ok a, s) := rfl

@[simp] theorem run_fail (e : SqlError) (s : σ) : (fail e : Proc L σ α).run s = (.error e, s) := rfl

theorem run_bind (p : Proc L σ α) (k : α → Proc L σ β) (s : σ) :
    (p >>= k).run s = match p.run s with
      | (.ok a, s') => (k a).run s'
      | (.error e, s') => (.error e, s') := by
  show (p.bind k).run s = _
  induction p generalizing s with
  | ret a => rfl
  | fail e => rfl
  | stmt l f g ih =>
    simp only [bind, run]
    cases hf : f s with
    | error e => rfl
    | ok bs => exact ih bs.1 bs.2

theorem run_query_bind (l : L) (f : σ → Except SqlError α) (k : α → Proc L σ β) (s : σ) :
    (query l f >>= k).run s = match f s with
      | .ok a => (k a).run s
      | .error e => (.error e, s) := by
  rw [run_bind]
  simp only [query, run]
  cases f s <;> rfl

theorem run_exec_bind (l : L) (f : σ → Except SqlError σ) (k : Unit → Proc L σ β) (s : σ) :
    (exec l f >>= k).run s = match f s with
      | .ok s' => (k ()).run s'
      | .error e => (.error e, s) := by
  rw [run_bind]
  simp only [exec, run]
  cases f s <;> rfl

theorem run_exec (l : L) (f : σ → Except SqlError σ) (s : σ) :
    (exec l f).run s = match f s with
      | .ok s' => (.ok (), s')
      | .error e => (.error e, s) := by
  simp only [exec, run]
  cases f s <;> rfl

theorem run_value_bind (x : Except SqlError α) (k : α → Proc L σ β) (s : σ) :
    (value x >>= k).run s = match x with
      | .ok a => (k a).run s
      | .error e => (.error e, s) := by
  cases x <;> rfl

/-- A statement that writes a computed value. -/
theorem run_value_exec (x : Except SqlError α) (l : L) (f : α → σ → Except SqlError σ) (s : σ) :
    (value x >>= fun a => exec l (f a)).run s = match x >>= fun a => f a s with
      | .ok s' => (.ok (), s')
      | .error e => (.error e, s) := by
  rw [run_value_bind]
  cases x with
  | error e => rfl
  | ok a => exact run_exec l (f a) s

/-- **One statement with its triggers**: what they wrote is undone if it is refused. -/
def atomic (p : Proc L σ α) (s : σ) : Except SqlError σ :=
  match p.run s with
  | (.ok _, s') => .ok s'
  | (.error e, _) => .error e

theorem atomic_eq_ok {p : Proc L σ α} {s s' : σ} : p.atomic s = .ok s' ↔ ∃ a, p.run s = (.ok a, s') := by
  unfold atomic
  rcases hr : p.run s with ⟨r, t⟩
  cases r <;> simp

theorem run_bind_ok {p : Proc L σ α} {k : α → Proc L σ β} {s s' : σ} {b : β} :
    (p >>= k).run s = (.ok b, s') ↔ ∃ a t, p.run s = (.ok a, t) ∧ (k a).run t = (.ok b, s') := by
  rw [run_bind]
  rcases hr : p.run s with ⟨r, t⟩
  cases r <;> simp

theorem run_value_ok {x : Except SqlError α} {a : α} {s s' : σ} :
    (value x : Proc L σ α).run s = (.ok a, s') ↔ x = .ok a ∧ s' = s := by
  cases x <;> simp [value, eq_comm]

theorem run_query_ok {l : L} {f : σ → Except SqlError α} {a : α} {s s' : σ} :
    (query l f).run s = (.ok a, s') ↔ f s = .ok a ∧ s' = s := by
  simp only [query, run]
  cases f s <;> simp [Except.map, eq_comm]

theorem run_exec_ok {l : L} {f : σ → Except SqlError σ} {u : Unit} {s s' : σ} :
    (exec l f).run s = (.ok u, s') ↔ f s = .ok s' := by
  rw [run_exec]
  cases f s <;> simp

/-! ## One statement -/

/-- The next statement of the procedure. -/
def step : Proc L σ α → σ → Option (Proc L σ α × σ)
  | ret _, _ => none
  | fail _, _ => none
  | stmt _ f k, s => match f s with
    | .ok (b, s') => some (k b, s')
    | .error e => some (fail e, s)

theorem step_query_bind (l : L) (f : σ → Except SqlError α) (k : α → Proc L σ β) (s : σ) :
    (query l f >>= k).step s = match f s with
      | .ok a => some (k a, s)
      | .error e => some (fail e, s) := by
  show Proc.step (stmt l _ _) s = _
  simp only [step]
  cases f s <;> rfl

theorem step_exec_bind (l : L) (f : σ → Except SqlError σ) (k : Unit → Proc L σ β) (s : σ) :
    (exec l f >>= k).step s = match f s with
      | .ok s' => some (k (), s')
      | .error e => some (fail e, s) := by
  show Proc.step (stmt l _ _) s = _
  simp only [step]
  cases f s <;> rfl

theorem step_exec (l : L) (f : σ → Except SqlError σ) (s : σ) :
    (exec l f).step s = match f s with
      | .ok s' => some (ret (), s')
      | .error e => some (fail e, s) := by
  simp only [exec, step]
  cases f s <;> rfl

/-- What the next statement is. -/
def next : Proc L σ α → Option L
  | stmt l _ _ => some l
  | _ => none

/-- What the procedure returned, once it has. -/
def returned : Proc L σ α → Option α
  | ret a => some a
  | _ => none

theorem step_eq_none {p : Proc L σ α} (h : p.next = none) (s : σ) : p.step s = none := by
  cases p with
  | ret a => rfl
  | fail e => rfl
  | stmt l f k => simp [next] at h

/-! ## The states a procedure passes through -/

/-- The statements that one session runs, each with the tables as it finds them. -/
def trace : Proc L σ α → σ → List (L × σ)
  | ret _, _ => []
  | fail _, _ => []
  | stmt l f k, s => (l, s) :: match f s with
    | .ok (b, s') => (k b).trace s'
    | .error _ => []

/-- Every statement of the procedure keeps `I`. -/
def Keeps (I : σ → Prop) : Proc L σ α → Prop
  | ret _ => True
  | fail _ => True
  | stmt _ f k => (∀ s b s', I s → f s = .ok (b, s') → I s') ∧ ∀ b, (k b).Keeps I

variable {I : σ → Prop}

theorem Keeps.query (l : L) (f : σ → Except SqlError α) : (query l f).Keeps I := by
  refine ⟨?_, fun _ => trivial⟩
  intro s b s' hs hf
  obtain ⟨a, -, h⟩ := map_eq_ok.1 hf
  cases h
  exact hs

theorem Keeps.exec {l : L} {f : σ → Except SqlError σ} (h : ∀ s s', I s → f s = .ok s' → I s') :
    (exec l f).Keeps I := by
  refine ⟨?_, fun _ => trivial⟩
  intro s b s' hs hf
  obtain ⟨t, ht, heq⟩ := map_eq_ok.1 hf
  cases heq
  exact h s _ hs ht

theorem Keeps.bind {p : Proc L σ α} {k : α → Proc L σ β} (hp : p.Keeps I) (hk : ∀ a, (k a).Keeps I) :
    (p >>= k).Keeps I := by
  show (p.bind k).Keeps I
  induction p with
  | ret a => exact hk a
  | fail e => trivial
  | stmt l f g ih => exact ⟨hp.1, fun b => ih b (hp.2 b)⟩

/-- What every statement keeps holds wherever a statement is run. -/
theorem Keeps.trace {p : Proc L σ α} (hp : p.Keeps I) : ∀ {s : σ}, I s → ∀ x ∈ p.trace s, I x.2 := by
  induction p with
  | ret a => intro s _ x hx; cases hx
  | fail e => intro s _ x hx; cases hx
  | stmt l f g ih =>
    intro s hs x hx
    rw [Proc.trace, List.mem_cons] at hx
    rcases hx with rfl | hx
    · exact hs
    · rcases hf : f s with e | ⟨b, s'⟩
      · rw [hf] at hx; cases hx
      · rw [hf] at hx
        exact ih b (hp.2 b) (hp.1 s b s' hs hf) x hx

end Proc

/-! ## Runs -/

section Along

universe u v

variable {τ : Type u} {ω : Type v} (step : τ → ω → τ) (allowed : τ → ω → Prop)

/-- Every step of the run is taken from a state that allows it. -/
def Along : τ → List ω → Prop
  | _, [] => True
  | s, o :: run => allowed s o ∧ Along (step s o) run

instance decidableAlong [∀ s o, Decidable (allowed s o)] :
    ∀ (s : τ) (run : List ω), Decidable (Along step allowed s run)
  | _, [] => isTrue trivial
  | s, o :: run => @instDecidableAnd _ _ _ (decidableAlong (step s o) run)

variable {step allowed}

theorem Along.of_forall (h : ∀ s o, allowed s o) : ∀ (run : List ω) (s : τ), Along step allowed s run := by
  intro run
  induction run with
  | nil => intro s; trivial
  | cons o run ih => intro s; exact ⟨h s o, ih _⟩

theorem along_append {s : τ} {run rest : List ω} :
    Along step allowed s (run ++ rest) ↔ Along step allowed s run ∧
      Along step allowed (run.foldl step s) rest := by
  induction run generalizing s with
  | nil => simp [Along]
  | cons p run ih =>
    simp only [List.cons_append, Along, List.foldl_cons, ih, and_assoc]

theorem along_concat {s : τ} {run : List ω} {o : ω} :
    Along step allowed s (run ++ [o]) ↔ Along step allowed s run ∧ allowed (run.foldl step s) o := by
  rw [along_append]
  simp only [Along, and_true]

/-- **The rule for runs.** What every allowed step keeps holds at the end of every run
of allowed steps. -/
theorem Along.inv {I : τ → Prop} (hstep : ∀ s o, I s → allowed s o → I (step s o)) :
    ∀ (run : List ω) (s : τ), I s → Along step allowed s run → I (run.foldl step s) := by
  intro run
  induction run with
  | nil => intro s hs _; exact hs
  | cons o run ih =>
    intro s hs hA
    exact ih _ (hstep s o hs hA.1) hA.2

end Along

/-! ## Several sessions -/

/-- Sessions `ι`, each with what is left of its procedure, over the same tables. -/
structure Pool (ι L σ α : Type) : Type 1 where
  session : ι → Proc L σ α
  tables : σ

namespace Pool

variable {ι L σ α : Type} [DecidableEq ι]

/-- Session `i` runs its next statement. A session that has ended does nothing. -/
def step (P : Pool ι L σ α) (i : ι) : Pool ι L σ α :=
  match (P.session i).step P.tables with
  | some (p, s) => ⟨Function.update P.session i p, s⟩
  | none => P

/-- The sessions run in the order of the schedule. -/
def run (P : Pool ι L σ α) (sched : List ι) : Pool ι L σ α := sched.foldl step P

/-- Every session has ended. -/
def Finished (P : Pool ι L σ α) : Prop := ∀ i, (P.session i).next = none

/-- A session that has ended changes nothing. -/
theorem step_ended {P : Pool ι L σ α} {i : ι} (h : (P.session i).next = none) : P.step i = P := by
  unfold step
  rw [Proc.step_eq_none h]

/-- **The rule for phases.** If every session is the program of its phase, one statement
moves one session on to the phase that its program has become. -/
theorem step_phase {Φ : Type} {prog : ι → Φ → Proc L σ α} {φ : ι → Φ} {P : Pool ι L σ α}
    (h : ∀ j, P.session j = prog j (φ j)) {i : ι} {ψ : Φ} {s : σ}
    (hstep : (P.session i).step P.tables = some (prog i ψ, s)) :
    P.step i = ⟨fun j => prog j (Function.update φ i ψ j), s⟩ := by
  unfold step
  rw [hstep]
  simp only [mk.injEq, and_true]
  funext j
  by_cases hj : j = i
  · subst hj; rw [Function.update_self, Function.update_self]
  · rw [Function.update_of_ne hj, Function.update_of_ne hj, h j]

end Pool

end Coms4111.Sql
