import Coms4111.Proof.HashType
import Coms4111.Store.Refinement

/-!
# The hash commands over whole runs

* `server_refines_maps`: whatever commands are sent, the server answers as one that has a map
  for every key, in whichever encoding a hash is at the time, and no assertion fails.
-/

namespace Coms4111.Server

open Store

/-! ## What the commands are for -/

/-- What is under a key: fields, none if there is no such key, or an object that is no hash. -/
inductive Content
  | other
  | fields (f : Fields)
  deriving DecidableEq

abbrev Keyspace := Bytes → Content

/-- What a client takes from a reply: a map for `HGETALL`. -/
inductive Answer
  | reply (r : Reply)
  | fields (f : Fields)
  deriving DecidableEq

/-- The map of a reply that has fields and values in turn. -/
def readFields : List (Option Bytes) → Fields → Fields
  | some field :: some value :: l, f => readFields l (f.insert field value)
  | _, f => f

def Command.read : Command → Reply → Answer
  | .hgetall _, .multi l => .fields (readFields l ∅)
  | _, r => .reply r

namespace Keyspace

/-- The fields and values are inserted in turn. How many fields are new? -/
def insertPairs : Fields → List Bytes → ℕ → ℕ × Fields
  | f, field :: value :: argv, created =>
    insertPairs (f.insert field value) argv (if (f.lookup field).isSome then created else created + 1)
  | f, _, created => (created, f)

def hset (M : Keyspace) (key : Bytes) (argv : List Bytes) (reply : ℕ → Reply) : Reply × Keyspace :=
  if argv.length % 2 = 1 then (.error "wrong number of arguments for HMSET", M)
  else match M key with
    | .other => (.wrongType, M)
    | .fields f =>
      let r := insertPairs f argv 0
      (reply r.1, Function.update M key (.fields r.2))

def hsetnx (M : Keyspace) (key field value : Bytes) : Reply × Keyspace :=
  match M key with
  | .other => (.wrongType, M)
  | .fields f =>
    if (f.lookup field).isSome then (.integer 0, M)
    else (.integer 1, Function.update M key (.fields (f.insert field value)))

/-- The sum, if both numbers and the sum are in the range of `long long`. -/
def hincrby (M : Keyspace) (key field incr : Bytes) : Reply × Keyspace :=
  match string2ll incr with
  | none => (.error "value is not an integer or out of range", M)
  | some incr =>
    match M key with
    | .other => (.wrongType, M)
    | .fields f =>
      match ((f.lookup field).map string2ll).getD (some 0) with
      | none => (.error "hash value is not an integer", M)
      | some old =>
        if -2 ^ 63 ≤ old + incr ∧ old + incr < 2 ^ 63 then
          (.integer (old + incr), Function.update M key (.fields (f.insert field (ll2string (old + incr)))))
        else (.error "increment or decrement would overflow", M)

/-- A command that only reads. -/
def reads (M : Keyspace) (key : Bytes) (g : Fields → Answer) : Answer × Keyspace :=
  match M key with
  | .other => (.reply .wrongType, M)
  | .fields f => (g f, M)

def eraseFields : Fields → List Bytes → ℕ → ℕ × Fields
  | f, [], deleted => (deleted, f)
  | f, field :: fields, deleted =>
    eraseFields (f.erase field) fields (if (f.lookup field).isSome then deleted + 1 else deleted)

def hdel (M : Keyspace) (key : Bytes) (fields : List Bytes) : Reply × Keyspace :=
  match M key with
  | .other => (.wrongType, M)
  | .fields f =>
    let r := eraseFields f fields 0
    (.integer r.1, Function.update M key (.fields r.2))

/-- There is such a key. -/
def has (M : Keyspace) (key : Bytes) : Bool := M key ≠ .fields ∅

def delKeys : Keyspace → List Bytes → ℕ → ℕ × Keyspace
  | M, [], deleted => (deleted, M)
  | M, key :: keys, deleted =>
    delKeys (Function.update M key (.fields ∅)) keys (if M.has key then deleted + 1 else deleted)

end Keyspace

/-- The reply of a command that does not ask for a map. -/
def plain (p : Reply × Keyspace) : Answer × Keyspace := (.reply p.1, p.2)

open RedisServer (wrongArity) in
/-- **What a command does to the maps.** -/
def Command.spec : Command → Keyspace → Answer × Keyspace
  | .hset (key :: argv), M =>
    plain (if argv.length < 2 then (wrongArity "hset", M) else M.hset key argv fun created => .integer created)
  | .hset [], M => plain (wrongArity "hset", M)
  | .hmset (key :: argv), M =>
    plain (if argv.length < 2 then (wrongArity "hmset", M) else M.hset key argv fun _ => .ok)
  | .hmset [], M => plain (wrongArity "hmset", M)
  | .hsetnx key field value, M => plain (M.hsetnx key field value)
  | .hincrby key field incr, M => plain (M.hincrby key field incr)
  | .hget key field, M => M.reads key fun f =>
    .reply (match f.lookup field with | none => .null | some s => .bulk s)
  | .hmget key fields, M =>
    if fields = [] then plain (wrongArity "hmget", M)
    else M.reads key fun f => .reply (.multi (fields.map fun field => f.lookup field))
  | .hdel key fields, M => plain (if fields = [] then (wrongArity "hdel", M) else M.hdel key fields)
  | .hlen key, M => M.reads key fun f => .reply (.integer f.keys.card)
  | .hstrlen key field, M => M.reads key fun f => .reply (.integer ((f.lookup field).getD []).length)
  | .hexists key field, M => M.reads key fun f => .reply (.integer (if (f.lookup field).isSome then 1 else 0))
  | .hgetall key, M => M.reads key .fields
  | .exists keys, M => plain (if keys = [] then (wrongArity "exists", M) else (.integer (keys.countP M.has), M))
  | .del keys, M =>
    plain (if keys = [] then (wrongArity "del", M)
      else
        let r := M.delKeys keys 0
        (.integer r.1, r.2))
  | .updateDictResizePolicy _, M => plain (.ok, M)

/-- The bytes that a command may take. -/
def Command.cost : Command → ℕ
  | .hset argv | .hmset argv => total (fun arg => 22 + arg.length) argv
  | .hsetnx _ field value => 44 + field.length + value.length
  | .hincrby _ field _ => 44 + field.length + 20
  | _ => 0

/-- A command, with what the client takes from the reply. -/
def Command.run (S : Settings) (c : Command) (s : RedisServer) : Option (Answer × RedisServer) := do
  let (r, s) ← s.execute S c
  return (c.read r, s)

/-! ## The objects of the keyspace -/

/-- **What the keyspace has for a key is under it.** An empty hash is never kept. -/
def Stored (S : Settings) (n : ℕ) : Option Object → Content → Prop
  | none, .fields f => f = ∅
  | some .other, .other => True
  | some (.hash o), .fields f => f ≠ ∅ ∧ Holds S n o f
  | _, _ => False

variable {S : Settings} {n : ℕ} {s : RedisServer} {M : Keyspace} {key field value : Bytes} {f : Fields}
  {o : HashObject} {argv : List Bytes}

def Serves (S : Settings) (n : ℕ) (s : RedisServer) (M : Keyspace) : Prop := ∀ key, Stored S n (s.db key) (M key)

theorem Serves.mono {k : ℕ} (h : Serves S (n + k) s M) : Serves S n s M := by
  intro key
  have hkey := h key
  revert hkey
  cases s.db key with
  | none => cases M key <;> exact id
  | some object =>
    cases object with
    | other => cases M key <;> exact id
    | hash o =>
      cases M key with
      | other => exact id
      | fields f => exact fun hkey => ⟨hkey.1, hkey.2.mono⟩

/-- The ways a key can be stored. -/
theorem stored_cases {object : Option Object} {content : Content} (h : Stored S n object content) :
    object = none ∧ content = .fields ∅ ∨ object = some .other ∧ content = .other ∨
      ∃ o f, object = some (.hash o) ∧ content = .fields f ∧ f ≠ ∅ ∧ Holds S n o f := by
  cases object with
  | none =>
    cases content with
    | other => exact h.elim
    | fields f => exact Or.inl ⟨rfl, congrArg Content.fields h⟩
  | some object =>
    cases object with
    | other =>
      cases content with
      | other => exact Or.inr (Or.inl ⟨rfl, rfl⟩)
      | fields f => exact h.elim
    | hash o =>
      cases content with
      | other => exact h.elim
      | fields f => exact Or.inr (Or.inr ⟨o, f, rfl, rfl, h.1, h.2⟩)

/-- The object to write to: none if it is no hash. -/
theorem lookupWriteOrCreate_spec (h : Serves S n s M) (hn : n + 11 < 2 ^ 32) (key : Bytes) :
    M key = .other ∧ s.hashTypeLookupWriteOrCreate key = none ∨
      ∃ f o, M key = .fields f ∧ s.hashTypeLookupWriteOrCreate key = some o ∧ Holds S n o f := by
  unfold RedisServer.hashTypeLookupWriteOrCreate
  rcases stored_cases (h key) with ⟨ho, hf⟩ | ⟨ho, hf⟩ | ⟨o, f, ho, hf, -, hold⟩
  · rw [ho]
    exact Or.inr ⟨∅, createHashObject, hf, rfl, holds_create hn⟩
  · rw [ho]
    exact Or.inl ⟨hf, rfl⟩
  · rw [ho]
    exact Or.inr ⟨f, o, hf, rfl, hold⟩

theorem Serves.put (h : Serves S n s M) (key : Bytes) (hf : f ≠ ∅) (ho : Holds S n o f) :
    Serves S n (s.put key o) (Function.update M key (.fields f)) := by
  intro key'
  unfold RedisServer.put
  by_cases hkey : key' = key
  · subst hkey
    simp only [Function.update_self]
    exact ⟨hf, ho⟩
  · simp only [Function.update_of_ne hkey]
    exact h key'

/-- An object that still holds the same. -/
theorem Serves.put_same (h : Serves S n s M) (hM : M key = .fields f) (hf : f ≠ ∅) (ho : Holds S n o f) :
    Serves S n (s.put key o) M := by
  have := h.put key hf ho
  rwa [← hM, Function.update_eq_self] at this

theorem Serves.remove (h : Serves S n s M) (key : Bytes) :
    Serves S n (s.remove key) (Function.update M key (.fields ∅)) := by
  intro key'
  unfold RedisServer.remove
  by_cases hkey : key' = key
  · subst hkey
    simp only [Function.update_self]
    exact rfl
  · simp only [Function.update_of_ne hkey]
    exact h key'

/-! ## Commands that read -/

/-- **Reading a hash**, if the reply for a missing key is the one for no fields. -/
theorem onHash_spec (h : Serves S n s M) (key : Bytes) {c : Command} {missing : Reply} {g : Fields → Answer}
    {F : HashObject → Option (Reply × HashObject)} (hwrong : c.read .wrongType = .reply .wrongType)
    (hmissing : c.read missing = g ∅)
    (hF : ∀ o f, Holds S n o f → ∃ r o', F o = some (r, o') ∧ c.read r = g f ∧ Holds S n o' f) :
    ∃ r s', s.onHash key missing F = some (r, s') ∧ c.read r = (M.reads key g).1 ∧
      Serves S n s' (M.reads key g).2 := by
  unfold RedisServer.onHash Keyspace.reads
  rcases stored_cases (h key) with ⟨ho, hM⟩ | ⟨ho, hM⟩ | ⟨o, f, ho, hM, hf, hold⟩
  · rw [ho, hM]
    exact ⟨missing, s, rfl, hmissing, h⟩
  · rw [ho, hM]
    exact ⟨.wrongType, s, rfl, hwrong, h⟩
  · obtain ⟨r, o', hrun, hread, hold'⟩ := hF o f hold
    rw [ho, hM]
    refine ⟨r, s.put key o', ?_, hread, h.put_same hM hf hold'⟩
    simp only [hrun, Option.bind_eq_bind, Option.bind_some, Option.pure_def]

/-- What is done with the value of a field, whether it comes as a text or as a number. -/
theorem getValue_text {v : Option ZipValue} {s : Option Bytes} (h : v = s.map valueOf ∨ v = s.map .str) :
    v.map ZipValue.text = s ∧ v.isSome = s.isSome ∧ valueLength v = (s.getD []).length ∧
      RedisServer.oldValue v = (s.map string2ll).getD (some 0) := by
  cases s with
  | none =>
    rcases h with rfl | rfl <;> exact ⟨rfl, rfl, rfl, rfl⟩
  | some s =>
    rcases h with rfl | rfl
    · refine ⟨congrArg some (text_valueOf s), rfl, ?_, ?_⟩
      · change valueLength (some (valueOf s)) = s.length
        have htext := text_valueOf s
        cases hv : valueOf s with
        | str s' =>
          rw [hv] at htext
          rw [← htext]
          rfl
        | int v =>
          rw [hv] at htext
          rw [← htext, valueLength, ← length_ll2string]
          rfl
      · change RedisServer.oldValue (some (valueOf s)) = string2ll s
        unfold valueOf
        cases hz : zipTryEncoding s with
        | none => rfl
        | some p =>
          obtain ⟨v, e⟩ := p
          have hll : string2ll s = some v := by
            unfold zipTryEncoding at hz
            split_ifs at hz
            cases hs : string2ll s with
            | none => rw [hs] at hz; cases hz
            | some v' =>
              rw [hs] at hz
              simp only at hz
              split_ifs at hz <;> cases hz <;> rfl
          rw [hll]
          rfl
    · exact ⟨rfl, rfl, rfl, rfl⟩

/-- **Reading the value of a field**, if what is done with it does not depend on how it comes. -/
theorem onValue_spec (h : Serves S n s M) (key field : Bytes) {c : Command} (missing : Reply)
    (reply : Option ZipValue → Reply) (g : Option Bytes → Answer) (hwrong : c.read .wrongType = .reply .wrongType)
    (hmissing : c.read missing = g none)
    (hreply : ∀ v s, v = s.map valueOf ∨ v = s.map .str → c.read (reply v) = g s) :
    ∃ r s', (s.onHash key missing fun o => do
        let (value, o) ← hashTypeGetValue S o field
        return (reply value, o)) = some (r, s') ∧
      c.read r = (M.reads key fun f => g (f.lookup field)).1 ∧
      Serves S n s' (M.reads key fun f => g (f.lookup field)).2 := by
  refine onHash_spec h key hwrong (by rw [Finmap.lookup_empty]; exact hmissing) fun o f hold => ?_
  obtain ⟨v, o', hget, hold', hv⟩ := getValue_spec hold field
  refine ⟨reply v, o', ?_, hreply v _ hv, hold'⟩
  simp only [hget, Option.bind_eq_bind, Option.bind_some, Option.pure_def]

theorem getFields_spec (h : Holds S n o f) (fields : List Bytes) :
    ∃ o', RedisServer.getFields S o fields = some (fields.map fun field => f.lookup field, o') ∧
      Holds S n o' f := by
  induction fields generalizing o with
  | nil => exact ⟨o, rfl, h⟩
  | cons field fields ih =>
    obtain ⟨v, o₁, hget, hold, hv⟩ := getValue_spec h field
    obtain ⟨o₂, hrest, hold'⟩ := ih hold
    refine ⟨o₂, ?_, hold'⟩
    simp only [RedisServer.getFields, hget, Option.bind_eq_bind, Option.bind_some, hrest, Option.pure_def,
      (getValue_text hv).1, List.map_cons]

theorem readFields_insertAll (l : List (Bytes × Bytes)) (g : Fields) :
    readFields (l.flatMap fun e => [some e.1, some e.2]) g = insertAll g l := by
  induction l generalizing g with
  | nil => rfl
  | cons e l ih => exact ih (g.insert e.1 e.2)

/-- **The client reads the fields.** -/
theorem readFields_eq {l : List (Bytes × Bytes)} (h : Lists l fun field => f.lookup field) :
    readFields (l.flatMap fun e => [some e.1, some e.2]) ∅ = f := by
  rw [readFields_insertAll, h.insertAll_eq]

/-- **The reply to `HGETALL`**: fields and values in turn, in some order. -/
theorem hgetall_reply (h : Serves S n s M) (hM : M key = .fields f) :
    ∃ l s', s.hgetallCommand key = some (.multi (l.flatMap fun e => [some e.1, some e.2]), s') ∧
      Lists l (fun field => f.lookup field) ∧ Serves S n s' M := by
  unfold RedisServer.hgetallCommand RedisServer.onHash
  rcases stored_cases (h key) with ⟨ho, hM'⟩ | ⟨ho, hM'⟩ | ⟨o, f', ho, hM', hf, hold⟩
  · rw [hM'] at hM
    cases hM
    rw [ho]
    exact ⟨[], s, rfl, by simpa only [Finmap.lookup_empty] using Lists.nil, h⟩
  · rw [hM'] at hM
    cases hM
  · obtain rfl : f' = f := Content.fields.inj (hM'.symm.trans hM)
    obtain ⟨o', hlen, hold'⟩ := length_spec hold
    obtain ⟨l, hentries, hl⟩ := entries_spec hold'
    rw [ho]
    refine ⟨l, s.put key o', ?_, hl, h.put_same hM hf hold'⟩
    simp only [hlen, hentries, Option.bind_eq_bind, Option.bind_some, hl.length_eq_card, if_true, Option.pure_def]

theorem hgetall_spec (h : Serves S n s M) (key : Bytes) :
    ∃ r s', s.hgetallCommand key = some (r, s') ∧ (Command.hgetall key).read r = (M.reads key .fields).1 ∧
      Serves S n s' (M.reads key .fields).2 := by
  unfold Keyspace.reads
  cases hM : M key with
  | other =>
    have ho : s.db key = some .other := by
      rcases stored_cases (h key) with ⟨-, hM'⟩ | ⟨ho, -⟩ | ⟨-, f, -, hM', -⟩
      · rw [hM'] at hM; cases hM
      · exact ho
      · rw [hM'] at hM; cases hM
    refine ⟨.wrongType, s, ?_, rfl, h⟩
    simp only [RedisServer.hgetallCommand, RedisServer.onHash, ho]
  | fields f =>
    obtain ⟨l, s', hrun, hl, hserves⟩ := hgetall_reply h hM
    exact ⟨_, s', hrun, congrArg Answer.fields (readFields_eq hl), hserves⟩

/-! ## Commands that write -/

theorem insert_ne_empty (f : Fields) (field value : Bytes) : f.insert field value ≠ ∅ := by
  intro h
  have hfield := Finmap.lookup_insert (a := field) (b := value) f
  rw [h, Finmap.lookup_empty] at hfield
  cases hfield

theorem insertPairs_ne_empty (argv : List Bytes) (created : ℕ) (hf : f ≠ ∅) :
    (Keyspace.insertPairs f argv created).2 ≠ ∅ := by
  fun_induction Keyspace.insertPairs f argv created with
  | case1 f field value argv created ih => exact ih (insert_ne_empty f field value)
  | case2 f created argv h => exact hf

theorem setPairs_spec (canResize : Bool) (argv : List Bytes) (created : ℕ)
    (h : Holds S (n + total (fun arg => 22 + arg.length) argv) o f) :
    ∃ o', RedisServer.setPairs S canResize o argv created = some ((Keyspace.insertPairs f argv created).1, o') ∧
      Holds S n o' (Keyspace.insertPairs f argv created).2 := by
  fun_induction Keyspace.insertPairs f argv created generalizing o with
  | case1 f field value argv created ih =>
    have hcost : n + total (fun arg : Bytes => 22 + arg.length) (field :: value :: argv) =
        n + total (fun arg => 22 + arg.length) argv + (44 + field.length + value.length) := by
      simp only [total]
      omega
    rw [hcost] at h
    obtain ⟨o₁, hset, hold⟩ := set_spec canResize h
    obtain ⟨o₂, hrest, hold'⟩ := ih hold
    refine ⟨o₂, ?_, hold'⟩
    simp only [RedisServer.setPairs, hset, Option.bind_eq_bind, Option.bind_some, hrest]
  | case2 f created argv hargv =>
    refine ⟨o, ?_, h.mono⟩
    rw [RedisServer.setPairs]
    exact hargv

theorem hset_spec (h : Serves S (n + total (fun arg => 22 + arg.length) argv) s M)
    (hn : n + total (fun arg => 22 + arg.length) argv + 11 < 2 ^ 32) (key : Bytes) (hargv : 2 ≤ argv.length)
    (reply : ℕ → Reply) :
    ∃ s', s.hsetCommand S key argv reply = some ((M.hset key argv reply).1, s') ∧
      Serves S n s' (M.hset key argv reply).2 := by
  unfold RedisServer.hsetCommand Keyspace.hset
  by_cases hodd : argv.length % 2 = 1
  · rw [if_pos hodd, if_pos hodd]
    exact ⟨s, rfl, h.mono⟩
  rw [if_neg hodd, if_neg hodd]
  rcases lookupWriteOrCreate_spec h hn key with ⟨hM, ho⟩ | ⟨f, o, hM, ho, hold⟩
  · rw [hM, ho]
    exact ⟨s, rfl, h.mono⟩
  · obtain ⟨o₁, htry, hold₁⟩ := tryConversion_spec s.canResize hold argv
    obtain ⟨o₂, hset, hold₂⟩ := setPairs_spec s.canResize argv 0 hold₁
    rw [hM, ho]
    refine ⟨s.put key o₂, ?_, h.mono.put key ?_ hold₂⟩
    · simp only [htry, hset, Option.bind_eq_bind, Option.bind_some, Option.pure_def]
    · -- there is a field to set
      obtain ⟨field, value, rest, rfl⟩ : ∃ field value rest, argv = field :: value :: rest := by
        cases argv with
        | nil => exact absurd hargv (by decide)
        | cons field argv =>
          cases argv with
          | nil => exact absurd hargv (by decide : ¬2 ≤ 1)
          | cons value rest => exact ⟨field, value, rest, rfl⟩
      exact insertPairs_ne_empty rest _ (insert_ne_empty f field value)

theorem hsetnx_spec (h : Serves S (n + (44 + field.length + value.length)) s M)
    (hn : n + (44 + field.length + value.length) + 11 < 2 ^ 32) (key : Bytes) :
    ∃ s', s.hsetnxCommand S key field value = some ((M.hsetnx key field value).1, s') ∧
      Serves S n s' (M.hsetnx key field value).2 := by
  unfold RedisServer.hsetnxCommand Keyspace.hsetnx
  rcases lookupWriteOrCreate_spec h hn key with ⟨hM, ho⟩ | ⟨f, o, hM, ho, hold⟩
  · rw [hM, ho]
    exact ⟨s, rfl, h.mono⟩
  · obtain ⟨o₁, htry, hold₁⟩ := tryConversion_spec s.canResize hold [field, value]
    obtain ⟨v, o₂, hget, hold₂, hv⟩ := getValue_spec hold₁ field
    obtain ⟨o₃, hset, hold₃⟩ := set_spec s.canResize hold₂
    have hsome := (getValue_text hv).2.1
    rw [hM, ho]
    simp only [htry, hget, hset, hsome, Option.bind_eq_bind, Option.bind_some, Option.pure_def]
    cases hfield : f.lookup field with
    | none => exact ⟨s.put key o₃, rfl, h.mono.put key (insert_ne_empty f field value) hold₃⟩
    | some old =>
      have hf : f ≠ ∅ := by
        rintro rfl
        rw [Finmap.lookup_empty] at hfield
        cases hfield
      exact ⟨s.put key o₂, rfl, h.mono.put_same hM hf hold₂.mono⟩

/-- `HSET` and `HMSET`, which need a field and a value at least. -/
theorem hset_arity_spec (h : Serves S (n + total (fun arg => 22 + arg.length) (key :: argv)) s M)
    (hn : n + total (fun arg => 22 + arg.length) (key :: argv) + 11 < 2 ^ 32) (wrong : Reply)
    (reply : ℕ → Reply) :
    ∃ s', (if argv.length < 2 then some (wrong, s) else s.hsetCommand S key argv reply) =
        some ((if argv.length < 2 then (wrong, M) else M.hset key argv reply).1, s') ∧
      Serves S n s' (if argv.length < 2 then (wrong, M) else M.hset key argv reply).2 := by
  by_cases hfew : argv.length < 2
  · rw [if_pos hfew, if_pos hfew]
    exact ⟨s, rfl, h.mono⟩
  · rw [if_neg hfew, if_neg hfew]
    -- the key takes no room
    have hcost : n + total (fun arg => 22 + arg.length) (key :: argv) =
        n + total (fun arg => 22 + arg.length) argv + (22 + key.length) := by
      simp only [total]
      omega
    rw [hcost] at h hn
    exact hset_spec h.mono (by omega) key (by omega) reply

/-- The overflow check of `HINCRBY` is a check of the range. -/
theorem overflow_iff {old incr : ℤ} (h1 : -2 ^ 63 ≤ old) (h2 : old < 2 ^ 63) (h3 : -2 ^ 63 ≤ incr)
    (h4 : incr < 2 ^ 63) :
    (incr < 0 ∧ old < 0 ∧ incr < -2 ^ 63 - old ∨ 0 < incr ∧ 0 < old ∧ 2 ^ 63 - 1 - old < incr) ↔
      ¬(-2 ^ 63 ≤ old + incr ∧ old + incr < 2 ^ 63) := by
  omega

theorem hincrby_spec (h : Serves S (n + (44 + field.length + 20)) s M)
    (hn : n + (44 + field.length + 20) + 11 < 2 ^ 32) (key incr : Bytes) :
    ∃ s', s.hincrbyCommand S key field incr = some ((M.hincrby key field incr).1, s') ∧
      Serves S n s' (M.hincrby key field incr).2 := by
  unfold RedisServer.hincrbyCommand Keyspace.hincrby
  cases hincr : string2ll incr with
  | none => exact ⟨s, rfl, h.mono⟩
  | some i =>
    obtain ⟨-, hi1, hi2⟩ := text_of_string2ll hincr
    rcases lookupWriteOrCreate_spec h hn key with ⟨hM, ho⟩ | ⟨f, o, hM, ho, hold⟩
    · simp only [hM, ho]
      exact ⟨s, rfl, h.mono⟩
    · obtain ⟨v, o₁, hget, hold₁, hv⟩ := getValue_spec hold field
      have hold' := (getValue_text hv).2.2.2
      -- of a hash that has just been created, the old value is 0
      have hempty : f = ∅ → ((f.lookup field).map string2ll).getD (some 0) = some 0 := by
        rintro rfl
        rw [Finmap.lookup_empty]
        rfl
      simp only [hM, ho, hget, hold', Option.bind_eq_bind, Option.bind_some]
      cases hold : ((f.lookup field).map string2ll).getD (some 0) with
      | none =>
        refine ⟨s.put key o₁, rfl, h.mono.put_same hM (fun hf => ?_) hold₁.mono⟩
        rw [hempty hf] at hold
        cases hold
      | some x =>
        have hx : -2 ^ 63 ≤ x ∧ x < 2 ^ 63 := by
          cases hfield : f.lookup field with
          | none =>
            rw [hfield] at hold
            cases hold
            decide
          | some old =>
            rw [hfield] at hold
            exact (text_of_string2ll hold).2
        have hiff := overflow_iff hx.1 hx.2 hi1 hi2
        by_cases hrange : -2 ^ 63 ≤ x + i ∧ x + i < 2 ^ 63
        · have hlen := length_ll2string_le hrange.1 hrange.2
          have hroom : Holds S (n + (44 + field.length + (ll2string (x + i)).length)) o₁ f := by
            refine Holds.mono (k := 20 - (ll2string (x + i)).length) ?_
            rw [show n + (44 + field.length + (ll2string (x + i)).length) + (20 - (ll2string (x + i)).length) =
              n + (44 + field.length + 20) by omega]
            exact hold₁
          obtain ⟨o₂, hset, hold₂⟩ := set_spec s.canResize hroom
          simp only [if_neg (fun hover => hiff.1 hover hrange), if_pos hrange, sdsfromlonglong_eq, hset,
            Option.bind_some, Option.pure_def]
          exact ⟨s.put key o₂, rfl, h.mono.put key (insert_ne_empty f field _) hold₂⟩
        · simp only [if_pos (hiff.2 hrange), if_neg hrange, Option.pure_def]
          refine ⟨s.put key o₁, rfl, h.mono.put_same hM (fun hf => hrange ?_) hold₁.mono⟩
          rw [hempty hf] at hold
          cases hold
          omega

theorem eraseFields_empty (fields : List Bytes) (deleted : ℕ) :
    Keyspace.eraseFields ∅ fields deleted = (deleted, ∅) := by
  induction fields with
  | nil => rfl
  | cons field fields ih =>
    have herase : (∅ : Fields).erase field = ∅ := rfl
    rw [Keyspace.eraseFields, Finmap.lookup_empty, herase]
    exact ih

theorem erase_eq_self (h : f.lookup field = none) : f.erase field = f := by
  refine Finmap.ext_lookup fun k => ?_
  have hlookup := congrFun (lookup_erase_eq f field) k
  rwa [← h, Function.update_eq_self] at hlookup

theorem card_keys_eq_zero_iff : f.keys.card = 0 ↔ f = ∅ := by
  constructor
  · intro h
    refine Finmap.ext_lookup fun k => ?_
    rw [Finmap.lookup_empty, Finmap.lookup_eq_none, ← Finmap.mem_keys, Finset.card_eq_zero.1 h]
    exact Finset.notMem_empty k
  · rintro rfl
    rfl

/-- The loop of `HDEL` stops when the hash is empty; nothing is left to delete then. -/
theorem deleteFields_spec (canResize : Bool) (fields : List Bytes) (deleted : ℕ) (h : Holds S n o f)
    (hf : f ≠ ∅) :
    ∃ o', RedisServer.deleteFields S canResize o fields deleted =
        some ((Keyspace.eraseFields f fields deleted).1, o') ∧
      match o' with
      | none => (Keyspace.eraseFields f fields deleted).2 = ∅
      | some o' =>
        (Keyspace.eraseFields f fields deleted).2 ≠ ∅ ∧
          Holds S n o' (Keyspace.eraseFields f fields deleted).2 := by
  induction fields generalizing o f deleted with
  | nil => exact ⟨some o, rfl, hf, h⟩
  | cons field fields ih =>
    obtain ⟨o₁, hdel, hold₁⟩ := hashDelete_spec canResize h field
    rw [Keyspace.eraseFields]
    simp only [RedisServer.deleteFields, hdel, Option.bind_eq_bind, Option.bind_some]
    cases hfield : (f.lookup field).isSome with
    | false =>
      have hnone : f.lookup field = none := Option.isSome_eq_false_iff.1 hfield |> Option.isNone_iff_eq_none.1
      rw [erase_eq_self hnone] at hold₁ ⊢
      exact ih deleted hold₁ hf
    | true =>
      obtain ⟨o₂, hlen, hold₂⟩ := length_spec hold₁
      simp only [hlen, Option.bind_some, if_true]
      cases hcard : (f.erase field).keys.card with
      | zero =>
        rw [card_keys_eq_zero_iff.1 hcard, eraseFields_empty]
        exact ⟨none, rfl, rfl⟩
      | succ k =>
        refine ih (deleted + 1) hold₂ fun hempty => ?_
        rw [card_keys_eq_zero_iff.2 hempty] at hcard
        cases hcard

theorem hdel_spec (h : Serves S n s M) (key : Bytes) (fields : List Bytes) :
    ∃ s', s.hdelCommand S key fields = some ((M.hdel key fields).1, s') ∧
      Serves S n s' (M.hdel key fields).2 := by
  unfold RedisServer.hdelCommand Keyspace.hdel
  rcases stored_cases (h key) with ⟨ho, hM⟩ | ⟨ho, hM⟩ | ⟨o, f, ho, hM, hf, hold⟩
  · refine ⟨s, ?_, ?_⟩
    · simp only [ho, hM, eraseFields_empty]
      rfl
    · simp only [hM, eraseFields_empty]
      rw [← hM, Function.update_eq_self]
      exact h
  · rw [ho, hM]
    exact ⟨s, rfl, h⟩
  · obtain ⟨o', hdel, hold'⟩ := deleteFields_spec s.canResize fields 0 hold hf
    simp only [ho, hM, hdel, Option.bind_eq_bind, Option.bind_some]
    cases o' with
    | none =>
      rw [show (Keyspace.eraseFields f fields 0).2 = ∅ from hold']
      exact ⟨s.remove key, rfl, h.remove key⟩
    | some o' => exact ⟨s.put key o', rfl, h.put key hold'.1 hold'.2⟩

theorem isSome_db_iff (h : Serves S n s M) (key : Bytes) : (s.db key).isSome = M.has key := by
  unfold Keyspace.has
  rcases stored_cases (h key) with ⟨ho, hM⟩ | ⟨ho, hM⟩ | ⟨o, f, ho, hM, hf, -⟩
  · rw [ho, hM]
    decide
  · rw [ho, hM]
    rfl
  · rw [ho, hM]
    have hne : Content.fields f ≠ .fields ∅ := fun hcontent => hf (Content.fields.inj hcontent)
    simp only [hne, ne_eq, not_false_eq_true, decide_true, Option.isSome_some]

theorem delKeys_spec (h : Serves S n s M) (keys : List Bytes) (deleted : ℕ) :
    (s.delKeys keys deleted).1 = (M.delKeys keys deleted).1 ∧
      Serves S n (s.delKeys keys deleted).2 (M.delKeys keys deleted).2 := by
  induction keys generalizing s M deleted with
  | nil => exact ⟨rfl, h⟩
  | cons key keys ih =>
    rw [RedisServer.delKeys, Keyspace.delKeys, isSome_db_iff h]
    exact ih (h.remove key) _

/-! ## Runs -/

/-- The server serves the maps, and there is still room for `n` bytes. -/
def ServesFor (S : Settings) (n : ℕ) (s : RedisServer) (M : Keyspace) : Prop :=
  n + 11 < 2 ^ 32 ∧ Serves S n s M

/-- A command that has been executed as its specification says. -/
theorem ServesFor.step {c : Command} (hn : n + 11 < 2 ^ 32)
    (h : ∃ r s', s.execute S c = some (r, s') ∧ c.read r = (c.spec M).1 ∧ Serves S n s' (c.spec M).2) :
    ∃ s', c.run S s = some ((c.spec M).1, s') ∧ ServesFor S n s' (c.spec M).2 := by
  obtain ⟨r, s', hrun, hread, hserves⟩ := h
  refine ⟨s', ?_, hn, hserves⟩
  simp only [Command.run, hrun, hread, Option.bind_eq_bind, Option.bind_some, Option.pure_def]

/-- **Every command to the server is one on the maps.** -/
theorem server_refines (S : Settings) : RefinesFor Command.cost (ServesFor S) (Command.run S) Command.spec := by
  intro n c s M h
  obtain ⟨hn, hs⟩ := h
  refine ServesFor.step (Nat.lt_of_le_of_lt (Nat.add_le_add_right (Nat.le_add_right n _) 11) hn) ?_
  have hs' : Serves S n s M := hs.mono
  cases c with
  | hset argv =>
    cases argv with
    | nil => exact ⟨_, s, rfl, rfl, hs'⟩
    | cons key argv =>
      obtain ⟨s', hrun, hserves⟩ :=
        hset_arity_spec hs hn (RedisServer.wrongArity "hset") fun created => .integer created
      exact ⟨_, s', hrun, rfl, hserves⟩
  | hmset argv =>
    cases argv with
    | nil => exact ⟨_, s, rfl, rfl, hs'⟩
    | cons key argv =>
      obtain ⟨s', hrun, hserves⟩ := hset_arity_spec hs hn (RedisServer.wrongArity "hmset") fun _ => .ok
      exact ⟨_, s', hrun, rfl, hserves⟩
  | hsetnx key field value =>
    obtain ⟨s', hrun, hserves⟩ := hsetnx_spec hs hn key
    exact ⟨_, s', hrun, rfl, hserves⟩
  | hincrby key field incr =>
    obtain ⟨s', hrun, hserves⟩ := hincrby_spec hs hn key incr
    exact ⟨_, s', hrun, rfl, hserves⟩
  | hget key field =>
    refine onHash_spec hs' key rfl (by rw [Finmap.lookup_empty]; rfl) fun o f hold => ?_
    obtain ⟨v, o', hget, hold', hv⟩ := getValue_spec hold field
    refine ⟨_, o', by simp only [hget, Option.bind_eq_bind, Option.bind_some, Option.pure_def]; rfl, ?_, hold'⟩
    rw [← (getValue_text hv).1]
    cases v <;> rfl
  | hmget key fields =>
    simp only [RedisServer.execute, Command.spec]
    by_cases hnil : fields = []
    · rw [if_pos hnil, if_pos hnil]
      exact ⟨_, s, rfl, rfl, hs'⟩
    · rw [if_neg hnil, if_neg hnil]
      refine onHash_spec hs' key rfl (by simp only [Finmap.lookup_empty]; rfl) fun o f hold => ?_
      obtain ⟨o', hget, hold'⟩ := getFields_spec hold fields
      exact ⟨_, o', by simp only [hget, Option.bind_eq_bind, Option.bind_some, Option.pure_def], rfl, hold'⟩
  | hdel key fields =>
    simp only [RedisServer.execute, Command.spec]
    by_cases hnil : fields = []
    · rw [if_pos hnil, if_pos hnil]
      exact ⟨_, s, rfl, rfl, hs'⟩
    · rw [if_neg hnil, if_neg hnil]
      obtain ⟨s', hrun, hserves⟩ := hdel_spec hs' key fields
      exact ⟨_, s', hrun, rfl, hserves⟩
  | hlen key =>
    refine onHash_spec hs' key rfl rfl fun o f hold => ?_
    obtain ⟨o', hlen, hold'⟩ := length_spec hold
    exact ⟨_, o', by simp only [hlen, Option.bind_eq_bind, Option.bind_some, Option.pure_def], rfl, hold'⟩
  | hstrlen key field =>
    refine onValue_spec (c := .hstrlen key field) hs' key field (.integer 0) (fun v => .integer (valueLength v))
      (fun o => .reply (.integer (o.getD []).length)) rfl rfl fun v s hv => ?_
    rw [(getValue_text hv).2.2.1]
    rfl
  | hexists key field =>
    refine onValue_spec (c := .hexists key field) hs' key field (.integer 0)
      (fun v => .integer (if v.isSome then 1 else 0)) (fun o => .reply (.integer (if o.isSome then 1 else 0)))
      rfl rfl fun v s hv => ?_
    rw [(getValue_text hv).2.1]
    rfl
  | hgetall key => exact hgetall_spec hs' key
  | «exists» keys =>
    simp only [RedisServer.execute, Command.spec]
    by_cases hnil : keys = []
    · rw [if_pos hnil, if_pos hnil]
      exact ⟨_, s, rfl, rfl, hs'⟩
    · rw [if_neg hnil, if_neg hnil]
      refine ⟨_, s, rfl, ?_, hs'⟩
      have hcount : s.countKeys keys = keys.countP M.has :=
        congrArg (fun p => keys.countP p) (funext fun key => isSome_db_iff hs' key)
      rw [hcount]
      rfl
  | del keys =>
    simp only [RedisServer.execute, Command.spec]
    by_cases hnil : keys = []
    · rw [if_pos hnil, if_pos hnil]
      exact ⟨_, s, rfl, rfl, hs'⟩
    · rw [if_neg hnil, if_neg hnil]
      obtain ⟨hcount, hserves⟩ := delKeys_spec hs' keys 0
      exact ⟨_, _, rfl, by rw [hcount]; rfl, hserves⟩
  | updateDictResizePolicy canResize => exact ⟨_, _, rfl, rfl, hs'⟩

/-- A server that has just been started, with objects that are no hashes under some keys. -/
def RedisServer.start (others : Bytes → Bool) : RedisServer :=
  ⟨fun key => if others key then some .other else none, true⟩

def Keyspace.start (others : Bytes → Bool) : Keyspace := fun key => if others key then .other else .fields ∅

/-- **The server keeps maps.** Whatever commands are sent, in whichever encoding a hash is at the
time and while dicts are rehashed, the answers are those of maps under the keys; no assertion
of the hash type, of a ziplist or of a dict fails, and the server does not find its own ziplists
corrupt. The arguments together are shorter than four gigabytes. -/
theorem server_refines_maps (S : Settings) (others : Bytes → Bool) (commands : List Command)
    (hsize : 11 + total Command.cost commands < 2 ^ 32) :
    ∃ s, runAll (Command.run S) commands (.start others) =
      some (answers Command.spec commands (.start others), s) := by
  have hstart : ServesFor S (0 + total Command.cost commands) (.start others) (.start others) := by
    refine ⟨by omega, fun key => ?_⟩
    simp only [RedisServer.start, Keyspace.start]
    cases others key with
    | false => exact rfl
    | true => exact trivial
  obtain ⟨s, hrun, -⟩ := (server_refines S).run commands hstart
  exact ⟨s, hrun⟩

/-- A hash that becomes a dict when it gets a third field, a counter, and a key of another type. -/
theorem server_refines_maps_converted :
    let S : Settings := ⟨2, 64, fun field => UInt64.ofNat field.length⟩
    let others : Bytes → Bool := fun key => key == [120]
    let commands : List Command := [.hmset [[104], [97], [49], [98], [50]], .hset [[104], [99], [51]],
      .hincrby [104] [97] [45, 55], .hgetall [104], .hset [[120], [97], [49]], .hdel [104] [[97], [98], [99]],
      .exists [[104], [120]]]
    ∃ s, runAll (Command.run S) commands (.start others) =
      some (answers Command.spec commands (.start others), s) :=
  server_refines_maps _ _ _ (by decide +kernel)

end Coms4111.Server
