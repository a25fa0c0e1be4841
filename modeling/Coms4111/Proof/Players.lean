import Coms4111.Spec.Players
import Coms4111.Store.ReadThrough

/-!
# The cache in front of MySQL

`find_by_id` is a read-through cache (`findById_simulates`) in front of `load`, which fails
where `hmset` does: on the empty map, which stands for a player that is not there, and on a
`NULL` column.

* `cache_transparent_iff`: with the database fixed, a run of calls returns what
  `find_mysql_by_id` returns **exactly when** every id has a row without `NULL`s.
  `absent_player_throws` is a call for a player that is not there.
* `run_alone`: with no updates in between, the steps of a call that misses are the call.
* `returned_is_cached_iff`: the miss path queries twice. While other sessions update the
  row, the caller gets what is cached **exactly when** the updates that fall between the two
  queries leave the columns as they were. `update_between_queries` is one that does not.
-/

namespace Coms4111.Players

open Sql

variable {D : Type} {M : Mysql D} {id : Text} {d : D} {r : Redis}

/-! ## Rows as maps -/

/-- No column is `NULL`. -/
structure Row.Complete (row : Row) : Prop where
  playerID : row.playerID ≠ none
  nameLast : row.nameLast ≠ none
  nameFirst : row.nameFirst ≠ none
  birthYear : row.birthYear ≠ none
  birthCountry : row.birthCountry ≠ none

/-- The column that a field of the map comes from. -/
def Row.column (row : Row) (field : Text) : Option (Option Text) :=
  if field = "birthCountry".toList then some row.birthCountry
  else if field = "birthYear".toList then some row.birthYear
  else if field = "nameFirst".toList then some row.nameFirst
  else if field = "nameLast".toList then some row.nameLast
  else if field = "playerID".toList then some row.playerID
  else none

theorem lookup_toMap (row : Row) (field : Text) : row.toMap.lookup field = row.column field := by
  have hinsert : ∀ (m : JMap) (a b : Text) (v : Option Text),
      (m.insert a v).lookup b = if b = a then some v else m.lookup b := by
    intro m a b v
    by_cases h : b = a
    · subst h; rw [if_pos rfl, Finmap.lookup_insert]
    · rw [if_neg h, Finmap.lookup_insert_of_ne _ h]
  simp only [Row.toMap, Row.column, hinsert, Finmap.lookup_empty]

theorem toMap_ne_empty (row : Row) : row.toMap ≠ ∅ := by
  intro h
  have hl := lookup_toMap row "playerID".toList
  rw [h, Finmap.lookup_empty] at hl
  cases hl

theorem toMap_inj {row row' : Row} (h : row.toMap = row'.toMap) : row = row' := by
  have hcol : ∀ field, row.column field = row'.column field := by
    intro field
    rw [← lookup_toMap, ← lookup_toMap, h]
  have h1 := Option.some.inj (hcol "playerID".toList)
  have h2 := Option.some.inj (hcol "nameLast".toList)
  have h3 := Option.some.inj (hcol "nameFirst".toList)
  have h4 := Option.some.inj (hcol "birthYear".toList)
  have h5 := Option.some.inj (hcol "birthCountry".toList)
  cases row
  cases row'
  simp only [Row.mk.injEq]
  exact ⟨h1, h2, h3, h4, h5⟩

/-- A `NULL` column is a `null` value. -/
theorem toMap_null_iff (row : Row) :
    (∃ field ∈ row.toMap.keys, row.toMap.lookup field = some none) ↔ ¬row.Complete := by
  have hkeys : (∃ field ∈ row.toMap.keys, row.toMap.lookup field = some none) ↔
      ∃ field, row.column field = some none := by
    constructor
    · rintro ⟨field, -, h⟩
      exact ⟨field, by rw [← lookup_toMap]; exact h⟩
    · rintro ⟨field, h⟩
      rw [← lookup_toMap] at h
      exact ⟨field, Finmap.mem_keys.2 (Finmap.mem_of_lookup_eq_some h), h⟩
  rw [hkeys]
  constructor
  · rintro ⟨field, h⟩ hc
    unfold Row.column at h
    split_ifs at h
    · exact hc.birthCountry (Option.some.inj h)
    · exact hc.birthYear (Option.some.inj h)
    · exact hc.nameFirst (Option.some.inj h)
    · exact hc.nameLast (Option.some.inj h)
    · exact hc.playerID (Option.some.inj h)
  · intro hc
    by_contra hno
    push Not at hno
    have hne : ∀ field v, row.column field = some v → v ≠ none := by
      rintro field v hv rfl
      exact hno field hv
    exact hc ⟨hne "playerID".toList _ rfl, hne "nameLast".toList _ rfl, hne "nameFirst".toList _ rfl,
      hne "birthYear".toList _ rfl, hne "birthCountry".toList _ rfl⟩

/-! ## The cache -/

variable (M) in
/-- The query for the id finds a row, and none of its columns is `NULL`. -/
def Complete (id : Text) (d : D) : Prop := ∃ row, selectRow M id d = .ok row ∧ row.Complete

/-- What `hmset` makes of a map. -/
def storable (hash : JMap) : Except JedisException JMap :=
  if hash = ∅ then .error .wrongNumberOfArguments
  else if ∃ field ∈ hash.keys, hash.lookup field = some none then .error .nullValue
  else .ok hash

theorem hmset_eq (r : Redis) (key : Text) (hash : JMap) :
    r.hmset key hash = (storable hash).map fun h => Function.update r key (h ∪ r key) := by
  unfold Redis.hmset storable
  split_ifs <;> rfl

theorem storable_eq_ok {hash h : JMap} : storable hash = .ok h ↔
    h = hash ∧ hash ≠ ∅ ∧ ¬∃ field ∈ hash.keys, hash.lookup field = some none := by
  unfold storable
  split_ifs with h1 h2
  · simp [h1]
  · simp only [h2, not_true_eq_false, and_false]
  · simp only [Except.ok.injEq, Ne, h1, h2, not_false_eq_true, and_true]
    exact eq_comm

variable (M) in
/-- What the miss path gives. -/
def load (d : D) (id : Text) : Except JedisException JMap := storable (findMysqlById M id d)

theorem load_eq_ok_iff {m : JMap} : load M d id = .ok m ↔ m = findMysqlById M id d ∧ Complete M id d := by
  unfold load
  rw [storable_eq_ok]
  refine and_congr_right fun _ => ?_
  unfold findMysqlById Complete
  cases hrow : selectRow M id d with
  | error e => simp
  | ok row =>
    simp only [toMap_null_iff, not_not, Ne, toMap_ne_empty, not_false_eq_true, true_and, Except.ok.injEq,
      exists_eq_left']

theorem playerKey_inj {id id' : Text} (h : playerKey id = playerKey id') : id = id' := List.append_cancel_left h

/-- Redis holds the cache `c`: the maps that are kept, under their players' keys. -/
def Holds (r : Redis) (c : Text → Option JMap) : Prop :=
  ∀ id, (c id = none → r (playerKey id) = ∅) ∧ ∀ m, c id = some m → r (playerKey id) = m ∧ m ≠ ∅

theorem Holds.update {c : Text → Option JMap} (h : Holds r c) (id : Text) {m : JMap} (hm : m ≠ ∅) :
    Holds (Function.update r (playerKey id) m) (Function.update c id (some m)) := by
  intro id'
  by_cases hid : id' = id
  · subst hid
    rw [Function.update_self, Function.update_self]
    refine ⟨nofun, ?_⟩
    intro m' hm'
    cases hm'
    exact ⟨rfl, hm⟩
  · rw [Function.update_of_ne hid, Function.update_of_ne fun hk => hid (playerKey_inj hk)]
    exact h id'

/-- **`find_by_id` is a read-through cache** in front of `load`. -/
theorem findById_simulates (M : Mysql D) (d : D) :
    Store.Simulates Holds (findById M d) (Store.fetch (load M d)) := by
  intro id r c hR
  unfold findById Store.fetch findRedisById Redis.hgetAll
  cases hc : c id with
  | some m =>
    obtain ⟨hkey, hm⟩ := (hR id).2 m hc
    simp only [hkey, if_neg hm]
    exact ⟨trivial, hR⟩
  | none =>
    have hkey := (hR id).1 hc
    simp only [hkey, if_true]
    unfold addToRedis
    rw [hmset_eq]
    cases hl : load M d id with
    | error e =>
      rw [show storable (findMysqlById M id d) = .error e from hl]
      exact ⟨rfl, hR⟩
    | ok m =>
      obtain ⟨rfl, hm, -⟩ := storable_eq_ok.1 hl
      rw [show storable (findMysqlById M id d) = .ok _ from hl]
      simp only [Except.map, hkey, Finmap.union_empty, true_and]
      exact hR.update id hm

/-- **When the cache is transparent.** From a Redis without players, every call of a run
returns what `find_mysql_by_id` returns exactly when every id asked for has a row without
`NULL`s. -/
theorem cache_transparent_iff (M : Mysql D) (d : D) {r : Redis} (hr : ∀ id, r (playerKey id) = ∅)
    (ids : List Text) :
    Store.answers (findById M d) ids r = ids.map (fun id => .ok (findMysqlById M id d)) ↔
      ∀ id ∈ ids, Complete M id d := by
  have hstart : Holds r fun _ => none := fun id => ⟨fun _ => hr id, nofun⟩
  have hcoherent : Store.Coherent (load M d) fun _ => none := nofun
  rw [Store.answers_eq_of_simulates (findById_simulates M d) ids hstart, Store.answers_fetch hcoherent,
    List.map_inj_left]
  refine forall₂_congr fun id _ => ?_
  rw [load_eq_ok_iff, and_iff_right rfl]

/-- A MySQL that knows the queries of the code, for ids without quotes, and a table. -/
def tableMysql : Mysql (List Row) where
  executeQuery text rows := .ok (rows.filter fun row => row.playerID.any fun p => text == selectById p)

/-- The player that the code looks up, born in `country`. -/
def player (country : Option Text) : Row :=
  ⟨some "napolmi01".toList, some "last".toList, some "first".toList, some "1981".toList, country⟩

theorem selectRow_player (country : Option Text) :
    selectRow tableMysql "napolmi01".toList [player country] = .ok (player country) := rfl

theorem complete_player (country : Text) : Complete tableMysql "napolmi01".toList [player (some country)] :=
  ⟨_, selectRow_player _, ⟨nofun, nofun, nofun, nofun, nofun⟩⟩

theorem cache_transparent_two_calls :
    let ids := ["napolmi01".toList, "napolmi01".toList]
    let d := [player (some "USA".toList)]
    Store.answers (findById tableMysql d) ids (fun _ => ∅) = ids.map fun id =>
      .ok (findMysqlById tableMysql id d) := by
  refine (cache_transparent_iff tableMysql _ (fun _ => rfl) _).2 ?_
  intro id hid
  rw [show id = "napolmi01".toList by simpa using hid]
  exact complete_player _

/-- A player that is not there: `find_mysql_by_id` returns the empty map, and the call
throws. -/
theorem absent_player_throws :
    let d := [player (some "USA".toList)]
    findMysqlById tableMysql "nobody01".toList d = ∅ ∧
      Store.answers (findById tableMysql d) ["nobody01".toList] (fun _ => ∅) =
        [.error .wrongNumberOfArguments] := by
  decide +kernel

/-! ## The miss path among updates -/

/-- With no update in between, the four steps of a call that misses are the call. -/
theorem run_alone (M : Mysql D) (id : Text) (d : D) (r : Redis) :
    let w := World.run M id ⟨d, r, .start⟩ [.call, .call, .call, .call]
    (w.call, w.redis) = match findById M d id r with
      | (.ok result, r') => (.returned result, r')
      | (.error e, r') => (.thrown e, r') := by
  simp only [World.run, List.foldl_cons, List.foldl_nil, World.step, Progress.step, findById]
  by_cases h : findRedisById id r = ∅
  · simp only [h, if_true]
    cases addToRedis id (findMysqlById M id d) r <;> rfl
  · simp only [h, if_false]

/-- The event is a step of the call. -/
def Event.isCall : Event D → Bool
  | .call => true
  | .update _ => false

/-- The database as the call finds it at its `n`-th step, counted from 0. -/
def dbAt : ℕ → D → List (Event D) → Option D
  | _, _, [] => none
  | 0, d, .call :: _ => some d
  | n + 1, d, .call :: events => dbAt n d events
  | n, _, .update d :: events => dbAt n d events

/-- **Up to the next step of the call** only the database changes. -/
theorem run_next (id : Text) {n : ℕ} {events : List (Event D)} (hn : n + 1 ≤ events.countP Event.isCall)
    (w : World D) : ∃ d rest, dbAt 0 w.db events = some d ∧ (∀ m, dbAt (m + 1) w.db events = dbAt m d rest) ∧
      n ≤ rest.countP Event.isCall ∧ rest ⊆ events ∧ (d = w.db ∨ .update d ∈ events) ∧
      w.run M id events = (World.step M id { w with db := d } .call).run M id rest := by
  induction events generalizing w with
  | nil => simp at hn
  | cons e events ih =>
    cases e with
    | call =>
      rw [List.countP_cons_of_pos rfl] at hn
      exact ⟨w.db, events, rfl, fun _ => rfl, by omega, List.subset_cons_self _ _, .inl rfl, rfl⟩
    | update d' =>
      rw [List.countP_cons_of_neg (by simp [Event.isCall])] at hn
      obtain ⟨d, rest, h0, hm, hcount, hsub, hd, hrun⟩ := ih hn { w with db := d' }
      refine ⟨d, rest, ?_, ?_, hcount, fun x hx => List.mem_cons_of_mem _ (hsub hx), ?_, hrun⟩
      · simpa only [dbAt] using h0
      · intro m
        simpa only [dbAt] using hm m
      · rcases hd with rfl | hd
        · exact .inr List.mem_cons_self
        · exact .inr (List.mem_cons_of_mem _ hd)

/-- A call that has returned stays as it is. -/
theorem run_returned (id : Text) (result : JMap) (events : List (Event D)) (d : D) (r : Redis) :
    ∃ d', World.run M id ⟨d, r, .returned result⟩ events = ⟨d', r, .returned result⟩ := by
  induction events generalizing d with
  | nil => exact ⟨d, rfl⟩
  | cons e events ih =>
    cases e with
    | call => exact ih d
    | update d' => exact ih d'

theorem findMysqlById_eq_iff {d' : D} (h : Complete M id d) (h' : Complete M id d') :
    findMysqlById M id d = findMysqlById M id d' ↔ selectRow M id d = selectRow M id d' := by
  obtain ⟨row, hrow, -⟩ := h
  obtain ⟨row', hrow', -⟩ := h'
  simp only [findMysqlById, hrow, hrow', Except.ok.injEq]
  exact ⟨toMap_inj, congrArg Row.toMap⟩

/-- The write of a call that has missed. -/
theorem addToRedis_complete (h : Complete M id d) (hmiss : findRedisById id r = ∅) :
    ∃ r', addToRedis id (findMysqlById M id d) r = .ok r' ∧ findRedisById id r' = findMysqlById M id d := by
  have hl : load M d id = .ok (findMysqlById M id d) := load_eq_ok_iff.2 ⟨rfl, h⟩
  unfold addToRedis
  rw [hmset_eq, show storable (findMysqlById M id d) = .ok _ from hl]
  refine ⟨_, rfl, ?_⟩
  unfold findRedisById Redis.hgetAll at hmiss ⊢
  simp only [Function.update_self, hmiss, Finmap.union_empty]

/-- The updates that fall between the two queries leave the columns of the row as they
were. -/
def Unchanged (M : Mysql D) (id : Text) (d : D) (events : List (Event D)) : Prop :=
  (dbAt 1 d events).map (selectRow M id) = (dbAt 2 d events).map (selectRow M id)

/-- **When the caller gets what is cached.** In every interleaving of a call that misses
with updates that leave the id a row without `NULL`s, the map that the call returns is the
map that it stores exactly when the row is the same at its two queries. -/
theorem returned_is_cached_iff (M : Mysql D) (id : Text) {d : D} {r : Redis} (hmiss : findRedisById id r = ∅)
    (hd : Complete M id d) {events : List (Event D)} (hupdates : ∀ d', .update d' ∈ events → Complete M id d')
    (hfour : 4 ≤ events.countP Event.isCall) :
    (∃ result, (World.run M id ⟨d, r, .start⟩ events).call = .returned result ∧
      findRedisById id (World.run M id ⟨d, r, .start⟩ events).redis = result) ↔ Unchanged M id d events := by
  obtain ⟨d₀, events₁, -, hat₀, hn, hsub₁, h₀, hrun⟩ := run_next (M := M) id hfour ⟨d, r, .start⟩
  obtain ⟨d₁, events₂, hd₁, hat₁, hn, hsub₂, h₁, hrun₁⟩ := run_next (M := M) id hn ⟨d₀, r, .missed⟩
  obtain ⟨d₂, events₃, hd₂, -, hn, hsub₃, h₂, hrun₂⟩ :=
    run_next (M := M) id hn ⟨d₁, r, .selected (findMysqlById M id d₁)⟩
  obtain ⟨d₃, events₄, -, -, -, -, -, hrun₃⟩ :=
    run_next (M := M) id hn ⟨d₂, r, .loaded (findMysqlById M id d₁) (findMysqlById M id d₂)⟩
  -- every database that the call meets has a complete row
  have hc₀ : Complete M id d₀ := by
    rcases h₀ with rfl | h
    · exact hd
    · exact hupdates _ h
  have hc₁ : Complete M id d₁ := by
    rcases h₁ with rfl | h
    · exact hc₀
    · exact hupdates _ (hsub₁ h)
  have hc₂ : Complete M id d₂ := by
    rcases h₂ with rfl | h
    · exact hc₁
    · exact hupdates _ (hsub₁ (hsub₂ h))
  obtain ⟨r', hr', hstored⟩ := addToRedis_complete hc₂ hmiss
  obtain ⟨d₄, hrun₄⟩ := run_returned (M := M) id (findMysqlById M id d₁) events₄ d₃ r'
  have hend : World.run M id ⟨d, r, .start⟩ events = ⟨d₄, r', .returned (findMysqlById M id d₁)⟩ := by
    rw [hrun]
    simp only [World.step, Progress.step, hmiss, if_true]
    rw [hrun₁]
    simp only [World.step, Progress.step]
    rw [hrun₂]
    simp only [World.step, Progress.step]
    rw [hrun₃]
    simp only [World.step, Progress.step, hr']
    exact hrun₄
  have hunchanged : Unchanged M id d events ↔ selectRow M id d₁ = selectRow M id d₂ := by
    unfold Unchanged
    rw [hat₀, hat₀, hd₁, hat₁, hd₂]
    simp only [Option.map_some, Option.some.injEq]
  rw [hend, hunchanged, ← findMysqlById_eq_iff hc₁ hc₂]
  simp only [Progress.returned.injEq, exists_eq_left', hstored]
  exact eq_comm

theorem returned_is_cached_early_update :
    let events :=
      [.update [player (some "US".toList)], .call, .call, .call, .update [player (some "USA".toList)], .call]
    ∃ result,
      (World.run tableMysql "napolmi01".toList ⟨[player (some "USA".toList)], fun _ => ∅, .start⟩ events).call =
        .returned result ∧
      findRedisById "napolmi01".toList
        (World.run tableMysql "napolmi01".toList ⟨[player (some "USA".toList)], fun _ => ∅, .start⟩
          events).redis = result := by
  refine (returned_is_cached_iff tableMysql _ rfl (complete_player _) ?_ (by decide)).2 rfl
  intro d' hd'
  simp only [List.mem_cons, Event.update.injEq, reduceCtorEq, false_or, or_false, List.not_mem_nil] at hd'
  rcases hd' with rfl | rfl
  · exact complete_player _
  · exact complete_player _

/-- The country of birth is corrected between the two queries: the call returns the old
one and caches the new one. -/
theorem update_between_queries :
    let w := World.run tableMysql "napolmi01".toList ⟨[player (some "USA".toList)], fun _ => ∅, .start⟩
      [.call, .call, .update [player (some "US".toList)], .call, .call]
    w.call = .returned (player (some "USA".toList)).toMap ∧
      findRedisById "napolmi01".toList w.redis = (player (some "US".toList)).toMap ∧
      (player (some "USA".toList)).toMap ≠ (player (some "US".toList)).toMap := by
  decide +kernel

end Coms4111.Players
