import Coms4111.Proof.Players
import Coms4111.Store.Serial

/-!
# Calls at the same time

Between the lookup in Redis and the write another call may have stored the player. With the
database fixed it has stored the same.

* `calls_serialize`: in every interleaving of the steps of any calls, each call ends, returns or throws
  what `load` gives, and Redis is as after the same calls one after the other.
-/

namespace Coms4111.Players

open Sql Store

variable {D : Type} {M : Mysql D} {d : D} {id : Text} {r : Redis} {m : JMap}

/-- `find_by_id` in steps, for any player. -/
def callSteps (M : Mysql D) (d : D) : Steps Text (Text × Progress) Redis (Except JedisException JMap) where
  start id := (id, .start)
  step φ r := ((φ.1, (φ.2.step M φ.1 d r).1), (φ.2.step M φ.1 d r).2)
  result φ := match φ.2 with
    | .returned result => some (.ok result)
    | .thrown e => some (.error e)
    | _ => none

/-- Redis holds maps that MySQL gives. -/
def Cached (M : Mysql D) (d : D) (r : Redis) : Prop := ∃ c, Holds r c ∧ Coherent (load M d) c

theorem Cached.findById (h : Cached M d r) (id : Text) : Cached M d (Players.findById M d id r).2 := by
  obtain ⟨c, hr, hc⟩ := h
  exact ⟨_, (findById_simulates M d id r c hr).2, hc.fetch id⟩

/-- A player is not in Redis, or is as `load` gives them. -/
theorem Cached.cases (h : Cached M d r) (id : Text) :
    r (playerKey id) = ∅ ∨ r (playerKey id) ≠ ∅ ∧ load M d id = .ok (r (playerKey id)) := by
  obtain ⟨c, hr, hc⟩ := h
  cases hid : c id with
  | none => exact .inl ((hr id).1 hid)
  | some m =>
    obtain ⟨hkey, hm⟩ := (hr id).2 m hid
    exact .inr ⟨by rw [hkey]; exact hm, by rw [hkey]; exact hc id m hid⟩

theorem union_self (m : JMap) : m ∪ m = m := by
  refine Finmap.ext_lookup fun field => ?_
  by_cases hf : field ∈ m
  · rw [Finmap.lookup_union_left hf]
  · rw [Finmap.lookup_union_right hf]

/-- What the last step of a call gives that has missed. -/
def written (id : Text) (data : JMap) (r : Redis) : Except JedisException JMap × Redis :=
  match addToRedis id data r with
  | .ok r' => (.ok data, r')
  | .error e => (.error e, r)

/-- **The write of a call that has missed** is the call as a whole, even if the player has been
stored in the meantime. -/
theorem written_eq_findById (h : Cached M d r) (id : Text) :
    written id (findMysqlById M id d) r = findById M d id r := by
  have hredis : findRedisById id r = r (playerKey id) := rfl
  rcases h.cases id with hmiss | ⟨-, hload⟩
  · rw [hmiss] at hredis
    cases hadd : addToRedis id (findMysqlById M id d) r with
    | ok r' => simp only [findById, written, hredis, hadd, if_true]
    | error e => simp only [findById, written, hredis, hadd, if_true]
  · obtain ⟨hm, -⟩ := load_eq_ok_iff.1 hload
    rw [hm] at hload
    have hstore : storable (findMysqlById M id d) = .ok (findMysqlById M id d) := hload
    have hadd : addToRedis id (findMysqlById M id d) r = .ok r := by
      simp only [addToRedis, hmset_eq, hstore, Except.map]
      rw [← hm, union_self, Function.update_eq_self]
    simp only [findById, written, hredis, hadd, hm, ite_self]

/-- What a call has read is what MySQL gives. -/
def Read (M : Mysql D) (d : D) (id : Text) (φ : Text × Progress) : Prop :=
  φ.1 = id ∧ match φ.2 with
    | .selected result => result = findMysqlById M id d
    | .loaded result data => result = findMysqlById M id d ∧ data = findMysqlById M id d
    | _ => True

theorem call_commits (M : Mysql D) (d : D) :
    Commits (callSteps M d) (findById M d) (Cached M d) (fun id φ _ => Read M d id φ) fun _ _ => True where
  inv := fun id _ h => h.findById id
  start := fun _ _ => ⟨rfl, rfl, trivial⟩
  other := fun _ _ _ _ _ _ hready => hready
  step := by
    rintro id ⟨id', p⟩ r h ⟨rfl, hread⟩ hres
    cases p with
    | returned result => cases hres
    | thrown e => cases hres
    | missed => exact .inl ⟨rfl, rfl, rfl, rfl⟩
    | selected result => exact .inl ⟨rfl, rfl, rfl, hread, rfl⟩
    | start =>
      by_cases hmiss : findRedisById id' r = ∅
      · left
        simp only [callSteps, Progress.step, hmiss, if_true]
        exact ⟨trivial, trivial, rfl, trivial⟩
      · right
        simp only [callSteps, Progress.step, findById, if_neg hmiss]
        exact ⟨trivial, trivial⟩
    | loaded result data =>
      right
      obtain ⟨hresult, hdata⟩ := hread
      simp only at hresult hdata
      simp only [callSteps, Progress.step, ← written_eq_findById h id', written, hresult, hdata]
      cases addToRedis id' (findMysqlById M id' d) r with
      | ok r' => exact ⟨rfl, rfl⟩
      | error e => exact ⟨rfl, rfl⟩

/-- The steps that a call has before it at most. -/
def Progress.rank : Progress → ℕ
  | .start => 4
  | .missed => 3
  | .selected _ => 2
  | .loaded _ _ => 1
  | .returned _ => 0
  | .thrown _ => 0

theorem rank_step (M : Mysql D) (d : D) (φ : Text × Progress) (r : Redis) (h : (callSteps M d).result φ = none) :
    ((callSteps M d).step φ r).1.2.rank < φ.2.rank := by
  obtain ⟨id, p⟩ := φ
  cases p with
  | returned result => cases h
  | thrown e => cases h
  | missed => exact Nat.lt_succ_self 2
  | selected result => exact Nat.lt_succ_self 1
  | start =>
    simp only [callSteps, Progress.step]
    split
    · exact Nat.lt_succ_self 3
    · exact Nat.succ_pos 3
  | loaded result data =>
    simp only [callSteps, Progress.step]
    split <;> exact Nat.zero_lt_one

/-- Every player is missing from Redis, or is as MySQL gives them. -/
def Agrees (M : Mysql D) (d : D) (r : Redis) : Prop :=
  ∀ id, r (playerKey id) = ∅ ∨ load M d id = .ok (r (playerKey id))

theorem Agrees.cached (h : Agrees M d r) :
    let c := fun id => if r (playerKey id) = ∅ then none else some (r (playerKey id))
    Holds r c ∧ Coherent (load M d) c := by
  intro c
  have hnone : ∀ id, c id = none → r (playerKey id) = ∅ := by
    intro id hid
    by_contra hne
    simp only [c, if_neg hne] at hid
    cases hid
  have hsome : ∀ id m, c id = some m → r (playerKey id) = m ∧ m ≠ ∅ := by
    intro id m hid
    by_cases hnil : r (playerKey id) = ∅
    · simp only [c, if_pos hnil] at hid
      cases hid
    · simp only [c, if_neg hnil, Option.some.injEq] at hid
      exact ⟨hid, hid ▸ hnil⟩
  refine ⟨fun id => ⟨hnone id, hsome id⟩, fun id m hid => ?_⟩
  obtain ⟨rfl, hne⟩ := hsome id m hid
  exact (h id).resolve_left hne

/-- **Calls at the same time**, over a fixed database and a Redis that agrees with it: each call ends
with its fourth step at the latest and gives what `load` gives, and Redis is as after the calls
one after the other, in the order in which they end. -/
theorem calls_serialize {ι : Type} [DecidableEq ι] (M : Mysql D) (d : D) {r : Redis} (hr : Agrees M d r)
    (ids : ι → Text) (schedule : List ι) :
    let C := Calls.run (callSteps M d) schedule (.begin (callSteps M d) ids r)
    let order := Calls.endings (callSteps M d) schedule (.begin (callSteps M d) ids r)
    order.Nodup ∧ (∀ i, i ∈ order ↔ (callSteps M d).result (C.phase i) ≠ none) ∧
      (∀ i, 4 ≤ schedule.count i → i ∈ order) ∧
      C.state = after (findById M d) (order.map ids) r ∧
      ∀ i ∈ order, (callSteps M d).result (C.phase i) = some (load M d (ids i)) := by
  intro C order
  obtain ⟨hstart, hcoherent⟩ := hr.cached
  have hC : Serialized _ _ _ _ ids r C order := serializable (call_commits M d) ids (fun _ _ _ => trivial)
    ⟨_, hstart, hcoherent⟩ schedule
  have hends : ∀ i, 4 ≤ schedule.count i → i ∈ order := fun i hi =>
    (hC.ended i).2 (Calls.ended_of_count (fun φ => φ.2.rank) (rank_step M d) fun _ => hi)
  refine ⟨hC.nodup, hC.ended, hends, hC.state, ?_⟩
  have hresults := hC.results
  rw [answers_eq_of_simulates (findById_simulates M d) _ hstart, answers_fetch hcoherent, List.map_map,
    List.map_map] at hresults
  exact List.map_inj_left.1 hresults

/-- Two calls for one player miss before either has stored it, and one for a player that is not
there runs in between. -/
theorem calls_serialize_two_misses :
    let ids : Fin 3 → Text := ![ "napolmi01".toList, "napolmi01".toList, "nobody01".toList]
    let P := callSteps tableMysql [player (some "USA".toList)]
    let schedule : List (Fin 3) := [0, 1, 0, 2, 1, 0, 2, 1, 0, 2, 1, 2]
    let C := Calls.run P schedule (.begin P ids fun _ => ∅)
    let order := Calls.endings P schedule (.begin P ids fun _ => ∅)
    order.Nodup ∧ (∀ i, i ∈ order ↔ P.result (C.phase i) ≠ none) ∧
      (∀ i, 4 ≤ schedule.count i → i ∈ order) ∧
      C.state = after (findById tableMysql [player (some "USA".toList)]) (order.map ids) (fun _ => ∅) ∧
      ∀ i ∈ order, P.result (C.phase i) = some (load tableMysql [player (some "USA".toList)] (ids i)) :=
  calls_serialize tableMysql _ (fun _ => .inl rfl) _ _

end Coms4111.Players
