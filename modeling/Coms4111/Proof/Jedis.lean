import Coms4111.Proof.Hash
import Coms4111.Proof.Players
import Coms4111.Spec.Jedis
import Mathlib.Data.List.Sort

/-!
# Players, with the server behind Jedis

* `findById_over_server`: with the server in the place of the maps, a run of `find_by_id` returns
  and throws the same.
-/

namespace Coms4111.Players

open Sql Store Server

variable {J : Jedis} {S : Settings} {D : Type} {M : Mysql D} {d : D} {n : ℕ} {s : RedisServer}
  {K : Keyspace} {r : Redis} {f : Fields} {m m' : JMap} {l : List (Bytes × Bytes)}
  {es : List (Text × Option Text)} {key field : Text}

/-! ## Maps of texts and of bytes -/

theorem encode_inj {t t' : Text} (h : J.encode t = J.encode t') : t = t' := by
  rw [← J.decode_encode t, h, J.decode_encode]

/-- **The fields are those of the map**, encoded. -/
structure Coded (J : Jedis) (f : Fields) (m : JMap) : Prop where
  lookup : ∀ field, m.lookup field = (f.lookup (J.encode field)).map fun value => some (J.decode value)
  coded : ∀ {k v}, f.lookup k = some v → ∃ t u, k = J.encode t ∧ v = J.encode u

theorem coded_empty : Coded J ∅ ∅ := by
  refine ⟨fun field => ?_, fun h => ?_⟩
  · simp only [Finmap.lookup_empty, Option.map_none]
  · rw [Finmap.lookup_empty] at h
    cases h

/-- The pairs of encoded fields, decoded. -/
theorem lists_decode (h : Coded J f m) (hl : Lists l fun k => f.lookup k) :
    Lists (l.map fun e => (J.decode e.1, some (J.decode e.2))) fun field => m.lookup field := by
  have hcode : ∀ e ∈ l, J.encode (J.decode e.1) = e.1 := by
    intro e he
    obtain ⟨t, u, ht, -⟩ := h.coded ((hl.mem_iff e.1 e.2).1 he)
    rw [ht, J.decode_encode]
  refine ⟨?_, fun field value => ?_⟩
  · rw [List.map_map]
    have hnodup : (l.map fun e => e.1).Nodup := hl.nodup
    refine List.Nodup.of_map J.encode ?_
    rw [List.map_map]
    rwa [List.map_congr_left (g := fun e => e.1) hcode]
  · rw [h.lookup, List.mem_map]
    constructor
    · rintro ⟨e, he, heq⟩
      cases heq
      have hf : f.lookup e.1 = some e.2 := (hl.mem_iff e.1 e.2).1 he
      rw [hcode e he, hf]
      rfl
    · intro hv
      obtain ⟨v, hf, rfl⟩ := Option.map_eq_some_iff.1 hv
      exact ⟨(J.encode field, v), (hl.mem_iff _ _).2 hf, by rw [J.decode_encode]⟩

theorem readMap_insertAll (l : List (Bytes × Bytes)) (m : JMap) :
    J.readMap (l.flatMap fun e => [some e.1, some e.2]) m =
      insertAll m (l.map fun e => (J.decode e.1, some (J.decode e.2))) := by
  induction l generalizing m with
  | nil => rfl
  | cons e l ih => exact ih (m.insert (J.decode e.1) (some (J.decode e.2)))

/-- **`hgetAll` gives the map.** -/
theorem readMap_eq (h : Coded J f m) (hl : Lists l fun k => f.lookup k) :
    J.readMap (l.flatMap fun e => [some e.1, some e.2]) ∅ = m := by
  rw [readMap_insertAll, (lists_decode h hl).insertAll_eq]

/-- No value is `null`. -/
def NoNull (es : List (Text × Option Text)) : Prop := ∀ e ∈ es, e.2 ≠ none

/-- The pairs as they are sent. -/
def encoded (J : Jedis) (es : List (Text × Option Text)) : List (Bytes × Bytes) :=
  es.map fun e => (J.encode e.1, J.encode (e.2.getD []))

theorem arguments_eq (h : NoNull es) : J.arguments es = some (texts (encoded J es)) := by
  induction es with
  | nil => rfl
  | cons e es ih =>
    obtain ⟨field, value⟩ := e
    cases value with
    | none => exact absurd rfl (h _ List.mem_cons_self)
    | some value =>
      rw [Jedis.arguments, ih fun e he => h e (List.mem_cons_of_mem _ he)]
      rfl

theorem arguments_none (h : ¬NoNull es) : J.arguments es = none := by
  induction es with
  | nil => exact absurd (fun e he => absurd he List.not_mem_nil) h
  | cons e es ih =>
    obtain ⟨field, value⟩ := e
    cases value with
    | none => rfl
    | some value =>
      have hrest : ¬NoNull es := by
        intro hes
        refine h fun e he => ?_
        rcases List.mem_cons.1 he with rfl | he
        · exact Option.some_ne_none value
        · exact hes e he
      rw [Jedis.arguments, ih hrest]
      rfl

theorem insertPairs_texts (f : Fields) (l : List (Bytes × Bytes)) (created : ℕ) :
    (Keyspace.insertPairs f (texts l) created).2 = insertAll f l := by
  induction l generalizing f created with
  | nil => rfl
  | cons e l ih => exact ih (f.insert e.1 e.2) _

/-- The pairs of a map, as they are sent. -/
theorem lists_encoded (h : Lists es fun field => m.lookup field) (hnull : NoNull es) :
    ∃ g : Bytes → Option Bytes, Lists (encoded J es) g ∧
      (∀ field, (g (J.encode field)).map (fun value => some (J.decode value)) = m.lookup field) ∧
      ∀ {k v}, g k = some v → ∃ t u, k = J.encode t ∧ v = J.encode u := by
  have hnodup : ((encoded J es).map Prod.fst).Nodup := by
    rw [encoded, List.map_map]
    have hmap : (es.map Prod.fst).map J.encode =
        es.map (Prod.fst ∘ fun e => (J.encode e.1, J.encode (e.2.getD []))) := by
      rw [List.map_map]
      rfl
    rw [← hmap]
    exact h.nodup.map fun _ _ => encode_inj
  have hg := lists_lookup hnodup
  obtain ⟨g, hg⟩ : ∃ g, Lists (encoded J es) g := ⟨_, hg⟩
  have hmem : ∀ field value, (J.encode field, value) ∈ encoded J es ↔
      ∃ v, m.lookup field = some (some v) ∧ J.encode v = value := by
    intro field value
    rw [encoded, List.mem_map]
    constructor
    · rintro ⟨⟨field', v⟩, he, heq⟩
      obtain ⟨hf, hv⟩ := Prod.mk.inj heq
      obtain rfl := encode_inj hf
      cases v with
      | none => exact absurd rfl (hnull _ he)
      | some v => exact ⟨v, (h.mem_iff _ _).1 he, hv⟩
    · rintro ⟨v, hv, rfl⟩
      exact ⟨(field, some v), (h.mem_iff _ _).2 hv, rfl⟩
  refine ⟨g, hg, fun field => ?_, fun {k v} hk => ?_⟩
  · refine Option.ext fun value => ?_
    rw [Option.map_eq_some_iff]
    constructor
    · rintro ⟨v, hv, rfl⟩
      obtain ⟨u, hu, rfl⟩ := (hmem field v).1 ((hg.mem_iff _ _).2 hv)
      rw [hu, J.decode_encode]
    · intro hv
      cases value with
      | none => exact absurd rfl (hnull _ ((h.mem_iff _ _).2 hv))
      | some u =>
        refine ⟨J.encode u, (hg.mem_iff _ _).1 ((hmem field _).2 ⟨u, hv, rfl⟩), by rw [J.decode_encode]⟩
  · have hkv := (hg.mem_iff k v).2 hk
    rw [encoded, List.mem_map] at hkv
    obtain ⟨e, -, heq⟩ := hkv
    cases heq
    exact ⟨_, _, rfl, rfl⟩

/-- **`hmset` sets the fields of the map.** -/
theorem Coded.union (h : Coded J f m) (hl : Lists es fun field => m'.lookup field) (hnull : NoNull es) :
    Coded J (insertAll f (encoded J es)) (m' ∪ m) := by
  obtain ⟨g, hg, hlookup, hcoded⟩ := lists_encoded (J := J) hl hnull
  refine ⟨fun field => ?_, fun {k v} hk => ?_⟩
  · rw [hg.lookup_insertAll]
    have hmap := hlookup field
    cases hf : g (J.encode field) with
    | none =>
      rw [hf] at hmap
      rw [Finmap.lookup_union_right, h.lookup]
      · rfl
      · rw [← Finmap.lookup_eq_none]
        exact hmap.symm
    | some v =>
      rw [hf] at hmap
      rw [Finmap.lookup_union_left, ← hmap]
      · rfl
      · rw [Finmap.mem_iff]
        exact ⟨_, hmap.symm⟩
  · rw [hg.lookup_insertAll] at hk
    rcases Option.or_eq_some_iff.1 hk with hk | ⟨-, hk⟩
    · exact hcoded hk
    · exact h.coded hk

/-! ## The server in the place of the maps -/

/-- The server keeps the maps of `r`, each under its key, and has room for `n` bytes more. -/
def Serving (J : Jedis) (S : Settings) (n : ℕ) (s : RedisServer) (r : Redis) : Prop :=
  n + 11 < 2 ^ 32 ∧ ∃ K, Serves S n s K ∧ ∀ key, ∃ f, K (J.encode key) = .fields f ∧ Coded J f (r key)

theorem serving_update (hn : n + 11 < 2 ^ 32) (hK : ∀ key, ∃ f, K (J.encode key) = .fields f ∧ Coded J f (r key))
    (hserves : Serves S n s (Function.update K (J.encode key) (.fields f))) (h : Coded J f m) :
    Serving J S n s (Function.update r key m) := by
  refine ⟨hn, _, hserves, fun key' => ?_⟩
  by_cases hkey : key' = key
  · subst hkey
    exact ⟨f, Function.update_self .., by rwa [Function.update_self]⟩
  · obtain ⟨g, hg, hcoded⟩ := hK key'
    refine ⟨g, ?_, by rwa [Function.update_of_ne hkey]⟩
    rwa [Function.update_of_ne fun he => hkey (encode_inj he)]

theorem hgetAll_eq (h : Serves S n s K) (hK : K (J.encode key) = .fields f) (hf : Coded J f m) :
    ∃ s', J.hgetAll S key s = some (m, s') ∧ Serves S n s' K := by
  obtain ⟨l, s', hrun, hl, hserves⟩ := hgetall_reply h hK
  have hexec : s.execute S (.hgetall (J.encode key)) =
      some (.multi (l.flatMap fun e => [some e.1, some e.2]), s') := hrun
  exact ⟨s', by simp only [Jedis.hgetAll, hexec, readMap_eq hf hl], hserves⟩

/-- What the pairs of a map take in the server. -/
def pairsCost (J : Jedis) (hash : JMap) : ℕ :=
  total (fun arg => 22 + arg.length) ((J.arguments (J.entries hash)).getD [])

/-- `hmset` of a map that can be sent. -/
theorem hmset_sends (h : Serves S (n + pairsCost J m') s K) (hn : n + pairsCost J m' + 11 < 2 ^ 32)
    (hK : K (J.encode key) = .fields f) (hne : m' ≠ ∅) (hnull : NoNull (J.entries m')) :
    ∃ s', J.hmset S key m' s = some (.ok s') ∧
      Serves S n s' (Function.update K (J.encode key) (.fields (insertAll f (encoded J (J.entries m'))))) := by
  unfold pairsCost at h hn
  rw [arguments_eq hnull, Option.getD_some] at h hn
  have hpos : 0 < (J.entries m').length :=
    List.length_pos_iff.2 fun hnil => hne ((J.entries_lists m').eq_nil_iff.1 hnil)
  have hlen : (texts (encoded J (J.entries m'))).length = 2 * (J.entries m').length := by
    rw [length_texts, encoded, List.length_map]
  obtain ⟨s', hrun, hserves⟩ := hset_spec h hn (J.encode key) (by omega) fun _ => .ok
  have heven : ¬(texts (encoded J (J.entries m'))).length % 2 = 1 := by omega
  simp only [Keyspace.hset, if_neg heven, hK, insertPairs_texts] at hrun hserves
  have hexec : s.execute S (.hmset (J.encode key :: texts (encoded J (J.entries m')))) = some (.ok, s') := by
    unfold RedisServer.execute
    exact (if_neg (by omega)).trans hrun
  exact ⟨s', by simp only [Jedis.hmset, arguments_eq hnull, hexec], hserves⟩

theorem noNull_iff (m : JMap) : NoNull (J.entries m) ↔ ¬∃ field ∈ m.keys, m.lookup field = some none := by
  have hl := J.entries_lists m
  constructor
  · rintro hnull ⟨field, -, hfield⟩
    exact hnull _ ((hl.mem_iff _ _).2 hfield) rfl
  · rintro hno ⟨field, value⟩ he rfl
    have hlookup := (hl.mem_iff field none).1 he
    exact hno ⟨field, Finmap.mem_keys.2 (Finmap.mem_of_lookup_eq_some hlookup), hlookup⟩

/-- **`hmset` with the server** is `hmset` with the maps, and throws where that does. -/
theorem hmset_server (h : Serves S (n + pairsCost J m') s K) (hn : n + pairsCost J m' + 11 < 2 ^ 32)
    (hK : ∀ key, ∃ f, K (J.encode key) = .fields f ∧ Coded J f (r key)) (key : Text) :
    match r.hmset key m' with
    | .error e => J.hmset S key m' s = some (.error e)
    | .ok r' => ∃ s', J.hmset S key m' s = some (.ok s') ∧ Serving J S n s' r' := by
  have hl := J.entries_lists m'
  unfold Redis.hmset
  by_cases hempty : m' = ∅
  · have hnil : J.entries m' = [] := by
      rw [hempty] at hl ⊢
      exact hl.eq_nil_iff.2 rfl
    rw [if_pos hempty]
    simp only [Jedis.hmset, hnil]
    rfl
  rw [if_neg hempty]
  by_cases hnull : NoNull (J.entries m')
  · rw [if_neg ((noNull_iff m').1 hnull)]
    obtain ⟨f, hf, hcoded⟩ := hK key
    obtain ⟨s', hrun, hserves⟩ := hmset_sends h hn hf hempty hnull
    exact ⟨s', hrun, serving_update (by omega) hK hserves (hcoded.union hl hnull)⟩
  · rw [if_pos (not_not.1 (mt (noNull_iff m').2 hnull))]
    simp only [Jedis.hmset, arguments_none hnull]

/-- **`find_by_id` with the server** is `find_by_id` with the maps. -/
theorem findById_server (J : Jedis) (S : Settings) (M : Mysql D) (d : D) :
    RefinesFor (fun id => pairsCost J (findMysqlById M id d)) (Serving J S) (J.findById S M d)
      (findById M d) := by
  intro n id s r hR
  obtain ⟨hn, K, hserves, hK⟩ := hR
  obtain ⟨f, hf, hcoded⟩ := hK (playerKey id)
  obtain ⟨s', hget, hserves'⟩ := hgetAll_eq hserves hf hcoded
  have hsame : Serving J S n s' r := ⟨by omega, K, hserves'.mono, hK⟩
  have hmap : findRedisById id r = r (playerKey id) := rfl
  simp only [Jedis.findById, findById, addToRedis, hget, hmap, Option.bind_eq_bind, Option.bind_some]
  by_cases hhit : r (playerKey id) = ∅
  · rw [if_pos hhit, if_pos hhit]
    have hset := hmset_server hserves' hn hK (playerKey id)
    cases hr : r.hmset (playerKey id) (findMysqlById M id d) with
    | error e =>
      simp only [hr] at hset
      simp only [hset, Option.bind_some]
      exact ⟨s', rfl, hsame⟩
    | ok r' =>
      simp only [hr] at hset
      obtain ⟨s₂, hrun, hserving⟩ := hset
      simp only [hrun, Option.bind_some]
      exact ⟨s₂, rfl, hserving⟩
  · rw [if_neg hhit, if_neg hhit]
    exact ⟨s', rfl, hsame⟩

/-- **The cache is the server.** Whichever ids are asked for, with the server in the place of the
maps every call returns or throws the same; the rows that are stored on the way are together
shorter than four gigabytes. -/
theorem findById_over_server (J : Jedis) (S : Settings) (M : Mysql D) (d : D) (ids : List Text)
    (hsize : 11 + total (fun id => pairsCost J (findMysqlById M id d)) ids < 2 ^ 32) :
    ∃ s, runAll (J.findById S M d) ids (.start fun _ => false) =
      some (answers (findById M d) ids fun _ => ∅, s) := by
  have hstart : Serving J S (0 + total (fun id => pairsCost J (findMysqlById M id d)) ids)
      (.start fun _ => false) fun _ => ∅ :=
    ⟨by omega, .start fun _ => false, fun _ => rfl, fun _ => ⟨∅, rfl, coded_empty⟩⟩
  obtain ⟨s, hrun, -⟩ := (findById_server J S M d).run ids hstart
  exact ⟨s, hrun⟩

/-! ## UTF-8, and the fields in order -/

def utf8Encode (t : Text) : Bytes := t.flatMap String.utf8EncodeChar

def utf8Decode (b : Bytes) : Text := ((String.fromUTF8? b.toByteArray).getD "").toList

theorem utf8Decode_utf8Encode (t : Text) : utf8Decode (utf8Encode t) = t := by
  have hbytes : (utf8Encode t).toByteArray = (String.ofList t).toByteArray := rfl
  unfold utf8Decode
  rw [hbytes, String.fromUTF8?, dif_pos (String.ofList t).isValidUTF8]
  exact String.toList_ofList

theorem insertionSort_eq_of_perm {l l' : List Text} (h : l.Perm l') :
    l.insertionSort (· ≤ ·) = l'.insertionSort (· ≤ ·) := by
  have hperm := (List.perm_insertionSort (· ≤ ·) l).trans (h.trans (List.perm_insertionSort (· ≤ ·) l').symm)
  exact hperm.eq_of_pairwise' (List.pairwise_insertionSort _ l) (List.pairwise_insertionSort _ l')

def sortedKeys (m : JMap) : List Text :=
  Quot.liftOn m.keys.val (List.insertionSort (· ≤ ·)) fun _ _ => insertionSort_eq_of_perm

theorem coe_sortedKeys (m : JMap) : (sortedKeys m : Multiset Text) = m.keys.val := by
  unfold sortedKeys
  generalize m.keys.val = keys
  induction keys using Quotient.inductionOn with
  | _ l => exact Multiset.coe_eq_coe.2 (List.perm_insertionSort (· ≤ ·) l)

theorem mem_sortedKeys {m : JMap} {field : Text} : field ∈ sortedKeys m ↔ field ∈ m := by
  rw [← Multiset.mem_coe, coe_sortedKeys]
  exact Finmap.mem_keys

/-- A Jedis that encodes in UTF-8 and sends the fields in the order of their names. -/
def sortedJedis : Jedis where
  encode := utf8Encode
  decode := utf8Decode
  decode_encode := utf8Decode_utf8Encode
  entries m := (sortedKeys m).map fun field => (field, (m.lookup field).getD none)
  entries_lists m := by
    constructor
    · have hmap : ((sortedKeys m).map fun field => (field, (m.lookup field).getD none)).map Prod.fst =
          sortedKeys m := by
        rw [List.map_map]
        exact List.map_id _
      rw [hmap, ← Multiset.coe_nodup, coe_sortedKeys]
      exact m.keys.nodup
    · intro field value
      simp only [List.mem_map, Prod.mk.injEq, mem_sortedKeys]
      constructor
      · rintro ⟨field', hmem, rfl, rfl⟩
        obtain ⟨value, hvalue⟩ := Finmap.mem_iff.1 hmem
        rw [hvalue, Option.getD_some]
      · intro hvalue
        exact ⟨field, Finmap.mem_of_lookup_eq_some hvalue, rfl, by rw [hvalue, Option.getD_some]⟩

/-- A player that is asked for twice, one that is not there, and the first again. -/
theorem findById_over_server_calls :
    let ids := ["napolmi01".toList, "napolmi01".toList, "nobody01".toList, "napolmi01".toList]
    let d := [player (some "USA".toList)]
    let S : Settings := ⟨512, 64, fun field => UInt64.ofNat field.length⟩
    ∃ s, runAll (sortedJedis.findById S tableMysql d) ids (.start fun _ => false) =
      some (answers (findById tableMysql d) ids fun _ => ∅, s) :=
  findById_over_server sortedJedis _ tableMysql _ _ (by decide +kernel)

end Coms4111.Players
