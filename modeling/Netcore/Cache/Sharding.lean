import Netcore.Lib.ShardedMap
import Netcore.Cache

/-!
# The shards of `Fastcache`

The containers of the shards as the finite maps they are, so that `total_size` can be counted. Every function on a key takes
the shard that `calc_index` gives, locks it, and works on its container alone; `total_size` and a round of the background
thread go over all shards. `results_eq_unsharded` says that none of this can be seen: the calls return what they return on one
container, and a key is only ever found in its own shard.
-/

namespace Netcore

open ShardedMap

/-- `_container` of a shard. -/
abbrev Container (K V : Type) := AList fun _ : K => CacheItem V

/-- A call: a function on a key at the time `now`, `total_size`, or a round of `expired_check_func`. -/
inductive CacheCall (K V : Type) where
  | op (now : Nat) (o : CacheOp K V)
  | totalSize
  | sweep (now : Nat)
  deriving DecidableEq, Repr

/-- What a call returns. -/
inductive CallResult (V : Type) where
  | op (r : CacheResult V)
  | size (n : Nat)
  | swept
  deriving DecidableEq, Repr

/-- The key of an operation. -/
def CacheOp.key {K V : Type} : CacheOp K V → K
  | .set key _ _ => key
  | .get key => key
  | .existsKey key => key
  | .del key => key
  | .newExpire key _ => key
  | .append key _ _ => key

namespace Container

variable {K V : Type} [DecidableEq K]

/-- `del_expired_keys`. -/
def delExpiredKeys (m : Container K V) (now : Nat) : Container K V := ShardedMap.filter (fun _ item => !item.expired now) m

/-- What the functions of the cache do on a locked container. `append` calls `exists` first, for a message. -/
def step [Inhabited V] [Append V] (comma : V) (m : Container K V) (now : Nat) : CacheOp K V → Container K V × CacheResult V
  | .set key val expiration => (m.insert key (.make val now expiration), .none)
  | .get key =>
    match m.lookup key with
    | some item => if item.expired now then (m.erase key, .got false default) else (m, .got true item.data)
    | none => (m, .got false default)
  | .existsKey key => (m, .existing (m.lookup key).isSome)
  | .del key => (m.erase key, .deleted (if (m.lookup key).isSome then 1 else 0))
  | .newExpire key expiration =>
    match m.lookup key with
    | some item => (m.insert key { item with expiration := deadline now expiration }, .none)
    | none => (m, .none)
  | .append key val expiration =>
    match m.lookup key with
    | none => (m.insert key (.make val now expiration), .none)
    | some item => (m.insert key (item.append comma val (deadline now expiration)), .none)

/-- A call on one map that is not sharded. -/
def call [Inhabited V] [Append V] (comma : V) (m : Container K V) : CacheCall K V → Container K V × CallResult V
  | .op now o => ((step comma m now o).1, .op (step comma m now o).2)
  | .totalSize => (m, .size (ShardedMap.size m))
  | .sweep now => (delExpiredKeys m now, .swept)

/-- What an operation leaves behind is fixed at its key by the entry it found there, and so is its result. -/
theorem step_lookup [Inhabited V] [Append V] (comma : V) {m m' : Container K V} (now : Nat) (o : CacheOp K V)
    (h : m.lookup o.key = m'.lookup o.key) :
    (step comma m now o).2 = (step comma m' now o).2 ∧
      (step comma m now o).1.lookup o.key = (step comma m' now o).1.lookup o.key := by
  cases o with
  | set key val expiration => exact ⟨rfl, by rw [CacheOp.key, step, step, AList.lookup_insert, AList.lookup_insert]⟩
  | get key =>
    rw [CacheOp.key] at h ⊢
    simp only [step, ← h]
    cases hm : m.lookup key with
    | none => exact ⟨rfl, h⟩
    | some item =>
      by_cases he : item.expired now = true
      · simp only [he, if_true, AList.lookup_erase, and_self]
      · simp only [he, if_false, Bool.false_eq_true]
        exact ⟨trivial, h⟩
  | existsKey key =>
    rw [CacheOp.key] at h ⊢
    simp only [step, h, and_self]
  | del key =>
    rw [CacheOp.key] at h ⊢
    simp only [step, h, AList.lookup_erase, and_self]
  | newExpire key expiration =>
    rw [CacheOp.key] at h ⊢
    simp only [step, ← h]
    cases hm : m.lookup key with
    | none => exact ⟨rfl, h⟩
    | some item => exact ⟨rfl, by rw [AList.lookup_insert, AList.lookup_insert]⟩
  | append key val expiration =>
    rw [CacheOp.key] at h ⊢
    simp only [step, ← h]
    cases hm : m.lookup key with
    | none => exact ⟨rfl, by rw [AList.lookup_insert, AList.lookup_insert]⟩
    | some item => exact ⟨rfl, by rw [AList.lookup_insert, AList.lookup_insert]⟩

/-- An operation leaves the other keys alone. -/
theorem step_lookup_ne [Inhabited V] [Append V] (comma : V) (m : Container K V) (now : Nat) (o : CacheOp K V) {key : K}
    (h : key ≠ o.key) : (step comma m now o).1.lookup key = m.lookup key := by
  cases o with
  | set key' val expiration => exact AList.lookup_insert_ne h
  | get key' =>
    simp only [step]
    cases m.lookup key' with
    | none => rfl
    | some item =>
      by_cases he : item.expired now = true
      · simp only [he, if_true]
        exact AList.lookup_erase_ne h
      · simp only [he, if_false, Bool.false_eq_true]
  | existsKey key' => rfl
  | del key' => exact AList.lookup_erase_ne h
  | newExpire key' expiration =>
    simp only [step]
    cases m.lookup key' with
    | none => rfl
    | some item => exact AList.lookup_insert_ne h
  | append key' val expiration =>
    simp only [step]
    cases m.lookup key' with
    | none => exact AList.lookup_insert_ne h
    | some item => exact AList.lookup_insert_ne h

end Container

/-- `Fastcache` with the containers of its shards. -/
structure ShardedCache (K V : Type) (n : Nat) where
  shards : Vector (Container K V) n := Vector.replicate n ∅

namespace ShardedCache

variable {K V : Type} {n : Nat} [DecidableEq K] [Hashable K] [NeZero n]

omit [DecidableEq K] in
/-- `calc_index`. -/
def calcIndex (n : Nat) [NeZero n] (key : K) : Fin n := Fin.ofNat n (hash key).toNat

/-- A function on a key: the shard of the key is taken, and its container is worked on. -/
def step [Inhabited V] [Append V] (comma : V) (c : ShardedCache K V n) (now : Nat) (o : CacheOp K V) :
    ShardedCache K V n × CacheResult V :=
  let index := calcIndex n o.key
  let r := (c.shards.get index).step comma now o
  (⟨c.shards.set index r.1⟩, r.2)

/-- `total_size`. -/
def totalSize (c : ShardedCache K V n) : Nat := c.shards.foldl (fun tot e => tot + size e) 0

/-- One round of `expired_check_func`, with the time that is read at its beginning. -/
def sweep (c : ShardedCache K V n) (now : Nat) : ShardedCache K V n := ⟨c.shards.map fun e => Container.delExpiredKeys e now⟩

def call [Inhabited V] [Append V] (comma : V) (c : ShardedCache K V n) : CacheCall K V → ShardedCache K V n × CallResult V
  | .op now o => ((c.step comma now o).1, .op (c.step comma now o).2)
  | .totalSize => (c, .size c.totalSize)
  | .sweep now => (c.sweep now, .swept)

end ShardedCache

/-- Calls one after the other, with what they return. -/
def runCalls {σ κ ρ : Type} (call : σ → κ → σ × ρ) (s : σ) : List κ → σ × List ρ
  | [] => (s, [])
  | k :: ks => ((runCalls call (call s k).1 ks).1, (call s k).2 :: (runCalls call (call s k).1 ks).2)

namespace ShardedCache

variable {K V : Type} {n : Nat} [DecidableEq K] [Hashable K] [NeZero n] [Inhabited V] [Append V] (comma : V)

/-- One call on the shards and on the one map that they stand for. -/
theorem call_represents {c : ShardedCache K V n} {m : Container K V} (h : Represents (calcIndex n) c.shards m)
    (k : CacheCall K V) : Represents (calcIndex n) (c.call comma k).1.shards (Container.call comma m k).1 ∧
      (c.call comma k).2 = (Container.call comma m k).2 := by
  cases k with
  | op now o =>
    obtain ⟨hresult, hlookup⟩ := Container.step_lookup comma now o (h.lookup o.key)
    refine ⟨h.set hlookup ?_ ?_, congrArg CallResult.op hresult⟩
    · exact fun b hb => Container.step_lookup_ne comma _ now o hb
    · exact fun b hb => Container.step_lookup_ne comma _ now o hb
  | totalSize => exact ⟨h, congrArg CallResult.size h.size⟩
  | sweep now => exact ⟨h.filter _, rfl⟩

/-- A run of calls on both. -/
theorem runCalls_represents (ks : List (CacheCall K V)) : ∀ {c : ShardedCache K V n} {m : Container K V},
    Represents (calcIndex n) c.shards m →
    Represents (calcIndex n) (runCalls (call comma) c ks).1.shards (runCalls (Container.call comma) m ks).1 ∧
      (runCalls (call comma) c ks).2 = (runCalls (Container.call comma) m ks).2 := by
  induction ks with
  | nil => exact fun h => ⟨h, rfl⟩
  | cons k ks ih =>
    intro c m h
    obtain ⟨hcall, hresult⟩ := call_represents comma h k
    obtain ⟨hrun, hresults⟩ := ih hcall
    exact ⟨hrun, by rw [runCalls, runCalls, hresult, hresults]⟩

/-- **Sharding cannot be seen.** Whatever the hash function, any calls at any times return on the sharded cache what they return
on one map that is not sharded; and after them a key is found in no shard but the one that `calc_index` gives. -/
theorem results_eq_unsharded (ks : List (CacheCall K V)) :
    (runCalls (call comma) ({} : ShardedCache K V n) ks).2 = (runCalls (Container.call comma) (∅ : Container K V) ks).2 ∧
      ∀ i key, key ∈ (runCalls (call comma) ({} : ShardedCache K V n) ks).1.shards.get i → i = calcIndex n key := by
  obtain ⟨hrun, hresults⟩ := runCalls_represents comma ks (represents_empty (n := n))
  exact ⟨hresults, fun i key hkey => (hrun.home i key hkey).symm⟩

/-- Two keys in the cache of the server: one is erased when it is read late, and the other is appended to and swept. -/
theorem results_eq_unsharded_two :
    (runCalls (call (bytes ",")) ({} : ShardedCache Bytes Bytes 32) [.op 100 (.set (bytes "k") (bytes "v") 10),
        .op 101 (.append (bytes "l") (bytes "w") 10), .op 111 (.get (bytes "k")), .totalSize, .sweep 112, .totalSize]).2 =
      [.op .none, .op .none, .op (.got false []), .size 1, .swept, .size 0] := by
  rw [(results_eq_unsharded (bytes ",") _).1]
  decide

/-! ## The entries by shard and key -/

omit [NeZero n] [Inhabited V] [Append V] in
theorem put_find (d : Fastcache K V n) (key : K) : d.put key (d.find key) = d := by
  refine congrArg Fastcache.mk (funext fun i => funext fun key' => ?_)
  by_cases h : i = d.calcIndex key ∧ key' = key
  · rw [if_pos h, h.1, h.2, Fastcache.find]
  · rw [if_neg h]

omit [NeZero n] in
/-- An operation of `Fastcache` puts what the container has for the key afterwards. -/
theorem step_eq_put (d : Fastcache K V n) (m : Container K V) (now : Nat) (o : CacheOp K V)
    (h : m.lookup o.key = d.find o.key) :
    d.step comma now o = (d.put o.key ((m.step comma now o).1.lookup o.key), (m.step comma now o).2) := by
  cases o with
  | set key val expiration => simp only [Fastcache.step, Container.step, CacheOp.key, AList.lookup_insert]
  | get key =>
    rw [CacheOp.key] at h ⊢
    simp only [Fastcache.step, Container.step, ← h]
    cases hm : m.lookup key with
    | none => simp only [hm, hm ▸ h, put_find]
    | some item =>
      by_cases he : item.expired now = true
      · simp only [he, if_true, AList.lookup_erase]
      · simp only [he, if_false, Bool.false_eq_true, hm, hm ▸ h, put_find]
  | existsKey key =>
    rw [CacheOp.key] at h ⊢
    simp only [Fastcache.step, Container.step, h, put_find]
  | del key =>
    rw [CacheOp.key] at h ⊢
    simp only [Fastcache.step, Container.step, h, AList.lookup_erase]
  | newExpire key expiration =>
    rw [CacheOp.key] at h ⊢
    simp only [Fastcache.step, Container.step, ← h]
    cases hm : m.lookup key with
    | none => simp only [hm, hm ▸ h, put_find]
    | some item => simp only [AList.lookup_insert]
  | append key val expiration =>
    rw [CacheOp.key] at h ⊢
    simp only [Fastcache.step, Container.step, ← h]
    cases hm : m.lookup key with
    | none => simp only [AList.lookup_insert]
    | some item => simp only [AList.lookup_insert]

/-- The entries of the containers, as `Fastcache` has them. -/
def entries (c : ShardedCache K V n) : Fastcache K V n :=
  ⟨fun i key => if h : i < n then (c.shards.get ⟨i, h⟩).lookup key else none⟩

omit [Inhabited V] [Append V] in
theorem find_entries (c : ShardedCache K V n) (key : K) :
    c.entries.find key = (c.shards.get (calcIndex n key)).lookup key :=
  dif_pos (Nat.mod_lt _ (Nat.pos_of_neZero n))

/-- The operations on the containers are those of `Fastcache`: the same entries in the same shards, and the same result. -/
theorem entries_step (c : ShardedCache K V n) (now : Nat) (o : CacheOp K V) :
    ((c.step comma now o).1.entries, (c.step comma now o).2) = c.entries.step comma now o := by
  rw [step_eq_put comma c.entries _ now o (c.find_entries o.key).symm]
  refine Prod.ext (congrArg Fastcache.mk (funext fun i => funext fun key => ?_)) rfl
  have hindex : c.entries.calcIndex o.key = (calcIndex n o.key).val := rfl
  have hshard : c.entries.shards i key = if h : i < n then (c.shards.get ⟨i, h⟩).lookup key else none := rfl
  rw [hindex, hshard]
  by_cases hi : i < n
  · have hget : (c.step comma now o).1.shards.get ⟨i, hi⟩ = if (calcIndex n o.key).val = i then
        ((c.shards.get (calcIndex n o.key)).step comma now o).1 else c.shards.get ⟨i, hi⟩ :=
      Vector.getElem_set (calcIndex n o.key).isLt hi
    rw [dif_pos hi, dif_pos hi, hget]
    rcases eq_or_ne i (calcIndex n o.key).val with rfl | hne
    · rw [if_pos rfl]
      rcases eq_or_ne key o.key with rfl | hkey
      · rw [if_pos ⟨rfl, rfl⟩]
      · rw [if_neg (fun h => hkey h.2), Container.step_lookup_ne comma _ now o hkey]
    · rw [if_neg hne.symm, if_neg (fun h => hne h.1)]
  · have hne : i ≠ (calcIndex n o.key).val := fun h => hi (h ▸ (calcIndex n o.key).isLt)
    rw [dif_neg hi, dif_neg hi, if_neg (fun h => hne h.1)]

end ShardedCache

end Netcore
