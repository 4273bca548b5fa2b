import Mathlib.Order.Basic
import Netcore.Basic

/-!
# `Fastcache`

The cache of `fastCache.hpp`: a value is kept in the shard of its key until a time that is set with it, and a background
thread sweeps the shards for what has expired. A shard is an `unordered_map`, here the partial function that it stands for;
the clock is read once by every operation, and `now` is what it shows.

`get` takes an expired entry for an absent one, and so does the sweep. `exists`, `new_expire` and `append` look only whether
the entry is there. `observed_sweeps` says that sweeps cannot be told from the results of `get` and `exists` in a run where
these three meet no expired entry, and `not_observed_sweeps` that each of them can tell otherwise.
-/

namespace Netcore

/-- `CacheItem`: `expiration` is in seconds, and 0 stands for none. -/
structure CacheItem (V : Type) where
  data : V
  expiration : Nat
  deriving DecidableEq, Repr

/-- `getNowSeconds() + duration`, in `std::size_t`. -/
def deadline (now duration : Nat) : Nat := (now + duration) % 18446744073709551616

namespace CacheItem

variable {V : Type}

/-- The constructor: the item expires some time from now. -/
def make (data : V) (now duration : Nat) : CacheItem V := ⟨data, deadline now duration⟩

/-- `append`, with a comma before the new data. -/
def append [Append V] (comma : V) (item : CacheItem V) (data : V) (newExp : Nat) : CacheItem V :=
  ⟨item.data ++ comma ++ data, newExp⟩

def expired (item : CacheItem V) (now : Nat) : Bool := if item.expiration = 0 then false else decide (item.expiration < now)

/-- What has expired stays expired. -/
theorem expired_mono {item : CacheItem V} {now now' : Nat} (h : item.expired now = true) (hle : now ≤ now') :
    item.expired now' = true := by
  unfold expired at h ⊢
  split_ifs at h ⊢ with h0
  rw [decide_eq_true_eq] at h ⊢
  exact Nat.lt_of_lt_of_le h hle

end CacheItem

/-- A cache with its shards, each with its entries by key. -/
structure Fastcache (K V : Type) (shardSize : Nat) where
  shards : Nat → K → Option (CacheItem V) := fun _ _ => none

/-- The operations of the cache. -/
inductive CacheOp (K V : Type) where
  | set (key : K) (val : V) (expiration : Nat)
  | get (key : K)
  | existsKey (key : K)
  | del (key : K)
  | newExpire (key : K) (expiration : Nat)
  | append (key : K) (val : V) (expiration : Nat)
  deriving DecidableEq, Repr

/-- What an operation returns. -/
inductive CacheResult (V : Type) where
  | none
  | got (found : Bool) (val : V)
  | existing (b : Bool)
  | deleted (n : Nat)
  deriving DecidableEq, Repr

/-- An event at a time: an operation, or `del_expired_keys` on a shard. -/
inductive CacheEvent (K V : Type) where
  | op (now : Nat) (op : CacheOp K V)
  | sweep (now : Nat) (shard : Nat)
  deriving DecidableEq, Repr

/-- The results that are looked at: those of `get` and `exists`. -/
def CacheResult.visible {V : Type} : CacheResult V → Bool
  | .got _ _ => true
  | .existing _ => true
  | _ => false

/-- The time of an event. -/
def CacheEvent.now {K V : Type} : CacheEvent K V → Nat
  | .op now _ => now
  | .sweep now _ => now

/-- The event is an operation, and no sweep. -/
def CacheEvent.isOp {K V : Type} : CacheEvent K V → Bool
  | .op _ _ => true
  | .sweep _ _ => false

namespace Fastcache

variable {K V : Type} {n : Nat} [DecidableEq K] [Hashable K]

/-- `calc_index`. -/
def calcIndex (_ : Fastcache K V n) (key : K) : Nat := (hash key).toNat % n

/-- `find` in the shard of the key. -/
def find (c : Fastcache K V n) (key : K) : Option (CacheItem V) := c.shards (c.calcIndex key) key

/-- The shard of the key with another entry for it, or none. -/
def put (c : Fastcache K V n) (key : K) (item : Option (CacheItem V)) : Fastcache K V n :=
  ⟨fun i k => if i = c.calcIndex key ∧ k = key then item else c.shards i k⟩

/-- `Shard::del_expired_keys`. -/
def delExpiredKeys (c : Fastcache K V n) (now shard : Nat) : Fastcache K V n :=
  ⟨fun i k => if i = shard then (c.shards i k).filter (fun item => !item.expired now) else c.shards i k⟩

/-- One operation at the time `now`. `Val_t{}` is the default value, and `comma` the value `","`. -/
def step [Inhabited V] [Append V] (comma : V) (c : Fastcache K V n) (now : Nat) : CacheOp K V → Fastcache K V n × CacheResult V
  | .set key val expiration => (c.put key (some (.make val now expiration)), .none)
  | .get key =>
    match c.find key with
    | some item => if item.expired now then (c.put key none, .got false default) else (c, .got true item.data)
    | none => (c, .got false default)
  | .existsKey key => (c, .existing (c.find key).isSome)
  | .del key => (c.put key none, .deleted (if (c.find key).isSome then 1 else 0))
  | .newExpire key expiration =>
    match c.find key with
    | some item => (c.put key (some { item with expiration := deadline now expiration }), .none)
    | none => (c, .none)
  | .append key val expiration =>
    match c.find key with
    | none => (c.put key (some (.make val now expiration)), .none)
    | some item => (c.put key (some (item.append comma val (deadline now expiration))), .none)

/-- What `get` and `exists` return along a run. -/
def observed [Inhabited V] [Append V] (comma : V) (c : Fastcache K V n) : List (CacheEvent K V) → List (CacheResult V)
  | [] => []
  | .op now o :: es => [(c.step comma now o).2].filter CacheResult.visible ++ observed comma (c.step comma now o).1 es
  | .sweep now shard :: es => observed comma (c.delExpiredKeys now shard) es

/-- The key has no entry, or one that has not expired. -/
def Fresh (c : Fastcache K V n) (now : Nat) (key : K) : Prop := ∀ item ∈ c.find key, item.expired now = false

/-- `exists`, `new_expire` and `append` meet no expired entry. -/
def OpGuarded (c : Fastcache K V n) (now : Nat) : CacheOp K V → Prop
  | .existsKey key => c.Fresh now key
  | .newExpire key _ => c.Fresh now key
  | .append key _ _ => c.Fresh now key
  | _ => True

/-- Every operation of the run is guarded, in the state in which it is made. -/
def Guarded [Inhabited V] [Append V] (comma : V) (c : Fastcache K V n) : List (CacheEvent K V) → Prop
  | [] => True
  | .op now o :: es => c.OpGuarded now o ∧ Guarded comma (c.step comma now o).1 es
  | .sweep now shard :: es => Guarded comma (c.delExpiredKeys now shard) es

/-! ## Entries after an operation -/

theorem find_put (c : Fastcache K V n) (key key' : K) (item : Option (CacheItem V)) :
    (c.put key item).find key' = if key' = key then item else c.find key' := by
  unfold find put calcIndex
  by_cases h : key' = key
  · simp [h]
  · simp [h]

omit [DecidableEq K] in
theorem find_delExpiredKeys (c : Fastcache K V n) (now shard : Nat) (key : K) :
    (c.delExpiredKeys now shard).find key = c.find key ∨
      (c.delExpiredKeys now shard).find key = none ∧ ∃ item, c.find key = some item ∧ item.expired now = true := by
  have hfind : (c.delExpiredKeys now shard).find key =
      if c.calcIndex key = shard then (c.find key).filter (fun item => !item.expired now) else c.find key := rfl
  rw [hfind]
  by_cases hi : c.calcIndex key = shard
  · rw [if_pos hi]
    cases hc : c.find key with
    | none => exact Or.inl rfl
    | some item =>
      cases he : item.expired now with
      | false => exact Or.inl (by simp [he])
      | true => exact Or.inr ⟨by simp [he], item, rfl, he⟩
  · exact Or.inl (if_neg hi)

omit [DecidableEq K] in
theorem find_delExpiredKeys_self (c : Fastcache K V n) (now : Nat) (key : K) :
    (c.delExpiredKeys now (c.calcIndex key)).find key = (c.find key).filter (fun item => !item.expired now) := if_pos rfl

/-- The cache `c`, which may have been swept, against `d`, which has not: the same entries but for some that have expired. -/
def Swept (now : Nat) (c d : Fastcache K V n) : Prop :=
  ∀ key, c.find key = d.find key ∨ c.find key = none ∧ ∃ item, d.find key = some item ∧ item.expired now = true

omit [DecidableEq K] in
theorem Swept.later {now now' : Nat} {c d : Fastcache K V n} (h : Swept now c d) (hle : now ≤ now') : Swept now' c d := by
  intro key
  rcases h key with he | ⟨hn, item, hi, he⟩
  · exact Or.inl he
  · exact Or.inr ⟨hn, item, hi, CacheItem.expired_mono he hle⟩

omit [DecidableEq K] in
/-- A fresh key has the same entry in both. -/
theorem Swept.find_eq {now : Nat} {c d : Fastcache K V n} (h : Swept now c d) {key : K} (hf : d.Fresh now key) :
    c.find key = d.find key := by
  rcases h key with he | ⟨-, item, hi, he⟩
  · exact he
  · exact absurd he (by simp [hf item hi])

/-- The same entry is put into both. -/
theorem Swept.put {now : Nat} {c d : Fastcache K V n} (h : Swept now c d) (key : K) (item : Option (CacheItem V)) :
    Swept now (c.put key item) (d.put key item) := by
  intro key'
  rw [find_put, find_put]
  by_cases hk : key' = key
  · simp [hk]
  · simpa [hk] using h key'

omit [DecidableEq K] in
/-- A sweep of the first. -/
theorem Swept.sweep {now : Nat} {c d : Fastcache K V n} (h : Swept now c d) (shard : Nat) :
    Swept now (c.delExpiredKeys now shard) d := by
  intro key
  rcases find_delExpiredKeys c now shard key with he | ⟨hn, item, hi, he⟩
  · rw [he]
    exact h key
  · rcases h key with hc | ⟨hc, -⟩
    · exact Or.inr ⟨hn, item, hc ▸ hi, he⟩
    · exact absurd hi (by simp [hc])

/-! ## Runs -/

variable [Inhabited V] [Append V] (comma : V)

/-- A `get` finds the same in both: an entry that only the second one still has is erased there, and not returned. -/
theorem get_swept {now : Nat} {c d : Fastcache K V n} (h : Swept now c d) (key : K) :
    Swept now (c.step comma now (.get key)).1 (d.step comma now (.get key)).1 ∧
      (c.step comma now (.get key)).2 = (d.step comma now (.get key)).2 := by
  rcases h key with he | ⟨hn, item, hi, he⟩
  · simp only [step, he]
    cases hd : d.find key with
    | none => exact ⟨h, rfl⟩
    | some item =>
      cases hx : item.expired now with
      | false => simpa [hx] using h
      | true => simpa [hx] using h.put key none
  · simp only [step, hn, hi, he, if_true, and_true]
    intro key'
    rw [find_put]
    by_cases hk : key' = key
    · simp [hk, hn]
    · simpa [hk] using h key'

/-- One operation that meets no expired entry where it would matter. -/
theorem step_swept {now : Nat} {c d : Fastcache K V n} (h : Swept now c d) {o : CacheOp K V} (hg : d.OpGuarded now o) :
    Swept now (c.step comma now o).1 (d.step comma now o).1 ∧
      [(c.step comma now o).2].filter CacheResult.visible = [(d.step comma now o).2].filter CacheResult.visible := by
  cases o with
  | set key val expiration => exact ⟨h.put key _, rfl⟩
  | get key =>
    obtain ⟨hs, hr⟩ := get_swept comma h key
    exact ⟨hs, by rw [hr]⟩
  | existsKey key =>
    simp only [step, h.find_eq hg]
    exact ⟨h, trivial⟩
  | del key => exact ⟨h.put key none, rfl⟩
  | newExpire key expiration =>
    simp only [step, h.find_eq hg]
    cases d.find key with
    | none => exact ⟨h, rfl⟩
    | some item => exact ⟨h.put key _, rfl⟩
  | append key val expiration =>
    simp only [step, h.find_eq hg]
    cases d.find key with
    | none => exact ⟨h.put key _, rfl⟩
    | some item => exact ⟨h.put key _, rfl⟩

/-- A run with sweeps against the same run without them, from a time that all its events are not before. -/
theorem observed_swept (es : List (CacheEvent K V)) : ∀ {now : Nat} {c d : Fastcache K V n}, Swept now c d →
    (∀ e ∈ es, now ≤ e.now) → es.Pairwise (fun e e' => e.now ≤ e'.now) → d.Guarded comma (es.filter CacheEvent.isOp) →
    c.observed comma es = d.observed comma (es.filter CacheEvent.isOp) := by
  induction es with
  | nil => intro now c d _ _ _ _; rfl
  | cons e es ih =>
    intro now c d h hnow hclock hg
    obtain ⟨hfirst, hrest⟩ := List.pairwise_cons.mp hclock
    have h' := h.later (hnow e (by simp))
    cases e with
    | op t o =>
      rw [List.filter_cons_of_pos rfl] at hg ⊢
      have h' : Swept t c d := h'
      obtain ⟨hs, hr⟩ := step_swept comma h' hg.1
      rw [observed, observed, hr, ih hs hfirst hrest hg.2]
    | sweep t shard =>
      rw [List.filter_cons_of_neg (by simp [CacheEvent.isOp])] at hg ⊢
      rw [observed]
      exact ih (h'.sweep shard) hfirst hrest hg

/-- The cache of the server: 32 shards, with strings for keys and values. -/
abbrev Cache := Fastcache Bytes Bytes 32

/-- A value that is set for ten seconds. -/
def setV : CacheEvent Bytes Bytes := .op 100 (.set (bytes "k") (bytes "v") 10)

/-- A sweep of its shard after eleven seconds. -/
def sweepV : CacheEvent Bytes Bytes := .sweep 111 (({} : Cache).calcIndex (bytes "k"))

/-- The cache with the value, and the same cache swept. -/
def cacheV : Cache := ({} : Cache).put (bytes "k") (some (.make (bytes "v") 100 10))

def sweptV : Cache := cacheV.delExpiredKeys 111 (cacheV.calcIndex (bytes "k"))

theorem find_cacheV : cacheV.find (bytes "k") = some ⟨bytes "v", 110⟩ := by
  rw [cacheV, find_put]
  rfl

theorem find_sweptV : sweptV.find (bytes "k") = none := by
  rw [sweptV, find_delExpiredKeys_self, find_cacheV]
  decide

/-- **Sweeps are not seen** in a run with a clock that does not go back, as long as `exists`, `new_expire` and `append` meet no
expired entry: with any sweeps of any shards at any places, `get` and `exists` return what they return without them. -/
theorem observed_sweeps {es : List (CacheEvent K V)} (hclock : es.Pairwise fun e e' => e.now ≤ e'.now)
    (hg : ({} : Fastcache K V n).Guarded comma (es.filter CacheEvent.isOp)) :
    ({} : Fastcache K V n).observed comma es = ({} : Fastcache K V n).observed comma (es.filter CacheEvent.isOp) :=
  observed_swept comma es (fun _ => Or.inl rfl) (fun _ _ => Nat.zero_le _) hclock hg

/-- A value is looked for before and after its time, with a sweep in between. -/
theorem observed_sweeps_setV :
    ({} : Cache).observed (bytes ",") [setV, .op 105 (.existsKey (bytes "k")), sweepV, .op 111 (.get (bytes "k"))] =
      ({} : Cache).observed (bytes ",") [setV, .op 105 (.existsKey (bytes "k")), .op 111 (.get (bytes "k"))] := by
  refine observed_sweeps (bytes ",") (by decide) ⟨trivial, ?_, trivial, trivial⟩
  show cacheV.Fresh 105 (bytes "k")
  intro item hitem
  rw [find_cacheV] at hitem
  rw [← Option.some.inj hitem]
  decide

/-- An expired entry exists, can be given a new time, and is appended to, unless a sweep comes first. -/
theorem not_observed_sweeps :
    ({} : Cache).observed (bytes ",") [setV, sweepV, .op 111 (.existsKey (bytes "k"))] ≠
        ({} : Cache).observed (bytes ",") [setV, .op 111 (.existsKey (bytes "k"))] ∧
      ({} : Cache).observed (bytes ",") [setV, sweepV, .op 111 (.newExpire (bytes "k") 10), .op 111 (.get (bytes "k"))] ≠
        ({} : Cache).observed (bytes ",") [setV, .op 111 (.newExpire (bytes "k") 10), .op 111 (.get (bytes "k"))] ∧
      ({} : Cache).observed (bytes ",") [setV, sweepV, .op 111 (.append (bytes "k") (bytes "w") 10), .op 111 (.get (bytes "k"))] ≠
        ({} : Cache).observed (bytes ",") [setV, .op 111 (.append (bytes "k") (bytes "w") 10), .op 111 (.get (bytes "k"))] := by
  have hset : ∀ ops, ({} : Cache).observed (bytes ",") (setV :: ops) = cacheV.observed (bytes ",") ops := fun _ => rfl
  have hsweep : ∀ ops, cacheV.observed (bytes ",") (sweepV :: ops) = sweptV.observed (bytes ",") ops := fun _ => rfl
  simp only [hset, hsweep]
  refine ⟨?_, ?_, ?_⟩
  all_goals
    simp only [observed, step, find_cacheV, find_sweptV, find_put, if_true]
    decide

end Fastcache

end Netcore
