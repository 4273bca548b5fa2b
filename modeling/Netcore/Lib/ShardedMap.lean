import Mathlib.Data.List.AList
import Mathlib.Data.List.Nodup

/-!
# One map in several

A finite map may be kept in pieces: an index function names the piece of each key, and an entry is only ever put into the piece
of its key. `Represents` relates the pieces to the map they stand for. What is changed at one key is changed in one piece
(`Represents.set`), what is filtered is filtered in all of them (`Represents.filter`), and the sizes add up
(`Represents.size`).
-/

namespace ShardedMap

variable {α : Type*} {β : α → Type*} [DecidableEq α] {n : Nat}

/-- The number of entries. -/
def size (m : AList β) : Nat := m.entries.length

/-- The map without the entries that `p` is false of. -/
def filter (p : ∀ a, β a → Bool) (m : AList β) : AList β :=
  ⟨m.entries.filter fun e => p e.1 e.2, m.nodupKeys.sublist List.filter_sublist⟩

/-- A key is found in what is left if it was found and is kept. -/
theorem lookup_filter (p : ∀ a, β a → Bool) (m : AList β) (a : α) : (filter p m).lookup a = (m.lookup a).filter (p a) := by
  ext b
  rw [Option.filter_eq_some_iff]
  have hmem : ∀ s : AList β, s.lookup a = some b ↔ ⟨a, b⟩ ∈ s.entries := fun s => AList.mem_lookup_iff
  rw [hmem, hmem]
  exact List.mem_filter

omit [DecidableEq α] in
/-- The size is the number of keys. -/
theorem size_eq_length_keys (m : AList β) : size m = m.keys.length := (List.length_map _).symm

/-- The pieces hold the entries of `m`, each in the piece of its key. -/
structure Represents (index : α → Fin n) (shards : Vector (AList β) n) (m : AList β) : Prop where
  lookup : ∀ a, (shards.get (index a)).lookup a = m.lookup a
  home : ∀ i a, a ∈ shards.get i → index a = i

variable {index : α → Fin n} {shards : Vector (AList β) n} {m : AList β}

/-- Empty shards are an empty map. -/
theorem represents_empty : Represents index (Vector.replicate n (∅ : AList β)) ∅ := by
  have hget : ∀ i, (Vector.replicate n (∅ : AList β)).get i = ∅ := fun i => Vector.getElem_replicate _
  refine ⟨fun a => by rw [hget], fun i a ha => ?_⟩
  rw [hget] at ha
  exact absurd ha (AList.notMem_empty a)

/-- Another piece for the key `a` in which the other keys are as they were. -/
theorem Represents.set (h : Represents index shards m) {a : α} {s' m' : AList β} (ha : s'.lookup a = m'.lookup a)
    (hs : ∀ b, b ≠ a → s'.lookup b = (shards.get (index a)).lookup b) (hm : ∀ b, b ≠ a → m'.lookup b = m.lookup b) :
    Represents index (shards.set (index a) s') m' := by
  have hget : ∀ i, (shards.set (index a) s').get i = if index a = i then s' else shards.get i := fun i => by
    simp only [Fin.ext_iff]
    exact Vector.getElem_set (index a).isLt i.isLt
  refine ⟨fun b => ?_, fun i b hb => ?_⟩
  · rw [hget]
    by_cases hb : b = a
    · rw [hb, if_pos rfl, ha]
    · rw [hm b hb, ← h.lookup b]
      split_ifs with hi
      · rw [hs b hb, hi]
      · rfl
  · rw [hget] at hb
    split_ifs at hb with hi
    · rcases eq_or_ne b a with rfl | hne
      · exact hi
      · rw [← AList.lookup_isSome, hs b hne, AList.lookup_isSome] at hb
        rw [h.home _ b hb, hi]
    · exact h.home i b hb

/-- Shards that are filtered one by one are the map filtered. -/
theorem Represents.filter (h : Represents index shards m) (p : ∀ a, β a → Bool) :
    Represents index (shards.map (filter p)) (filter p m) := by
  have hget : ∀ i, (shards.map (ShardedMap.filter p)).get i = ShardedMap.filter p (shards.get i) :=
    fun i => Vector.getElem_map _ i.isLt
  refine ⟨fun a => ?_, fun i a ha => ?_⟩
  · rw [hget, lookup_filter, lookup_filter, h.lookup]
  · rw [hget, ← AList.lookup_isSome, lookup_filter] at ha
    refine h.home i a (AList.lookup_isSome.mp ?_)
    obtain ⟨b, hb⟩ := Option.isSome_iff_exists.mp ha
    rw [(Option.filter_eq_some_iff.mp hb).1]
    rfl

/-- A key is in the map if it is in its shard. -/
theorem Represents.mem_iff (h : Represents index shards m) (a : α) : a ∈ m ↔ a ∈ shards.get (index a) := by
  rw [← AList.lookup_isSome, ← AList.lookup_isSome, h.lookup]

/-- The keys of the pieces, one piece after the other, are the keys of the map. -/
theorem Represents.keys_perm (h : Represents index shards m) :
    (shards.toList.flatMap AList.keys).Perm m.keys := by
  rw [List.perm_ext_iff_of_nodup ?_ m.keys_nodup]
  · intro a
    rw [List.mem_flatMap, ← AList.mem_keys, h.mem_iff]
    constructor
    · rintro ⟨s, hs, ha⟩
      obtain ⟨i, hi, rfl⟩ := List.mem_iff_getElem.mp hs
      rw [Vector.length_toList] at hi
      rw [h.home ⟨i, hi⟩ a (AList.mem_keys.mpr ha)]
      exact AList.mem_keys.mpr ha
    · intro ha
      exact ⟨shards.get (index a), Vector.mem_toList_iff.mpr (Vector.getElem_mem _), AList.mem_keys.mp ha⟩
  · rw [List.nodup_flatMap]
    refine ⟨fun s _ => s.keys_nodup, ?_⟩
    rw [List.pairwise_iff_getElem]
    intro i j hi hj hij a hai haj
    rw [Vector.length_toList] at hi hj
    have hi' := h.home ⟨i, hi⟩ a (AList.mem_keys.mpr hai)
    have hj' := h.home ⟨j, hj⟩ a (AList.mem_keys.mpr haj)
    have : i = j := Fin.mk.inj (hi'.symm.trans hj')
    omega

/-- The sizes of the pieces add up to the size of the map. -/
theorem Represents.size (h : Represents index shards m) : shards.foldl (fun tot s => tot + size s) 0 = size m := by
  have hfold : ∀ (l : List (AList β)) (tot : Nat),
      l.foldl (fun tot s => tot + ShardedMap.size s) tot = tot + (l.flatMap AList.keys).length := by
    intro l
    induction l with
    | nil => intro tot; rfl
    | cons s l ih =>
      intro tot
      rw [List.foldl_cons, ih, List.flatMap_cons, List.length_append, size_eq_length_keys, Nat.add_assoc]
  rw [size_eq_length_keys, ← h.keys_perm.length_eq, ← Vector.foldl_toList, hfold, Nat.zero_add]

end ShardedMap
