import Mathlib.Data.List.Sort

/-!
# Ordered maps as association lists

`std::map` and `std::multimap` keep their entries in key order, and programs iterate over them in that order. Here both
are lists of pairs in key order: a map has one entry for each key, a multimap keeps the entries of one key in the order
they were added. Lookups are by equality of keys, so what they return depends on the entries and not on the order.
-/

namespace OrderedMap

variable {κ ν : Type*} [LT κ] [DecidableLT κ]

/-- `std::multimap::emplace`: the entry goes after every entry whose key is not greater. -/
def emplaceMulti (m : List (κ × ν)) (k : κ) (v : ν) : List (κ × ν) :=
  m.orderedInsert (fun a b => a.1 < b.1) (k, v)

/-- The multimap of a list of entries added in order. -/
def multimapOf (l : List (κ × ν)) : List (κ × ν) := l.foldl (fun m e => emplaceMulti m e.1 e.2) []

/-- A multimap has all that was put into it, in some order. -/
theorem foldl_emplaceMulti_perm (l m : List (κ × ν)) :
    (l.foldl (fun m e => emplaceMulti m e.1 e.2) m).Perm (m ++ l) := by
  induction l generalizing m with
  | nil => simp
  | cons e l ih =>
    refine (ih _).trans ?_
    refine ((List.perm_orderedInsert _ e m).append_right l).trans ?_
    exact List.perm_middle.symm

/-- A multimap holds exactly the entries that were added, each as often as it was added. -/
theorem multimapOf_perm (l : List (κ × ν)) : (multimapOf l).Perm l := by
  simpa [multimapOf] using foldl_emplaceMulti_perm l []

variable [DecidableEq κ]

/-- `find`: the value of the key, if the map has it. -/
def find (m : List (κ × ν)) (k : κ) : Option ν := (m.find? (fun e => decide (e.1 = k))).map (·.2)

/-- `std::map::emplace`: a key that is present keeps its value. -/
def emplace (m : List (κ × ν)) (k : κ) (v : ν) : List (κ × ν) :=
  if (find m k).isSome then m else emplaceMulti m k v

/-- After `emplace` a map is not empty. -/
theorem emplace_ne_nil (m : List (κ × ν)) (k : κ) (v : ν) : emplace m k v ≠ [] := by
  unfold emplace
  split
  · rintro rfl
    simp [find] at *
  · intro h
    have hlen := congrArg List.length h
    rw [emplaceMulti, List.orderedInsert_length] at hlen
    simp at hlen

/-- `m[k] = v`. -/
def insertOrAssign (m : List (κ × ν)) (k : κ) (v : ν) : List (κ × ν) :=
  if (find m k).isSome then m.map (fun e => if e.1 = k then (k, v) else e) else emplaceMulti m k v

omit [LT κ] [DecidableLT κ] in
@[simp] theorem find_nil (k : κ) : find ([] : List (κ × ν)) k = none := rfl

omit [LT κ] [DecidableLT κ] in
theorem find_cons (e : κ × ν) (m : List (κ × ν)) (k : κ) :
    find (e :: m) k = if e.1 = k then some e.2 else find m k := by
  by_cases h : e.1 = k <;> simp [find, h]

/-- A key that a multimap does not hold is found after it is added; the other keys are found as before. -/
theorem find_emplaceMulti (m : List (κ × ν)) (k k' : κ) (v : ν) (h : find m k = none) :
    find (emplaceMulti m k v) k' = if k = k' then some v else find m k' := by
  induction m with
  | nil => simp [emplaceMulti, find_cons]
  | cons e m ih =>
    rw [find_cons] at h
    by_cases he : e.1 = k
    · simp [he] at h
    · rw [if_neg he] at h
      have ih := ih h
      simp only [emplaceMulti, List.orderedInsert] at ih ⊢
      split
      · simp only [find_cons]
      · rw [find_cons, ih, find_cons]
        by_cases h1 : e.1 = k'
        · rw [if_pos h1, if_neg (fun h2 => he (h1.trans h2.symm)), if_pos h1]
        · rw [if_neg h1, if_neg h1]

/-- `emplace` keeps the value of a key that is there. -/
theorem find_emplace (m : List (κ × ν)) (k k' : κ) (v : ν) :
    find (emplace m k v) k' = if k = k' ∧ find m k = none then some v else find m k' := by
  unfold emplace
  cases h : find m k with
  | none => simp [find_emplaceMulti m k k' v h]
  | some w => simp

/-- Entries added one after the other: what was there before comes first, then the first entry of a key. -/
theorem find_foldl_emplace (l m : List (κ × ν)) (k : κ) :
    find (l.foldl (fun m e => emplace m e.1 e.2) m) k = (find m k).or (find l k) := by
  induction l generalizing m with
  | nil => simp
  | cons e l ih =>
    rw [List.foldl_cons, ih, find_emplace, find_cons]
    by_cases h1 : e.1 = k
    · subst h1
      cases find m e.1 <;> simp
    · simp [h1]

omit [LT κ] [DecidableLT κ] in
/-- The entry of a key that no other entry has. -/
theorem find_of_mem {m : List (κ × ν)} (hd : (m.map Prod.fst).Nodup) {k : κ} {v : ν} (h : (k, v) ∈ m) : find m k = some v := by
  induction m with
  | nil => cases h
  | cons e m ih =>
    rw [List.map_cons, List.nodup_cons] at hd
    rw [find_cons]
    rcases List.mem_cons.mp h with rfl | h
    · rw [if_pos rfl]
    · rw [if_neg, ih hd.2 h]
      rintro rfl
      exact hd.1 (List.mem_map.mpr ⟨_, h, rfl⟩)

omit [LT κ] [DecidableLT κ] in
/-- What is no key has no value. -/
theorem find_eq_none {m : List (κ × ν)} {k : κ} (h : k ∉ m.map Prod.fst) : find m k = none := by
  have hne : ∀ e ∈ m, e.1 ≠ k := fun e he hk => h (List.mem_map.mpr ⟨e, he, hk⟩)
  rw [find, List.find?_eq_none.mpr fun e he => by simpa using hne e he, Option.map_none]

omit [LT κ] [DecidableLT κ] in
/-- The values of a map may be changed one by one. -/
theorem find_map_snd {μ : Type*} (m : List (κ × ν)) (f : ν → μ) (k : κ) :
    find (m.map fun e => (e.1, f e.2)) k = (find m k).map f := by
  induction m with
  | nil => rfl
  | cons e m ih =>
    rw [List.map_cons, find_cons, ih, find_cons]
    by_cases h : e.1 = k <;> simp [h]

omit [LT κ] [DecidableLT κ] in
/-- The value of one key is written, where the key is there. -/
theorem find_map_assign (m : List (κ × ν)) (k k' : κ) (v : ν) :
    find (m.map (fun e => if e.1 = k then (k, v) else e)) k' =
      if k = k' then (find m k).map (fun _ => v) else find m k' := by
  induction m with
  | nil => simp
  | cons e m ih =>
    rw [List.map_cons, find_cons, ih, find_cons, find_cons]
    by_cases h1 : e.1 = k <;> by_cases h2 : k = k'
    · simp [h1, h2]
    · simp [h1, h2]
    · subst h2
      simp [h1]
    · simp [h1, h2]

/-- `insert_or_assign` writes the value of a key, new or not. -/
theorem find_insertOrAssign (m : List (κ × ν)) (k k' : κ) (v : ν) :
    find (insertOrAssign m k v) k' = if k = k' then some v else find m k' := by
  unfold insertOrAssign
  cases h : find m k with
  | none => simp [find_emplaceMulti m k k' v h]
  | some w => simp [find_map_assign, h]

/-- The first item that is found, when all that can be found agree. -/
theorem find?_map_perm {α β : Type*} {l l' : List α} (hperm : l.Perm l') {p : α → Bool} {f : α → β}
    (h : ∀ a ∈ l, ∀ b ∈ l, p a = true → p b = true → f a = f b) : (l.find? p).map f = (l'.find? p).map f := by
  cases ha : l.find? p with
  | none =>
    have hnone : l'.find? p = none := by
      rw [List.find?_eq_none] at ha ⊢
      exact fun a hmem => ha a (hperm.mem_iff.mpr hmem)
    rw [hnone]
  | some a =>
    cases hb : l'.find? p with
    | none =>
      have := List.find?_eq_none.mp hb a (hperm.mem_iff.mp (List.mem_of_find?_eq_some ha))
      exact absurd (List.find?_some ha) this
    | some b =>
      have hb' : b ∈ l := hperm.mem_iff.mpr (List.mem_of_find?_eq_some hb)
      exact congrArg some (h a (List.mem_of_find?_eq_some ha) b hb' (List.find?_some ha) (List.find?_some hb))

omit [LT κ] [DecidableLT κ] in
/-- The order of the entries does not matter. -/
theorem find_perm {m m' : List (κ × ν)} (hperm : m.Perm m') (hnodup : (m.map Prod.fst).Nodup) (k : κ) : find m k = find m' k := by
  refine find?_map_perm hperm fun a ha b hb hpa hpb => ?_
  have ha' := find_of_mem hnodup ha
  have hb' := find_of_mem hnodup hb
  rw [of_decide_eq_true hpa] at ha'
  rw [of_decide_eq_true hpb] at hb'
  exact Option.some.inj (ha'.symm.trans hb')

end OrderedMap
