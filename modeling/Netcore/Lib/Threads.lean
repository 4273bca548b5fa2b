import Mathlib.Data.List.Nodup
import Mathlib.Data.List.Perm.Subperm

/-!
# A list of threads

Threads that make steps one at a time are a list of which one member changes. A count of the threads changes by that member
alone (`countP_set`), and threads that hold different numbers below a bound are no more than the bound
(`countP_le_of_numbered`).
-/

namespace Threads

variable {α : Type*}

theorem set_same {l : List α} {k : Nat} {a : α} (h : l[k]? = some a) (b : α) : (l.set k b)[k]? = some b := by
  obtain ⟨hlt, -⟩ := List.getElem?_eq_some_iff.mp h
  rw [List.getElem?_set_self hlt]

/-- The other members are where they were. -/
theorem set_of_ne {l : List α} {j k : Nat} {c : α} (h : l[j]? = some c) (hne : j ≠ k) (b : α) : (l.set k b)[j]? = some c := by
  rw [List.getElem?_set_ne (Ne.symm hne), h]

/-- A member is the new one, or another one that was there before. -/
theorem set_cases {l : List α} {j k : Nat} {b c : α} (h : (l.set k b)[j]? = some c) :
    j = k ∧ c = b ∨ j ≠ k ∧ l[j]? = some c := by
  rw [List.getElem?_set] at h
  split_ifs at h with hjk hlt
  · exact Or.inl ⟨hjk.symm, (Option.some.inj h).symm⟩
  · exact Or.inr ⟨Ne.symm hjk, h⟩

/-- The count with a member exchanged: what it was, less the old one, and the new one. -/
theorem countP_set {l : List α} {k : Nat} {a : α} (h : l[k]? = some a) (p : α → Bool) (b : α) :
    (l.set k b).countP p + (if p a then 1 else 0) = l.countP p + (if p b then 1 else 0) := by
  induction l generalizing k with
  | nil => simp at h
  | cons x l ih =>
    cases k with
    | zero =>
      rw [List.getElem?_cons_zero, Option.some_inj] at h
      rw [List.set_cons_zero, List.countP_cons, List.countP_cons, h]
      omega
    | succ k =>
      have := ih h
      rw [List.set_cons_succ, List.countP_cons, List.countP_cons]
      omega

/-- Different numbers below `n` are at most `n`. -/
theorem length_le_of_nodup_lt {l : List Nat} {n : Nat} (h : l.Nodup) (hlt : ∀ x ∈ l, x < n) : l.length ≤ n := by
  have hsub : l ⊆ List.range n := fun x hx => List.mem_range.mpr (hlt x hx)
  simpa using (h.subperm hsub).length_le

/-- Members that are numbered below `n`, no two alike, are at most `n`. -/
theorem countP_le_of_numbered {l : List α} {p : α → Bool} {number : α → Option Nat} {n : Nat}
    (hlt : ∀ a ∈ l, p a = true → ∃ t, number a = some t ∧ t < n)
    (hinj : ∀ (i j : Nat) a b t, l[i]? = some a → l[j]? = some b → p a = true → p b = true → number a = some t →
      number b = some t → i = j) : l.countP p ≤ n := by
  have hlen : l.countP p = ((l.filter p).filterMap number).length := by
    rw [List.countP_eq_length_filter, List.length_filterMap_eq_countP, eq_comm, List.countP_eq_length]
    intro a ha
    obtain ⟨t, ht, -⟩ := hlt a (List.mem_filter.mp ha).1 (List.mem_filter.mp ha).2
    rw [ht, Option.isSome_some]
  rw [hlen]
  refine length_le_of_nodup_lt ?_ ?_
  · have hpair : l.Pairwise fun a b => p a = true → p b = true → ∀ t, number a = some t → number b ≠ some t := by
      rw [List.pairwise_iff_getElem]
      intro i j hi hj hij hpa hpb t hta htb
      have := hinj i j _ _ t (List.getElem?_eq_getElem hi) (List.getElem?_eq_getElem hj) hpa hpb hta htb
      omega
    rw [List.Nodup, List.pairwise_filterMap, List.pairwise_filter]
    refine hpair.imp fun h hpa hpb t hta t' htb he => ?_
    subst he
    exact h hpa hpb t hta htb
  · intro t ht
    obtain ⟨a, ha, hat⟩ := List.mem_filterMap.mp ht
    obtain ⟨t', ht', hlt'⟩ := hlt a (List.mem_filter.mp ha).1 (List.mem_filter.mp ha).2
    rw [hat, Option.some_inj] at ht'
    rwa [ht']

end Threads
