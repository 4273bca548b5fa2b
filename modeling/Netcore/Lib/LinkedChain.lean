import Mathlib.Data.List.Nodup
import Mathlib.Logic.Function.Basic

/-!
# Chains of pointers

An intrusive singly linked list keeps its links in the nodes: `next x` is where the node `x` points to, and `none` is null.
`Linked next a l` says that the nodes met from the pointer `a` on are those of `l`, in order, and that the last of them points
to null. The lemmas say how a write to a link is seen by a chain: not at all when the node is not on it (`Linked.update`), and
as one more node when the write goes to the last one (`Linked.snoc`).
-/

namespace LinkedChain

variable {ν : Type*}

/-- The nodes from a pointer on, up to null. -/
def Linked (next : ν → Option ν) : Option ν → List ν → Prop
  | a, [] => a = none
  | a, x :: l => a = some x ∧ Linked next (next x) l

@[simp] theorem linked_nil {next : ν → Option ν} {a : Option ν} : Linked next a [] ↔ a = none := Iff.rfl

@[simp] theorem linked_cons {next : ν → Option ν} {a : Option ν} {x : ν} {l : List ν} :
    Linked next a (x :: l) ↔ a = some x ∧ Linked next (next x) l := Iff.rfl

/-- A pointer leads to one chain only. -/
theorem Linked.unique {next : ν → Option ν} {l : List ν} : ∀ {l' : List ν} {a : Option ν}, Linked next a l → Linked next a l' →
    l = l' := by
  induction l with
  | nil =>
    intro l' a h h'
    cases l' with
    | nil => rfl
    | cons y l' => exact absurd (h.symm.trans h'.1) (by simp)
  | cons x l ih =>
    intro l' a h h'
    cases l' with
    | nil => exact absurd (h'.symm.trans h.1) (by simp)
    | cons y l' =>
      obtain rfl : x = y := Option.some.inj (h.1.symm.trans h'.1)
      rw [ih h.2 h'.2]

variable [DecidableEq ν]

/-- A write to a node that is not on the chain. -/
theorem Linked.update {next : ν → Option ν} {l : List ν} {x : ν} (hx : x ∉ l) (b : Option ν) : ∀ {a : Option ν},
    Linked next a l → Linked (Function.update next x b) a l := by
  induction l with
  | nil => intro a h; exact h
  | cons y l ih =>
    rintro a ⟨ha, hl⟩
    have hy : y ≠ x := fun e => hx (by simp [e])
    refine ⟨ha, ?_⟩
    rw [Function.update_of_ne hy]
    exact ih (fun hm => hx (List.mem_cons_of_mem y hm)) hl

/-- The last node of a chain, sent to a node that points to null. -/
theorem Linked.snoc {next : ν → Option ν} {l : List ν} {x y : ν} (hy : l.getLast? = some y) (hx : x ∉ l) (hnd : l.Nodup)
    (hnull : next x = none) : ∀ {a : Option ν}, Linked next a l → Linked (Function.update next y (some x)) a (l ++ [x]) := by
  induction l with
  | nil => simp at hy
  | cons z l ih =>
    rintro a ⟨ha, hl⟩
    cases l with
    | nil =>
      have hzy : z = y := by simpa using hy
      subst hzy
      have hxz : x ≠ z := fun e => hx (by simp [e])
      refine ⟨ha, ?_, ?_⟩
      · rw [Function.update_self]
      · rw [Function.update_of_ne hxz, hnull]
        rfl
    | cons w l =>
      have hyl : (w :: l).getLast? = some y := by simpa using hy
      -- the last node is further on, so the link of the first one stays
      have hzy : z ≠ y := by
        rintro rfl
        exact (List.nodup_cons.mp hnd).1 (List.mem_of_getLast? hyl)
      refine ⟨ha, ?_⟩
      rw [Function.update_of_ne hzy]
      exact ih hyl (fun hm => hx (List.mem_cons_of_mem z hm)) (List.nodup_cons.mp hnd).2 hl

end LinkedChain
