import Netcore.EventLoop

/-!
# `Acceptor`

`async_accept` and the callback of the listening socket, in `core.hpp`. A coroutine that awaits a connection puts its awaiter into
`m_awaiter_que`; an event of the socket takes the first awaiter out and calls `::accept`. Every server thread has an acceptor of its
own for the same socket, so a connection that an event was about may be gone when `::accept` is called. The callback then returns,
and does not put the awaiter back: `kept_iff` says that this is the only way in which one is lost.

An awaiter is the number of its construction. The coroutine that `resume` runs may await the next connection at once; as the callback
does nothing after `resume`, that is an operation of its own.
-/

namespace Netcore

/-- What `::accept` returns: a socket, -1 with `EAGAIN` or `EWOULDBLOCK`, or -1 with another error. -/
inductive AcceptOutcome where
  | socket (fd : Nat)
  | wouldBlock
  | failed
  deriving DecidableEq, Repr

/-- `conn_sock`. -/
def AcceptOutcome.connSock : AcceptOutcome → Int
  | .socket fd => fd
  | .wouldBlock | .failed => -1

/-- An acceptor, with the number of awaiters made so far, those whose coroutines were suspended, and those that were resumed, each
with its `m_conn_socket`. `destroyed` says that the queue has an awaiter whose `await_suspend` threw, and which is no more. -/
structure Acceptor where
  awaiterQue : Queue Nat := { next := fun _ => none }
  addedToEventPool : Bool := false
  awaiters : Nat := 0
  destroyed : Bool := false
  suspended : List Nat := []
  resumed : List (Nat × Int) := []

/-- A call of `async_accept` whose awaiter is awaited, with what `epoll_ctl` says if it is called, or an event of the socket. -/
inductive AcceptorOp where
  | asyncAccept (registers : Bool)
  | event (outcome : AcceptOutcome)
  deriving DecidableEq, Repr

namespace Acceptor

/-- `AcceptorAwaiter::await_suspend`. The awaiter is in the queue before the socket is in the pool. -/
def awaitSuspend (s : Acceptor) (registers : Bool) : Acceptor :=
  let queued := { s with awaiterQue := s.awaiterQue.push s.awaiters, awaiters := s.awaiters + 1 }
  if s.addedToEventPool ∨ registers then
    { queued with addedToEventPool := true, suspended := s.suspended ++ [s.awaiters] }
  else { queued with destroyed := true }

/-- `__AcceptorCallback::on_callback`. -/
def onCallback (s : Acceptor) (outcome : AcceptOutcome) : Acceptor :=
  match s.awaiterQue.pop with
  | (none, _) => s
  | (some awaiter, que) =>
    if outcome = .wouldBlock then { s with awaiterQue := que }
    else { s with awaiterQue := que, resumed := s.resumed ++ [(awaiter, outcome.connSock)] }

/-- What an operation does. -/
def perform (s : Acceptor) : AcceptorOp → Acceptor
  | .asyncAccept registers => s.awaitSuspend registers
  | .event outcome => s.onCallback outcome

/-- An operation. Both go through the nodes of the queue, so that neither is defined when one of them is no more. -/
def step (s : Acceptor) (op : AcceptorOp) : Option Acceptor := if s.destroyed then none else some (s.perform op)

/-- How often an awaiter has been resumed. -/
def resumptions (s : Acceptor) (awaiter : Nat) : Nat := (s.resumed.map Prod.fst).count awaiter

/-- An awaiter that waits in a queue of the awaiters `l`, or has been resumed. -/
def Settled (s : Acceptor) (l : List Nat) (awaiter : Nat) : Prop :=
  (awaiter ∈ l ∧ s.resumptions awaiter = 0) ∨ (awaiter ∉ l ∧ s.resumptions awaiter = 1)

/-- Every suspended awaiter is in the queue, or has been resumed exactly once. -/
def Kept (s : Acceptor) : Prop := ∃ l, s.awaiterQue.Holds l ∧ ∀ awaiter ∈ s.suspended, s.Settled l awaiter

/-- The operations of a run are defined, and no state of it has lost an awaiter. -/
def AlwaysKept : Acceptor → List AcceptorOp → Prop
  | s, [] => s.Kept
  | s, op :: run => s.Kept ∧ ∃ s', s.step op = some s' ∧ AlwaysKept s' run

/-- What an operation needs: that no awaiter of the queue is destroyed, and that an event for which `::accept` would block finds no
awaiter. -/
def Restores (s : Acceptor) (op : AcceptorOp) : Prop :=
  s.destroyed = false ∧ (op = .event .wouldBlock → s.awaiterQue.pop.1 = none)

/-- Every operation of a run finds what it needs. -/
def AllRestore : Acceptor → List AcceptorOp → Prop
  | _, [] => True
  | s, op :: run => s.Restores op ∧ ∀ s', s.step op = some s' → AllRestore s' run

/-! ## One operation -/

/-- The queue holds the awaiters of `l`, which are suspended as long as none has been destroyed, and no number is given twice. -/
structure Holds (s : Acceptor) (l : List Nat) : Prop where
  queue : s.awaiterQue.Holds l
  settled : ∀ a ∈ s.suspended, s.Settled l a
  waiting : s.destroyed = false → l ⊆ s.suspended
  queued_lt : ∀ a ∈ l, a < s.awaiters
  suspended_lt : ∀ a ∈ s.suspended, a < s.awaiters
  resumed_lt : ∀ a ∈ s.resumed.map Prod.fst, a < s.awaiters

theorem Holds.kept {s : Acceptor} {l : List Nat} (h : s.Holds l) : s.Kept := ⟨l, h.queue, h.settled⟩

theorem holds_empty : Holds {} [] :=
  ⟨Queue.holds_empty _, fun _ h => absurd h (by simp), fun _ => List.nil_subset _, fun _ h => absurd h (by simp),
    fun _ h => absurd h (by simp), fun _ h => absurd h (by simp)⟩

/-- A queue holds one list of nodes. -/
theorem queue_unique {q : Queue Nat} {l l' : List Nat} (h : q.Holds l) (h' : q.Holds l') : l = l' := h.linked.unique h'.linked

/-- A new awaiter comes behind the others. -/
theorem awaitSuspend_holds {s : Acceptor} {l : List Nat} (h : s.Holds l) (hgone : s.destroyed = false) (registers : Bool) :
    (s.awaitSuspend registers).Holds (l ++ [s.awaiters]) := by
  have hnew : s.awaiters ∉ l := fun hm => Nat.lt_irrefl _ (h.queued_lt _ hm)
  have hqueue := Queue.push_holds h.queue hnew
  have hlt : ∀ a ∈ l ++ [s.awaiters], a < s.awaiters + 1 := by
    intro a ha
    rcases List.mem_append.mp ha with ha | ha
    · exact Nat.lt_succ_of_lt (h.queued_lt a ha)
    · rw [List.mem_singleton.mp ha]
      exact Nat.lt_succ_self _
  -- the awaiters of before are not the new one
  have hold : ∀ a ∈ s.suspended, (a ∈ l ++ [s.awaiters] ↔ a ∈ l) := by
    intro a ha
    have hne : a ≠ s.awaiters := Nat.ne_of_lt (h.suspended_lt a ha)
    simp [hne]
  have hresumed : ∀ a ∈ s.resumed.map Prod.fst, a < s.awaiters + 1 := fun a ha => Nat.lt_succ_of_lt (h.resumed_lt a ha)
  have hsettled : ∀ a ∈ s.suspended, s.Settled (l ++ [s.awaiters]) a := by
    intro a ha
    unfold Settled
    rw [hold a ha]
    exact h.settled a ha
  unfold awaitSuspend
  by_cases hadded : s.addedToEventPool ∨ registers
  · rw [if_pos hadded]
    refine ⟨hqueue, fun a ha => ?_, fun _ a ha => ?_, hlt, fun a ha => ?_, hresumed⟩
    · rcases List.mem_append.mp ha with ha | ha
      · exact hsettled a ha
      · obtain rfl := List.mem_singleton.mp ha
        exact .inl ⟨List.mem_append_right _ ha, List.count_eq_zero.mpr fun hm => Nat.lt_irrefl _ (h.resumed_lt _ hm)⟩
    · rcases List.mem_append.mp ha with ha | ha
      · exact List.mem_append_left _ (h.waiting hgone ha)
      · exact List.mem_append_right _ ha
    · rcases List.mem_append.mp ha with ha | ha
      · exact Nat.lt_succ_of_lt (h.suspended_lt a ha)
      · exact hlt a (List.mem_append_right _ ha)
  · rw [if_neg hadded]
    exact ⟨hqueue, hsettled, fun hfalse => absurd hfalse (by simp), hlt,
      fun a ha => Nat.lt_succ_of_lt (h.suspended_lt a ha), hresumed⟩

theorem step_eq_some {s s' : Acceptor} {op : AcceptorOp} : s.step op = some s' ↔ s.destroyed = false ∧ s.perform op = s' := by
  unfold step
  cases s.destroyed <;> simp

theorem onCallback_empty {s : Acceptor} (h : s.Holds []) (outcome : AcceptOutcome) : s.onCallback outcome = s := by
  rw [onCallback, Queue.pop_empty h.queue]

/-- The callback with an awaiter in the queue. -/
theorem onCallback_cons {s : Acceptor} {l : List Nat} {x : Nat} (h : s.Holds (x :: l)) (outcome : AcceptOutcome) :
    s.onCallback outcome =
      if outcome = .wouldBlock then { s with awaiterQue := s.awaiterQue.pop.2 }
      else { s with awaiterQue := s.awaiterQue.pop.2, resumed := s.resumed ++ [(x, outcome.connSock)] } := by
  have hpop : s.awaiterQue.pop = (some x, s.awaiterQue.pop.2) := Prod.ext (Queue.pop_holds h.queue).1 rfl
  rw [onCallback, hpop]

/-- The first awaiter is resumed, and is no longer in the queue. -/
theorem onCallback_holds {s : Acceptor} {l : List Nat} {x : Nat} (h : s.Holds (x :: l)) (hgone : s.destroyed = false)
    {outcome : AcceptOutcome} (hout : outcome ≠ .wouldBlock) : (s.onCallback outcome).Holds l := by
  rw [onCallback_cons h, if_neg hout]
  have hx := List.nodup_cons.mp h.queue.nodup
  have hwaiting := h.waiting hgone
  refine ⟨(Queue.pop_holds h.queue).2, fun a ha => ?_, fun _ a ha => hwaiting (List.mem_cons_of_mem x ha),
    fun a ha => h.queued_lt a (List.mem_cons_of_mem x ha), h.suspended_lt, fun a ha => ?_⟩
  · have hset := h.settled a ha
    unfold Settled resumptions at hset ⊢
    rw [List.map_append, List.count_append, List.map_singleton]
    by_cases hax : a = x
    · subst hax
      have hzero : (s.resumed.map Prod.fst).count a = 0 := by
        rcases hset with hset | hset
        · exact hset.2
        · exact absurd (List.mem_cons_self ..) hset.1
      exact .inr ⟨hx.1, by rw [hzero, List.count_singleton_self]⟩
    · have hother : [x].count a = 0 := List.count_eq_zero.mpr (by simpa using hax)
      rw [hother, Nat.add_zero]
      simpa [hax] using hset
  · rw [List.map_append] at ha
    rcases List.mem_append.mp ha with ha | ha
    · exact h.resumed_lt a ha
    · rw [List.map_singleton, List.mem_singleton] at ha
      rw [ha]
      exact h.queued_lt x (List.mem_cons_self ..)

/-- An operation that finds what it needs is defined and loses no awaiter. -/
theorem step_holds {s : Acceptor} {l : List Nat} (h : s.Holds l) {op : AcceptorOp} (hop : s.Restores op) :
    ∃ s' l', s.step op = some s' ∧ s'.Holds l' := by
  refine ⟨s.perform op, ?_⟩
  have hstep : s.step op = some (s.perform op) := step_eq_some.mpr ⟨hop.1, rfl⟩
  cases op with
  | asyncAccept registers => exact ⟨_, hstep, awaitSuspend_holds h hop.1 registers⟩
  | event outcome =>
    cases l with
    | nil =>
      refine ⟨[], hstep, ?_⟩
      rwa [perform, onCallback_empty h]
    | cons x l =>
      refine ⟨l, hstep, onCallback_holds h hop.1 ?_⟩
      rintro rfl
      exact absurd ((Queue.pop_holds h.queue).1.symm.trans (hop.2 rfl)) (by simp)

/-- An operation that is defined and loses no awaiter found what it needs. -/
theorem restores_of_kept {s s' : Acceptor} {l : List Nat} (h : s.Holds l) {op : AcceptorOp} (hstep : s.step op = some s')
    (hkept : s'.Kept) : s.Restores op := by
  obtain ⟨hgone, hs'⟩ := step_eq_some.mp hstep
  refine ⟨hgone, ?_⟩
  rintro rfl
  cases l with
  | nil => rw [Queue.pop_empty h.queue]
  | cons x l =>
    exfalso
    rw [perform, onCallback_cons h, if_pos rfl] at hs'
    -- the first awaiter is neither in the queue nor resumed
    have hx : x ∈ s.suspended := h.waiting hgone (List.mem_cons_self ..)
    have hnot : x ∉ l := (List.nodup_cons.mp h.queue.nodup).1
    have hzero : s.resumptions x = 0 := by
      rcases h.settled x hx with hset | hset
      · exact hset.2
      · exact absurd (List.mem_cons_self ..) hset.1
    obtain ⟨l', hl', hall⟩ := hkept
    subst hs'
    obtain rfl := queue_unique (Queue.pop_holds h.queue).2 hl'
    rcases hall x hx with hset | hset
    · exact hnot hset.1
    · have hone : s.resumptions x = 1 := hset.2
      omega

/-! ## Runs -/

theorem alwaysKept_iff_of_holds (run : List AcceptorOp) : ∀ {s : Acceptor} {l : List Nat}, s.Holds l →
    (AlwaysKept s run ↔ AllRestore s run) := by
  induction run with
  | nil => exact fun h => ⟨fun _ => trivial, fun _ => h.kept⟩
  | cons op run ih =>
    intro s l h
    constructor
    · rintro ⟨-, s', hstep, hrun⟩
      have hkept : s'.Kept := by
        cases run with
        | nil => exact hrun
        | cons op' run => exact hrun.1
      have hop := restores_of_kept h hstep hkept
      obtain ⟨s₁, l₁, hstep₁, h₁⟩ := step_holds h hop
      obtain rfl := Option.some.inj (hstep₁.symm.trans hstep)
      refine ⟨hop, fun s₂ hstep₂ => ?_⟩
      obtain rfl := Option.some.inj (hstep₁.symm.trans hstep₂)
      exact (ih h₁).mp hrun
    · rintro ⟨hop, hrest⟩
      obtain ⟨s', l', hstep, h'⟩ := step_holds h hop
      exact ⟨h.kept, s', hstep, (ih h').mpr (hrest s' hstep)⟩

/-- **No awaiter is lost** in a run from the beginning, exactly when every operation finds what it needs: `::accept` blocks only for
events that find no awaiter, and nothing comes after a registration that failed. -/
theorem kept_iff (run : List AcceptorOp) : AlwaysKept {} run ↔ AllRestore {} run := alwaysKept_iff_of_holds run holds_empty

/-- An awaiter is suspended, and an event comes for a connection that another thread has accepted. -/
theorem not_alwaysKept : ¬∀ run : List AcceptorOp, AlwaysKept {} run := by
  intro h
  have hrestore := (alwaysKept_iff_of_holds _ holds_empty).mp (h [.asyncAccept true, .event .wouldBlock])
  have hpop := (hrestore.2 _ rfl).1.2 rfl
  exact absurd hpop (by decide)

end Acceptor

end Netcore
