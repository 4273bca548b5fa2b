import Netcore.EventLoop
import Netcore.Lib.Threads

/-!
# The timeouts of `async_read` and `async_send`

Every awaiter of an I/O operation makes a `PostTask`, which the loop of `IoContext::run` visits once in every pass. The task
outlives its awaiter: the destructor of the awaiter clears `m_ref_count`, and the next visit deletes the task. A visit before
that posts the task again, unless the time of the operation is up: then the coroutine is resumed with an exception, and the
task is neither posted again nor deleted. `conserved_iff` says that this is the only way a task is lost.

Awaiters and tasks are numbered in the order of their making, so that memory which is given out again has a new number. The
time of day is an integer and may jump. `visits` is a record of what each visit found, which nothing reads.
-/

namespace Netcore

/-- The members of a `PostTask` that an awaiter sets: `m_ref_count`, `m_awaiter_ptr`, and whether there is an `m_callback`. -/
structure PostTask where
  refCount : Int
  awaiterPtr : Nat
  hasCallback : Bool
  deriving DecidableEq, Repr

/-- `invalid`. -/
def PostTask.invalid (t : PostTask) : Bool := !t.hasCallback || decide (t.refCount ≤ 0)

/-- The members `m_end_time` and `m_post_ptr` of `AsyncIoWaiterBases`. -/
structure IoWaiter where
  endTime : Int
  postPtr : Nat
  deriving DecidableEq, Repr

/-- `expired`. -/
def IoWaiter.expired (w : IoWaiter) (now : Int) : Bool := decide (w.endTime < now)

/-- What a coroutine does to awaiters while it runs: it starts an operation, which constructs one, or an operation of it has
come to its end, completed or failed, and its awaiter is destroyed. -/
inductive IoAct where
  | start (endTime : Int)
  | finish (waiter : Nat)
  deriving DecidableEq, Repr

/-- What a visit depends on: the time it reads, and what the coroutine does when it is resumed. -/
structure Visit where
  now : Int
  resumed : List IoAct

/-- What a visit found: the task, whether its awaiter existed, and whether the time of that was up. -/
structure Visited where
  task : Nat
  live : Bool
  expired : Bool
  deriving DecidableEq, Repr

/-- The awaiter was resumed by the visit. -/
def Visited.timedOut (v : Visited) : Bool := v.live && v.expired

/-- What must not happen: the use of a deleted task or of a destroyed awaiter, a call through a null node. `running` is a loop
cut off by the fuel of the model. -/
inductive Fault where
  | deletedTask
  | destroyedWaiter
  | nullTask
  | running
  deriving DecidableEq, Repr

/-- `IoContext` with the tasks and the awaiters that exist. -/
structure IoContext where
  queue : Queue Nat := { next := fun _ => none }
  tasks : Nat → Option PostTask := fun _ => none
  waiters : Nat → Option IoWaiter := fun _ => none
  created : Nat := 0
  visits : List Visited := []

namespace IoContext

/-- `post_task`. -/
def postTask (s : IoContext) (task : Nat) : IoContext := { s with queue := s.queue.push task }

/-- The constructor and the destructor of `AsyncIoWaiterBases`. An awaiter is destroyed once. -/
def act (s : IoContext) : IoAct → Except Fault IoContext
  | .start endTime =>
    .ok <| postTask { s with
      tasks := Function.update s.tasks s.created (some ⟨1, s.created, true⟩)
      waiters := Function.update s.waiters s.created (some ⟨endTime, s.created⟩)
      created := s.created + 1 } s.created
  | .finish n =>
    match s.waiters n with
    | none => .ok s
    | some w =>
      match s.tasks w.postPtr with
      | none => .error .deletedTask
      | some task => .ok { s with
          tasks := Function.update s.tasks w.postPtr (some { task with refCount := 0 })
          waiters := Function.update s.waiters n none }

def acts (s : IoContext) : List IoAct → Except Fault IoContext
  | [] => .ok s
  | a :: as =>
    match s.act a with
    | .ok s => s.acts as
    | .error e => .error e

/-- `check_deley`. -/
def checkDeley (v : Visit) (s : IoContext) (node : Nat) (task : PostTask) : Except Fault IoContext :=
  if task.invalid then .ok { s with tasks := Function.update s.tasks node none }
  else
    match s.waiters task.awaiterPtr with
    | none => .error .destroyedWaiter
    | some w => if w.expired v.now then s.acts v.resumed else .ok (s.postTask node)

/-- The record of a visit. -/
def record (s : IoContext) (now : Int) (node : Nat) (task : PostTask) : IoContext :=
  { s with visits := s.visits ++
      [⟨node, (s.waiters task.awaiterPtr).isSome, (s.waiters task.awaiterPtr).any (·.expired now)⟩] }

/-- `call`, with the visit of that number. What the coroutine throws is caught in `run`. -/
def call (env : Nat → Visit) (s : IoContext) (node : Nat) : Except Fault IoContext :=
  match s.tasks node with
  | none => .error .deletedTask
  | some task =>
    let v := env s.visits.length
    if task.hasCallback then checkDeley v (s.record v.now node task) node task else .ok (s.record v.now node task)

/-- The `for` loop of the task phase, as in `callUntil`. -/
def visitUntil (env : Nat → Visit) (stop : Option Nat) : Nat → Option Nat → IoContext → Except Fault IoContext
  | 0, node, s => if node = stop then .ok s else .error .running
  | fuel + 1, node, s =>
    if node = stop then .ok s
    else
      match node with
      | none => .error .nullTask
      | some x =>
        match s.call env x with
        | .ok s => visitUntil env stop fuel s.queue.pop.1 { s with queue := s.queue.pop.2 }
        | .error e => .error e

/-- One pass of the task phase. There are at most as many tasks in the queue as have been made. -/
def taskPass (env : Nat → Visit) (s : IoContext) : Except Fault IoContext :=
  match visitUntil env s.queue.tail s.created s.queue.pop.1 { s with queue := s.queue.pop.2 } with
  | .ok s' =>
    match s.queue.tail with
    | none => .ok s'
    | some x => s'.call env x
  | .error e => .error e

/-- `run`: in every pass the tasks are visited, and then the events of the pass make coroutines go on. What was started
before the loop can be taken as the events of a first pass, which finds the queue empty. -/
def run (env : Nat → Visit) (s : IoContext) : List (List IoAct) → Except Fault IoContext
  | [] => .ok s
  | events :: passes =>
    match s.taskPass env with
    | .ok s =>
      match s.acts events with
      | .ok s => s.run env passes
      | .error e => .error e
    | .error e => .error e

/-- The tasks of which a visit has resumed the awaiter, in order. -/
def timedOut (s : IoContext) : List Nat := (s.visits.filter Visited.timedOut).map Visited.task

/-! ## The invariant -/

/-- What holds with the tasks of `l` in the queue or in hand: these and the ones that have timed out are the tasks that are
not deleted; a task and an awaiter of one number belong together, and the task is valid as long as the awaiter exists. -/
structure Inv (s : IoContext) (l : List Nat) : Prop where
  owned : ∀ t, (s.tasks t).isSome ↔ t ∈ l ∨ t ∈ s.timedOut
  nodup : (l ++ s.timedOut).Nodup
  task : ∀ t task, s.tasks t = some task → t < s.created ∧ task.awaiterPtr = t ∧ task.hasCallback = true ∧
    (0 < task.refCount ↔ (s.waiters t).isSome)
  waiter : ∀ n w, s.waiters n = some w → w.postPtr = n ∧ (s.tasks n).isSome
  visited : ∀ v ∈ s.visits, v.task < s.created ∧ (v.live = false → s.tasks v.task = none)

theorem inv_empty : Inv {} [] where
  owned := by simp [timedOut]
  nodup := by simp [timedOut]
  task := by simp
  waiter := by simp
  visited := by simp

variable {env : Nat → Visit} {s s' : IoContext} {l : List Nat}

/-- Numbers that have not been given out. -/
theorem Inv.fresh (h : Inv s l) : s.tasks s.created = none := by
  cases ht : s.tasks s.created with
  | none => rfl
  | some task => exact absurd (h.task _ _ ht).1 (Nat.lt_irrefl _)

/-- An awaiter is made. -/
theorem Inv.start (h : Inv s l) (endTime : Int) : ∃ s', s.act (.start endTime) = .ok s' ∧ Inv s' (l ++ [s.created]) ∧
    s'.queue = s.queue.push s.created ∧ s'.visits = s.visits := by
  refine ⟨_, rfl, ?_, rfl, rfl⟩
  have hfree : ¬(s.created ∈ l ∨ s.created ∈ s.timedOut) := by
    rw [← h.owned, h.fresh]
    simp
  have hmade : ∀ t, (Function.update s.tasks s.created (some ⟨1, s.created, true⟩) t).isSome ↔
      t = s.created ∨ (s.tasks t).isSome := by
    intro t
    by_cases ht : t = s.created
    · simp [ht]
    · simp [ht]
  refine ⟨?_, ?_, ?_, ?_, ?_⟩
  · intro t
    refine (hmade t).trans ?_
    rw [h.owned, List.mem_append, List.mem_singleton]
    exact ⟨by tauto, by tauto⟩
  · have hperm : (l ++ [s.created] ++ s.timedOut).Perm (s.created :: (l ++ s.timedOut)) := by simp
    refine hperm.nodup_iff.mpr (List.nodup_cons.mpr ⟨?_, h.nodup⟩)
    rwa [List.mem_append]
  · intro t task ht
    by_cases he : t = s.created
    · subst he
      simp only [postTask, Function.update_self] at ht ⊢
      cases ht
      simp
    · simp only [postTask, Function.update_of_ne he] at ht ⊢
      obtain ⟨h1, h2⟩ := h.task t task ht
      exact ⟨by omega, h2⟩
  · intro n w hw
    refine ⟨?_, (hmade n).mpr ?_⟩
    all_goals by_cases he : n = s.created
    · subst he
      simp only [postTask, Function.update_self] at hw
      cases hw
      rfl
    · simp only [postTask, Function.update_of_ne he] at hw
      exact (h.waiter n w hw).1
    · exact .inl he
    · simp only [postTask, Function.update_of_ne he] at hw
      exact .inr (h.waiter n w hw).2
  · intro v hv
    obtain ⟨h1, h2⟩ := h.visited v hv
    refine ⟨Nat.lt_succ_of_lt h1, fun hlive => ?_⟩
    exact (Function.update_of_ne (Nat.ne_of_lt h1) _ _).trans (h2 hlive)

/-- An awaiter is destroyed. -/
theorem Inv.finish (h : Inv s l) (n : Nat) : ∃ s', s.act (.finish n) = .ok s' ∧ Inv s' l ∧ s'.queue = s.queue ∧
    s'.visits = s.visits := by
  cases hw : s.waiters n with
  | none => exact ⟨s, by rw [act, hw], h, rfl, rfl⟩
  | some w =>
    obtain ⟨hpost, hsome⟩ := h.waiter n w hw
    obtain ⟨task, ht⟩ := Option.isSome_iff_exists.mp hsome
    have hact : s.act (.finish n) = .ok { s with
        tasks := Function.update s.tasks n (some { task with refCount := 0 })
        waiters := Function.update s.waiters n none } := by
      rw [act, hw]
      simp only [hpost, ht]
    refine ⟨_, hact, ?_, rfl, rfl⟩
    have hkept : ∀ t, (Function.update s.tasks n (some { task with refCount := 0 }) t).isSome ↔ (s.tasks t).isSome := by
      intro t
      by_cases he : t = n
      · simp [he, hsome]
      · simp [he]
    refine ⟨fun t => (hkept t).trans (h.owned t), h.nodup, ?_, ?_, ?_⟩
    · intro t task' ht'
      by_cases he : t = n
      · subst he
        simp only [Function.update_self] at ht' ⊢
        cases ht'
        obtain ⟨h1, h2, h3, -⟩ := h.task t task ht
        exact ⟨h1, h2, h3, by simp⟩
      · simp only [Function.update_of_ne he] at ht' ⊢
        exact h.task t task' ht'
    · intro m w' hw'
      by_cases he : m = n
      · subst he
        simp at hw'
      · simp only [Function.update_of_ne he] at hw'
        exact ⟨(h.waiter m w' hw').1, (hkept m).mpr (h.waiter m w' hw').2⟩
    · intro v hv
      obtain ⟨h1, h2⟩ := h.visited v hv
      refine ⟨h1, fun hlive => ?_⟩
      have hnone := (hkept v.task).not.mpr (by simp [h2 hlive])
      exact Option.not_isSome_iff_eq_none.mp hnone

/-- Whatever coroutines do, no task and no awaiter is used that does not exist, and the tasks made are queued. -/
theorem Inv.acts (as : List IoAct) : ∀ {s : IoContext} {l : List Nat}, Inv s l → s.queue.Holds l → ∃ s' new, s.acts as = .ok s' ∧
    Inv s' (l ++ new) ∧ s'.queue.Holds (l ++ new) ∧ s'.visits = s.visits := by
  induction as with
  | nil =>
    intro s l h hq
    exact ⟨s, [], rfl, by rwa [List.append_nil], by rwa [List.append_nil], rfl⟩
  | cons a as ih =>
    intro s l h hq
    cases a with
    | start endTime =>
      obtain ⟨s₁, hact, h₁, hqueue, hvis⟩ := h.start endTime
      have hfresh : s.created ∉ l := fun hm => by simpa [h.fresh] using (h.owned s.created).mpr (.inl hm)
      have hq₁ : s₁.queue.Holds (l ++ [s.created]) := by
        rw [hqueue]
        exact Queue.push_holds hq hfresh
      obtain ⟨s', new, hacts, h', hq', hvis'⟩ := ih h₁ hq₁
      rw [List.append_assoc] at h' hq'
      refine ⟨s', _, ?_, h', hq', hvis'.trans hvis⟩
      rw [IoContext.acts, hact]
      exact hacts
    | finish n =>
      obtain ⟨s₁, hact, h₁, hqueue, hvis⟩ := h.finish n
      obtain ⟨s', new, hacts, h', hq', hvis'⟩ := ih h₁ (by rwa [hqueue])
      refine ⟨s', new, ?_, h', hq', hvis'.trans hvis⟩
      rw [IoContext.acts, hact]
      exact hacts

/-! ## Visits -/

/-- The tasks that have timed out, and the one of this visit. -/
theorem timedOut_record (s : IoContext) (now : Int) {x : Nat} {task : PostTask} (hptr : task.awaiterPtr = x) :
    (s.record now x task).timedOut = s.timedOut ++ if (s.waiters x).any (·.expired now) then [x] else [] := by
  unfold timedOut record
  rw [List.filter_append, List.map_append, hptr]
  cases s.waiters x with
  | none => rfl
  | some w => cases hw : w.expired now <;> simp [Visited.timedOut, hw]

/-- The order of the tasks makes no difference to the invariant. -/
theorem Inv.perm {l' : List Nat} (h : Inv s l) (hl : l.Perm l') : Inv s l' :=
  ⟨fun t => (h.owned t).trans (or_congr_left hl.mem_iff), (hl.append_right _).nodup_iff.mp h.nodup, h.task, h.waiter, h.visited⟩

/-- The awaiter of a task that is visited has been destroyed: the task is deleted. -/
theorem Inv.deleted {x : Nat} {task : PostTask} (h : Inv s (x :: l)) (hptr : task.awaiterPtr = x) (hw : s.waiters x = none)
    (now : Int) (ht : s.tasks x = some task) :
    Inv { s.record now x task with tasks := Function.update s.tasks x none } l := by
  have hnd : (x :: (l ++ s.timedOut)).Nodup := h.nodup
  obtain ⟨hx, hnd⟩ := List.nodup_cons.mp hnd
  rw [List.mem_append] at hx
  have hout : (s.record now x task).timedOut = s.timedOut := by
    rw [timedOut_record s now hptr, hw]
    exact List.append_nil _
  have hout' : timedOut { s.record now x task with tasks := Function.update s.tasks x none } = s.timedOut := hout
  refine ⟨?_, by rwa [hout'], ?_, ?_, ?_⟩
  · intro t
    rw [hout']
    by_cases he : t = x
    · subst he
      simp [hx]
    · have hold := h.owned t
      rw [List.mem_cons, or_assoc, or_iff_right he] at hold
      simpa [he] using hold
  · intro t task' ht'
    by_cases he : t = x
    · subst he
      simp at ht'
    · simp only [Function.update_of_ne he] at ht'
      exact h.task t task' ht'
  · intro n w' hw'
    have hn : n ≠ x := by
      rintro rfl
      exact absurd (hw.symm.trans hw') (by simp)
    refine ⟨(h.waiter n w' hw').1, ?_⟩
    simpa only [Function.update_of_ne hn] using (h.waiter n w' hw').2
  · intro v hv
    rcases List.mem_append.mp hv with hv | hv
    · obtain ⟨h1, h2⟩ := h.visited v hv
      refine ⟨h1, fun hlive => ?_⟩
      by_cases he : v.task = x
      · simp [he]
      · simpa only [Function.update_of_ne he] using h2 hlive
    · obtain rfl := List.mem_singleton.mp hv
      exact ⟨(h.task x task ht).1, fun _ => Function.update_self _ _ _⟩

/-- The record of a visit that found the awaiter. -/
theorem Inv.visited_record {x : Nat} {task : PostTask} {w : IoWaiter} (h : Inv s (x :: l)) (hptr : task.awaiterPtr = x)
    (hw : s.waiters x = some w) (now : Int) (ht : s.tasks x = some task) : ∀ v ∈ (s.record now x task).visits,
      v.task < s.created ∧ (v.live = false → s.tasks v.task = none) := by
  intro v hv
  rcases List.mem_append.mp hv with hv | hv
  · exact h.visited v hv
  · obtain rfl := List.mem_singleton.mp hv
    refine ⟨(h.task x task ht).1, fun hlive => ?_⟩
    simp [hptr, hw] at hlive

/-- The time is up: the task is not queued any more, and stays. -/
theorem Inv.lost {x : Nat} {task : PostTask} {w : IoWaiter} (h : Inv s (x :: l)) (hptr : task.awaiterPtr = x)
    (hw : s.waiters x = some w) {now : Int} (ht : s.tasks x = some task) (hexp : w.expired now = true) :
    Inv (s.record now x task) l := by
  have hout : (s.record now x task).timedOut = s.timedOut ++ [x] := by
    rw [timedOut_record s now hptr, hw, if_pos (by simpa using hexp)]
  refine ⟨?_, ?_, h.task, h.waiter, h.visited_record hptr hw now ht⟩
  · intro t
    refine (h.owned t).trans ?_
    rw [hout, List.mem_cons, List.mem_append, List.mem_singleton]
    exact ⟨by tauto, by tauto⟩
  · have hperm : (l ++ (s.timedOut ++ [x])).Perm (x :: l ++ s.timedOut) := by
      rw [← List.append_assoc]
      exact List.perm_append_singleton x _
    rw [hout]
    exact hperm.nodup_iff.mpr h.nodup

/-- The time is not up: the task is posted again. -/
theorem Inv.reposted {x : Nat} {task : PostTask} {w : IoWaiter} (h : Inv s (x :: l)) (hptr : task.awaiterPtr = x)
    (hw : s.waiters x = some w) {now : Int} (ht : s.tasks x = some task) (hexp : ¬w.expired now = true) :
    Inv ((s.record now x task).postTask x) (l ++ [x]) := by
  have hout : (s.record now x task).timedOut = s.timedOut := by
    rw [timedOut_record s now hptr, hw, if_neg (by simpa using hexp), List.append_nil]
  have hsame : Inv (s.record now x task) (x :: l) := by
    refine ⟨?_, ?_, h.task, h.waiter, h.visited_record hptr hw now ht⟩
    · rw [hout]
      exact h.owned
    · rw [hout]
      exact h.nodup
  obtain ⟨h1, h2, h3, h4, h5⟩ := hsame.perm (List.perm_append_singleton x l).symm
  exact ⟨h1, h2, h3, h4, h5⟩

/-- A visit goes to a task that has not been deleted. It deletes the task, posts it again, or resumes the awaiter, whose time
was up. -/
theorem Inv.call (env : Nat → Visit) {x : Nat} (h : Inv s (x :: l)) (hq : s.queue.Holds l) : ∃ s' new v, s.call env x = .ok s' ∧
    Inv s' (l ++ new) ∧ s'.queue.Holds (l ++ new) ∧ s'.visits = s.visits ++ [v] := by
  obtain ⟨task, ht⟩ := Option.isSome_iff_exists.mp ((h.owned x).mpr (.inl (by simp)))
  obtain ⟨hlt, hptr, hcb, href⟩ := h.task x task ht
  have hcall : s.call env x = checkDeley (env s.visits.length) (s.record (env s.visits.length).now x task) x task := by
    rw [IoContext.call, ht]
    exact if_pos hcb
  rw [hcall]
  generalize env s.visits.length = v
  cases hw : s.waiters x with
  | none =>
    have hinv : task.invalid = true := by
      rw [hw] at href
      simp only [Option.isSome_none, Bool.false_eq_true, iff_false] at href
      simp [PostTask.invalid, hcb, Int.not_lt.mp href]
    rw [checkDeley, if_pos hinv]
    refine ⟨_, [], _, rfl, ?_, by rwa [List.append_nil], rfl⟩
    rw [List.append_nil]
    exact h.deleted hptr hw v.now ht
  | some w =>
    have hinv : ¬task.invalid = true := by
      rw [hw] at href
      have hpos : 0 < task.refCount := href.mpr rfl
      simp [PostTask.invalid, hcb, hpos]
    have hw' : (s.record v.now x task).waiters task.awaiterPtr = some w := by
      rw [hptr]
      exact hw
    rw [checkDeley, if_neg hinv, hw']
    by_cases hexp : w.expired v.now = true
    · obtain ⟨s', new, hacts, h', hq', hvis⟩ := Inv.acts v.resumed (h.lost hptr hw ht hexp) hq
      refine ⟨s', new, _, ?_, h', hq', hvis⟩
      simp only [hexp, if_true]
      exact hacts
    · have hx : x ∉ l := fun hm => (List.nodup_cons.mp h.nodup).1 (List.mem_append_left _ hm)
      refine ⟨_, [x], _, ?_, h.reposted hptr hw ht hexp, Queue.push_holds hq hx, rfl⟩
      simp only [hexp]
      rfl

/-! ## Passes -/

/-- The loop, with the popped task `x` and the tasks `rest` of the beginning still to come. It stops at the last one, which
then is in hand. -/
theorem Inv.visitUntil (env : Nat → Visit) {stop : Option Nat} (rest : List Nat) : ∀ (x : Nat) {s : IoContext} {new : List Nat}
    {fuel : Nat}, rest.length ≤ fuel → (x :: rest).getLast? = stop → Inv s (x :: (rest ++ new)) → s.queue.Holds (rest ++ new) →
    ∃ s' last new', visitUntil env stop fuel (some x) s = .ok s' ∧ stop = some last ∧ Inv s' (last :: new') ∧
      s'.queue.Holds new' ∧ s.visits <+: s'.visits := by
  induction rest with
  | nil =>
    intro x s new fuel _ hstop h hq
    have hx : some x = stop := by simpa using hstop
    refine ⟨s, x, new, ?_, hx.symm, h, hq, List.prefix_refl _⟩
    cases fuel with
    | zero => exact if_pos hx
    | succ fuel => exact if_pos hx
  | cons y rest ih =>
    intro x s new fuel hfuel hstop h hq
    have hlast : (y :: rest).getLast? = stop := by simpa using hstop
    -- the last task is among those still queued, and the popped one is not
    have hx : some x ≠ stop := by
      intro he
      rw [← he] at hlast
      have hmem := List.mem_of_getLast? hlast
      exact (List.nodup_cons.mp h.nodup).1 (List.mem_append_left _ (List.mem_append_left _ hmem))
    obtain ⟨fuel, rfl⟩ : ∃ k, fuel = k + 1 := ⟨fuel - 1, by rw [List.length_cons] at hfuel; omega⟩
    obtain ⟨s₁, made, v, hcall, h₁, hq₁, hvis⟩ := h.call env hq
    rw [List.cons_append, List.cons_append, List.append_assoc] at h₁ hq₁
    obtain ⟨hpop, hq₂⟩ := Queue.pop_holds hq₁
    have h₂ : Inv { s₁ with queue := s₁.queue.pop.2 } (y :: (rest ++ (new ++ made))) :=
      ⟨h₁.owned, h₁.nodup, h₁.task, h₁.waiter, h₁.visited⟩
    obtain ⟨s', last, new', hloop, hstop', h', hq', hvis'⟩ := @ih y _ _ fuel
      (show rest.length ≤ fuel by rw [List.length_cons] at hfuel; omega) hlast h₂ hq₂
    refine ⟨s', last, new', ?_, hstop', h', hq', ?_⟩
    · rw [IoContext.visitUntil, if_neg hx]
      simp only [hcall, hpop]
      exact hloop
    · refine List.IsPrefix.trans ?_ hvis'
      rw [hvis]
      exact List.prefix_append _ _

/-- The task phase. -/
theorem Inv.taskPass (env : Nat → Visit) (h : Inv s l) (hq : s.queue.Holds l) : ∃ s' l', s.taskPass env = .ok s' ∧
    Inv s' l' ∧ s'.queue.Holds l' ∧ s.visits <+: s'.visits := by
  cases l with
  | nil =>
    have htail : s.queue.tail = none := hq.tail_eq_none_iff.mpr rfl
    refine ⟨s, [], ?_, h, hq, List.prefix_refl _⟩
    have hloop : IoContext.visitUntil env none s.created none s = .ok s := by
      cases s.created with
      | zero => rfl
      | succ n => rfl
    rw [IoContext.taskPass, Queue.pop_empty hq, htail]
    simp only [hloop]
  | cons x rest =>
    obtain ⟨hpop, hrest⟩ := Queue.pop_holds hq
    have hpopped : Inv { s with queue := s.queue.pop.2 } (x :: (rest ++ [])) := by
      rw [List.append_nil]
      exact ⟨h.owned, h.nodup, h.task, h.waiter, h.visited⟩
    have hlt : ∀ t ∈ x :: rest, t < s.created := by
      intro t ht
      obtain ⟨task, htask⟩ := Option.isSome_iff_exists.mp ((h.owned t).mpr (.inl ht))
      exact (h.task t task htask).1
    have hfuel := Threads.length_le_of_nodup_lt hq.nodup hlt
    rw [List.length_cons] at hfuel
    obtain ⟨s₁, last, new, hloop, hstop, h₁, hq₁, hvis₁⟩ := hpopped.visitUntil env rest x (Nat.le_of_succ_le hfuel) hq.tail.symm
      (by rwa [List.append_nil])
    obtain ⟨s', made, v, hcall, h', hq', hvis'⟩ := h₁.call env hq₁
    refine ⟨s', _, ?_, h', hq', hvis₁.trans ?_⟩
    · rw [IoContext.taskPass, hpop, hloop, hstop]
      exact hcall
    · rw [hvis']
      exact List.prefix_append _ _

/-- Runs: nothing is used that does not exist, and the invariant holds at the end. -/
theorem Inv.run (env : Nat → Visit) (passes : List (List IoAct)) : ∀ {s : IoContext} {l : List Nat}, Inv s l → s.queue.Holds l →
    ∃ s' l', s.run env passes = .ok s' ∧ Inv s' l' ∧ s'.queue.Holds l' ∧ s.visits <+: s'.visits := by
  induction passes with
  | nil =>
    intro s l h hq
    exact ⟨s, l, rfl, h, hq, List.prefix_refl _⟩
  | cons events passes ih =>
    intro s l h hq
    obtain ⟨s₁, l₁, hpass, h₁, hq₁, hvis₁⟩ := h.taskPass env hq
    obtain ⟨s₂, made, hacts, h₂, hq₂, hvis₂⟩ := Inv.acts events h₁ hq₁
    obtain ⟨s', l', hrun, h', hq', hvis'⟩ := ih h₂ hq₂
    refine ⟨s', l', ?_, h', hq', hvis₁.trans (by rwa [← hvis₂])⟩
    rw [IoContext.run, hpass]
    simp only [hacts]
    exact hrun

theorem run_append (env : Nat → Visit) (a b : List (List IoAct)) : ∀ s : IoContext,
    s.run env (a ++ b) = (s.run env a).bind fun s => s.run env b := by
  induction a with
  | nil => intro s; rfl
  | cons events a ih =>
    intro s
    rw [List.cons_append, IoContext.run, IoContext.run]
    cases s.taskPass env with
    | error e => rfl
    | ok s₁ =>
      dsimp only
      cases s₁.acts events with
      | error e => rfl
      | ok s₂ => exact ih s₂

/-- Every task that is not deleted is in the queue exactly once. -/
def Queued (s : IoContext) : Prop := ∃ l, s.queue.Holds l ∧ ∀ t, (s.tasks t).isSome → l.count t = 1

/-- After each pass of the loop, the tasks that are not deleted are queued once; no deleted task has been visited and no
destroyed awaiter used; the tasks that were visited after their awaiter are deleted, and no awaiter has been resumed twice. -/
def Conserved (env : Nat → Visit) (passes : List (List IoAct)) : Prop :=
  ∀ done, done <+: passes → ∃ s, run env {} done = .ok s ∧ s.Queued ∧
    (∀ v ∈ s.visits, v.live = false → s.tasks v.task = none) ∧ s.timedOut.Nodup

/-- No visit finds an awaiter whose time is up. -/
def Timely (env : Nat → Visit) (passes : List (List IoAct)) : Prop :=
  ∀ s, run env {} passes = .ok s → ∀ v ∈ s.visits, ¬(v.live = true ∧ v.expired = true)

/-- Without a time that is up, the tasks that are not deleted are the ones in the queue. -/
theorem Inv.queued_iff (h : Inv s l) (hq : s.queue.Holds l) : s.Queued ↔ s.timedOut = [] := by
  constructor
  · rintro ⟨l', hq', hcount⟩
    obtain rfl : l = l' := hq.linked.unique hq'.linked
    rw [List.eq_nil_iff_forall_not_mem]
    intro t ht
    have hmem : t ∈ l := List.count_pos_iff.mp (by rw [hcount t ((h.owned t).mpr (.inr ht))]; exact Nat.one_pos)
    exact (List.nodup_append.mp h.nodup).2.2 t hmem t ht rfl
  · intro hnone
    refine ⟨l, hq, fun t ht => List.count_eq_one_of_mem hq.nodup ?_⟩
    rcases (h.owned t).mp ht with hl | hout
    · exact hl
    · rw [hnone] at hout
      cases hout

theorem timedOut_eq_nil_iff (s : IoContext) : s.timedOut = [] ↔ ∀ v ∈ s.visits, ¬(v.live = true ∧ v.expired = true) := by
  simp [timedOut, List.filter_eq_nil_iff, Visited.timedOut]

/-- In every run, whatever happens to be up in time, all but the first part of `Conserved` holds. -/
theorem run_sound (env : Nat → Visit) (passes : List (List IoAct)) : ∃ s, run env {} passes = .ok s ∧
    (∀ v ∈ s.visits, v.live = false → s.tasks v.task = none) ∧ s.timedOut.Nodup := by
  obtain ⟨s, l, hrun, h, -, -⟩ := inv_empty.run env passes (Queue.holds_empty _)
  exact ⟨s, hrun, fun v hv => (h.visited v hv).2, (List.nodup_append.mp h.nodup).2.1⟩

/-- In every run, the tasks are conserved exactly if no awaiter that still exists is found with its time up. -/
theorem conserved_iff (env : Nat → Visit) (passes : List (List IoAct)) : Conserved env passes ↔ Timely env passes := by
  constructor
  · rintro h s hrun
    obtain ⟨s', hrun', hqueued, -, -⟩ := h passes (List.prefix_refl _)
    obtain ⟨s₁, l, hrun₁, hinv, hq, -⟩ := inv_empty.run env passes (Queue.holds_empty _)
    obtain rfl := Except.ok.inj (hrun.symm.trans hrun₁)
    obtain rfl := Except.ok.inj (hrun.symm.trans hrun')
    exact (timedOut_eq_nil_iff s).mp ((hinv.queued_iff hq).mp hqueued)
  · rintro h done ⟨rest, rfl⟩
    obtain ⟨s, l, hrun, hinv, hq, -⟩ := inv_empty.run env done (Queue.holds_empty _)
    obtain ⟨s', l', hrun', -, -, hvis⟩ := hinv.run env rest hq
    have hnone := h s' (by rw [run_append, hrun]; exact hrun')
    have hqueued : s.Queued := (hinv.queued_iff hq).mpr ((timedOut_eq_nil_iff s).mpr fun v hv => hnone v (hvis.subset hv))
    exact ⟨s, hrun, hqueued, fun v hv => (hinv.visited v hv).2, (List.nodup_append.mp hinv.nodup).2.1⟩

/-- A read that times out in the second pass: its coroutine catches the exception, and the awaiter is destroyed. The task is
left behind. -/
theorem not_conserved : ¬Conserved (fun _ => ⟨11, [.finish 0]⟩) [[.start 10], []] := by
  intro h
  obtain ⟨s, hrun, ⟨l, hq, hcount⟩, -, -⟩ := h _ (List.prefix_refl _)
  have hleft : (run (fun _ => ⟨11, [.finish 0]⟩) {} [[.start 10], []]).map (fun s => (s.queue.tail, s.tasks 0)) =
      .ok (none, some ⟨0, 0, true⟩) := rfl
  rw [hrun] at hleft
  obtain ⟨htail, htask⟩ := Prod.mk.inj (Except.ok.inj hleft)
  have hone := hcount 0 (by rw [htask]; rfl)
  rw [hq.tail_eq_none_iff.mp htail] at hone
  cases hone

end IoContext

end Netcore
