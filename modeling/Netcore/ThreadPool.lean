import Netcore.Lib.Threads

/-!
# `threadpool`

The pool of `threadpool.hpp` with its destructor, for any number of workers and any schedule of their steps. A worker tests
`_run`, takes the mutex, waits for a task or the end of `_run`, takes a task out of the queue and runs it without the mutex. The
destructor clears `_run`, without the mutex, and joins the workers. A task is the number of its commit.

A worker that comes back from a task and finds `_run` cleared leaves, whatever is in the queue. The workers that have tested
`_run` before it was cleared and have no task yet take one more each. `executed_iff` says that these are all: no task is lost
exactly if the queue is not longer than that when the destructor starts.
-/

namespace Netcore.ThreadPool

/-- `THREADPOOL_MAX_NUM`. -/
def maxNum : Nat := 16

/-- Where a worker is: before the test of `_run`; before the mutex, at first or when it has been woken; with the mutex, before it
evaluates the condition of the wait, when that was false, and when it was true; asleep, without the mutex; in a task; at the
end. -/
inductive Phase where
  | test
  | acquire
  | locked
  | unsatisfied
  | ready
  | waiting
  | running (task : Nat)
  | returned
  deriving DecidableEq, Repr

namespace Phase

def holdsLock : Phase → Bool
  | .locked | .unsatisfied | .ready => true
  | _ => false

/-- The worker has tested `_run` and has no task yet. -/
def pending : Phase → Bool
  | .acquire | .locked | .unsatisfied | .ready | .waiting => true
  | _ => false

/-- The worker runs this task. -/
def runs (t : Nat) (p : Phase) : Bool := decide (p = .running t)

end Phase

/-- The members `_run` and `_tasks`, the workers, the number of commits so far, and the tasks that have been executed. -/
structure Pool where
  run : Bool := true
  tasks : List Nat := []
  workers : List Phase
  committed : Nat := 0
  executed : List Nat := []
  deriving DecidableEq, Repr

/-- A step: a call of `commit`, the destructor clearing `_run`, or a step of a worker. -/
inductive Act where
  | commit
  | stop
  | work (k : Nat)
  deriving DecidableEq, Repr

namespace Pool

/-- A pool as its constructor makes it. -/
def make (size : Nat) : Pool := { workers := List.replicate (min size maxNum) .test }

/-- The mutex is free. -/
def free (s : Pool) : Bool := s.workers.all fun p => !p.holdsLock

/-- Worker `k` comes to a phase. -/
def moveTo (s : Pool) (k : Nat) (p : Phase) : Pool := { s with workers := s.workers.set k p }

/-- A step of worker `k`, if it can make one. A sleeping worker may be woken at any time, for a notification or for nothing. -/
def work (s : Pool) (k : Nat) : Option Pool :=
  match s.workers[k]? with
  | some .test => some (s.moveTo k (if s.run then .acquire else .returned))
  | some .acquire => if s.free then some (s.moveTo k .locked) else none
  | some .locked => some (s.moveTo k (if s.run = false ∨ s.tasks ≠ [] then .ready else .unsatisfied))
  | some .unsatisfied => some (s.moveTo k .waiting)
  | some .waiting => some (s.moveTo k .acquire)
  | some .ready =>
    if s.run = false ∧ s.tasks = [] then some (s.moveTo k .returned)
    else
      match s.tasks with
      | [] => none
      | t :: ts => some { s.moveTo k (.running t) with tasks := ts }
  | some (.running t) => some { s.moveTo k .test with executed := s.executed ++ [t] }
  | some .returned => none
  | none => none

/-- One step, if it can be made. A commit to a stopped pool throws. -/
def step (s : Pool) : Act → Option Pool
  | .commit =>
    if s.run = true ∧ s.free = true then
      some { s with tasks := s.tasks ++ [s.committed], committed := s.committed + 1 }
    else none
  | .stop => if s.run then some { s with run := false } else none
  | .work k => s.work k

/-- The steps of a schedule. -/
def schedule (s : Pool) (acts : List Act) : Option Pool := acts.foldlM step s

/-- The destructor has joined all workers. -/
def Joined (s : Pool) : Prop := s.run = false ∧ ∀ p ∈ s.workers, p = .returned

/-- The number of workers that have tested `_run` and have no task yet. -/
def pending (s : Pool) : Nat := s.workers.countP Phase.pending

variable {s s' : Pool} {a : Act} {k t : Nat}

/-! ## One step -/

/-- What a step of a worker can be: it moves on without a task, with an end or a beginning of waiting; it takes the task at the
front; or it ends a task. -/
theorem work_cases (h : s.work k = some s') : ∃ p q, s.workers[k]? = some p ∧
    ((s' = s.moveTo k q ∧ (∀ t, p.runs t = false ∧ q.runs t = false) ∧
        (p.pending = q.pending ∨ s.run = true ∨ p = .ready ∧ q = .returned ∧ s.tasks = [])) ∨
      (∃ t ts, p = .ready ∧ q = .running t ∧ s.tasks = t :: ts ∧ s' = { s.moveTo k q with tasks := ts }) ∨
      ∃ t, p = .running t ∧ q = .test ∧ s' = { s.moveTo k q with executed := s.executed ++ [t] }) := by
  unfold work at h
  cases hk : s.workers[k]? with
  | none =>
    rw [hk] at h
    cases h
  | some p =>
    rw [hk] at h
    refine ⟨p, ?_⟩
    cases p with
    | test =>
      cases hrun : s.run with
      | true => exact ⟨_, rfl, .inl ⟨(Option.some.inj h).symm, by simp [hrun, Phase.runs], .inr (.inl rfl)⟩⟩
      | false => exact ⟨_, rfl, .inl ⟨(Option.some.inj h).symm, by simp [hrun, Phase.runs], .inl (by simp [hrun, Phase.pending])⟩⟩
    | acquire =>
      dsimp only at h
      split_ifs at h
      exact ⟨_, rfl, .inl ⟨(Option.some.inj h).symm, by simp [Phase.runs], .inl rfl⟩⟩
    | locked =>
      refine ⟨_, rfl, .inl ⟨(Option.some.inj h).symm, ?_, .inl ?_⟩⟩
      · split_ifs <;> simp [Phase.runs]
      · split_ifs <;> rfl
    | unsatisfied | waiting => exact ⟨_, rfl, .inl ⟨(Option.some.inj h).symm, by simp [Phase.runs], .inl rfl⟩⟩
    | ready =>
      dsimp only at h
      split_ifs at h with hend
      · exact ⟨_, rfl, .inl ⟨(Option.some.inj h).symm, by simp [Phase.runs], .inr (.inr ⟨rfl, rfl, hend.2⟩)⟩⟩
      · cases ht : s.tasks with
        | nil =>
          rw [ht] at h
          cases h
        | cons t ts =>
          rw [ht] at h
          exact ⟨_, rfl, .inr (.inl ⟨t, ts, rfl, rfl, rfl, (Option.some.inj h).symm⟩)⟩
    | running t => exact ⟨_, rfl, .inr (.inr ⟨t, rfl, rfl, (Option.some.inj h).symm⟩)⟩
    | returned => cases h

/-- Every task committed is, once, in the queue, in a worker or executed. -/
def Accounted (s : Pool) : Prop := ∀ t, s.executed.count t + s.workers.countP (Phase.runs t) + s.tasks.count t =
  if t < s.committed then 1 else 0

/-- A new pool has no task to account for. -/
theorem accounted_make (size : Nat) : (make size).Accounted := by
  intro t
  simp [make, List.countP_replicate, Phase.runs]

/-- Every step of the pool keeps the account. -/
theorem Accounted.step (h : s.Accounted) (hs : s.step a = some s') : s'.Accounted := by
  cases a with
  | commit =>
    simp only [Pool.step] at hs
    split_ifs at hs
    cases hs
    intro t
    have ht := h t
    simp only [List.count_append, List.count_singleton]
    by_cases he : s.committed = t
    · subst he
      rw [if_neg (Nat.lt_irrefl _)] at ht
      simp only [beq_self_eq_true, if_true, Nat.lt_succ_self]
      omega
    · simp only [beq_iff_eq, if_neg he]
      split_ifs at ht ⊢ <;> omega
  | stop =>
    simp only [Pool.step] at hs
    split_ifs at hs
    cases hs
    exact h
  | work k =>
    obtain ⟨p, q, hk, ⟨rfl, hruns, -⟩ | ⟨t, ts, rfl, rfl, ht, rfl⟩ | ⟨t, rfl, rfl, rfl⟩⟩ := work_cases hs
    · intro t
      have hcount := Threads.countP_set hk (Phase.runs t) q
      rw [(hruns t).1, (hruns t).2] at hcount
      have hold := h t
      change s.executed.count t + (s.workers.set k q).countP (Phase.runs t) + s.tasks.count t = if t < s.committed then 1 else 0
      simp only [Bool.false_eq_true, if_false] at hcount
      omega
    · intro t'
      have hcount := Threads.countP_set hk (Phase.runs t') (.running t)
      have hold := h t'
      rw [ht, List.count_cons] at hold
      change s.executed.count t' + (s.workers.set k (.running t)).countP (Phase.runs t') + ts.count t' =
        if t' < s.committed then 1 else 0
      simp only [Phase.runs, decide_eq_true_eq, Phase.running.injEq, reduceCtorEq, if_false, beq_iff_eq] at hcount hold
      omega
    · intro t'
      have hcount := Threads.countP_set hk (Phase.runs t') .test
      have hold := h t'
      change (s.executed ++ [t]).count t' + (s.workers.set k .test).countP (Phase.runs t') + s.tasks.count t' =
        if t' < s.committed then 1 else 0
      rw [List.count_append, List.count_singleton]
      simp only [Phase.runs, decide_eq_true_eq, Phase.running.injEq, reduceCtorEq, if_false, beq_iff_eq] at hcount ⊢
      omega

/-- In a stopped pool nothing is committed, and whether the workers that are still to take a task are enough does not change. -/
theorem step_stopped (hrun : s.run = false) (hs : s.step a = some s') :
    s'.run = false ∧ s'.committed = s.committed ∧ (s'.tasks.length ≤ s'.pending ↔ s.tasks.length ≤ s.pending) := by
  cases a with
  | commit => simp [step, hrun] at hs
  | stop => simp [step, hrun] at hs
  | work k =>
    obtain ⟨p, q, hk, ⟨rfl, -, hp⟩ | ⟨t, ts, rfl, rfl, ht, rfl⟩ | ⟨t, rfl, rfl, rfl⟩⟩ := work_cases hs
    · have hcount := Threads.countP_set hk Phase.pending q
      refine ⟨hrun, rfl, ?_⟩
      simp only [pending, moveTo] at hcount ⊢
      rcases hp with hp | hp | ⟨rfl, rfl, ht⟩
      · rw [hp] at hcount
        rw [Nat.add_right_cancel hcount]
      · exact absurd (hrun.symm.trans hp) (by simp)
      · rw [ht]
        simp
    · have hcount := Threads.countP_set hk Phase.pending (.running t)
      refine ⟨hrun, rfl, ?_⟩
      simp only [pending, moveTo, Phase.pending, ht, List.length_cons] at hcount ⊢
      simp only [if_true, Bool.false_eq_true, if_false] at hcount
      omega
    · have hcount := Threads.countP_set hk Phase.pending .test
      refine ⟨hrun, rfl, ?_⟩
      simp only [pending, moveTo, Phase.pending] at hcount ⊢
      rw [Nat.add_right_cancel hcount]

/-! ## Runs -/

theorem schedule_cons (s : Pool) (a : Act) (as : List Act) : s.schedule (a :: as) = (s.step a).bind fun s' => s'.schedule as := rfl

/-- By induction over the schedule: every task committed is accounted for. -/
theorem Accounted.schedule (as : List Act) : ∀ {s s' : Pool}, s.Accounted → s.schedule as = some s' → s'.Accounted := by
  induction as with
  | nil =>
    intro s s' h hs
    cases hs
    exact h
  | cons a as ih =>
    intro s s' h hs
    rw [schedule_cons] at hs
    obtain ⟨s₁, h₁, hs⟩ := Option.bind_eq_some_iff.mp hs
    exact ih (h.step h₁) hs

/-- After `stop` no task is committed, and whether there are workers for the tasks in the queue does not change. -/
theorem schedule_stopped (as : List Act) : ∀ {s s' : Pool}, s.run = false → s.schedule as = some s' →
    s'.committed = s.committed ∧ (s'.tasks.length ≤ s'.pending ↔ s.tasks.length ≤ s.pending) := by
  induction as with
  | nil =>
    intro s s' _ hs
    cases hs
    exact ⟨rfl, Iff.rfl⟩
  | cons a as ih =>
    intro s s' hrun hs
    rw [schedule_cons] at hs
    obtain ⟨s₁, h₁, hs⟩ := Option.bind_eq_some_iff.mp hs
    obtain ⟨hrun₁, hcom₁, hle₁⟩ := step_stopped hrun h₁
    obtain ⟨hcom, hle⟩ := ih hrun₁ hs
    exact ⟨hcom.trans hcom₁, hle.trans hle₁⟩

/-- When all workers have returned, the tasks that are not executed are the ones left in the queue. -/
theorem Joined.each_executed_iff (hj : s.Joined) (h : s.Accounted) : (∀ t < s.committed, s.executed.count t = 1) ↔ s.tasks = [] := by
  have hnone : ∀ t, s.workers.countP (Phase.runs t) = 0 := by
    intro t
    rw [List.countP_eq_zero]
    intro p hp
    rw [hj.2 p hp]
    simp [Phase.runs]
  constructor
  · intro hall
    rw [List.eq_nil_iff_forall_not_mem]
    intro t ht
    have hpos := List.count_pos_iff.mpr ht
    have hsum := h t
    rw [hnone] at hsum
    split_ifs at hsum with hlt
    · have := hall t hlt
      omega
    · omega
  · intro hempty t hlt
    have hsum := h t
    rw [hnone, hempty, if_pos hlt] at hsum
    simpa using hsum

/-- For every number of workers and every schedule in which the destructor comes to its end: each task committed before it has
been executed exactly once, if and only if, when it clears `_run`, the queue holds no more tasks than there are workers that have
tested `_run` and have no task yet. -/
theorem executed_iff {size : Nat} {before after : List Act} {s s₁ s' : Pool} (hbefore : (make size).schedule before = some s)
    (hstop : s.step .stop = some s₁) (hafter : s₁.schedule after = some s') (hj : s'.Joined) :
    (∀ t < s.committed, s'.executed.count t = 1) ↔ s.tasks.length ≤ s.pending := by
  have hacc := (accounted_make size).schedule before hbefore
  have hacc' := (hacc.step hstop).schedule after hafter
  have hs₁ : s₁ = { s with run := false } := by
    simp only [step] at hstop
    split_ifs at hstop
    exact (Option.some.inj hstop).symm
  subst hs₁
  obtain ⟨hcom, hle⟩ := schedule_stopped after rfl hafter
  have hpending : s'.pending = 0 := by
    rw [pending, List.countP_eq_zero]
    intro p hp
    rw [hj.2 p hp]
    simp [Phase.pending]
  rw [show s.committed = s'.committed from hcom.symm, hj.each_executed_iff hacc', ← List.length_eq_zero_iff]
  rw [hpending, Nat.le_zero] at hle
  exact hle

/-- Two workers, one of which executes a task while two others are committed. -/
def beforeStop : List Act := [.work 0, .work 1, .commit, .work 0, .work 0, .work 0, .commit, .commit, .work 0, .work 0]

/-- Each of them takes one of these two, and finds the queue empty then. -/
def afterStop : List Act := [.work 1, .work 1, .work 1, .work 0, .work 1, .work 0, .work 0, .work 0, .work 1, .work 0]

theorem executed_iff_two : ∃ s s₁ s' : Pool, (make 2).schedule beforeStop = some s ∧ s.step .stop = some s₁ ∧
    s₁.schedule afterStop = some s' ∧ s'.Joined ∧ ((∀ t < s.committed, s'.executed.count t = 1) ↔ s.tasks.length ≤ s.pending) := by
  have hbusy : (make 2).schedule beforeStop = some ⟨true, [1, 2], [.acquire, .acquire], 3, [0]⟩ := by decide
  have hended : schedule ⟨false, [1, 2], [.acquire, .acquire], 3, [0]⟩ afterStop =
      some ⟨false, [], [.returned, .returned], 3, [0, 1, 2]⟩ := by decide
  have hjoined : Joined ⟨false, [], [.returned, .returned], 3, [0, 1, 2]⟩ := ⟨rfl, by decide⟩
  exact ⟨_, _, _, hbusy, rfl, hended, hjoined, executed_iff hbusy rfl hended hjoined⟩

/-- The destructor starts when the worker has not yet tested `_run` for the first time: the task that has been committed is not
executed. -/
theorem not_executed : ∃ s s₁ s', (make 1).schedule [.commit] = some s ∧ s.step .stop = some s₁ ∧
    s₁.schedule [.work 0] = some s' ∧ s'.Joined ∧ ¬∀ t < s.committed, s'.executed.count t = 1 :=
  ⟨⟨true, [0], [.test], 1, []⟩, ⟨false, [0], [.test], 1, []⟩, ⟨false, [0], [.returned], 1, []⟩, rfl, rfl, rfl, ⟨rfl, by decide⟩,
    by decide⟩

end Pool

end Netcore.ThreadPool
