import Mathlib.Logic.Function.Basic
import Netcore.Websocket.Frame

/-!
# `WS_manager`: messages pushed by a pool of threads

`send_ws_string` makes a task of each message and commits it to a pool of worker threads. A worker takes the task at the
front of the queue, acquires the mutex of the task's descriptor, writes the frame, shuts the socket down if it was asked to,
and releases the mutex. These are the steps of `Manager.step`; the schedule is the list of them.

Tasks leave the queue in the order in which they were committed, but a worker that has taken one may be overtaken on its way
to the mutex. `sockets_prefix` says that the frames appear in the order of the calls as long as that does not happen, and
`not_sockets_prefix` that it can.
-/

namespace Netcore

/-- A task of the pool: the frame `send_msg`, the descriptor and the flag `close`. -/
structure PushTask where
  fd : Nat
  sendMsg : Bytes
  close : Bool
  deriving DecidableEq, Repr

/-- What is done to a socket. -/
inductive SocketOp where
  | frame (data : Bytes)
  | shutdown
  deriving DecidableEq, Repr

/-- What a task does to its socket. -/
def PushTask.ops (t : PushTask) : List SocketOp := .frame t.sendMsg :: if t.close then [.shutdown] else []

/-- The task that `send_ws_string` commits: a header for the length of the message, and the message. -/
def sendWsString (fd : Nat) (msg : Bytes) (close : Bool) : PushTask :=
  { fd := fd, sendMsg := formatHeader msg.length Opcode.text ++ msg, close := close }

/-- Where a worker is in its task: before the mutex, before the write, before the shutdown if there is one, before the
release. -/
inductive WorkerPhase where
  | taken
  | locked
  | written
  | closed
  deriving DecidableEq, Repr

/-- A worker with a task. -/
structure Running (n : Nat) where
  worker : Fin n
  task : PushTask
  phase : WorkerPhase
  deriving DecidableEq, Repr

/-- What a worker still has to do to the socket of its task. -/
def Running.left {n : Nat} (r : Running n) : List SocketOp :=
  match r.phase with
  | .taken => r.task.ops
  | .locked => r.task.ops
  | .written => if r.task.close then [.shutdown] else []
  | .closed => []

/-- `WS_manager` with a pool of `n` workers: the queue `_tasks`, the workers that have a task, in the order in which they
took it, and what has been done to each socket. -/
structure Manager (n : Nat) where
  tasks : List PushTask := []
  running : List (Running n) := []
  sockets : Nat → List SocketOp := fun _ => []

/-- A step: a call of `send_ws_string`, or a step of a worker. -/
inductive PoolAct (n : Nat) where
  | sendWsString (fd : Nat) (msg : Bytes) (close : Bool)
  | take (w : Fin n)
  | acquire (w : Fin n)
  | write (w : Fin n)
  | shutdown (w : Fin n)
  | release (w : Fin n)
  deriving DecidableEq, Repr

namespace Manager

variable {n : Nat}

/-- The task of a worker. -/
def find (s : Manager n) (w : Fin n) : Option (Running n) := s.running.find? fun r => decide (r.worker = w)

/-- The mutex `fd_mutex[i]` is free: nobody is between `locked` and the release with a descriptor of that remainder. -/
def free (s : Manager n) (i : Nat) : Bool := s.running.all fun r => decide (r.phase = .taken ∨ r.task.fd % 4 ≠ i)

/-- Put `new` where the entry of a worker is. -/
def replace (l : List (Running n)) (w : Fin n) (new : List (Running n)) : List (Running n) :=
  match l with
  | [] => []
  | r :: rs => if r.worker = w then new ++ rs else r :: replace rs w new

/-- A worker does `done` to the socket of its task, and its entry becomes `new`. -/
def advance (s : Manager n) (r : Running n) (done : List SocketOp) (new : List (Running n)) : Manager n :=
  { s with
    running := replace s.running r.worker new
    sockets := Function.update s.sockets r.task.fd (s.sockets r.task.fd ++ done) }

/-- One step, if it can be taken. -/
def step (s : Manager n) : PoolAct n → Option (Manager n)
  | .sendWsString fd msg close => some { s with tasks := s.tasks ++ [Netcore.sendWsString fd msg close] }
  | .take w =>
    match s.find w, s.tasks with
    | none, t :: ts => some { s with tasks := ts, running := s.running ++ [⟨w, t, .taken⟩] }
    | _, _ => none
  | .acquire w =>
    (s.find w).bind fun r =>
      if r.phase = .taken ∧ s.free (r.task.fd % 4) = true then some (s.advance r [] [{ r with phase := .locked }]) else none
  | .write w =>
    (s.find w).bind fun r =>
      if r.phase = .locked then some (s.advance r [.frame r.task.sendMsg] [{ r with phase := .written }]) else none
  | .shutdown w =>
    (s.find w).bind fun r =>
      if r.phase = .written ∧ r.task.close = true then some (s.advance r [.shutdown] [{ r with phase := .closed }]) else none
  | .release w =>
    (s.find w).bind fun r =>
      if r.phase = .closed ∨ (r.phase = .written ∧ r.task.close = false) then some (s.advance r [] []) else none

/-- The steps of a schedule, one after the other. -/
def run (s : Manager n) (acts : List (PoolAct n)) : Option (Manager n) := acts.foldlM step s

/-- The worker is in turn: no worker that took a task for the same descriptor before it still has it. -/
def InTurn (s : Manager n) (w : Fin n) : Prop :=
  ∀ r ∈ s.find w, ∀ r' ∈ s.running.takeWhile (fun x => decide (x.worker ≠ w)), r'.task.fd ≠ r.task.fd

instance (s : Manager n) (w : Fin n) : Decidable (s.InTurn w) := Option.decidableForallMem _

/-- Along the schedule, workers acquire the mutex in turn. -/
def TakesTurns (s : Manager n) : List (PoolAct n) → Prop
  | [] => True
  | a :: as =>
    (∀ w, a = .acquire w → s.InTurn w) ∧
      match s.step a with
      | none => True
      | some s' => s'.TakesTurns as

instance decidableTakesTurns : (s : Manager n) → (acts : List (PoolAct n)) → Decidable (s.TakesTurns acts)
  | _, [] => isTrue trivial
  | s, a :: as =>
    have : Decidable (match s.step a with | none => True | some s' => s'.TakesTurns as) :=
      match s.step a with
      | none => isTrue trivial
      | some s' => decidableTakesTurns s' as
    inferInstanceAs (Decidable (_ ∧ _))

end Manager

/-- The tasks that a schedule commits, in the order of the calls. -/
def committed {n : Nat} (acts : List (PoolAct n)) : List PushTask :=
  acts.filterMap fun
    | .sendWsString fd msg close => some (sendWsString fd msg close)
    | _ => none

/-- What tasks do to one socket. -/
def opsTo (fd : Nat) (tasks : List PushTask) : List SocketOp := (tasks.filter fun t => decide (t.fd = fd)).flatMap PushTask.ops

/-- What workers still have to do to one socket. -/
def leftTo {n : Nat} (fd : Nat) (rs : List (Running n)) : List SocketOp :=
  (rs.filter fun r => decide (r.task.fd = fd)).flatMap Running.left

theorem opsTo_append (fd : Nat) (ts ts' : List PushTask) : opsTo fd (ts ++ ts') = opsTo fd ts ++ opsTo fd ts' := by
  rw [opsTo, List.filter_append, List.flatMap_append]
  rfl

theorem opsTo_cons (fd : Nat) (t : PushTask) (ts : List PushTask) :
    opsTo fd (t :: ts) = (if t.fd = fd then t.ops else []) ++ opsTo fd ts := by
  by_cases h : t.fd = fd <;> simp [opsTo, h]

section LeftTo

variable {n : Nat} {fd : Nat}

theorem leftTo_append (rs rs' : List (Running n)) : leftTo fd (rs ++ rs') = leftTo fd rs ++ leftTo fd rs' := by
  rw [leftTo, List.filter_append, List.flatMap_append]
  rfl

theorem leftTo_eq_nil {rs : List (Running n)} (h : ∀ r ∈ rs, r.task.fd ≠ fd) : leftTo fd rs = [] := by
  rw [leftTo, List.filter_eq_nil_iff.mpr (fun r hr => by simpa using h r hr)]
  rfl

theorem leftTo_eq_flatMap {rs : List (Running n)} (h : ∀ r ∈ rs, r.task.fd = fd) : leftTo fd rs = rs.flatMap Running.left := by
  rw [leftTo, List.filter_eq_self.mpr (fun r hr => by simpa using h r hr)]

end LeftTo

namespace Manager

variable {n : Nat} {s s' : Manager n}

/-- The schedule so far has kept the order: what has been done to a socket, what workers have left to do and what waits in
the queue are together what the calls asked for; and a worker past the mutex is the first one with its descriptor. -/
structure Ordered (s : Manager n) (calls : List PushTask) : Prop where
  order : ∀ fd, s.sockets fd ++ leftTo fd s.running ++ opsTo fd s.tasks = opsTo fd calls
  first : s.running.Pairwise fun r' r => r.phase ≠ .taken → r'.task.fd ≠ r.task.fd

/-- Where the entry of a worker is. -/
theorem find_split {w : Fin n} {r : Running n} (h : s.find w = some r) : ∃ pre post, s.running = pre ++ r :: post ∧
    r.worker = w ∧ (∀ x ∈ pre, x.worker ≠ w) ∧ s.running.takeWhile (fun x => decide (x.worker ≠ w)) = pre := by
  obtain ⟨hr, pre, post, hsplit, hpre⟩ := List.find?_eq_some_iff_append.mp h
  have hw : r.worker = w := by simpa using hr
  have hne : ∀ x ∈ pre, x.worker ≠ w := fun x hx => by simpa using hpre x hx
  refine ⟨pre, post, hsplit, hw, hne, ?_⟩
  rw [hsplit, List.takeWhile_append_of_pos (fun x hx => by simpa using hne x hx), List.takeWhile_cons_of_neg (by simp [hw]),
    List.append_nil]

theorem replace_append {pre post : List (Running n)} {r : Running n} (hpre : ∀ x ∈ pre, x.worker ≠ r.worker)
    (new : List (Running n)) : replace (pre ++ r :: post) r.worker new = pre ++ new ++ post := by
  induction pre with
  | nil => simp [replace]
  | cons x pre ih =>
    have hx := hpre x (by simp)
    simp only [List.cons_append, replace, if_neg hx, ih (fun y hy => hpre y (List.mem_cons_of_mem x hy))]

/-- A worker that is the first one with its descriptor does the next thing it has to do. -/
theorem Ordered.advance {calls : List PushTask} (h : s.Ordered calls) {pre post : List (Running n)} {r : Running n}
    (hsplit : s.running = pre ++ r :: post) (hpre : ∀ x ∈ pre, x.worker ≠ r.worker) (hfirst : ∀ x ∈ pre, x.task.fd ≠ r.task.fd)
    {done : List SocketOp} {new : List (Running n)} (hnew : new = [] ∨ ∃ p, new = [{ r with phase := p }])
    (hleft : r.left = done ++ new.flatMap Running.left) : (s.advance r done new).Ordered calls := by
  have htask : ∀ x ∈ new, x.task = r.task := by
    rcases hnew with rfl | ⟨p, rfl⟩
    · intro x hx; cases hx
    · intro x hx; rw [List.mem_singleton.mp hx]
  have hrun : (s.advance r done new).running = pre ++ new ++ post := by
    rw [Manager.advance, hsplit]
    exact replace_append hpre new
  constructor
  · intro fd
    have hold := h.order fd
    rw [hsplit, leftTo_append, ← List.singleton_append, leftTo_append] at hold
    rw [hrun, leftTo_append, leftTo_append]
    simp only [Manager.advance]
    rcases Decidable.eq_or_ne r.task.fd fd with rfl | hfd
    · rw [leftTo_eq_nil hfirst, leftTo_eq_flatMap (fun x hx => by rw [List.mem_singleton.mp hx])] at hold
      rw [Function.update_self, leftTo_eq_nil hfirst, leftTo_eq_flatMap (fun x hx => by rw [htask x hx])]
      simpa [hleft] using hold
    · have hr : leftTo fd [r] = [] := leftTo_eq_nil (by simpa using hfd)
      have hn : leftTo fd new = [] := leftTo_eq_nil (fun x hx => by rwa [htask x hx])
      rw [hr] at hold
      rw [Function.update_of_ne (Ne.symm hfd), hn]
      simpa using hold
  · rw [hrun, List.append_assoc]
    have hold := h.first
    rw [hsplit] at hold
    rcases hnew with rfl | ⟨p, rfl⟩
    · exact hold.sublist ((List.Sublist.refl pre).append (List.sublist_cons_self r post))
    · obtain ⟨h1, h2, h3⟩ := List.pairwise_append.mp hold
      obtain ⟨h4, h5⟩ := List.pairwise_cons.mp h2
      refine List.pairwise_append.mpr ⟨h1, List.pairwise_cons.mpr ⟨h4, h5⟩, ?_⟩
      intro x hx y hy
      rcases List.mem_cons.mp hy with rfl | hy
      · exact fun _ => hfirst x hx
      · exact h3 x hx y (List.mem_cons_of_mem r hy)

/-- A worker past the mutex is the first one with its descriptor. -/
theorem Ordered.head {calls : List PushTask} (h : s.Ordered calls) {pre post : List (Running n)} {r : Running n}
    (hsplit : s.running = pre ++ r :: post) (hr : r.phase ≠ .taken) : ∀ x ∈ pre, x.task.fd ≠ r.task.fd := by
  have hp := h.first
  rw [hsplit] at hp
  intro x hx
  exact (List.pairwise_append.mp hp).2.2 x hx r (by simp) hr

/-- A worker does the next thing it has to do. Before it has the mutex, it must be its turn. -/
theorem Ordered.work {calls : List PushTask} (h : s.Ordered calls) {w : Fin n} {r : Running n} (hfind : s.find w = some r)
    (hturn : r.phase = .taken → s.InTurn w) {done : List SocketOp} {new : List (Running n)}
    (hnew : new = [] ∨ ∃ p, new = [{ r with phase := p }]) (hleft : r.left = done ++ new.flatMap Running.left) :
    (s.advance r done new).Ordered calls := by
  obtain ⟨pre, post, hsplit, rfl, hpre, hahead⟩ := find_split hfind
  have hfirst : ∀ x ∈ pre, x.task.fd ≠ r.task.fd := by
    by_cases htaken : r.phase = .taken
    · intro x hx
      exact hturn htaken r hfind x (by rwa [hahead])
    · exact h.head hsplit htaken
  exact h.advance hsplit hpre hfirst hnew hleft

/-- A worker takes the task at the front of the queue. -/
theorem Ordered.take {calls : List PushTask} (h : s.Ordered calls) {t : PushTask} {ts : List PushTask} (htasks : s.tasks = t :: ts)
    (w : Fin n) : Ordered { s with tasks := ts, running := s.running ++ [⟨w, t, .taken⟩] } calls := by
  constructor
  · intro fd
    have hold := h.order fd
    rw [htasks, opsTo_cons] at hold
    rw [leftTo_append, ← hold]
    by_cases hfd : t.fd = fd
    · simp [leftTo, hfd, Running.left]
    · simp [leftTo, hfd]
  · refine List.pairwise_append.mpr ⟨h.first, List.pairwise_singleton _ _, ?_⟩
    intro x _ y hy htaken
    rw [List.mem_singleton.mp hy] at htaken
    exact absurd rfl htaken

/-- One step of the schedule keeps the order, if a mutex is acquired in turn. -/
theorem Ordered.step {calls : List PushTask} (h : s.Ordered calls) {a : PoolAct n} (hturn : ∀ w, a = .acquire w → s.InTurn w)
    (hs : s.step a = some s') : s'.Ordered (calls ++ committed [a]) := by
  have hnone : committed [a] = [] → s'.Ordered calls → s'.Ordered (calls ++ committed [a]) := by
    intro he h'
    rwa [he, List.append_nil]
  cases a with
  | sendWsString fd msg close =>
    obtain rfl := Option.some.inj hs
    refine ⟨fun fd' => ?_, h.first⟩
    simp only [opsTo_append, ← List.append_assoc, h.order fd']
    rfl
  | take w =>
    refine hnone rfl ?_
    simp only [Manager.step] at hs
    split at hs
    · rename_i t ts hfind htasks
      obtain rfl := Option.some.inj hs
      exact h.take htasks w
    · exact absurd hs (by simp)
  | acquire w =>
    refine hnone rfl ?_
    obtain ⟨r, hfind, hs⟩ := Option.bind_eq_some_iff.mp hs
    split_ifs at hs with hc
    obtain rfl := Option.some.inj hs
    exact h.work hfind (fun _ => hturn w rfl) (Or.inr ⟨_, rfl⟩) (by simp [Running.left, hc.1])
  | write w =>
    refine hnone rfl ?_
    obtain ⟨r, hfind, hs⟩ := Option.bind_eq_some_iff.mp hs
    split_ifs at hs with hc
    obtain rfl := Option.some.inj hs
    exact h.work hfind (by simp [hc]) (Or.inr ⟨_, rfl⟩) (by simp [Running.left, hc, PushTask.ops])
  | shutdown w =>
    refine hnone rfl ?_
    obtain ⟨r, hfind, hs⟩ := Option.bind_eq_some_iff.mp hs
    split_ifs at hs with hc
    obtain rfl := Option.some.inj hs
    exact h.work hfind (by simp [hc.1]) (Or.inr ⟨_, rfl⟩) (by simp [Running.left, hc.1, hc.2])
  | release w =>
    refine hnone rfl ?_
    obtain ⟨r, hfind, hs⟩ := Option.bind_eq_some_iff.mp hs
    split_ifs at hs with hc
    obtain rfl := Option.some.inj hs
    have hphase : r.phase ≠ .taken ∧ r.left = [] := by
      rcases hc with hc | ⟨hc, hclose⟩
      · simp [Running.left, hc]
      · simp [Running.left, hc, hclose]
    exact h.work hfind (fun ht => absurd ht hphase.1) (Or.inl rfl) hphase.2

/-- A schedule in which workers take turns. -/
theorem Ordered.run (acts : List (PoolAct n)) : ∀ {s : Manager n} {calls : List PushTask}, s.Ordered calls → s.TakesTurns acts →
    s.run acts = some s' → s'.Ordered (calls ++ committed acts) := by
  induction acts with
  | nil =>
    intro s calls h _ hrun
    obtain rfl := Option.some.inj hrun
    rwa [show committed ([] : List (PoolAct n)) = [] from rfl, List.append_nil]
  | cons a as ih =>
    intro s calls h hturns hrun
    rw [Manager.run, List.foldlM_cons] at hrun
    obtain ⟨s₁, hs₁, hrest⟩ := Option.bind_eq_some_iff.mp hrun
    rw [TakesTurns, hs₁] at hturns
    have hstep := h.step hturns.1 hs₁
    have hall := ih hstep hturns.2 hrest
    rwa [List.append_assoc, committed, committed, ← List.filterMap_append] at hall

/-- **Frames are pushed in the order of the calls** in every schedule in which workers acquire the mutex of a descriptor in
turn: what has been done to a socket is always a beginning of what the calls asked for, each frame in its place and the
shutdown after all that was committed before it. -/
theorem sockets_prefix {acts : List (PoolAct n)} (hturns : ({} : Manager n).TakesTurns acts)
    (hrun : ({} : Manager n).run acts = some s) (fd : Nat) : s.sockets fd <+: opsTo fd (committed acts) := by
  have hstart : ({} : Manager n).Ordered [] := ⟨fun _ => rfl, List.Pairwise.nil⟩
  have h := hstart.run acts hturns hrun
  rw [← List.nil_append (committed acts), ← h.order fd, List.append_assoc]
  exact List.prefix_append _ _

/-- Three calls, and two workers of four that write to one socket, the second waiting for the first. -/
def inTurn : List (PoolAct 4) :=
  [.sendWsString 5 (bytes "a") false, .sendWsString 5 (bytes "b") true, .take 0, .take 1, .acquire 0, .sendWsString 6 (bytes "c") false,
    .write 0, .release 0, .acquire 1, .write 1, .take 2, .shutdown 1]

theorem sockets_prefix_a_b : ∃ s, ({} : Manager 4).run inTurn = some s ∧
    s.sockets 5 = [.frame (formatHeader 1 Opcode.text ++ bytes "a"), .frame (formatHeader 1 Opcode.text ++ bytes "b"), .shutdown] ∧
    s.sockets 5 <+: opsTo 5 (committed inTurn) := by
  obtain ⟨s, hs, hsock⟩ : ∃ s, ({} : Manager 4).run inTurn = some s ∧ s.sockets 5 =
      [.frame (formatHeader 1 Opcode.text ++ bytes "a"), .frame (formatHeader 1 Opcode.text ++ bytes "b"), .shutdown] :=
    Option.map_eq_some_iff.mp (show Option.map (fun s : Manager 4 => s.sockets 5) _ = some _ by decide)
  exact ⟨s, hs, hsock, sockets_prefix (by decide) hs 5⟩

/-- The same two calls, with the second worker first at the mutex: the socket is shut down before the first frame. -/
theorem not_sockets_prefix :
    ¬∀ (acts : List (PoolAct 4)) (s : Manager 4), ({} : Manager 4).run acts = some s →
      ∀ fd, s.sockets fd <+: opsTo fd (committed acts) := by
  intro h
  obtain ⟨s, hs, hsock⟩ : ∃ s, ({} : Manager 4).run [.sendWsString 5 (bytes "a") false, .sendWsString 5 (bytes "b") true,
      .take 0, .take 1, .acquire 1, .write 1, .shutdown 1] = some s ∧
      s.sockets 5 = [.frame (formatHeader 1 Opcode.text ++ bytes "b"), .shutdown] :=
    Option.map_eq_some_iff.mp (show Option.map (fun s : Manager 4 => s.sockets 5) _ = some _ by decide)
  have hp := h _ s hs 5
  rw [hsock] at hp
  exact absurd hp (by decide)

end Manager

end Netcore
