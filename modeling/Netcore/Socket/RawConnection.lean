import Mathlib.Logic.Function.Basic
import Netcore.Socket.Send

/-!
# `RawConnection` and its awaiters

A connection has two pointers to awaiters, one for a read and one for a send, and its callback for epoll events follows them.
What happens between two events is up to the coroutines: each `co_await` of a read or a send registers its awaiter, and takes
it off again when the coroutine goes on. `on_callback` reads both pointers before it resumes anything, and resuming the reader
runs a coroutine that may start a send, or end and take the connection with it.

`uses` lists the awaiters that `on_callback` uses along a run, each beside the one that is registered at that moment, and
`uses_registered_iff` says for which runs the two always agree.
-/

namespace Netcore

/-- The members of `RawConnection`. An awaiter is known by its address; `sends` is what the memory at an address holds when
it is taken for a send awaiter, and `alive` is false once the connection has been destroyed. -/
structure RawConnection where
  readAwaiter : Option Nat := none
  sendAwaiter : Option Nat := none
  recvAtAwaiter : Bool := false
  sendAtAwaiter : Bool := false
  except : Bool := false
  sends : Nat → AsyncSendAwaiter := fun _ => { buff := [] }
  alive : Bool := true

/-- What a running coroutine does with the connection. -/
inductive CoroutineAct where
  /-- `co_await async_read`, and whether `netcore::recv` throws if it is called at once. -/
  | asyncRead (awaiter : Nat) (recvThrows : Bool)
  /-- `co_await async_send`, and what the calls of `::send` find. -/
  | asyncSend (awaiter : Nat) (buf : Bytes) (outs : List SendOutcome)
  | clearExcept
  /-- The coroutine ends, and the connection is destroyed with it. -/
  | finish
  deriving DecidableEq, Repr

/-- An event on the socket: its two flags, whether `netcore::recv` throws, what the coroutines do that the callback resumes,
what the calls of `::send` find, and what the memory of `m_send_awaiter` holds if the connection is gone by then. -/
structure IoEvent where
  epollin : Bool := false
  epollout : Bool := false
  recvThrows : Bool := false
  afterRead : List CoroutineAct := []
  outs : List SendOutcome := []
  afterSend : List CoroutineAct := []
  freed : Option Nat := none
  deriving DecidableEq, Repr

/-- A use of an awaiter: the pointer followed, and the one registered at that moment. -/
structure AwaiterUse where
  awaiter : Option Nat
  registered : Option Nat
  deriving DecidableEq, Repr

/-- The awaiter used is there, and it is the registered one. -/
def AwaiterUse.Registered (u : AwaiterUse) : Prop := u.awaiter ≠ none ∧ u.awaiter = u.registered

instance (u : AwaiterUse) : Decidable u.Registered := inferInstanceAs (Decidable (_ ∧ _))

namespace RawConnection

/-- One act of a running coroutine. An awaiter whose `await_suspend` returns false is taken off at once by its
`await_resume`; `~RawConnection` resumes what is still registered. -/
def act (c : RawConnection) (a : CoroutineAct) : RawConnection :=
  if c.alive = false then c
  else
    match a with
    | .asyncRead awaiter recvThrows =>
      if c.recvAtAwaiter then { c with readAwaiter := none, except := c.except || recvThrows }
      else { c with readAwaiter := some awaiter }
    | .asyncSend awaiter buf outs =>
      let s := Sending.awaitSuspend { awaiter := { buff := buf }, except := c.except } c.sendAtAwaiter outs
      { c with
        sends := Function.update c.sends awaiter s.awaiter
        except := s.except
        sendAwaiter := if s.resumed then none else some awaiter }
    | .clearExcept => { c with except := false }
    | .finish =>
      { c with alive := false, readAwaiter := none, sendAwaiter := none, recvAtAwaiter := false, sendAtAwaiter := false }

/-- A coroutine that is resumed in `AsyncReadAwaiter::await_resume`, up to its next suspension. -/
def resumeRead (c : RawConnection) (acts : List CoroutineAct) : RawConnection := acts.foldl act { c with readAwaiter := none }

/-- A coroutine that is resumed in `AsyncSendAwaiter::await_resume`. -/
def resumeSend (c : RawConnection) (acts : List CoroutineAct) : RawConnection := acts.foldl act { c with sendAwaiter := none }

/-- The flags that `on_callback` sets first. -/
def noteFlags (c : RawConnection) (e : IoEvent) : RawConnection :=
  { c with recvAtAwaiter := c.recvAtAwaiter || e.epollin, sendAtAwaiter := c.sendAtAwaiter || e.epollout }

/-- The connection that the `EPOLLIN` branch leaves when it has an awaiter to resume. -/
def afterReading (c : RawConnection) (e : IoEvent) : RawConnection :=
  resumeRead { c.noteFlags e with recvAtAwaiter := false, except := c.except || e.recvThrows } e.afterRead

/-- The `EPOLLIN` branch, with the pointer read before. Its condition `m_connection != nullptr` always holds. Without an
awaiter the read goes through a null pointer, and there is no connection to go on with. -/
def onReadable (c : RawConnection) (e : IoEvent) (awaiter : Option Nat) : List AwaiterUse × Option RawConnection :=
  ([⟨awaiter, c.readAwaiter⟩], if awaiter = none then none else some (c.afterReading e))

/-- What the condition of the `EPOLLOUT` branch reads as `m_send_awaiter`. -/
def seenSend (c : RawConnection) (freed : Option Nat) : Option Nat := if c.alive then c.sendAwaiter else freed

/-- The `EPOLLOUT` branch, with the pointer read before. -/
def onWritable (c : RawConnection) (e : IoEvent) (awaiter : Option Nat) : List AwaiterUse × Option RawConnection :=
  if c.seenSend e.freed = none then ([], some c)
  else
    ([⟨awaiter, c.sendAwaiter⟩],
      match awaiter with
      | none => none
      | some a =>
        let s := Sending.onWritable { awaiter := c.sends a, except := c.except } e.outs
        let c := { c with sendAtAwaiter := false, sends := Function.update c.sends a s.awaiter, except := s.except }
        some (if s.resumed then c.resumeSend e.afterSend else c))

/-- `ConnCallBack::on_callback`: both pointers are read before the branches. -/
def onCallback (c : RawConnection) (e : IoEvent) : List AwaiterUse × Option RawConnection :=
  let recvAwaiter := c.readAwaiter
  let sendAwaiter := c.sendAwaiter
  let r := if e.epollin then c.onReadable e recvAwaiter else ([], some (c.noteFlags e))
  match r.2 with
  | none => (r.1, none)
  | some c' =>
    if e.epollout then (r.1 ++ (c'.onWritable e sendAwaiter).1, (c'.onWritable e sendAwaiter).2) else (r.1, some c')

end RawConnection

/-- One step of a run: a coroutine runs on its own account, an event arrives, or `check_deley` resumes an awaiter of a read or
a send with `IoTimeOut`. -/
inductive ConnStep where
  | coroutine (acts : List CoroutineAct)
  | event (e : IoEvent)
  | readTimeout (acts : List CoroutineAct)
  | sendTimeout (acts : List CoroutineAct)
  deriving DecidableEq, Repr

namespace RawConnection

/-- The uses of a step, and the connection after it. -/
def step (c : RawConnection) : ConnStep → List AwaiterUse × Option RawConnection
  | .coroutine acts => ([], some (acts.foldl act c))
  | .event e => c.onCallback e
  | .readTimeout acts => ([], some (resumeRead { c with except := true } acts))
  | .sendTimeout acts => ([], some (resumeSend { c with except := true } acts))

/-- The awaiters that `on_callback` uses along a run. It ends with the connection. -/
def uses (c : RawConnection) : List ConnStep → List AwaiterUse
  | [] => []
  | s :: ss =>
    if c.alive = false then []
    else
      (c.step s).1 ++
        match (c.step s).2 with
        | none => []
        | some c' => c'.uses ss

/-- An event with `EPOLLIN` finds a read awaiter, and when it also has `EPOLLOUT`, the coroutine that is resumed leaves no
send awaiter to be seen but the one that was there before. -/
def EventGuarded (c : RawConnection) (e : IoEvent) : Prop :=
  e.epollin = true → c.readAwaiter ≠ none ∧
    (e.epollout = true → (c.afterReading e).seenSend e.freed = none ∨
      c.sendAwaiter ≠ none ∧ c.sendAwaiter = (c.afterReading e).sendAwaiter)

/-- The condition on a step of a run. -/
def StepGuarded (c : RawConnection) : ConnStep → Prop
  | .event e => c.EventGuarded e
  | _ => True

/-- Every step of the run is guarded, in the state in which it is made. -/
def Guarded (c : RawConnection) : List ConnStep → Prop
  | [] => True
  | s :: ss =>
    c.alive = false ∨
      c.StepGuarded s ∧
        match (c.step s).2 with
        | none => True
        | some c' => c'.Guarded ss

/-- The `EPOLLOUT` branch uses the registered awaiter exactly when it sees none, or the pointer read before is still it. -/
theorem onWritable_registered_iff (c : RawConnection) (e : IoEvent) (awaiter : Option Nat) :
    (∀ u ∈ (c.onWritable e awaiter).1, u.Registered) ↔
      c.seenSend e.freed = none ∨ awaiter ≠ none ∧ awaiter = c.sendAwaiter := by
  unfold onWritable
  by_cases h : c.seenSend e.freed = none
  · simp [h]
  · simp [h, AwaiterUse.Registered]

/-- One event. -/
theorem onCallback_registered_iff {c : RawConnection} (halive : c.alive = true) (e : IoEvent) :
    (∀ u ∈ (c.onCallback e).1, u.Registered) ↔ c.EventGuarded e := by
  unfold onCallback EventGuarded
  cases hin : e.epollin with
  | false =>
    -- nothing runs between the reading of the pointer and its use
    have hself : ∀ u ∈ ((c.noteFlags e).onWritable e c.sendAwaiter).1, u.Registered := by
      rw [onWritable_registered_iff]
      by_cases hs : c.sendAwaiter = none
      · exact Or.inl (by simp [seenSend, noteFlags, halive, hs])
      · exact Or.inr ⟨hs, rfl⟩
    cases hout : e.epollout with
    | false => simp
    | true => simpa using hself
  | true =>
    cases hr : c.readAwaiter with
    | none => simp [onReadable, hr, AwaiterUse.Registered]
    | some a =>
      have hread : (⟨some a, some a⟩ : AwaiterUse).Registered := ⟨by simp, rfl⟩
      cases hout : e.epollout with
      | false => simp [onReadable, hr, hread]
      | true =>
        have hsend := onWritable_registered_iff (c.afterReading e) e c.sendAwaiter
        simp only [onReadable, hr, if_true, reduceCtorEq, if_false, ne_eq, not_false_eq_true, true_and, forall_const,
          List.singleton_append, List.forall_mem_cons, hread]
        exact hsend

/-- One step. -/
theorem step_registered_iff {c : RawConnection} (halive : c.alive = true) (s : ConnStep) :
    (∀ u ∈ (c.step s).1, u.Registered) ↔ c.StepGuarded s := by
  cases s with
  | coroutine acts => simp [step, StepGuarded]
  | event e => exact onCallback_registered_iff halive e
  | readTimeout acts => simp [step, StepGuarded]
  | sendTimeout acts => simp [step, StepGuarded]

theorem uses_registered_iff_of (steps : List ConnStep) : ∀ c : RawConnection,
    (∀ u ∈ c.uses steps, u.Registered) ↔ c.Guarded steps := by
  induction steps with
  | nil => intro c; simp [uses, Guarded]
  | cons s ss ih =>
    intro c
    cases halive : c.alive with
    | false => simp [uses, Guarded, halive]
    | true =>
      have hs := step_registered_iff halive s
      rw [uses, Guarded]
      simp only [halive, Bool.true_eq_false, if_false, false_or, List.forall_mem_append, hs]
      cases hc : (c.step s).2 with
      | none => simp
      | some c' => simp only [ih c']

/-- **Only registered awaiters are used** in a run of a new connection exactly when every event with `EPOLLIN` finds a read
awaiter and every event with both flags finds, after the reader has run, no send awaiter but the one it has read before. -/
theorem uses_registered_iff (steps : List ConnStep) :
    (∀ u ∈ ({} : RawConnection).uses steps, u.Registered) ↔ ({} : RawConnection).Guarded steps :=
  uses_registered_iff_of steps {}

/-- A request arrives on a writable socket. The coroutine answers with two bytes, of which the socket takes one at first, and
the send awaiter that it leaves behind is not the null pointer that `on_callback` then uses. And bytes that arrive while a
coroutine waits for a send are read into the buffer of a read awaiter that is not there. -/
theorem not_uses_registered :
    ¬(∀ u ∈ ({} : RawConnection).uses [.coroutine [.asyncRead 0 false],
        .event { epollin := true, epollout := true, afterRead := [.asyncSend 1 (bytes "ok") [.room 1]] }], u.Registered) ∧
      ¬(∀ u ∈ ({} : RawConnection).uses [.coroutine [.asyncRead 0 false],
        .event { epollin := true, afterRead := [.asyncSend 1 (bytes "ok") []] }, .event { epollin := true }], u.Registered) := by
  decide +kernel

end RawConnection

end Netcore
