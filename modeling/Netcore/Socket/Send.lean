import Netcore.Basic

/-!
# Sending on a socket

`netcore::send` and the awaiter of `async_send`. The sockets are non-blocking: a call of `::send` takes some of the bytes it is
given, or none. A run of calls is given by what each of them finds, and after the end of the list the socket would block.

Progress is kept in three places: `netcore::send` counts what it has sent, the awaiter adds that to `m_tranfer_bytes`, and
both `await_suspend` and the `EPOLLOUT` branch of `on_callback` go on from there. `Sending` is one `async_send` from its start
on, with the bytes that the socket has taken for it in `wire`; no member of the source corresponds to `wire`.
-/

namespace Netcore

open Slices

/-- What a call of `::send` finds: room for so many bytes, none (`EAGAIN`, `EWOULDBLOCK`), or another error. -/
inductive SendOutcome where
  | room (n : Nat)
  | wouldBlock
  | failed
  deriving DecidableEq, Repr

/-- The bytes that one system call transfers at most on Linux. -/
def maxTransfer : Nat := 0x7ffff000

/-- `::send` of `len` bytes: the number of bytes taken, or `-1`. -/
def sysSend (len : Nat) : SendOutcome → Int
  | .room n => (min n (min len maxTransfer) : Nat)
  | .wouldBlock => -1
  | .failed => -1

/-- The conversion to `int`. -/
def int32 (x : Int) : Int := x.bmod (2 ^ 32)

/-- How `netcore::send` ends: with the number of bytes sent, or with a `SendError`. -/
inductive SendResult where
  | returned (sent : Nat)
  | threw
  deriving DecidableEq, Repr

/-- The loop of `netcore::send`, with `sendSize` bytes left to send after the first `sent`; and the bytes that the socket
takes. -/
def sendLoop (buf : Bytes) : List SendOutcome → Nat → Nat → SendResult × Bytes
  | [], _, sent => (.returned sent, [])
  | o :: outs, sendSize, sent =>
    if sendSize = 0 then (.returned sent, [])
    else
      let nbytes := int32 (sysSend sendSize o)
      let taken := slice buf sent (sent + (sysSend sendSize o).toNat)
      if nbytes < 0 then if o = .wouldBlock then (.returned sent, taken) else (.threw, taken)
      else
        let r := sendLoop buf outs (sendSize - nbytes.toNat) (sent + nbytes.toNat)
        (r.1, taken ++ r.2)

/-- `netcore::send`. -/
def send (buf : Bytes) (sendSize : Nat) (outs : List SendOutcome) : SendResult × Bytes := sendLoop buf outs sendSize 0

/-- No call transfers so much that the `int` of `netcore::send` would not hold it. -/
theorem int32_sysSend (len : Nat) (o : SendOutcome) : int32 (sysSend len o) = sysSend len o := by
  cases o with
  | room n =>
    have hle : min n (min len maxTransfer) ≤ 0x7ffff000 := (Nat.min_le_right _ _).trans (Nat.min_le_right _ _)
    rw [int32, sysSend, Int.bmod_eq_of_le]
    · omega
    · omega
  | wouldBlock => rfl
  | failed => rfl

/-- An `int` is at least the least and at most the greatest one. -/
theorem int32_bounds (x : Int) : -2147483648 ≤ int32 x ∧ int32 x < 2147483648 := by
  have h := Int.bmod_def x (2 ^ 32)
  unfold int32
  split_ifs at h <;> omega

/-- A length that is an `int`. -/
theorem int32_of_lt {n : Nat} (h : n < 2147483648) : int32 n = n := by
  have hb := Int.bmod_def (n : Int) (2 ^ 32)
  unfold int32
  split_ifs at hb <;> omega

/-- A length that is no `int` loses at least `2 ^ 31`. -/
theorem int32_toNat_add_le {n : Nat} (h : 2147483648 ≤ n) : (int32 n).toNat + 2147483648 ≤ n := by
  have hb := Int.bmod_def (n : Int) (2 ^ 32)
  unfold int32
  split_ifs at hb <;> omega

/-- The room that a run of calls finds, up to the first that finds none. -/
def totalRoom : List SendOutcome → Nat
  | .room n :: outs => min n maxTransfer + totalRoom outs
  | _ => 0

/-- The loop takes the bytes of the buffer in order, as far as there is room for them, and counts them. -/
theorem sendLoop_totalRoom (buf : Bytes) (outs : List SendOutcome) : ∀ (sendSize sent : Nat), (∀ o ∈ outs, o ≠ .failed) →
    sendLoop buf outs sendSize sent =
      (.returned (sent + min sendSize (totalRoom outs)), slice buf sent (sent + min sendSize (totalRoom outs))) := by
  induction outs with
  | nil => intro sendSize sent _; simp [sendLoop, totalRoom]
  | cons o outs ih =>
    intro sendSize sent hok
    rcases Nat.eq_zero_or_pos sendSize with rfl | hsize
    · simp [sendLoop]
    · cases o with
      | room n =>
        have hsys : (sysSend sendSize (.room n)).toNat = min sendSize (min n maxTransfer) := by
          rw [sysSend, Int.toNat_natCast]
          omega
        have hpos : ¬sysSend sendSize (.room n) < 0 := by simp [sysSend]
        have hsum : min sendSize (min n maxTransfer) + min (sendSize - min sendSize (min n maxTransfer)) (totalRoom outs) =
            min sendSize (totalRoom (.room n :: outs)) := by
          rw [totalRoom]
          omega
        have hrest := ih (sendSize - min sendSize (min n maxTransfer)) (sent + min sendSize (min n maxTransfer))
          (fun x hx => hok x (List.mem_cons_of_mem _ hx))
        simp only [sendLoop, int32_sysSend, if_neg (Nat.ne_of_gt hsize), if_neg hpos, hsys, hrest]
        rw [slice_append buf (Nat.le_add_right _ _) (Nat.le_add_right _ _), Nat.add_assoc, hsum]
      | wouldBlock =>
        have hneg : sysSend sendSize .wouldBlock < 0 := Int.negSucc_lt_zero 0
        simp only [sendLoop, int32_sysSend, if_neg (Nat.ne_of_gt hsize), if_pos hneg, if_true, totalRoom, Nat.min_zero, Nat.add_zero]
        rfl
      | failed => exact absurd rfl (hok _ (by simp))

/-! ## `AsyncSendAwaiter` -/

/-- The members of `AsyncSendAwaiter` that its functions use; `m_buff_size` is the length of the buffer. -/
structure AsyncSendAwaiter where
  buff : Bytes
  tranferBytes : Nat := 0
  deriving DecidableEq, Repr

namespace AsyncSendAwaiter

/-- `buf`: where to go on sending. -/
def buf (a : AsyncSendAwaiter) : Bytes := a.buff.drop a.tranferBytes

def leftBufSize (a : AsyncSendAwaiter) : Nat := a.buff.length - a.tranferBytes

def updateSentSize (a : AsyncSendAwaiter) (size : Nat) : AsyncSendAwaiter := { a with tranferBytes := a.tranferBytes + size }

def finised (a : AsyncSendAwaiter) : Bool := decide (a.buff.length ≤ a.tranferBytes)

end AsyncSendAwaiter

/-- One `async_send`: its awaiter, what the socket has taken for it, whether `m_except` of the connection is set, and whether
the coroutine has been resumed. -/
structure Sending where
  awaiter : AsyncSendAwaiter
  wire : Bytes := []
  except : Bool := false
  resumed : Bool := false
  deriving DecidableEq, Repr

namespace Sending

/-- The `try` block that `await_suspend` and `on_callback` share, and its `catch`. -/
def trySend (s : Sending) (outs : List SendOutcome) : Sending × Bool :=
  let r := send s.awaiter.buf s.awaiter.leftBufSize outs
  match r.1 with
  | .returned nbytes => ({ s with awaiter := s.awaiter.updateSentSize nbytes, wire := s.wire ++ r.2 }, true)
  | .threw => ({ s with wire := s.wire ++ r.2, except := true }, false)

/-- `await_suspend`: with `m_send_at_awaiter` it sends at once. A coroutine that is not suspended goes on. -/
def awaitSuspend (s : Sending) (sendAtAwaiter : Bool) (outs : List SendOutcome) : Sending :=
  if sendAtAwaiter then
    let r := s.trySend outs
    if r.2 = false then { r.1 with resumed := true }
    else if r.1.awaiter.finised then { r.1 with resumed := true } else r.1
  else s

/-- The `EPOLLOUT` branch of `on_callback`. -/
def onWritable (s : Sending) (outs : List SendOutcome) : Sending :=
  let r := s.trySend outs
  if r.1.awaiter.finised then { r.1 with resumed := true } else r.1

/-- An `EPOLLOUT` event. A resumed coroutine has taken its awaiter off the connection. -/
def event (s : Sending) (outs : List SendOutcome) : Sending := if s.resumed then s else s.onWritable outs

/-- `co_await async_send(buf)`, and the `EPOLLOUT` events after it. -/
def run (buf : Bytes) (except sendAtAwaiter : Bool) (outs : List SendOutcome) (events : List (List SendOutcome)) : Sending :=
  events.foldl event (awaitSuspend { awaiter := { buff := buf }, except := except } sendAtAwaiter outs)

/-- The socket has taken the first `m_tranfer_bytes` bytes of the buffer, and a coroutine that goes on without an exception
has had all of it sent. -/
structure InOrder (buf : Bytes) (s : Sending) : Prop where
  buff : s.awaiter.buff = buf
  wire : s.wire = buf.take s.awaiter.tranferBytes
  inside : s.awaiter.tranferBytes ≤ buf.length
  whole : s.resumed = true → s.except = false → s.awaiter.tranferBytes = buf.length

/-- A send for which the socket has had room for `n` bytes so far. -/
def sentUpTo (buf : Bytes) (n : Nat) (except resumed : Bool) : Sending :=
  { awaiter := { buff := buf, tranferBytes := min buf.length n }, wire := buf.take n, except, resumed }

/-- A send that has just been started. -/
theorem new_eq_sentUpTo (buf : Bytes) (except : Bool) :
    { awaiter := { buff := buf }, except := except } = sentUpTo buf 0 except false := by
  simp [sentUpTo]

/-- The bytes sent at once are those after the ones sent before. -/
theorem trySend_sentUpTo (buf : Bytes) (n : Nat) (except resumed : Bool) {outs : List SendOutcome} (hok : ∀ o ∈ outs, o ≠ .failed) :
    (sentUpTo buf n except resumed).trySend outs = (sentUpTo buf (n + totalRoom outs) except resumed, true) := by
  have hsend := sendLoop_totalRoom (sentUpTo buf n except resumed).awaiter.buf outs (sentUpTo buf n except resumed).awaiter.leftBufSize 0 hok
  have hcount : min buf.length n + min (buf.length - min buf.length n) (totalRoom outs) = min buf.length (n + totalRoom outs) := by omega
  have htake : ∀ i, buf.take (min buf.length i) = buf.take i := fun i => by rw [Nat.min_comm, ← List.take_eq_take_min]
  rw [trySend, send, hsend, Nat.zero_add]
  simp only [sentUpTo, AsyncSendAwaiter.leftBufSize, AsyncSendAwaiter.buf, AsyncSendAwaiter.updateSentSize, slice_zero, hcount]
  rw [← htake n, ← List.take_add, hcount, htake]

/-- It is finished when there has been room for the whole buffer. -/
theorem finised_sentUpTo (buf : Bytes) (n : Nat) (except resumed : Bool) :
    (sentUpTo buf n except resumed).awaiter.finised = decide (buf.length ≤ n) := by
  rw [AsyncSendAwaiter.finised, decide_eq_decide, sentUpTo]
  dsimp only
  omega

/-- `await_suspend` with `m_send_at_awaiter`: the coroutine goes on at once when the socket has room for all. -/
theorem awaitSuspend_sentUpTo (buf : Bytes) (n : Nat) (except : Bool) {outs : List SendOutcome} (hok : ∀ o ∈ outs, o ≠ .failed) :
    (sentUpTo buf n except false).awaitSuspend true outs =
      sentUpTo buf (n + totalRoom outs) except (decide (buf.length ≤ n + totalRoom outs)) := by
  rw [awaitSuspend, trySend_sentUpTo buf n except false hok]
  simp only [finised_sentUpTo, if_true, Bool.true_eq_false, if_false, decide_eq_true_eq]
  by_cases h : buf.length ≤ n + totalRoom outs
  · rw [if_pos h, decide_eq_true h, sentUpTo, sentUpTo]
  · rw [if_neg h, decide_eq_false h]

/-- The `EPOLLOUT` branch, likewise. -/
theorem onWritable_sentUpTo (buf : Bytes) (n : Nat) (except : Bool) {outs : List SendOutcome} (hok : ∀ o ∈ outs, o ≠ .failed) :
    (sentUpTo buf n except false).onWritable outs =
      sentUpTo buf (n + totalRoom outs) except (decide (buf.length ≤ n + totalRoom outs)) := by
  rw [← awaitSuspend_sentUpTo buf n except hok, awaitSuspend, onWritable, trySend_sentUpTo buf n except false hok]
  simp only [if_true, Bool.true_eq_false, if_false]

/-- A send in order is known by its count. -/
theorem InOrder.eq_sentUpTo {buf : Bytes} {s : Sending} (h : s.InOrder buf) :
    s = sentUpTo buf s.awaiter.tranferBytes s.except s.resumed := by
  obtain ⟨hbuff, hwire, hle, -⟩ := h
  rw [sentUpTo, Nat.min_eq_right hle, ← hwire, ← hbuff]

/-- A send that has got to `n` has what came before in order. -/
theorem inOrder_sentUpTo (buf : Bytes) (n : Nat) (except : Bool) {resumed : Bool}
    (h : resumed = true → except = false → buf.length ≤ n) : (sentUpTo buf n except resumed).InOrder buf := by
  refine ⟨rfl, ?_, Nat.min_le_left _ _, fun hr he => Nat.min_eq_left (h hr he)⟩
  rw [sentUpTo, Nat.min_comm, ← List.take_eq_take_min]

/-- The loop of `await_suspend` goes on in order, as long as no `::send` fails. -/
theorem awaitSuspend_inOrder {buf : Bytes} {s : Sending} (h : s.InOrder buf) (hr : s.resumed = false) (sendAtAwaiter : Bool)
    {outs : List SendOutcome} (hok : ∀ o ∈ outs, o ≠ .failed) : (s.awaitSuspend sendAtAwaiter outs).InOrder buf := by
  cases sendAtAwaiter with
  | false => exact h
  | true =>
    rw [h.eq_sentUpTo, hr, awaitSuspend_sentUpTo buf _ _ hok]
    exact inOrder_sentUpTo buf _ _ fun hr _ => of_decide_eq_true hr

/-- One event. -/
theorem event_inOrder {buf : Bytes} {s : Sending} (h : s.InOrder buf) {outs : List SendOutcome}
    (hok : ∀ o ∈ outs, o ≠ .failed) : (s.event outs).InOrder buf := by
  unfold event
  cases hr : s.resumed with
  | true => exact h
  | false =>
    rw [if_neg Bool.false_ne_true, h.eq_sentUpTo, hr, onWritable_sentUpTo buf _ _ hok]
    exact inOrder_sentUpTo buf _ _ fun hr _ => of_decide_eq_true hr

/-- Events one after the other. -/
theorem events_inOrder {buf : Bytes} (events : List (List SendOutcome)) : ∀ {s : Sending}, s.InOrder buf →
    (∀ o ∈ events.flatten, o ≠ .failed) → (events.foldl event s).InOrder buf := by
  induction events with
  | nil => intro s h _; exact h
  | cons outs events ih =>
    intro s h hok
    rw [List.flatten_cons] at hok
    exact ih (event_inOrder h (fun o ho => hok o (List.mem_append_left _ ho))) (fun o ho => hok o (List.mem_append_right _ ho))

/-- **An asynchronous send is exactly once and in order**: whatever the calls of `::send` take, the socket has taken the first
`m_tranfer_bytes` bytes of the buffer, and the coroutine goes on without an exception only when these are all of it. -/
theorem run_inOrder (buf : Bytes) (except sendAtAwaiter : Bool) (outs : List SendOutcome) (events : List (List SendOutcome))
    (hok : ∀ o ∈ outs ++ events.flatten, o ≠ .failed) : (run buf except sendAtAwaiter outs events).InOrder buf := by
  have hstart : InOrder buf { awaiter := { buff := buf }, except := except } :=
    ⟨rfl, rfl, Nat.zero_le _, fun hr => absurd hr (by simp)⟩
  exact events_inOrder events (awaitSuspend_inOrder hstart rfl sendAtAwaiter (fun o ho => hok o (List.mem_append_left _ ho)))
    (fun o ho => hok o (List.mem_append_right _ ho))

/-- A text that goes out in four pieces, over two events. -/
theorem run_inOrder_hello :
    (run (bytes "hello") false true [.room 1, .wouldBlock] [[.room 2, .room 1], [.room 9]]).InOrder (bytes "hello") ∧
      (run (bytes "hello") false true [.room 1, .wouldBlock] [[.room 2, .room 1], [.room 9]]).resumed = true :=
  ⟨run_inOrder _ _ _ _ _ (by decide), by decide +kernel⟩

end Sending

end Netcore
