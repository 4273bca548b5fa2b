import Netcore.Server
import Netcore.Socket.RawConnection

/-!
# What the socket takes of a response

`Server::handle` gives a response to `async_send` and waits. The call comes while `on_callback` is still about the event that brought
the request. When that event has `EPOLLOUT` as well and the socket does not take the whole response at once, the coroutine leaves an
awaiter where `on_callback` has read a null pointer before. And since nobody reads in the course of a response, a later event with
`EPOLLIN` goes through a null pointer too.

`deliver` follows one response through these events, beside the state of the connection (`deliver_follows`), and `sending_deliver` says
how much of it the socket takes. `delivered` puts the responses of a run of `serve` one after the other.
-/

namespace Netcore

/-- An event on the socket while a response is on its way: its flags, and what the calls of `::send` find, if it comes to them. -/
structure SendEvent where
  epollin : Bool := false
  epollout : Bool := false
  outs : List SendOutcome := []
  deriving DecidableEq, Repr

/-- The socket in the course of a response: whether it has been seen writable before (`m_send_at_awaiter`), whether the event that brings
the request has `EPOLLOUT`, what the calls of `::send` in `await_suspend` find, and the events after that, up to the time limit of the
send. -/
structure SendSchedule where
  sendAtAwaiter : Bool := false
  epollout : Bool := false
  outs : List SendOutcome := []
  events : List SendEvent := []
  deriving DecidableEq, Repr

/-- A response on its way, and whether `on_callback` has gone through a null pointer. -/
structure Outgoing where
  sending : Sending
  crashed : Bool := false
  deriving DecidableEq, Repr

namespace Outgoing

/-- `async_send` in the coroutine that was resumed with the request, and the rest of `on_callback` for that event. -/
def start (k : SendSchedule) (buf : Bytes) : Outgoing :=
  let s := Sending.awaitSuspend { awaiter := { buff := buf } } (k.sendAtAwaiter || k.epollout) k.outs
  { sending := s, crashed := k.epollout && !s.resumed }

/-- An event after it. Nothing comes after a crash, and a coroutine that has been resumed is no longer in this send. -/
def event (d : Outgoing) (e : SendEvent) : Outgoing :=
  if d.crashed || d.sending.resumed then d
  else if e.epollin then { d with crashed := true }
  else if e.epollout then { d with sending := d.sending.onWritable e.outs }
  else d

/-- The coroutine goes on after the send, and without an exception. -/
def goesOn (d : Outgoing) : Bool := d.sending.resumed && !d.sending.except

end Outgoing

namespace SendSchedule

/-- A response on a schedule, up to the end of its events. -/
def deliver (k : SendSchedule) (buf : Bytes) : Outgoing := k.events.foldl Outgoing.event (Outgoing.start k buf)

/-- The room in events that are only about sending. -/
def laterRoom : List SendEvent → Nat
  | [] => 0
  | e :: es => if e.epollin then 0 else (if e.epollout then totalRoom e.outs else 0) + laterRoom es

/-- The room that a response finds: in `await_suspend` when the socket has been seen writable, and then, unless `on_callback` still has
the null pointer to go through, in the events up to the first with `EPOLLIN`. -/
def capacity (k : SendSchedule) : Nat :=
  (if k.sendAtAwaiter || k.epollout then totalRoom k.outs else 0) + if k.epollout then 0 else laterRoom k.events

/-- A call of `::send` ends with an error. -/
def Fails (k : SendSchedule) : Prop := .failed ∈ k.outs ++ k.events.flatMap SendEvent.outs

instance (k : SendSchedule) : Decidable k.Fails := inferInstanceAs (Decidable (_ ∈ _))

end SendSchedule

/-! ## How much is taken -/

namespace Outgoing

/-- Nothing comes after a crash or the end of the send. -/
theorem foldl_event_over {d : Outgoing} (hd : (d.crashed || d.sending.resumed) = true) (es : List SendEvent) : es.foldl event d = d := by
  induction es with
  | nil => rfl
  | cons e es ih => rw [List.foldl_cons, event, if_pos hd, ih]

/-- The events after the first, when there has been room for `n` bytes before them. -/
theorem foldl_event_sentUpTo (buf : Bytes) (es : List SendEvent) : ∀ {n : Nat}, (∀ e ∈ es, ∀ o ∈ e.outs, o ≠ .failed) →
    (es.foldl event { sending := .sentUpTo buf n false (decide (buf.length ≤ n)) }).sending =
      .sentUpTo buf (n + SendSchedule.laterRoom es) false (decide (buf.length ≤ n + SendSchedule.laterRoom es)) := by
  induction es with
  | nil => exact fun _ => rfl
  | cons e es ih =>
    intro n hok
    obtain ⟨he, hes⟩ := List.forall_mem_cons.mp hok
    by_cases hall : buf.length ≤ n
    · have hmore : buf.length ≤ n + SendSchedule.laterRoom (e :: es) := by omega
      rw [decide_eq_true hall, decide_eq_true hmore, foldl_event_over rfl, Sending.sentUpTo, Sending.sentUpTo, Nat.min_eq_left hall,
        Nat.min_eq_left hmore, List.take_of_length_le hall, List.take_of_length_le hmore]
    · have hevent : event { sending := .sentUpTo buf n false false } e =
          if e.epollin then { sending := .sentUpTo buf n false false, crashed := true }
          else if e.epollout then { sending := (Sending.sentUpTo buf n false false).onWritable e.outs }
          else { sending := .sentUpTo buf n false false } := rfl
      rw [decide_eq_false hall, List.foldl_cons, hevent, SendSchedule.laterRoom]
      cases hin : e.epollin with
      | true =>
        rw [if_pos rfl, if_pos rfl, foldl_event_over rfl, Nat.add_zero, decide_eq_false hall]
      | false =>
        rw [if_neg Bool.false_ne_true, if_neg Bool.false_ne_true]
        cases hout : e.epollout with
        | true => rw [if_pos rfl, if_pos rfl, Sending.onWritable_sentUpTo buf n false he, ih hes, Nat.add_assoc]
        | false => rw [if_neg Bool.false_ne_true, if_neg Bool.false_ne_true, Nat.zero_add, ← ih hes, decide_eq_false hall]

end Outgoing

namespace SendSchedule

variable {k : SendSchedule} {buf : Bytes}

/-- **What the socket takes of a response** is its beginning, as far as there is room for it, and the coroutine goes on when that is all
of it. -/
theorem sending_deliver (hok : ¬k.Fails) (hne : buf ≠ []) :
    (k.deliver buf).sending = .sentUpTo buf k.capacity false (decide (buf.length ≤ k.capacity)) := by
  have houts : ∀ o ∈ k.outs, o ≠ .failed := fun o ho h => hok (List.mem_append_left _ (h ▸ ho))
  have hevents : ∀ e ∈ k.events, ∀ o ∈ e.outs, o ≠ .failed := fun e he o ho h =>
    hok (List.mem_append_right _ (List.mem_flatMap.mpr ⟨e, he, h ▸ ho⟩))
  have hpos : ¬buf.length ≤ 0 := fun h => hne (List.eq_nil_of_length_eq_zero (Nat.le_zero.mp h))
  unfold deliver capacity Outgoing.start
  rw [Sending.new_eq_sentUpTo]
  cases hnow : k.sendAtAwaiter || k.epollout with
  | true =>
    simp only [Sending.awaitSuspend_sentUpTo buf 0 false houts, Nat.zero_add, if_true]
    cases hout : k.epollout with
    | true =>
      -- the coroutine has gone on, or `on_callback` goes through the null pointer
      rw [Outgoing.foldl_event_over (by simp [Sending.sentUpTo])]
      rfl
    | false =>
      simp only [Bool.false_and, Bool.false_eq_true, if_false]
      exact Outgoing.foldl_event_sentUpTo buf k.events hevents
  | false =>
    have hout : k.epollout = false := (Bool.or_eq_false_iff.mp hnow).2
    have hlater := Outgoing.foldl_event_sentUpTo (n := 0) buf k.events hevents
    rw [decide_eq_false hpos] at hlater
    simpa only [hout, Bool.false_and, Bool.false_eq_true, if_false, Sending.awaitSuspend] using hlater

-- a response that is cut in an event with both flags: `on_callback` goes on with the null pointer
example : (({ epollout := true, outs := [.room 3] } : SendSchedule).deliver [1, 2, 3, 4]).crashed = true ∧
    (({ epollout := true, outs := [.room 3] } : SendSchedule).deliver [1, 2, 3, 4]).sending.wire = [1, 2, 3] := by decide

/-- The bytes on the wire. -/
theorem wire_deliver (hok : ¬k.Fails) (hne : buf ≠ []) : (k.deliver buf).sending.wire = buf.take k.capacity := by
  rw [sending_deliver hok hne, Sending.sentUpTo]

/-- The server goes on after a response exactly when there has been room for all of it. -/
theorem goesOn_deliver (hok : ¬k.Fails) (hne : buf ≠ []) : (k.deliver buf).goesOn = decide (buf.length ≤ k.capacity) := by
  rw [Outgoing.goesOn, sending_deliver hok hne, Sending.sentUpTo, Bool.not_false, Bool.and_true]

end SendSchedule

/-! ## The connection in the course of a response -/

/-- An event, as `on_callback` gets it while the coroutine is suspended in a send. -/
def SendEvent.toIoEvent (e : SendEvent) : IoEvent := { epollin := e.epollin, epollout := e.epollout, outs := e.outs }

namespace RawConnection

/-- The events on a connection up to the one in which the send ends. -/
def whileSending (c : RawConnection) : List SendEvent → Option RawConnection
  | [] => some c
  | e :: es => if c.sendAwaiter = none then some c else (c.onCallback e.toIoEvent).2.bind fun c' => c'.whileSending es

/-- The event that brings a request, with the send of its response in the coroutine that reads it, and the events after it. -/
def respond (c : RawConnection) (k : SendSchedule) (awaiter : Nat) (buf : Bytes) : Option RawConnection :=
  (c.onCallback { epollin := true, epollout := k.epollout, afterRead := [.asyncSend awaiter buf k.outs] }).2.bind fun c' =>
    c'.whileSending k.events

/-- A connection on which a coroutine waits for a request. -/
structure Waiting (c : RawConnection) (sendAtAwaiter : Bool) : Prop where
  alive : c.alive = true
  read : c.readAwaiter ≠ none
  send : c.sendAwaiter = none
  except : c.except = false
  sendAtAwaiter : c.sendAtAwaiter = sendAtAwaiter

/-- A connection whose only awaiter is the one of a send. -/
structure InSend (c : RawConnection) (awaiter : Nat) (s : Sending) : Prop where
  alive : c.alive = true
  read : c.readAwaiter = none
  send : c.sendAwaiter = some awaiter
  held : c.sends awaiter = s.awaiter
  except : c.except = s.except

/-- What there is of a connection in the course of a response: nothing after a null pointer, no send awaiter once the send has ended,
and before that the awaiter of the send. -/
def Follows (c : Option RawConnection) (awaiter : Nat) (d : Outgoing) : Prop :=
  if d.crashed then c = none
  else ∃ c', c = some c' ∧ if d.sending.resumed then c'.sendAwaiter = none else c'.InSend awaiter d.sending

end RawConnection

/-- What is on the wire plays no part in what a send does to its awaiter. -/
theorem Sending.onWritable_wire (s : Sending) (outs : List SendOutcome) :
    ∃ wire, ({ s with wire := [] } : Sending).onWritable outs = { s.onWritable outs with wire := wire } := by
  unfold onWritable trySend
  dsimp only
  cases (send s.awaiter.buf s.awaiter.leftBufSize outs).1 with
  | returned nbytes => exact ⟨_, by dsimp only; split_ifs <;> rfl⟩
  | threw => exact ⟨_, by dsimp only; split_ifs <;> rfl⟩

namespace RawConnection

variable {c : RawConnection} {awaiter : Nat}

/-- The connection after an event with `EPOLLIN`. -/
theorem onCallback_readable {e : IoEvent} (hin : e.epollin = true) (hread : c.readAwaiter ≠ none) :
    (c.onCallback e).2 =
      if e.epollout then ((c.afterReading e).onWritable e c.sendAwaiter).2 else some (c.afterReading e) := by
  unfold onCallback onReadable
  simp only [hin, hread, if_true, if_false]
  split_ifs <;> rfl

/-- The connection after an event without it. -/
theorem onCallback_not_readable {e : IoEvent} (hin : e.epollin = false) :
    (c.onCallback e).2 = if e.epollout then ((c.noteFlags e).onWritable e c.sendAwaiter).2 else some (c.noteFlags e) := by
  unfold onCallback
  simp only [hin, Bool.false_eq_true, if_false]
  split_ifs <;> rfl

/-- The event that brings the request: the reader runs up to the send. -/
theorem follows_start {k : SendSchedule} (h : c.Waiting k.sendAtAwaiter) (buf : Bytes) :
    Follows (c.onCallback { epollin := true, epollout := k.epollout, afterRead := [.asyncSend awaiter buf k.outs] }).2 awaiter
      (Outgoing.start k buf) := by
  obtain ⟨halive, hread, hsend, hexcept, hflag⟩ := h
  rw [onCallback_readable rfl hread, hsend]
  unfold Follows Outgoing.start
  have hnow : (Sending.awaitSuspend { awaiter := { buff := buf } } (k.sendAtAwaiter || k.epollout) k.outs) =
    (Sending.awaitSuspend { awaiter := { buff := buf }, except := c.except } (c.sendAtAwaiter || k.epollout) k.outs) := by
      rw [hexcept, hflag]
  rw [hnow]
  generalize hs : Sending.awaitSuspend { awaiter := { buff := buf }, except := c.except } (c.sendAtAwaiter || k.epollout) k.outs = s
  have hafter : c.afterReading { epollin := true, epollout := k.epollout, afterRead := [.asyncSend awaiter buf k.outs] } =
      { c with
        readAwaiter := none, recvAtAwaiter := false, sendAtAwaiter := c.sendAtAwaiter || k.epollout
        sends := Function.update c.sends awaiter s.awaiter
        except := s.except, sendAwaiter := if s.resumed then none else some awaiter } := by
    simp [afterReading, resumeRead, act, noteFlags, halive, hs]
  rw [hafter]
  cases hresumed : s.resumed with
  | true =>
    -- the send has ended before `on_callback` goes on, and it sees no send awaiter
    simp [onWritable, seenSend, hresumed]
  | false =>
    cases hout : k.epollout with
    | true =>
      -- the awaiter of the send is there now, but the pointer has been read before
      simp [onWritable, seenSend, halive, hresumed]
    | false => exact ⟨_, rfl, halive, rfl, rfl, Function.update_self .., rfl⟩

/-- An event in the course of the send. -/
theorem follows_event {d : Outgoing} (h : c.InSend awaiter d.sending) (hd : (d.crashed || d.sending.resumed) = false) (e : SendEvent) :
    Follows (c.onCallback e.toIoEvent).2 awaiter (d.event e) := by
  obtain ⟨hcrashed, hresumed⟩ := Bool.or_eq_false_iff.mp hd
  obtain ⟨halive, hread, hsend, hheld, hexcept⟩ := h
  unfold Outgoing.event Follows
  rw [hd, if_neg Bool.false_ne_true]
  cases hin : e.epollin with
  | true => simp [SendEvent.toIoEvent, onCallback, onReadable, hin, hread]
  | false =>
    rw [onCallback_not_readable hin]
    cases hout : e.epollout with
    | false =>
      have hnone : e.toIoEvent.epollout = false := hout
      simp only [hnone, hcrashed, hresumed, Bool.false_eq_true, if_false]
      exact ⟨_, rfl, halive, hread, hsend, hheld, hexcept⟩
    | true =>
      have hsome : e.toIoEvent.epollout = true := hout
      obtain ⟨wire, hwire⟩ := d.sending.onWritable_wire e.outs
      have hs : ({ awaiter := c.sends awaiter, except := c.except } : Sending).onWritable e.toIoEvent.outs =
          { d.sending.onWritable e.outs with wire := wire } := by
        rw [← hwire, hheld, hexcept, ← hresumed]
        rfl
      have hseen : (c.noteFlags e.toIoEvent).seenSend e.toIoEvent.freed ≠ none := by simp [seenSend, noteFlags, halive, hsend]
      have hnote : (c.noteFlags e.toIoEvent).sends = c.sends ∧ (c.noteFlags e.toIoEvent).except = c.except := ⟨rfl, rfl⟩
      simp only [hsome, hcrashed, Bool.false_eq_true, if_false, if_true]
      unfold onWritable
      simp only [if_neg hseen, hsend, hnote, hs]
      refine ⟨_, rfl, ?_⟩
      cases hr : (d.sending.onWritable e.outs).resumed with
      | true => simp [resumeSend, SendEvent.toIoEvent]
      | false => exact ⟨halive, hread, hsend, Function.update_self .., rfl⟩

/-- The events up to the end of the send. -/
theorem follows_whileSending (es : List SendEvent) : ∀ {c : Option RawConnection} {d : Outgoing}, Follows c awaiter d →
    Follows (c.bind fun c' => c'.whileSending es) awaiter (es.foldl Outgoing.event d) := by
  induction es with
  | nil =>
    intro c d h
    cases c with
    | none => exact h
    | some c => exact h
  | cons e es ih =>
    intro c d h
    cases hcrashed : d.crashed with
    | true =>
      rw [Outgoing.foldl_event_over (by rw [hcrashed]; rfl)]
      have hnone : c = none := by simpa [Follows, hcrashed] using h
      rw [hnone] at h ⊢
      exact h
    | false =>
      obtain ⟨c', rfl, hstate⟩ : ∃ c', c = some c' ∧
        if d.sending.resumed then c'.sendAwaiter = none else c'.InSend awaiter d.sending := by simpa [Follows, hcrashed] using h
      rw [Option.bind_some, whileSending]
      cases hresumed : d.sending.resumed with
      | true =>
        rw [hresumed, if_pos rfl] at hstate
        rw [if_pos hstate, Outgoing.foldl_event_over (by rw [hcrashed, hresumed]; rfl)]
        exact h
      | false =>
        rw [hresumed, if_neg Bool.false_ne_true] at hstate
        have hne : c'.sendAwaiter ≠ none := by
          rw [hstate.send]
          exact Option.some_ne_none _
        rw [if_neg hne]
        exact ih (follows_event hstate (by rw [hcrashed, hresumed]; rfl) e)

/-- **A response on a connection** goes the way that `deliver` says, from the event that brings the request to the end of the send. -/
theorem deliver_follows {k : SendSchedule} (h : c.Waiting k.sendAtAwaiter) (awaiter : Nat) (buf : Bytes) :
    Follows (c.respond k awaiter buf) awaiter (k.deliver buf) :=
  follows_whileSending k.events (follows_start h buf)

end RawConnection

/-! ## The responses of a connection -/

/-- Whether a step gives a response to `async_send`. -/
def Step.writes : Step → Bool
  | .processed _ (.state .needWrite) => true
  | .processed _ (.state .needWriteThenRead) => true
  | _ => false

namespace Server

/-- What the socket takes in a run, with a schedule for each response. `Server::handle` goes on when a response has been sent. -/
def delivered : List Step → List SendSchedule → Bytes
  | [], _ => []
  | s :: ss, [] => if s.writes then [] else delivered ss []
  | s :: ss, k :: ks =>
    if s.writes then (k.deliver s.response).sending.wire ++ if (k.deliver s.response).goesOn then delivered ss ks else []
    else delivered ss (k :: ks)

/-- A step that writes nothing has no response. -/
theorem response_of_not_writes {s : Step} (h : s.writes = false) : s.response = [] := by
  cases s with
  | recvError => rfl
  | ended => rfl
  | processed c answer =>
    cases answer with
    | threw message => rfl
    | nullRead => rfl
    | state st =>
      cases st with
      | needRead => rfl
      | needWrite => cases h
      | needWriteThenRead => cases h

/-- **What the client gets** is a beginning of the responses in their order, whatever the socket takes. -/
theorem delivered_prefix (steps : List Step) : ∀ {ks : List SendSchedule}, (∀ s ∈ steps, s.writes = true → s.response ≠ []) →
    (∀ k ∈ ks, ¬k.Fails) → delivered steps ks <+: steps.flatMap Step.response := by
  induction steps with
  | nil => exact fun _ _ => List.nil_prefix
  | cons s ss ih =>
    intro ks hne hok
    have htail : ∀ s' ∈ ss, s'.writes = true → s'.response ≠ [] := fun s' hs' => hne s' (List.mem_cons_of_mem _ hs')
    rw [List.flatMap_cons]
    cases hs : s.writes with
    | false =>
      have hskip : delivered (s :: ss) ks = delivered ss ks := by
        cases ks <;> rw [delivered, hs, if_neg Bool.false_ne_true]
      rw [hskip, response_of_not_writes hs]
      exact ih htail hok
    | true =>
      cases ks with
      | nil =>
        rw [delivered, hs, if_pos rfl]
        exact List.nil_prefix
      | cons k ks =>
        obtain ⟨hk, hks⟩ := List.forall_mem_cons.mp hok
        have hnil := hne s List.mem_cons_self hs
        rw [delivered, hs, if_pos rfl, SendSchedule.wire_deliver hk hnil, SendSchedule.goesOn_deliver hk hnil]
        by_cases hall : s.response.length ≤ k.capacity
        · rw [decide_eq_true hall, if_pos rfl, List.take_of_length_le hall]
          exact (List.prefix_append_right_inj _).mpr (ih htail hks)
        · rw [decide_eq_false hall, if_neg Bool.false_ne_true, List.append_nil]
          exact (List.take_prefix _ _).trans (List.prefix_append _ _)

/-- A run with one response. -/
theorem delivered_single {s : Step} (hs : s.writes = true) (k : SendSchedule) (ks : List SendSchedule) :
    delivered [s] (k :: ks) = (k.deliver s.response).sending.wire := by
  rw [delivered, if_pos hs]
  simp only [delivered, ite_self, List.append_nil]

end Server

end Netcore
