import Netcore.Server
import Netcore.Socket.Send

/-!
# `netcore::recv`

The loop that reads a socket until it would block. A run of calls of `::recv` is given by what each of them finds, and after the end
of the list the socket would block. Bytes that were stored are given beside the result, which is all that the caller gets to know of
them: for `Server::handle` the result 0 is a closed connection.

`recv_conserves_iff` says when the result counts what was stored. `recv_arrival` is the case of an arrival that is all there, which
the loop of the server is about.
-/

namespace Netcore

/-- What a call of `::recv` finds: bytes that wait, none (`EAGAIN`, `EWOULDBLOCK`), the end of the stream, or another error. -/
inductive RecvOutcome where
  | waiting (first : UInt8) (rest : Bytes)
  | wouldBlock
  | closed
  | failed
  deriving DecidableEq, Repr

namespace RecvOutcome

/-- The bytes that wait. -/
def available : RecvOutcome → Bytes
  | waiting first rest => first :: rest
  | _ => []

/-- The bytes that one call with room for `size` takes. -/
def taken (size : Nat) (o : RecvOutcome) : Bytes := o.available.take (min size maxTransfer)

/-- The most that one call can take. -/
def limit (o : RecvOutcome) : Nat := min o.available.length maxTransfer

end RecvOutcome

/-- `::recv` with room for `size` bytes: the number of bytes taken, 0 at the end of the stream, or `-1`. -/
def sysRecv (size : Nat) (o : RecvOutcome) : Int :=
  match o with
  | .waiting _ _ => (o.taken size).length
  | .wouldBlock => -1
  | .closed => 0
  | .failed => -1

/-- How `netcore::recv` ends: with a number of bytes, or with a `RecvError`. -/
inductive RecvExit where
  | returned (size : Nat)
  | threw
  deriving DecidableEq, Repr

/-- The loop of `netcore::recv`, with `recvSize` bytes of the buffer used: how it ends, and the bytes that it stores. -/
def recvLoop (buffSize : Nat) : List RecvOutcome → Nat → RecvExit × Bytes
  | [], recvSize => (.returned recvSize, [])
  | o :: outs, recvSize =>
    let nbytes := int32 (sysRecv (buffSize - recvSize) o)
    if nbytes < 0 then if o = .wouldBlock then (.returned recvSize, []) else (.threw, [])
    else if nbytes = 0 then (.returned 0, [])
    else
      let recvSize' := recvSize + nbytes.toNat
      if buffSize ≤ recvSize' then (.threw, o.taken (buffSize - recvSize))
      else
        let r := recvLoop buffSize outs recvSize'
        (r.1, o.taken (buffSize - recvSize) ++ r.2)

/-- `netcore::recv` into a buffer of `buffSize` bytes. -/
def recvAll (buffSize : Nat) (outs : List RecvOutcome) : RecvExit × Bytes := recvLoop buffSize outs 0

/-- A call that returns counts what it has stored. -/
def Conserves (r : RecvExit × Bytes) : Prop := ∀ n, r.1 = .returned n → n = r.2.length

/-- The condition for it: the stream does not end behind bytes that leave room in the buffer. -/
def NotClosedBehind (buffSize : Nat) (outs : List RecvOutcome) : Prop :=
  ∀ before after, outs = before ++ .closed :: after → (∀ o ∈ before, o.available ≠ []) →
    before = [] ∨ buffSize ≤ (before.map RecvOutcome.limit).sum

/-! ## One call -/

theorem length_taken (size : Nat) (o : RecvOutcome) : (o.taken size).length = min size o.limit := by
  rw [RecvOutcome.taken, RecvOutcome.limit, List.length_take]
  omega

/-- Something can be taken when bytes wait. -/
theorem limit_pos (first : UInt8) (rest : Bytes) : 0 < (RecvOutcome.waiting first rest).limit :=
  Nat.lt_min.mpr ⟨Nat.succ_pos _, by decide⟩

/-- What is taken at once is counted by an `int`. -/
theorem int32_taken (size : Nat) (o : RecvOutcome) : int32 ((o.taken size).length : Int) = (o.taken size).length := by
  have hlen := length_taken size o
  have hmax : maxTransfer = 0x7ffff000 := rfl
  refine int32_of_lt ?_
  rw [hlen, RecvOutcome.limit]
  omega

/-- A call that finds bytes, with room for some. -/
theorem recvLoop_waiting {buffSize recvSize : Nat} {first : UInt8} {rest : Bytes} (outs : List RecvOutcome)
    (hroom : recvSize < buffSize) :
    recvLoop buffSize (.waiting first rest :: outs) recvSize =
      if buffSize ≤ recvSize + (RecvOutcome.waiting first rest).limit then
        (.threw, (RecvOutcome.waiting first rest).taken (buffSize - recvSize))
      else
        ((recvLoop buffSize outs (recvSize + (RecvOutcome.waiting first rest).limit)).1,
          (RecvOutcome.waiting first rest).taken (buffSize - recvSize) ++
            (recvLoop buffSize outs (recvSize + (RecvOutcome.waiting first rest).limit)).2) := by
  have hlen := length_taken (buffSize - recvSize) (.waiting first rest)
  have hlimit := limit_pos first rest
  have hsys : int32 (sysRecv (buffSize - recvSize) (.waiting first rest)) =
      ((RecvOutcome.waiting first rest).taken (buffSize - recvSize)).length := int32_taken _ _
  rw [recvLoop]
  simp only [hsys, hlen]
  rw [if_neg (by omega), if_neg (by omega), Int.toNat_natCast]
  by_cases hfull : buffSize ≤ recvSize + (RecvOutcome.waiting first rest).limit
  · rw [if_pos (by omega), if_pos hfull]
  · rw [if_neg (by omega), if_neg hfull, Nat.min_eq_right (by omega)]

/-- A call without any room. -/
theorem recvLoop_zero (first : UInt8) (rest : Bytes) (outs : List RecvOutcome) :
    recvLoop 0 (.waiting first rest :: outs) 0 = (.returned 0, []) := by
  have htaken : (RecvOutcome.waiting first rest).taken (0 - 0) = [] := by
    rw [RecvOutcome.taken, Nat.sub_self, Nat.zero_min, List.take_zero]
  have hsys : int32 (sysRecv (0 - 0) (.waiting first rest)) = 0 := by
    rw [sysRecv, htaken]
    rfl
  rw [recvLoop]
  simp only [hsys]
  rfl

/-! ## The loop -/

theorem not_closed_cons {o : RecvOutcome} (h : o ≠ .closed) {before after outs : List RecvOutcome}
    (heq : o :: outs = before ++ .closed :: after) : ∃ before', before = o :: before' ∧ outs = before' ++ .closed :: after := by
  cases before with
  | nil => exact absurd (List.cons.inj heq).1 h
  | cons o' before' =>
    obtain ⟨rfl, htail⟩ := List.cons.inj heq
    exact ⟨before', rfl, htail⟩

/-- The end of the stream behind a call that finds bytes. -/
theorem closed_waiting_iff {buffSize recvSize : Nat} {first : UInt8} {rest : Bytes} {outs : List RecvOutcome} :
    (∀ before after, RecvOutcome.waiting first rest :: outs = before ++ .closed :: after → (∀ o ∈ before, o.available ≠ []) →
        recvSize = 0 ∧ before = [] ∨ buffSize ≤ recvSize + (before.map RecvOutcome.limit).sum) ↔
      ∀ before after, outs = before ++ .closed :: after → (∀ o ∈ before, o.available ≠ []) →
        buffSize ≤ recvSize + (RecvOutcome.waiting first rest).limit + (before.map RecvOutcome.limit).sum := by
  constructor
  · intro h before after heq hall
    rcases h (.waiting first rest :: before) after (by rw [heq]; rfl)
      (List.forall_mem_cons.mpr ⟨List.cons_ne_nil _ _, hall⟩) with ⟨-, hnil⟩ | hle
    · exact absurd hnil (List.cons_ne_nil _ _)
    · rw [List.map_cons, List.sum_cons] at hle
      omega
  · intro h before after heq hall
    obtain ⟨before', rfl, htail⟩ := not_closed_cons (by simp) heq
    have hle := h before' after htail (List.forall_mem_cons.mp hall).2
    rw [List.map_cons, List.sum_cons]
    exact .inr (by omega)

theorem recvLoop_iff {buffSize : Nat} (outs : List RecvOutcome) : ∀ {recvSize : Nat}, recvSize < buffSize →
    ((∀ n, (recvLoop buffSize outs recvSize).1 = .returned n → n = recvSize + (recvLoop buffSize outs recvSize).2.length) ↔
      ∀ before after, outs = before ++ .closed :: after → (∀ o ∈ before, o.available ≠ []) →
        recvSize = 0 ∧ before = [] ∨ buffSize ≤ recvSize + (before.map RecvOutcome.limit).sum) := by
  induction outs with
  | nil =>
    intro recvSize hroom
    refine iff_of_true (fun n hn => ?_) (fun before after heq => absurd heq (by simp))
    rw [← RecvExit.returned.inj hn]
    rfl
  | cons o outs ih =>
    intro recvSize hroom
    cases o with
    | wouldBlock =>
      refine iff_of_true (fun n hn => ?_) (fun before after heq hall => ?_)
      · rw [← RecvExit.returned.inj hn]
        rfl
      · obtain ⟨before', rfl, -⟩ := not_closed_cons (by decide) heq
        exact absurd rfl (hall .wouldBlock (.head before'))
    | failed =>
      refine iff_of_true (fun n hn => RecvExit.noConfusion hn) (fun before after heq hall => ?_)
      obtain ⟨before', rfl, -⟩ := not_closed_cons (by decide) heq
      exact absurd rfl (hall .failed (.head before'))
    | closed =>
      constructor
      · intro h before after heq hall
        have h0 : 0 = recvSize := h 0 rfl
        cases before with
        | nil => exact .inl ⟨h0.symm, rfl⟩
        | cons o before' =>
          obtain ⟨rfl, -⟩ := List.cons.inj heq
          exact absurd rfl (hall .closed (.head before'))
      · intro h n hn
        rw [← RecvExit.returned.inj hn]
        rcases h [] outs rfl (by simp) with ⟨h0, -⟩ | hfull
        · rw [h0]
          rfl
        · simp only [List.map_nil, List.sum_nil] at hfull
          omega
    | waiting first rest =>
      have hlimit := limit_pos first rest
      have hlen := length_taken (buffSize - recvSize) (.waiting first rest)
      rw [recvLoop_waiting outs hroom, closed_waiting_iff]
      split_ifs with hfull
      · exact iff_of_true (fun n hn => absurd hn (by simp)) (fun before after _ _ => by omega)
      · have hrec := ih (not_le.mp hfull)
        rw [List.length_append, hlen, Nat.min_eq_right (by omega)]
        simp only [← Nat.add_assoc] at hrec ⊢
        refine hrec.trans ?_
        refine forall_congr' fun before => forall_congr' fun after => forall_congr' fun _ => forall_congr' fun _ => ?_
        exact or_iff_right (fun h => by omega)

/-- Without any room, nothing is stored. -/
theorem recvAll_zero (outs : List RecvOutcome) : Conserves (recvAll 0 outs) := by
  intro n hn
  cases outs with
  | nil => exact (RecvExit.returned.inj hn).symm
  | cons o outs =>
    cases o with
    | waiting first rest =>
      rw [recvAll, recvLoop_zero] at hn ⊢
      exact (RecvExit.returned.inj hn).symm
    | wouldBlock => exact (RecvExit.returned.inj hn).symm
    | closed => exact (RecvExit.returned.inj hn).symm
    | failed => exact RecvExit.noConfusion hn

/-- **What `netcore::recv` returns** is the number of bytes that it has stored, exactly when the stream does not end behind bytes
that leave room in the buffer: then it returns 0. -/
theorem recv_conserves_iff (buffSize : Nat) (outs : List RecvOutcome) :
    Conserves (recvAll buffSize outs) ↔ NotClosedBehind buffSize outs := by
  rcases Nat.eq_zero_or_pos buffSize with rfl | hpos
  · exact iff_of_true (recvAll_zero outs) (fun _ _ _ _ => .inr (Nat.zero_le _))
  · have hloop := recvLoop_iff outs hpos
    simp only [Nat.zero_add, true_and] at hloop
    exact hloop

/-- Two bytes arrive, and the client closes: the result is 0. -/
theorem not_recv_conserves : ¬ ∀ buffSize outs, Conserves (recvAll buffSize outs) := by
  intro h
  exact absurd (h 10 [.waiting 71 [69], .closed] 0 (by decide)) (by decide)

/-- An arrival that is all there, in pieces of which none is too large for one call: the loop is `recv`. -/
theorem recvLoop_arrival {buffSize : Nat} (outs : List RecvOutcome) : (∀ o ∈ outs, o.available ≠ [] ∧ o.available.length ≤ maxTransfer) →
    ∀ {recvSize : Nat}, recvSize < buffSize → (recvLoop buffSize outs recvSize).1 =
      if buffSize ≤ recvSize + (outs.flatMap RecvOutcome.available).length then .threw
      else .returned (recvSize + (outs.flatMap RecvOutcome.available).length) := by
  induction outs with
  | nil =>
    intro _ recvSize hroom
    rw [List.flatMap_nil, List.length_nil, Nat.add_zero, if_neg (by omega)]
    rfl
  | cons o outs ih =>
    intro hall recvSize hroom
    obtain ⟨ho, hrest⟩ := List.forall_mem_cons.mp hall
    cases o with
    | wouldBlock => exact absurd rfl ho.1
    | closed => exact absurd rfl ho.1
    | failed => exact absurd rfl ho.1
    | waiting first rest =>
      have hlimit : (RecvOutcome.waiting first rest).limit = (RecvOutcome.waiting first rest).available.length :=
        Nat.min_eq_left ho.2
      rw [recvLoop_waiting outs hroom, hlimit, List.flatMap_cons, List.length_append, ← Nat.add_assoc]
      by_cases hfull : buffSize ≤ recvSize + (RecvOutcome.waiting first rest).available.length
      · rw [if_pos hfull, if_pos (by omega)]
      · rw [if_neg hfull]
        exact ih hrest (not_le.mp hfull)

/-- The step of the server reads an arrival as `netcore::recv` does. -/
theorem recv_arrival (size : Nat) (outs : List RecvOutcome)
    (hall : ∀ o ∈ outs, o.available ≠ [] ∧ o.available.length ≤ maxTransfer) :
    (recvAll size outs).1 = (recv (outs.flatMap RecvOutcome.available) size).elim .threw .returned := by
  rcases Nat.eq_zero_or_pos size with rfl | hpos
  · rw [recv, if_pos (.inl rfl)]
    cases outs with
    | nil => rfl
    | cons o outs =>
      obtain ⟨ho, -⟩ := List.forall_mem_cons.mp hall
      cases o with
      | waiting first rest => rw [recvAll, recvLoop_zero, Option.elim_some]
      | wouldBlock => exact absurd rfl ho.1
      | closed => exact absurd rfl ho.1
      | failed => exact absurd rfl ho.1
  · rw [recvAll, recvLoop_arrival outs hall hpos, Nat.zero_add]
    generalize outs.flatMap RecvOutcome.available = arrival
    rw [recv]
    by_cases hnil : arrival = []
    · rw [if_pos (show size = 0 ∨ arrival = [] from .inr hnil), hnil, List.length_nil, if_neg (by omega), Option.elim_some]
    · rw [if_neg (show ¬ (size = 0 ∨ arrival = []) from not_or.mpr ⟨by omega, hnil⟩)]
      split_ifs <;> rfl

end Netcore
