import Netcore.Connection.Frames
import Netcore.Server.Runs

/-!
# WebSocket frames over reads

The reads of a connection that has been upgraded. A frame that arrives in pieces is handled once, when its last byte is there.
Of frames that arrive in one read only the first is handled when it has FIN: the loop ends there, and the buffer is counted as
empty.
-/

namespace Netcore

open Slices

/-- A connection that has been upgraded, with the bytes `sent` of frames in its buffer. -/
@[mk_iff]
structure Connection.Upgraded (sent : Bytes) (c : Connection) : Prop where
  work : c.continueWork = some .handleWsData
  capacity : c.req.atCapacity = false
  buffered : c.req.Buffered sent

instance decUpgraded (sent : Bytes) (c : Connection) : Decidable (c.Upgraded sent) :=
  decidable_of_iff' _ (Connection.upgraded_iff sent c)

theorem Request.SameBuffer.atCapacity {r q : Request} (h : r.SameBuffer q) : q.atCapacity = r.atCapacity := by
  unfold Request.atCapacity
  rw [h.headerLen, h.bodyLen]

namespace Connection

variable {env : Env} {sent : Bytes} {c c' : Connection} {fs : List (WsFrameType × Bytes)}

/-- The connection waits for the rest of a frame. -/
theorem Upgraded.after_needRead (h : c.Upgraded sent) (ha : After env c fs .needRead c')
    (hno : NoCallback env (fs.map Prod.fst)) : c'.Upgraded sent := by
  have hb := ha.buffer (by simp) hno
  have hs := ha.curSize hno rfl
  refine ⟨ha.work.trans h.work, hb.atCapacity.trans h.capacity, ?_, ?_, ?_⟩
  · rw [Request.received, hb.buf, hs]
    exact h.buffered.received
  · rw [hb.buf, hs]
    exact h.buffered.curSize
  · rw [hb.buf]
    exact h.buffered.length

/-- The connection waits for the next frame. -/
theorem Upgraded.after_fin (h : c.Upgraded sent) (ha : After env c fs .fin c') (hno : NoCallback env (fs.map Prod.fst)) :
    c'.Upgraded [] := by
  have hb := ha.buffer (by simp) hno
  have hs := ha.fin rfl
  refine ⟨ha.work.trans h.work, hb.atCapacity.trans h.capacity, ?_, ?_, ?_⟩
  · rw [Request.received, hs, List.take_zero]
  · rw [hs]
    exact Nat.zero_le _
  · rw [hb.buf]
    exact h.buffered.length

end Connection

namespace Server

variable {env : Env} {c c' : Connection} {sent a : Bytes} {fs : List (WsFrameType × Bytes)} {e : Ending} {f : WsFrame}

/-- A read leaves an upgraded connection with more bytes. -/
theorem upgraded_receive (h : c.Upgraded sent) (hlt : sent.length + a.length < c.req.buf.length) :
    { c with req := receive c.req a }.Upgraded (sent ++ a) := by
  have hcur := h.buffered.length_eq
  refine ⟨h.work, h.capacity, h.buffered.receive ?_⟩
  unfold Request.leftSize
  omega

/-- A read of an upgraded connection. -/
theorem step_sees (env : Env) (h : c.Upgraded sent) (hne : a ≠ []) (hlt : sent.length + a.length < c.req.buf.length)
    (hs : Sees (sent ++ a) (sent ++ a).length c.ws 0 fs e) : ∃ c' answer, step env c a = .processed c' answer ∧
      e.Answers answer ∧ Connection.After env { c with req := receive c.req a } fs e c' := by
  have hcur := h.buffered.length_eq
  have hmax := h.buffered.length
  obtain ⟨hwork, hcap, hbuf⟩ := upgraded_receive (c := c) (a := a) h hlt
  have hstep : step env c a = _ := step_eq hne (show a.length < c.req.leftSize by unfold Request.leftSize; omega) (by omega)
  rw [Connection.process_handleWsData hcap hwork, Connection.handleWsData] at hstep
  have hsees : Sees (receive c.req a).buf (receive c.req a).curSize c.ws 0 fs e := by
    have hlen : (receive c.req a).curSize = (sent ++ a).length := hbuf.length_eq
    rw [hlen]
    refine hs.congr ?_
    rw [← hlen, List.take_of_length_le (Nat.le_of_eq hlen.symm)]
    exact hbuf.received
  exact ⟨_, _, hstep, Connection.wsLoop_sees env hsees (c := { c with req := receive c.req a }) rfl
    (Nat.lt_succ_of_le (Nat.sub_le _ _))⟩

/-- A read that does not fit the buffer. -/
theorem step_full (env : Env) (h : c.Upgraded sent) (hlt : c.req.buf.length ≤ sent.length + a.length) :
    ∀ c' answer, step env c a ≠ .processed c' answer := by
  intro c' answer hs
  obtain ⟨-, hlt', -, -⟩ := step_processed hs
  have hcur := h.buffered.length_eq
  unfold Request.leftSize at hlt'
  omega

/-! ## A frame in pieces -/

/-- A read that does not complete the frame changes nothing that can be seen. -/
theorem step_part (env : Env) (h : c.Upgraded sent) (hne : a ≠ []) (hp : sent ++ a <+: f.wire)
    (hlt : (sent ++ a).length < f.wire.length) (hfit : f.wire.length < c.req.buf.length) :
    ∃ c', step env c a = .processed c' (.state .needRead) ∧ c'.Upgraded (sent ++ a) ∧ c'.req.buf.length = c.req.buf.length ∧
      c'.trace = c.trace ∧ c'.lastWsStr = c.lastWsStr := by
  have hroom : sent.length + a.length < c.req.buf.length := by
    rw [List.length_append] at hlt
    omega
  have hup := upgraded_receive h hroom
  obtain ⟨c', answer, hstep, rfl, ha⟩ := step_sees env h hne hroom (f.sees_part c.ws hp hlt)
  have hno : Connection.NoCallback env ([].map (Prod.fst (β := Bytes))) := .inr (by simp)
  have htr := ha.trace
  rw [frameActs, List.append_nil] at htr
  refine ⟨c', hstep, hup.after_needRead ha hno, ?_, htr, ha.kept⟩
  rw [(ha.buffer (by simp) hno).buf]
  exact length_overwrite (by rw [h.buffered.length_eq]; omega)

/-- The reads that follow when the bytes `sent` of a frame have arrived. -/
theorem serve_frame_from (env : Env) (f : WsFrame) (hfin : f.fin = true)
    (hop : f.opcode = Opcode.text ∨ f.opcode = Opcode.binary ∨ f.opcode = Opcode.ping ∨ f.opcode = Opcode.pong) :
    ∀ (arrivals : List Bytes) (sent : Bytes) (c : Connection), c.Upgraded sent → f.wire.length < c.req.buf.length →
      (∀ a ∈ arrivals, a ≠ []) → sent ++ arrivals.flatten = f.wire → arrivals ≠ [] →
      ∃ init c', serve env c arrivals = init ++ [.processed c' (.state .needWriteThenRead)] ∧
        init.length + 1 = arrivals.length ∧
        (∀ s ∈ init, ∃ c₁, s = .processed c₁ (.state .needRead) ∧ c₁.trace = c.trace ∧ c₁.lastWsStr = c.lastWsStr) ∧
        c'.trace = c.trace ++ .frame f.type f.payload :: reactions env c.lastWsStr f.type f.payload ∧ c'.req.curSize = 0 := by
  have hclose : f.type ≠ .closeFrame := by
    apply WsFrame.type_ne_close
    rcases hop with h | h | h | h <;> rw [h] <;> decide
  intro arrivals
  induction arrivals with
  | nil => intro sent c _ _ _ _ hne; exact absurd rfl hne
  | cons a as ih =>
    intro sent c hc hfit hne hflat _
    have ha : a ≠ [] := hne a (by simp)
    cases as with
    | nil =>
      have hwire : sent ++ a = f.wire := by simpa using hflat
      have hroom : sent.length + a.length < c.req.buf.length := by
        rw [← List.length_append, hwire]
        exact hfit
      have hsees := f.sees_fin c.ws hfin hclose []
      rw [List.append_nil, ← hwire] at hsees
      obtain ⟨c', answer, hstep, rfl, hend⟩ := step_sees env hc ha hroom hsees
      refine ⟨[], c', by rw [serve_singleton, hstep]; rfl, rfl, by simp, ?_, hend.fin rfl⟩
      have htr := hend.trace
      rwa [frameActs, frameActs, List.append_nil] at htr
    | cons b bs =>
      have hb : b ≠ [] := hne b (by simp)
      have hpos := List.length_pos_iff.mpr hb
      have hflat' : (sent ++ a) ++ (b :: bs).flatten = f.wire := by
        rw [← hflat, List.append_assoc]
        rfl
      have hlt : (sent ++ a).length < f.wire.length := by
        rw [← hflat', List.flatten_cons]
        simp only [List.length_append]
        omega
      obtain ⟨c₁, hstep, hc₁, hbuf, htr, hlast⟩ := step_part env hc ha ⟨_, hflat'⟩ hlt hfit
      obtain ⟨init, c', hrun, hlen, hinit, htrace, hcur⟩ := ih (sent ++ a) c₁ hc₁ (by rw [hbuf]; exact hfit)
        (fun x hx => hne x (List.mem_cons_of_mem a hx)) hflat' (by simp)
      refine ⟨.processed c₁ (.state .needRead) :: init, c', ?_, by simpa using hlen, ?_, ?_, hcur⟩
      · rw [serve_cons_continues hstep rfl, hrun]
        rfl
      · intro s hs
        rcases List.mem_cons.mp hs with rfl | hs
        · exact ⟨c₁, rfl, htr, hlast⟩
        · rw [htr, hlast] at hinit
          exact hinit s hs
      · rw [htrace, htr, hlast]

/-- A text, binary, ping or pong frame that arrives in any number of reads: each read but the last is answered with
`need_read`, and nothing is done; the last one handles the frame, with its payload, and leaves the buffer empty. -/
theorem serve_frame (env : Env) (hc : c.Upgraded []) (hfin : f.fin = true)
    (hop : f.opcode = Opcode.text ∨ f.opcode = Opcode.binary ∨ f.opcode = Opcode.ping ∨ f.opcode = Opcode.pong)
    (hfit : f.wire.length < c.req.buf.length) (arrivals : List Bytes) (hne : ∀ a ∈ arrivals, a ≠ [])
    (hflat : arrivals.flatten = f.wire) :
    ∃ init c', serve env c arrivals = init ++ [.processed c' (.state .needWriteThenRead)] ∧
      init.length + 1 = arrivals.length ∧
      (∀ s ∈ init, ∃ c₁, s = .processed c₁ (.state .needRead) ∧ c₁.trace = c.trace ∧ c₁.lastWsStr = c.lastWsStr) ∧
      c'.trace = c.trace ++ .frame f.type f.payload :: reactions env c.lastWsStr f.type f.payload ∧ c'.req.curSize = 0 := by
  refine serve_frame_from env f hfin hop arrivals [] c hc hfit hne hflat ?_
  rintro rfl
  cases hflat

/-- An application that accepts WebSockets at `/ws`. -/
def accepting : Env := { Env.bare [(bytes "/ws", .user 0)] with wsCheck := fun _ => some fun _ res => (true, res) }

/-- A connection after the handshake. -/
def handshaken : Connection :=
  (Connection.process accepting (received .none (bytes "GET /ws HTTP/1.1\r\nConnection: Upgrade\r\nUpgrade: websocket\r\n" ++
    bytes "Sec-WebSocket-Key: dGhlIHNhbXBsZSBub25jZQ==\r\n\r\n"))).1

theorem upgraded_handshaken : handshaken.Upgraded [] ∧ handshaken.lastWsStr = [] ∧ handshaken.req.buf.length = 1024 := by
  decide +kernel

/-- The text `hi` under the key 1, 2, 3, 4. -/
def hiFrame : WsFrame where
  fin := true
  opcode := Opcode.text
  form := .short
  key := [1, 2, 3, 4]
  payload := bytes "hi"
  opcode_lt := by decide
  key_length := rfl
  key_ne := by decide
  payload_lt := by decide

/-- It arrives in three reads, cut in the header and in the key. -/
theorem serve_frame_hi : ∃ init c',
    serve accepting handshaken [[0x81], [0x82, 1, 2, 3], [4, 105, 107]] = init ++ [.processed c' (.state .needWriteThenRead)] ∧
      init.length + 1 = 3 ∧
      (∀ s ∈ init, ∃ c₁, s = .processed c₁ (.state .needRead) ∧ c₁.trace = handshaken.trace ∧
        c₁.lastWsStr = handshaken.lastWsStr) ∧
      c'.trace = handshaken.trace ++ [.frame .textFrame (bytes "hi"), .event .dataContinue (handshaken.lastWsStr ++ bytes "hi")] ∧
      c'.req.curSize = 0 :=
  serve_frame accepting (f := hiFrame) upgraded_handshaken.1 rfl (by decide) (by rw [upgraded_handshaken.2.2]; decide) _ (by decide)
    (by decide)

end Server

/-! ## Frames in one read -/

/-- A message or a reply. -/
def Act.isOutput : Act → Bool
  | .event .dataContinue _ | .reply _ => true
  | _ => false

/-- What a text, binary or ping frame is to lead to: a message with its payload, or a pong. -/
def WsFrame.output (f : WsFrame) : Act :=
  if f.opcode = Opcode.ping then .reply (formatHeader f.payload.length Opcode.pong ++ f.payload)
  else .event .dataContinue f.payload

namespace Server

variable {env : Env} {c : Connection} {fs : List WsFrame}

/-- No frame of a read is lost: each one leads to its message or its pong, in order. -/
def NoneLost (env : Env) (c : Connection) (fs : List WsFrame) : Prop :=
  ∃ c' answer, serve env c [fs.flatMap WsFrame.wire] = [.processed c' answer] ∧
    c'.trace.filter Act.isOutput = c.trace.filter Act.isOutput ++ fs.map WsFrame.output

/-- Of frames that arrive in one read, the first one with FIN is the last one handled. -/
theorem step_first (env : Env) {f : WsFrame} (hc : c.Upgraded []) (hfin : f.fin = true) (hclose : f.type ≠ .closeFrame) (t : Bytes)
    {c' : Connection} {answer : Answer} (hs : step env c (f.wire ++ t) = .processed c' answer) :
    answer = .state .needWriteThenRead ∧
      c'.trace = c.trace ++ .frame f.type f.payload :: reactions env c.lastWsStr f.type f.payload ∧ c'.req.curSize = 0 := by
  obtain ⟨hne, hlt, -, -⟩ := step_processed hs
  have hroom : ([] : Bytes).length + (f.wire ++ t).length < c.req.buf.length := by
    have hcur := hc.buffered.length_eq
    unfold Request.leftSize at hlt
    simp only [List.length_nil] at hcur ⊢
    omega
  obtain ⟨c₁, ans₁, hstep, rfl, hend⟩ := step_sees env hc hne hroom (f.sees_fin c.ws hfin hclose t)
  rw [hstep] at hs
  cases hs
  have htr := hend.trace
  rw [frameActs, frameActs, List.append_nil] at htr
  exact ⟨rfl, htr, hend.fin rfl⟩

/-- A text, binary or ping frame at the front of a read: there is at most one message or reply. -/
theorem serve_first (hc : c.Upgraded []) {f : WsFrame} (hfin : f.fin = true)
    (hop : f.opcode = Opcode.text ∨ f.opcode = Opcode.binary ∨ f.opcode = Opcode.ping) {t : Bytes} {c' : Connection} {answer : Answer}
    (hrun : serve env c [f.wire ++ t] = [.processed c' answer]) :
    ∃ out, c'.trace.filter Act.isOutput = c.trace.filter Act.isOutput ++ out ∧ out.length ≤ 1 := by
  have hclose : f.type ≠ .closeFrame := by
    apply WsFrame.type_ne_close
    rcases hop with h | h | h <;> rw [h] <;> decide
  rw [serve_singleton] at hrun
  obtain ⟨-, htr, -⟩ := step_first env hc hfin hclose t (List.singleton_inj.mp hrun)
  refine ⟨_, by rw [htr, List.filter_append], ?_⟩
  rw [List.filter_cons_of_neg (by simp [Act.isOutput])]
  refine (List.length_filter_le _ _).trans ?_
  rcases hop with h | h | h <;> simp [WsFrame.type, Websocket.frameType, h, hfin, reactions, Opcode.text, Opcode.binary, Opcode.ping]

/-- Two or more text, binary or ping frames in one read: all but the first are lost, whatever they are. -/
theorem not_noneLost (hc : c.Upgraded []) (htwo : 2 ≤ fs.length)
    (hfs : ∀ f ∈ fs, f.fin = true ∧ (f.opcode = Opcode.text ∨ f.opcode = Opcode.binary ∨ f.opcode = Opcode.ping)) :
    ¬NoneLost env c fs := by
  rintro ⟨c', answer, hrun, hall⟩
  rcases fs with _ | ⟨f, fs⟩
  · cases htwo
  obtain ⟨hfin, hop⟩ := hfs f (by simp)
  rw [List.flatMap_cons] at hrun
  obtain ⟨out, hout, hone⟩ := serve_first hc hfin hop hrun
  rw [hout] at hall
  have hlen := congrArg List.length (List.append_cancel_left hall)
  rw [List.length_map] at hlen
  omega

/-- An empty ping. -/
def pingFrame : WsFrame :=
  { hiFrame with opcode := Opcode.ping, payload := [], opcode_lt := by decide, payload_lt := by decide }

theorem not_noneLost_hi_ping : ¬NoneLost accepting handshaken [hiFrame, pingFrame] :=
  not_noneLost upgraded_handshaken.1 (by decide) (by decide)

/-- The text `hi` twice in one read: the second one is lost. -/
theorem not_noneLost_hi_hi : ¬NoneLost accepting handshaken [hiFrame, hiFrame] := by
  rintro ⟨c', answer, hrun, hall⟩
  obtain ⟨out, hout, hone⟩ := serve_first (f := hiFrame) upgraded_handshaken.1 rfl (by decide) hrun
  rw [hout] at hall
  rw [List.append_cancel_left hall] at hone
  exact absurd hone (by simp)

end Server

end Netcore
