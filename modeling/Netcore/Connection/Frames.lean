import Netcore.Connection.Trace
import Netcore.Http.Buffer
import Netcore.Websocket.Wire

/-!
# The frames that `handle_ws_data` finds

Which frames the loop finds, and where it stops, depends on the bytes received and on the members of `websocket` only: `Sees`
says so, one constructor for each way through the loop. What the connection does is then a function of the frames found and
of the text kept from fragments (`frameActs`). Note that the loop goes on behind the header of a frame, not behind its payload.
-/

namespace Netcore

open Slices

/-! ## What a frame makes the connection do -/

namespace WsFrameType

/-- A message, or the last fragment of one. -/
def isMessage : WsFrameType → Bool
  | textFrame | binaryFrame => true
  | _ => false

/-- A fragment that is not the last one. -/
def isFragment : WsFrameType → Bool
  | incompleteTextFrame | incompleteBinaryFrame => true
  | _ => false

end WsFrameType

/-- What is in `last_ws_str_` after a frame. -/
def keptAfter (kept : Bytes) (type : WsFrameType) (payload : Bytes) : Bytes :=
  if type.isFragment then kept ++ payload else if type.isMessage then [] else kept

/-- What a frame makes the connection do. A close payload that is not accepted is copied from a null pointer, unless it is
empty. -/
def reactions (env : Env) (kept : Bytes) (type : WsFrameType) (payload : Bytes) : List Act :=
  match type with
  | .textFrame | .binaryFrame => [.event .dataContinue (kept ++ payload)]
  | .pingFrame => [.reply (formatHeader payload.length Opcode.pong ++ payload)]
  | .closeFrame =>
    let message := Connection.closeMessage env payload (min 123 payload.length)
    let msg := formatClosePayload Opcode.close message
    if parseClosePayload payload = none ∧ min 123 payload.length ≠ 0 then []
    else [.event .dataClose message, .reply (formatHeader msg.length Opcode.close ++ msg)]
  | _ => []

/-- The frames found, and what is done about them, from the text `kept` on. -/
def frameActs (env : Env) : Bytes → List (WsFrameType × Bytes) → List Act
  | _, [] => []
  | kept, (type, payload) :: fs =>
    .frame type payload :: (reactions env kept type payload ++ frameActs env (keptAfter kept type payload) fs)

/-- What is in `last_ws_str_` after frames. -/
def keptAll : Bytes → List (WsFrameType × Bytes) → Bytes
  | kept, [] => kept
  | kept, (type, payload) :: fs => keptAll (keptAfter kept type payload) fs

/-- What the frame loop needs of a request for the next read: the buffer and the sizes of the message. -/
structure Request.SameBuffer (r q : Request) : Prop where
  buf : q.buf = r.buf
  headerLen : q.headerLen = r.headerLen
  bodyLen : q.bodyLen = r.bodyLen

namespace Connection

variable {env : Env}

/-- No callback of the application is called on the way. -/
def NoCallback (env : Env) (types : List WsFrameType) : Prop :=
  env.event .dataContinue = none ∨ ∀ t ∈ types, t.isMessage = false

/-- A frame that lets the loop go on. -/
theorem handleWsFrame_goes (env : Env) (c : Connection) {type : WsFrameType} (payload : Bytes) (h1 : type ≠ .closeFrame)
    (h2 : type ≠ .errorFrame) : ∃ c', handleWsFrame env (keepFragment c type payload) type payload = (c', some true) ∧
      c'.trace = c.trace ++ .frame type payload :: reactions env c.lastWsStr type payload ∧
      c'.lastWsStr = keptAfter c.lastWsStr type payload ∧ c'.ws = c.ws ∧ c'.continueWork = c.continueWork ∧
      (NoCallback env [type] → c.req.SameBuffer c'.req ∧ c'.req.curSize = c.req.curSize) := by
  cases type with
  | closeFrame => exact absurd rfl h1
  | errorFrame => exact absurd rfl h2
  | textFrame | binaryFrame =>
    refine ⟨_, rfl, ?_, ?_, ?_, ?_, ?_⟩
    · simp [keepFragment, reactions, Request.setPartData]
      rfl
    · unfold callEvent
      cases env.event .dataContinue <;> rfl
    · rw [callEvent_ws]
      rfl
    · rw [callEvent_continueWork]
      rfl
    · rintro (hnone | hno)
      · unfold callEvent
        rw [hnone]
        exact ⟨⟨rfl, rfl, rfl⟩, rfl⟩
      · cases hno _ (List.mem_singleton.mpr rfl)
  | pingFrame =>
    refine ⟨_, rfl, ?_, rfl, rfl, rfl, fun _ => ⟨⟨rfl, rfl, rfl⟩, rfl⟩⟩
    simp [keepFragment, reactions]
  | incompleteFrame | openingFrame | pongFrame | incompleteTextFrame | incompleteBinaryFrame =>
    exact ⟨_, rfl, rfl, rfl, rfl, rfl, fun _ => ⟨⟨rfl, rfl, rfl⟩, rfl⟩⟩

end Connection

/-! ## The frames in the buffer -/

/-- How the loop ends: for want of bytes, with a close frame, or with a frame that has FIN. -/
inductive Ending where
  | needRead
  | close
  | fin
  deriving DecidableEq, Repr

/-- An iteration that gets through a header and its payload. -/
structure Websocket.Reads (data : Bytes) (stop : Nat) (w : Websocket) (start : Nat) (w' : Websocket) (len : Nat)
    (type : WsFrameType) (payload : Bytes) : Prop where
  header : w.parseHeader (data.drop start) (stop - start) = (w', (len : Int))
  payload : w'.parsePayload (data.drop (start + len)) (stop - (start + len)) = (type, payload)

/-- The frames found in the first `stop` bytes of the data, from position `start` on, and the ending. -/
inductive Sees (data : Bytes) (stop : Nat) : Websocket → Nat → List (WsFrameType × Bytes) → Ending → Prop
  | noHeader {w w' start} (h : w.parseHeader (data.drop start) (stop - start) = (w', -2)) : Sees data stop w start [] .needRead
  | noPayload {w w' start len payload} (h : w.Reads data stop start w' len .incompleteFrame payload) :
    Sees data stop w start [] .needRead
  | close {w w' start len payload} (h : w.Reads data stop start w' len .closeFrame payload) :
    Sees data stop w start [(.closeFrame, payload)] .close
  | fin {w w' start len type payload} (h : w.Reads data stop start w' len type payload) (h1 : type ≠ .incompleteFrame)
    (h2 : type ≠ .closeFrame) (hfin : w'.msgFin = true) : Sees data stop w start [(type, payload)] .fin
  | more {w w' start len type payload fs e} (h : w.Reads data stop start w' len type payload) (h1 : type ≠ .incompleteFrame)
    (h2 : type ≠ .closeFrame) (hfin : w'.msgFin = false) (hmore : Sees data stop w' (start + len) fs e) :
    Sees data stop w start ((type, payload) :: fs) e

namespace Websocket

/-- `parse_payload` never gives the type of an error. -/
theorem parsePayload_ne_error (w : Websocket) (inp : Bytes) (size : Nat) : (w.parsePayload inp size).1 ≠ .errorFrame := by
  unfold parsePayload frameType
  split_ifs <;> simp

variable {data data' : Bytes} {stop stop' start len : Nat} {w w' : Websocket} {type : WsFrameType} {payload : Bytes}

theorem Reads.ne_error (h : w.Reads data stop start w' len type payload) : type ≠ .errorFrame := by
  have := w'.parsePayload_ne_error (data.drop (start + len)) (stop - (start + len))
  rw [h.payload] at this
  exact this

theorem take_drop_extend (hd : data'.take stop = data.take stop) (n : Nat) :
    (data'.drop n).take (stop - n) = (data.drop n).take (stop - n) := by
  rw [← List.drop_take, ← List.drop_take, hd]

/-- A frame that has arrived is the same when more has been received. -/
theorem Reads.extend (h : w.Reads data stop start w' len type payload) (ht : type ≠ .incompleteFrame)
    (hd : data'.take stop = data.take stop) (hs : stop ≤ stop') : w.Reads data' stop' start w' len type payload := by
  refine ⟨parseHeader_extend (take_drop_extend hd start) h.header (by omega), ?_⟩
  have hp := h.payload
  unfold parsePayload at hp ⊢
  split at hp
  · injection hp with h1 h2
    exact absurd h1.symm ht
  · rename_i hle
    have htake : (data'.drop (start + len)).take w'.payloadLength = (data.drop (start + len)).take w'.payloadLength := by
      have := congrArg (List.take w'.payloadLength) (take_drop_extend hd (start + len))
      rwa [List.take_take, List.take_take, Nat.min_eq_left (by omega)] at this
    rw [if_neg (by omega), htake]
    exact hp

end Websocket

namespace Sees

variable {data data' : Bytes} {stop stop' start : Nat} {w : Websocket} {fs : List (WsFrameType × Bytes)} {e : Ending}

/-- The loop always finds something. -/
theorem total (data : Bytes) (stop : Nat) (w : Websocket) (start : Nat) : ∃ fs e, Sees data stop w start fs e := by
  -- each header takes bytes, so the bytes that are left decrease
  induction hn : stop - start using Nat.strong_induction_on generalizing w start with
  | _ n ih =>
    rcases hp : w.parseHeader (data.drop start) (stop - start) with ⟨w', ret⟩
    rcases w.parseHeader_ret (data.drop start) (stop - start) with hret | ⟨len, hret⟩
    · obtain rfl : ret = -2 := by rw [← hret, hp]
      exact ⟨[], .needRead, .noHeader hp⟩
    · obtain rfl : ret = (len : Int) := by rw [← hret, hp]
      obtain ⟨h6, h2, hle⟩ := Websocket.parseHeader_bounds hp
      rcases hq : w'.parsePayload (data.drop (start + len)) (stop - (start + len)) with ⟨type, payload⟩
      have hreads : w.Reads data stop start w' len type payload := ⟨hp, hq⟩
      by_cases hinc : type = .incompleteFrame
      · subst hinc
        exact ⟨[], .needRead, .noPayload hreads⟩
      by_cases hclose : type = .closeFrame
      · subst hclose
        exact ⟨[(.closeFrame, payload)], .close, .close hreads⟩
      cases hfin : w'.msgFin with
      | true => exact ⟨[(type, payload)], .fin, .fin hreads hinc hclose hfin⟩
      | false =>
        obtain ⟨fs, e, hmore⟩ := ih (stop - (start + len)) (by omega) w' (start + len) rfl
        exact ⟨(type, payload) :: fs, e, .more hreads hinc hclose hfin hmore⟩

/-- Bytes that have not been received make no difference. -/
theorem congr (h : Sees data stop w start fs e) (hd : data'.take stop = data.take stop) : Sees data' stop w start fs e := by
  induction h with
  | @noHeader w w' start h =>
    rcases hp : w.parseHeader (data'.drop start) (stop - start) with ⟨v, ret⟩
    rcases w.parseHeader_ret (data'.drop start) (stop - start) with hret | ⟨len, hret⟩
    · obtain rfl : ret = -2 := by rw [← hret, hp]
      exact .noHeader hp
    · obtain rfl : ret = (len : Int) := by rw [← hret, hp]
      have hback := Websocket.parseHeader_extend (Websocket.take_drop_extend hd.symm start) hp (Nat.le_refl _)
      rw [h] at hback
      cases hback
  | @noPayload w w' start len payload h =>
    have hp := h.payload
    have hsize : stop - (start + len) < w'.payloadLength := by
      by_contra hle
      have hty : w'.frameType = .incompleteFrame := by
        unfold Websocket.parsePayload at hp
        rw [if_neg hle] at hp
        split_ifs at hp
        all_goals exact congrArg Prod.fst hp
      unfold Websocket.frameType at hty
      split_ifs at hty
    refine @noPayload _ _ _ w' _ len [] ⟨Websocket.parseHeader_extend (Websocket.take_drop_extend hd start) h.header (Nat.le_refl _), ?_⟩
    unfold Websocket.parsePayload
    rw [if_pos hsize]
  | close h => exact .close (h.extend (by simp) hd (Nat.le_refl _))
  | fin h h1 h2 hfin => exact .fin (h.extend h1 hd (Nat.le_refl _)) h1 h2 hfin
  | more h h1 h2 hfin _ ih => exact .more (h.extend h1 hd (Nat.le_refl _)) h1 h2 hfin ih

/-- Unless bytes are missing, more bytes make no difference. -/
theorem extend (h : Sees data stop w start fs e) (he : e ≠ .needRead) (hd : data'.take stop = data.take stop)
    (hs : stop ≤ stop') : Sees data' stop' w start fs e := by
  induction h with
  | noHeader | noPayload => exact absurd rfl he
  | close h => exact .close (h.extend (by simp) hd hs)
  | fin h h1 h2 hfin => exact .fin (h.extend h1 hd hs) h1 h2 hfin
  | more h h1 h2 hfin _ ih => exact .more (h.extend h1 hd hs) h1 h2 hfin (ih he)

end Sees

/-! ## Frames of a client -/

namespace WsFrame

variable {data pre t : Bytes} {stop : Nat}

/-- A frame that has arrived is read. -/
theorem reads (f : WsFrame) (w : Websocket) (hd : data = pre ++ f.wire ++ t) (hs : pre.length + f.wire.length ≤ stop) :
    w.Reads data stop pre.length (f.members w) f.header.length f.type f.payload := by
  have hlen := f.length_wire
  have h1 : data.drop pre.length = f.header ++ (maskBytes f.key f.payload ++ t) := by
    rw [hd, List.append_assoc, List.drop_left, wire, List.append_assoc]
  have h2 : data.drop (pre.length + f.header.length) = maskBytes f.key f.payload ++ t := by
    rw [← List.drop_drop, h1, List.drop_left]
  refine ⟨?_, ?_⟩
  · rw [h1]
    exact f.parseHeader_eq w _ (by omega)
  · rw [h2]
    exact f.parsePayload_eq w t (by omega)

theorem type_ne_incomplete (f : WsFrame) : f.type ≠ .incompleteFrame := by
  unfold type Websocket.frameType
  split_ifs <;> simp

theorem type_ne_close {f : WsFrame} (h : f.opcode ≠ Opcode.close) : f.type ≠ .closeFrame := by
  unfold type Websocket.frameType
  split_ifs with h1 h2 h3 h4 h5
  all_goals first | exact absurd h5 h | simp

/-- A frame of which bytes are missing. -/
theorem sees_part (f : WsFrame) (w : Websocket) {a : Bytes} (hp : a <+: f.wire) (hlt : a.length < f.wire.length) :
    Sees a a.length w 0 [] .needRead := by
  obtain ⟨t, ht⟩ := hp
  by_cases hhead : a.length < f.header.length
  · obtain ⟨w', hw⟩ := f.parseHeader_part w hhead (show a.take a.length = _ by rw [← ht, List.take_left, List.take_length])
    exact .noHeader hw
  · have hlen := f.length_wire
    obtain ⟨rest, hrest⟩ : f.header <+: a :=
      List.prefix_of_prefix_length_le (List.prefix_append _ _) ⟨t, ht⟩ (Nat.not_lt.mp hhead)
    refine @Sees.noPayload _ _ _ (f.members w) _ f.header.length [] ⟨?_, ?_⟩
    · rw [List.drop_zero, Nat.sub_zero]
      nth_rewrite 1 [← hrest]
      exact f.parseHeader_eq w rest (Nat.not_lt.mp hhead)
    · rw [Nat.zero_add]
      exact f.parsePayload_part w _ (by omega)

/-- A frame with FIN at the front, whatever follows it. -/
theorem sees_fin (f : WsFrame) (w : Websocket) (hfin : f.fin = true) (hclose : f.type ≠ .closeFrame) (t : Bytes) :
    Sees (f.wire ++ t) (f.wire ++ t).length w 0 [(f.type, f.payload)] .fin := by
  refine .fin (f.reads w (show f.wire ++ t = [] ++ f.wire ++ t by simp) ?_) f.type_ne_incomplete hclose hfin
  rw [List.length_append, List.length_nil]
  omega

end WsFrame

/-! ## The loop -/

/-- The answers that go with an ending. -/
def Ending.Answers : Ending → Answer → Prop
  | needRead, a => a = .state .needRead
  | close, a => a = .state .needWrite ∨ a = .nullRead
  | fin, a => a = .state .needWriteThenRead

namespace Connection

/-- The connection after the frames `fs`. -/
structure After (env : Env) (c : Connection) (fs : List (WsFrameType × Bytes)) (e : Ending) (c' : Connection) : Prop where
  trace : c'.trace = c.trace ++ frameActs env c.lastWsStr fs
  kept : c'.lastWsStr = keptAll c.lastWsStr fs
  key : c'.ws.secWsKey = c.ws.secWsKey
  work : c'.continueWork = c.continueWork
  fin : e = .fin → c'.req.curSize = 0
  buffer : e ≠ .close → NoCallback env (fs.map Prod.fst) → c.req.SameBuffer c'.req
  curSize : NoCallback env (fs.map Prod.fst) → e = .needRead → c'.req.curSize = c.req.curSize

variable {env : Env} {data payload : Bytes} {stop start fuel len : Nat} {w w' : Websocket} {type : WsFrameType}
variable {fs : List (WsFrameType × Bytes)} {e : Ending} {c c₁ c' : Connection}

/-- Nothing has been found. -/
theorem After.none (hw : w.secWsKey = c.ws.secWsKey) : After env c [] .needRead { c with ws := w } where
  trace := by rw [frameActs, List.append_nil]
  kept := rfl
  key := hw
  work := rfl
  fin := by simp
  buffer := fun _ _ => ⟨rfl, rfl, rfl⟩
  curSize := fun _ _ => rfl

/-- One frame, and then others. -/
theorem After.cons (htrace : c₁.trace = c.trace ++ .frame type payload :: reactions env c.lastWsStr type payload)
    (hkept : c₁.lastWsStr = keptAfter c.lastWsStr type payload) (hkey : c₁.ws.secWsKey = c.ws.secWsKey)
    (hwork : c₁.continueWork = c.continueWork)
    (hreq : NoCallback env [type] → c.req.SameBuffer c₁.req ∧ c₁.req.curSize = c.req.curSize) (h : After env c₁ fs e c') :
    After env c ((type, payload) :: fs) e c' := by
  have hfirst : NoCallback env (((type, payload) :: fs).map Prod.fst) → NoCallback env [type] ∧ NoCallback env (fs.map Prod.fst) := by
    rintro (hnone | hno)
    · exact ⟨.inl hnone, .inl hnone⟩
    · rw [List.map_cons] at hno
      exact ⟨.inr fun t ht => hno t (by simp_all), .inr fun t ht => hno t (List.mem_cons_of_mem _ ht)⟩
  refine ⟨?_, ?_, h.key.trans hkey, h.work.trans hwork, h.fin, ?_, ?_⟩
  · rw [h.trace, htrace, hkept, frameActs]
    simp
  · rw [h.kept, hkept, keptAll]
  · intro he hno
    obtain ⟨h1, h2⟩ := hfirst hno
    have hb := (hreq h1).1
    have hb' := h.buffer he h2
    exact ⟨hb'.buf.trans hb.buf, hb'.headerLen.trans hb.headerLen, hb'.bodyLen.trans hb.bodyLen⟩
  · intro hno he
    obtain ⟨h1, h2⟩ := hfirst hno
    exact (h.curSize h2 he).trans (hreq h1).2

/-- The buffer is counted as empty. -/
theorem After.emptied (c : Connection) : After env c [] .fin { c with req := c.req.setCurrentSize 0 } := by
  obtain ⟨m, u, ml, ul, mh, ch, hcopy⟩ := Request.copyMethodUrlHeaders_eq { c.req with curSize := 0 }
  have hset : c.req.setCurrentSize 0 = Request.copyMethodUrlHeaders { c.req with curSize := 0 } := rfl
  refine ⟨?_, rfl, rfl, rfl, fun _ => Request.setCurrentSize_zero_curSize _, fun _ _ => ?_, by simp⟩
  · rw [frameActs, List.append_nil]
  · rw [hset, hcopy]
    exact ⟨rfl, rfl, rfl⟩

/-- A close frame ends the loop. -/
theorem afterFrame_close (env : Env) (c : Connection) {w : Websocket} (hw : w.secWsKey = c.ws.secWsKey) (data payload : Bytes)
    (stop fuel start : Nat) : Ending.close.Answers (afterFrame env data stop fuel start
        (handleWsFrame env (keepFragment { c with ws := w } .closeFrame payload) .closeFrame payload)).2 ∧
      After env c [(.closeFrame, payload)] .close (afterFrame env data stop fuel start
        (handleWsFrame env (keepFragment { c with ws := w } .closeFrame payload) .closeFrame payload)).1 := by
  unfold handleWsFrame
  dsimp only
  split_ifs with hnull
  · refine ⟨.inr rfl, ?_, rfl, hw, rfl, by simp, by simp, by simp⟩
    rw [frameActs, frameActs, reactions, if_pos hnull]
    rfl
  · refine ⟨.inl rfl, ?_, ?_, ?_, ?_, by simp, by simp, by simp⟩
    · rw [frameActs, frameActs, reactions, if_neg hnull]
      simp [afterFrame, keepFragment, Request.setPartData]
    · simp only [afterFrame, log, callEvent]
      cases env.event .dataClose <;> rfl
    · simp only [afterFrame, log, callEvent]
      cases env.event .dataClose <;> exact hw
    · simp only [afterFrame, log, callEvent]
      cases env.event .dataClose <;> rfl

/-- What the loop does about the frames it finds. -/
theorem wsLoop_sees (env : Env) (h : Sees data stop w start fs e) : ∀ {fuel : Nat} {c : Connection}, c.ws = w → stop - start < fuel →
    e.Answers (wsLoop env data stop fuel c start).2 ∧ After env c fs e (wsLoop env data stop fuel c start).1 := by
  induction h with
  | noHeader h =>
    rintro fuel c rfl hf
    obtain ⟨fuel, rfl⟩ := Nat.exists_eq_succ_of_ne_zero (Nat.ne_zero_of_lt hf)
    rw [wsLoop_header_incomplete h]
    exact ⟨rfl, .none (Websocket.parseHeader_secWsKey h)⟩
  | noPayload h =>
    rintro fuel c rfl hf
    obtain ⟨fuel, rfl⟩ := Nat.exists_eq_succ_of_ne_zero (Nat.ne_zero_of_lt hf)
    rw [wsLoop_payload_incomplete h.header h.payload]
    exact ⟨rfl, .none (Websocket.parseHeader_secWsKey h.header)⟩
  | close h =>
    rintro fuel c rfl hf
    obtain ⟨fuel, rfl⟩ := Nat.exists_eq_succ_of_ne_zero (Nat.ne_zero_of_lt hf)
    rw [wsLoop_frame h.header h.payload (by simp)]
    exact afterFrame_close env c (Websocket.parseHeader_secWsKey h.header) data _ stop fuel _
  | @fin _ w' _ _ _ payload h h1 h2 hfin =>
    rintro fuel c rfl hf
    obtain ⟨fuel, rfl⟩ := Nat.exists_eq_succ_of_ne_zero (Nat.ne_zero_of_lt hf)
    obtain ⟨c₁, hgo, htr, hkept, hws, hwork, hreq⟩ := handleWsFrame_goes env { c with ws := w' } payload h2 h.ne_error
    have hkey : c₁.ws.secWsKey = c.ws.secWsKey := by
      rw [hws]
      exact Websocket.parseHeader_secWsKey h.header
    rw [wsLoop_frame h.header h.payload h1, hgo, afterFrame, if_neg (by rw [hws, hfin]; simp)]
    exact ⟨rfl, .cons htr hkept hkey hwork hreq (.emptied c₁)⟩
  | @more _ w' _ _ _ payload _ _ h h1 h2 hfin _ ih =>
    rintro fuel c rfl hf
    obtain ⟨fuel, rfl⟩ := Nat.exists_eq_succ_of_ne_zero (Nat.ne_zero_of_lt hf)
    obtain ⟨h6, hlen, hle⟩ := Websocket.parseHeader_bounds h.header
    obtain ⟨c₁, hgo, htr, hkept, hws, hwork, hreq⟩ := handleWsFrame_goes env { c with ws := w' } payload h2 h.ne_error
    have hkey : c₁.ws.secWsKey = c.ws.secWsKey := by
      rw [hws]
      exact Websocket.parseHeader_secWsKey h.header
    rw [wsLoop_frame h.header h.payload h1, hgo, afterFrame, if_pos (by rw [hws, hfin])]
    obtain ⟨hans, hafter⟩ := ih hws (show stop - (_ + _) < fuel by omega)
    exact ⟨hans, .cons htr hkept hkey hwork hreq hafter⟩

end Connection

end Netcore
