import Netcore.Server.WsFrames

/-!
# Fragmented messages

A message that is cut into frames. The loop of `handle_ws_data` goes on behind the header of a fragment, so the payload of a
fragment is read as a header; and when bytes are missing, the next read starts again with the first fragment, whose payload
has already been kept. A message is put together in every grouping of its frames into reads only when all fragments but the
last one are empty.
-/

namespace Netcore

open Slices

/-! ## Messages -/

/-- The message that an event brings. -/
def Act.message? : Act → Option Bytes
  | .event .dataContinue data => some data
  | _ => none

/-- The messages that the connection has raised. -/
def Connection.messages (c : Connection) : List Bytes := c.trace.filterMap Act.message?

/-- The messages that frames lead to, from the text `kept` on. -/
def messagesOf : Bytes → List (WsFrameType × Bytes) → List Bytes
  | _, [] => []
  | kept, (type, payload) :: fs =>
    if type.isMessage then (kept ++ payload) :: messagesOf [] fs else messagesOf (keptAfter kept type payload) fs

theorem frameActs_messages (env : Env) (fs : List (WsFrameType × Bytes)) :
    ∀ kept, (frameActs env kept fs).filterMap Act.message? = messagesOf kept fs := by
  induction fs with
  | nil => exact fun _ => rfl
  | cons f fs ih =>
    intro kept
    obtain ⟨type, payload⟩ := f
    rw [frameActs, messagesOf, List.filterMap_cons_none rfl, List.filterMap_append, ih]
    cases type with
    | closeFrame =>
      rw [reactions, if_neg (show ¬WsFrameType.closeFrame.isMessage = true by decide)]
      split <;> rfl
    | _ => rfl

/-- What was kept before comes first in the first message. -/
theorem messagesOf_append {fs : List (WsFrameType × Bytes)} {m : Bytes} {ms : List Bytes} (r : Bytes) :
    ∀ {kept : Bytes}, messagesOf kept fs = m :: ms → messagesOf (r ++ kept) fs = (r ++ m) :: ms := by
  induction fs with
  | nil => intro kept h; cases h
  | cons f fs ih =>
    intro kept h
    obtain ⟨type, payload⟩ := f
    rw [messagesOf] at h ⊢
    unfold keptAfter at h ⊢
    split_ifs at h ⊢ with h1 h2
    · injection h with ha hb
      rw [← ha, hb, List.append_assoc]
    · rw [List.append_assoc]
      exact ih h
    · exact ih h

/-- What is kept is given up for a message only. -/
theorem length_keptAll {fs : List (WsFrameType × Bytes)} : ∀ {kept : Bytes}, messagesOf kept fs = [] →
    kept.length ≤ (keptAll kept fs).length := by
  induction fs with
  | nil => exact fun _ => Nat.le_refl _
  | cons f fs ih =>
    intro kept h
    obtain ⟨type, payload⟩ := f
    rw [messagesOf] at h
    rw [keptAll]
    split_ifs at h with h1
    refine Nat.le_trans ?_ (ih h)
    unfold keptAfter
    rw [if_neg h1]
    split_ifs
    · rw [List.length_append]
      omega
    · exact Nat.le_refl _

theorem Connection.After.messages_eq {env : Env} {c c' : Connection} {fs : List (WsFrameType × Bytes)} {e : Ending}
    (h : Connection.After env c fs e c') : c'.messages = c.messages ++ messagesOf c.lastWsStr fs := by
  rw [Connection.messages, h.trace, List.filterMap_append, frameActs_messages]
  rfl

/-! ## Fragments -/

/-- The frames of a message that is sent in two or more fragments. -/
structure Fragments where
  first : WsFrame
  middle : List WsFrame
  last : WsFrame
  first_opcode : first.opcode = Opcode.text ∨ first.opcode = Opcode.binary
  first_fin : first.fin = false
  middle_cont : ∀ f ∈ middle, f.opcode = Opcode.cont ∧ f.fin = false
  last_cont : last.opcode = Opcode.cont
  last_fin : last.fin = true

namespace Fragments

/-- All fragments but the last one. -/
def init (m : Fragments) : List WsFrame := m.first :: m.middle

def frames (m : Fragments) : List WsFrame := m.init ++ [m.last]

/-- The message itself. -/
def message (m : Fragments) : Bytes := m.frames.flatMap WsFrame.payload

end Fragments

/-- Frames as they are sent, one after the other. -/
def wires (fs : List WsFrame) : Bytes := fs.flatMap WsFrame.wire

@[simp] theorem wires_append (fs gs : List WsFrame) : wires (fs ++ gs) = wires fs ++ wires gs := List.flatMap_append

theorem wires_ne_nil {fs : List WsFrame} (h : fs ≠ []) : wires fs ≠ [] := by
  obtain ⟨f, fs, rfl⟩ := List.exists_cons_of_ne_nil h
  simp [wires, WsFrame.wire, WsFrame.header]

namespace WsFrame

/-- A frame that is a fragment, but not the last one. -/
structure Opens (f : WsFrame) : Prop where
  fin : f.fin = false
  type : f.type.isFragment = true

theorem Opens.type_ne {f : WsFrame} (h : f.Opens) : f.type ≠ .incompleteFrame ∧ f.type ≠ .closeFrame ∧ f.type.isMessage = false := by
  have ht := h.type
  unfold WsFrameType.isFragment at ht
  split at ht
  · rename_i hf
    rw [hf]
    exact ⟨by simp, by simp, rfl⟩
  · rename_i hf
    rw [hf]
    exact ⟨by simp, by simp, rfl⟩
  · cases ht

end WsFrame

theorem Fragments.opens (m : Fragments) : ∀ f ∈ m.init, f.Opens := by
  intro f hf
  rcases List.mem_cons.mp hf with rfl | hf
  · refine ⟨m.first_fin, ?_⟩
    unfold WsFrame.type
    rw [m.first_fin]
    rcases m.first_opcode with h | h <;> rw [h] <;> rfl
  · obtain ⟨hop, hfin⟩ := m.middle_cont f hf
    refine ⟨hfin, ?_⟩
    unfold WsFrame.type
    rw [hop, hfin]
    rfl

theorem Fragments.last_type (m : Fragments) : m.last.type = .textFrame := by
  unfold WsFrame.type
  rw [m.last_cont, m.last_fin]
  rfl

/-- The members of `websocket` after the headers of frames. -/
def membersAll (w : Websocket) (fs : List WsFrame) : Websocket := fs.foldl (fun w f => f.members w) w

/-- What the loop finds in fragments without a payload. -/
def emptyOnes (fs : List WsFrame) : List (WsFrameType × Bytes) := fs.map fun f => (f.type, [])

section Empty

variable {es : List WsFrame} (h : ∀ f ∈ es, f.Opens ∧ f.payload = [])
include h

/-- The loop gets behind fragments without a payload. -/
theorem sees_empty {data t : Bytes} {stop : Nat} {fs : List (WsFrameType × Bytes)} {e : Ending} :
    ∀ {pre : Bytes} {w : Websocket}, data = pre ++ wires es ++ t → (pre ++ wires es).length ≤ stop →
      Sees data stop (membersAll w es) (pre ++ wires es).length fs e → Sees data stop w pre.length (emptyOnes es ++ fs) e := by
  induction es with
  | nil =>
    intro pre w _ _ hs
    rwa [wires, List.flatMap_nil, List.append_nil] at hs
  | cons f es ih =>
    intro pre w hd hstop hs
    obtain ⟨hopen, hnil⟩ := h f (by simp)
    obtain ⟨h1, h2, -⟩ := hopen.type_ne
    have hw : pre ++ wires (f :: es) = pre ++ f.wire ++ wires es := by
      rw [wires, List.flatMap_cons, List.append_assoc]
      rfl
    rw [hw] at hd hstop hs
    have hroom : pre.length + f.wire.length ≤ stop := by
      rw [List.length_append, List.length_append] at hstop
      omega
    have hreads := f.reads w (show data = pre ++ f.wire ++ (wires es ++ t) by rw [hd, List.append_assoc]) hroom
    rw [hnil] at hreads
    have hnext : pre.length + f.header.length = (pre ++ f.wire).length := by
      rw [List.length_append, f.length_wire, hnil]
      rfl
    have hmore := ih (fun g hg => h g (List.mem_cons_of_mem f hg)) hd hstop hs
    rw [← hnext] at hmore
    exact .more hreads h1 h2 hopen.fin hmore

/-- They bring nothing. -/
theorem messagesOf_empty (kept : Bytes) (fs : List (WsFrameType × Bytes)) :
    messagesOf kept (emptyOnes es ++ fs) = messagesOf kept fs ∧ keptAll kept (emptyOnes es ++ fs) = keptAll kept fs := by
  induction es with
  | nil => exact ⟨rfl, rfl⟩
  | cons f es ih =>
    obtain ⟨hopen, -⟩ := h f (by simp)
    obtain ⟨-, -, hno⟩ := hopen.type_ne
    have hkept : keptAfter kept f.type [] = kept := by
      rw [keptAfter, if_pos hopen.type, List.append_nil]
    obtain ⟨h1, h2⟩ := ih fun g hg => h g (List.mem_cons_of_mem f hg)
    refine ⟨?_, ?_⟩
    · show messagesOf kept ((f.type, []) :: (emptyOnes es ++ fs)) = _
      rw [messagesOf, if_neg (by simp [hno]), hkept, h1]
    · show keptAll kept ((f.type, []) :: (emptyOnes es ++ fs)) = _
      rw [keptAll, hkept, h2]

theorem noCallback_empty (env : Env) : Connection.NoCallback env ((emptyOnes es).map Prod.fst) := by
  right
  intro t ht
  rw [emptyOnes, List.map_map] at ht
  obtain ⟨f, hf, rfl⟩ := List.mem_map.mp ht
  exact (h f hf).1.type_ne.2.2

/-- After them the loop needs more bytes. -/
theorem sees_empty_only (w : Websocket) : Sees (wires es) (wires es).length w 0 (emptyOnes es) .needRead := by
  have hend : Sees (wires es) (wires es).length (membersAll w es) ([] ++ wires es).length [] .needRead := by
    refine @Sees.noHeader _ _ _ (membersAll w es) _ ?_
    rw [List.nil_append, Nat.sub_self, Websocket.parseHeader, if_pos (by decide)]
  have hs := sees_empty h (show wires es = [] ++ wires es ++ [] by simp) (by simp) hend
  rwa [List.append_nil] at hs

/-- The last fragment after them. -/
theorem sees_empty_last (w : Websocket) {f : WsFrame} (hfin : f.fin = true) (hclose : f.type ≠ .closeFrame) :
    Sees (wires (es ++ [f])) (wires (es ++ [f])).length w 0 (emptyOnes es ++ [(f.type, f.payload)]) .fin := by
  have hw : wires (es ++ [f]) = [] ++ wires es ++ f.wire := by
    simp [wires]
  have hlen : (wires es).length + f.wire.length = (wires (es ++ [f])).length := by
    rw [hw, List.nil_append, List.length_append]
  have hreads := f.reads (membersAll w es) (show wires (es ++ [f]) = wires es ++ f.wire ++ [] by simp [wires]) hlen.le
  refine sees_empty h hw ?_ (.fin hreads f.type_ne_incomplete hclose hfin)
  rw [List.nil_append]
  omega

end Empty

/-! ## Fragments that are put together -/

namespace Server

variable {env : Env} {c : Connection} {m : Fragments}

/-- Every read is taken, and exactly one message is raised, which is the one that was sent. -/
def Reassembles (env : Env) (c : Connection) (groups : List (List WsFrame)) (message : Bytes) : Prop :=
  ∃ init c' answer, serve env c (groups.map wires) = init ++ [.processed c' answer] ∧ init.length + 1 = groups.length ∧
    c'.messages = c.messages ++ [message]

/-- A read of fragments without a payload. -/
theorem step_empties (env : Env) {es g : List WsFrame} (hc : c.Upgraded (wires es)) (hk : c.lastWsStr = []) (hg : g ≠ [])
    (h : ∀ f ∈ es ++ g, f.Opens ∧ f.payload = []) (hfit : (wires (es ++ g)).length < c.req.buf.length) :
    ∃ c', step env c (wires g) = .processed c' (.state .needRead) ∧ c'.Upgraded (wires (es ++ g)) ∧
      c'.req.buf.length = c.req.buf.length ∧ c'.lastWsStr = [] ∧ c'.messages = c.messages := by
  rw [wires_append] at hfit ⊢
  rw [List.length_append] at hfit
  have hsees := sees_empty_only h c.ws
  rw [wires_append] at hsees
  have hup := upgraded_receive hc hfit
  obtain ⟨c', answer, hstep, rfl, ha⟩ := step_sees env hc (wires_ne_nil hg) hfit hsees
  have hno := noCallback_empty h env
  obtain ⟨hm, hkept⟩ := messagesOf_empty h c.lastWsStr []
  rw [List.append_nil] at hm hkept
  refine ⟨c', hstep, hup.after_needRead ha hno, ?_, ?_, ?_⟩
  · rw [(ha.buffer (by simp) hno).buf]
    exact length_overwrite (by rw [hc.buffered.length_eq]; omega)
  · exact ha.kept.trans (hkept.trans hk)
  · have hmsg := ha.messages_eq
    rwa [hm, messagesOf, List.append_nil] at hmsg

/-- A read that ends with the last fragment. -/
theorem step_last (env : Env) {es g : List WsFrame} {f : WsFrame} (hc : c.Upgraded (wires es)) (hk : c.lastWsStr = [])
    (h : ∀ f ∈ es ++ g, f.Opens ∧ f.payload = []) (hfin : f.fin = true) (htype : f.type = .textFrame)
    (hfit : (wires (es ++ (g ++ [f]))).length < c.req.buf.length) :
    ∃ c', step env c (wires (g ++ [f])) = .processed c' (.state .needWriteThenRead) ∧ c'.messages = c.messages ++ [f.payload] := by
  rw [wires_append, List.length_append] at hfit
  have hsees := sees_empty_last h c.ws hfin (by rw [htype]; simp)
  rw [List.append_assoc, wires_append] at hsees
  obtain ⟨c', answer, hstep, rfl, ha⟩ := step_sees env hc (wires_ne_nil (by simp)) hfit hsees
  refine ⟨c', hstep, ha.messages_eq.trans ?_⟩
  rw [(messagesOf_empty h _ _).1, htype]
  show c.messages ++ [c.lastWsStr ++ f.payload] = _
  rw [hk, List.nil_append]

/-- The reads that follow when the fragments `es` have arrived. -/
theorem serve_empties (env : Env) (hempty : ∀ f ∈ m.init, f.payload = []) : ∀ (groups : List (List WsFrame)) (es : List WsFrame)
    (c : Connection), c.Upgraded (wires es) → c.lastWsStr = [] → (wires m.frames).length < c.req.buf.length →
    (∀ g ∈ groups, g ≠ []) → es ++ groups.flatten = m.frames → groups ≠ [] → Reassembles env c groups m.last.payload := by
  have hopen : ∀ f ∈ m.init, f.Opens ∧ f.payload = [] := fun f hf => ⟨m.opens f hf, hempty f hf⟩
  intro groups
  induction groups with
  | nil => intro es c _ _ _ _ _ hne; exact absurd rfl hne
  | cons g gs ih =>
    intro es c hc hk hfit hne hflat _
    have hg : g ≠ [] := hne g (by simp)
    cases gs with
    | nil =>
      have hall : es ++ g = m.init ++ [m.last] := by simpa [Fragments.frames] using hflat
      obtain ⟨g', f, rfl⟩ := (List.eq_nil_or_concat' g).resolve_left hg
      rw [← List.append_assoc] at hall
      obtain ⟨hinit, hlast⟩ := List.append_inj' hall rfl
      obtain rfl : f = m.last := List.singleton_inj.mp hlast
      obtain ⟨c', hstep, hmsg⟩ := step_last env hc hk (by rw [hinit]; exact hopen) m.last_fin m.last_type
        (by rw [← List.append_assoc, hinit]; exact hfit)
      refine ⟨[], c', .state .needWriteThenRead, ?_, rfl, hmsg⟩
      show serve env c [wires (g' ++ [m.last])] = _
      rw [serve_singleton, hstep]
      rfl
    | cons b bs =>
      have hb : b ≠ [] := hne b (by simp)
      have hflat' : (es ++ g) ++ (b :: bs).flatten = m.init ++ [m.last] := by
        rw [List.append_assoc]
        exact hflat
      have hpre : es ++ g <+: m.init := by
        have hlen := congrArg List.length hflat'
        have hpos := List.length_pos_iff.mpr hb
        rw [List.flatten_cons] at hlen
        simp only [List.length_append, List.length_singleton] at hlen
        exact List.prefix_of_prefix_length_le ⟨_, hflat'⟩ (List.prefix_append _ _) (by rw [List.length_append]; omega)
      have hle : (wires (es ++ g)).length < c.req.buf.length := by
        refine Nat.lt_of_le_of_lt ?_ hfit
        rw [Fragments.frames, ← hflat', wires_append (es ++ g), List.length_append]
        omega
      obtain ⟨c₁, hstep, hc₁, hbuf, hk₁, hmsg₁⟩ := step_empties env hc hk hg (fun f hf => hopen f (hpre.subset hf)) hle
      obtain ⟨init, c', answer, hrun, hlen, hmsg⟩ := ih (es ++ g) c₁ hc₁ hk₁ (by rw [hbuf]; exact hfit)
        (fun x hx => hne x (List.mem_cons_of_mem g hx)) hflat' (by simp)
      refine ⟨.processed c₁ (.state .needRead) :: init, c', answer, ?_, by simpa using hlen, by rw [hmsg, hmsg₁]⟩
      rw [List.map_cons, serve_cons_continues hstep rfl, hrun]
      rfl

/-! ## Fragments with a payload -/

/-- A read that begins with a frame is read again in the same way. -/
theorem sees_again (f : WsFrame) {data t : Bytes} {stop : Nat} {v w : Websocket} {fs : List (WsFrameType × Bytes)} {e : Ending}
    (hd : data = f.wire ++ t) (hs : f.wire.length ≤ stop) (hk : v.secWsKey = w.secWsKey) (h : Sees data stop w 0 fs e) :
    Sees data stop v 0 fs e := by
  have hmem : f.members v = f.members w := by
    unfold WsFrame.members
    rw [hk]
  have hlen := f.length_wire
  have hhead : ∀ u : Websocket, u.parseHeader (data.drop 0) (stop - 0) = (f.members u, (f.header.length : Int)) := by
    intro u
    rw [hd, List.drop_zero, WsFrame.wire, List.append_assoc]
    exact f.parseHeader_eq u _ (by omega)
  have hsame : v.parseHeader (data.drop 0) (stop - 0) = w.parseHeader (data.drop 0) (stop - 0) := by
    rw [hhead, hhead, hmem]
  cases h with
  | noHeader h => exact .noHeader (hsame.trans h)
  | noPayload h => exact .noPayload ⟨hsame.trans h.header, h.payload⟩
  | close h => exact .close ⟨hsame.trans h.header, h.payload⟩
  | fin h h1 h2 hfin => exact .fin ⟨hsame.trans h.header, h.payload⟩ h1 h2 hfin
  | more h h1 h2 hfin hmore => exact .more ⟨hsame.trans h.header, h.payload⟩ h1 h2 hfin hmore

/-- The loop on fragments of which not all are empty: it keeps the payload of the first that is not, and then finds whatever
that payload holds. -/
theorem sees_payload (m : Fragments) (hbad : ∃ f ∈ m.init, f.payload ≠ []) (w : Websocket) :
    ∃ fs e, Sees (wires m.init) (wires m.init).length w 0 fs e ∧ (messagesOf [] fs = [] → keptAll [] fs ≠ []) := by
  obtain ⟨f, hfind⟩ : ∃ f, m.init.find? (fun f => decide (f.payload ≠ [])) = some f := by
    rw [← Option.isSome_iff_exists, List.find?_isSome]
    obtain ⟨f, hf, hp⟩ := hbad
    exact ⟨f, hf, decide_eq_true hp⟩
  obtain ⟨hp, es, rest, hinit, hes⟩ := List.find?_eq_some_iff_append.mp hfind
  have hopen := m.opens
  rw [hinit] at hopen ⊢
  have hempty : ∀ g ∈ es, g.Opens ∧ g.payload = [] := by
    intro g hg
    exact ⟨hopen g (by simp [hg]), by simpa using hes g hg⟩
  have hf := hopen f (by simp)
  obtain ⟨h1, h2, hno⟩ := hf.type_ne
  have hwire : wires (es ++ f :: rest) = wires es ++ f.wire ++ wires rest := by
    simp [wires]
  have hroom : (wires es).length + f.wire.length ≤ (wires (es ++ f :: rest)).length := by
    rw [hwire, List.length_append, List.length_append]
    omega
  have hreads := f.reads (membersAll w es) hwire hroom
  obtain ⟨fs, e, hmore⟩ := Sees.total (wires (es ++ f :: rest)) (wires (es ++ f :: rest)).length
    (f.members (membersAll w es)) ((wires es).length + f.header.length)
  have hs := sees_empty hempty (show wires (es ++ f :: rest) = [] ++ wires es ++ (f.wire ++ wires rest) by simp [hwire])
    (by rw [List.nil_append]; omega) (.more hreads h1 h2 hf.fin hmore)
  refine ⟨_, e, hs, ?_⟩
  obtain ⟨hm, hk⟩ := messagesOf_empty hempty [] ((f.type, f.payload) :: fs)
  have hkept : keptAfter [] f.type f.payload = f.payload := by
    rw [keptAfter, if_pos hf.type, List.nil_append]
  rw [hm, hk, messagesOf, if_neg (by simp [hno]), keptAll, hkept]
  intro hnone hnil
  have hle := length_keptAll hnone
  rw [hnil] at hle
  exact of_decide_eq_true hp (List.eq_nil_of_length_eq_zero (Nat.le_zero.mp hle))

/-- Two reads that are both taken. -/
theorem serve_pair {a b : Bytes} {ini : List Step} {c₁ c' : Connection} {ans₁ answer : Answer}
    (h : serve env c [a, b] = ini ++ [.processed c' answer]) (hlen : ini.length + 1 = 2) (hs : step env c a = .processed c₁ ans₁) :
    continues ans₁ = true ∧ step env c₁ b = .processed c' answer := by
  cases hc : continues ans₁ with
  | true =>
    rw [serve_cons_continues hs hc, serve_singleton] at h
    obtain ⟨s, rfl⟩ := List.length_eq_one_iff.mp (show ini.length = 1 by omega)
    injection h with _ h
    exact ⟨rfl, List.singleton_inj.mp h⟩
  | false =>
    rw [serve_cons_ends fun c' answer hs' => by rw [hs] at hs'; cases hs'; exact hc] at h
    have := congrArg List.length h
    rw [List.length_append, List.length_singleton, List.length_singleton] at this
    omega

/-- The messages that a read raises, by what the loop finds in the buffer. -/
theorem messages_of_step {env : Env} {c c' : Connection} {sent a : Bytes} {answer : Answer} {fs : List (WsFrameType × Bytes)}
    {e : Ending} (hstep : step env c a = .processed c' answer) (hup : c.Upgraded sent)
    (hlt : sent.length + a.length < c.req.buf.length) (hs : Sees (sent ++ a) (sent ++ a).length c.ws 0 fs e) :
    c'.messages = c.messages ++ messagesOf c.lastWsStr fs := by
  obtain ⟨hne, -, -, -⟩ := step_processed hstep
  obtain ⟨c₁, ans₁, hstep₁, -, ha⟩ := step_sees env hup hne hlt hs
  rw [hstep] at hstep₁
  cases hstep₁
  exact ha.messages_eq

/-- A message that is raised again, after others and with what was kept in front of it, is the only one, and nothing was kept. -/
theorem only_message {message kept : Bytes} {before : List Bytes} (h : [message] = before ++ [kept ++ message]) :
    before = [] ∧ kept = [] := by
  have hlen := congrArg List.length h
  rw [List.length_append, List.length_singleton, List.length_singleton] at hlen
  obtain rfl : before = [] := List.eq_nil_of_length_eq_zero (by omega)
  rw [List.nil_append, List.singleton_inj] at h
  exact ⟨rfl, List.self_eq_append_left.mp h⟩

/-- The two groupings, all frames in one read and the last one in a read of its own, do not both give one message. -/
theorem not_both (env : Env) (hev : env.event .dataContinue = none) (hc : c.Upgraded []) (hk : c.lastWsStr = [])
    (hbad : ∃ f ∈ m.init, f.payload ≠ []) {message : Bytes} (hone : Reassembles env c [m.frames] message)
    (htwo : Reassembles env c [m.init, [m.last]] message) : False := by
  have hno : ∀ fs : List (WsFrameType × Bytes), Connection.NoCallback env (fs.map Prod.fst) := fun _ => .inl hev
  obtain ⟨ini, cA, ansA, hrunA, hlenA, hmsgA⟩ := hone
  obtain rfl : ini = [] := by simpa using hlenA
  rw [List.map_singleton, serve_singleton] at hrunA
  have hstepA : step env c (wires m.frames) = .processed cA ansA := List.singleton_inj.mp hrunA
  obtain ⟨-, hltA, -, -⟩ := step_processed hstepA
  have hcur := hc.buffered.length_eq
  have hfit : (wires m.frames).length < c.req.buf.length := by
    unfold Request.leftSize at hltA
    omega
  have hsplit : wires m.frames = wires m.init ++ m.last.wire := by
    simp [Fragments.frames, wires]
  -- whatever the loop finds in all frames, it is one message
  have hfound : ∀ {fs e}, Sees (wires m.frames) (wires m.frames).length c.ws 0 fs e → messagesOf [] fs = [message] := by
    intro fs e hs
    have hmsg := messages_of_step hstepA hc (by simpa using hfit) hs
    rw [hmsgA, hk] at hmsg
    exact (List.append_cancel_left hmsg).symm
  obtain ⟨fs₁, e₁, hs₁, hkeeps⟩ := sees_payload m hbad c.ws
  have hfit₁ : (wires m.init).length < c.req.buf.length := by
    rw [hsplit, List.length_append] at hfit
    omega
  obtain ⟨c₁, ans₁, hstep₁, hans₁, ha₁⟩ := step_sees env hc (wires_ne_nil (show m.init ≠ [] by simp [Fragments.init]))
    (by simpa using hfit₁) hs₁
  have hup := upgraded_receive hc (show ([] : Bytes).length + (wires m.init).length < c.req.buf.length by simpa using hfit₁)
  have hmsg₁ : c₁.messages = c.messages ++ messagesOf [] fs₁ := by
    rw [ha₁.messages_eq, ← hk]
    rfl
  have hkept₁ : c₁.lastWsStr = keptAll [] fs₁ := by
    rw [ha₁.kept, ← hk]
  obtain ⟨iniB, cB, ansB, hrunB, hlenB, hmsgB⟩ := htwo
  obtain ⟨hcont, hstepB⟩ := serve_pair hrunB hlenB hstep₁
  have hlast : wires [m.last] = m.last.wire := by simp [wires]
  rw [hlast] at hstepB
  have hroom : (wires m.init).length + m.last.wire.length < c.req.buf.length := by
    rwa [hsplit, List.length_append] at hfit
  have hbuf : e₁ ≠ .close → c₁.req.buf.length = c.req.buf.length := by
    intro hopen
    rw [(ha₁.buffer hopen (hno fs₁)).buf]
    exact length_overwrite (by rw [hcur, List.length_nil]; omega)
  cases e₁ with
  | close => rcases hans₁ with rfl | rfl <;> cases hcont
  | fin =>
    -- the first read has raised the message, and the last fragment raises another one
    have hall := hfound (hs₁.extend (by simp) (by rw [hsplit, List.take_left, List.take_length])
      (by rw [hsplit, List.length_append]; omega))
    have hup₁ := hup.after_fin ha₁ (hno fs₁)
    have hsees := m.last.sees_fin c₁.ws m.last_fin (by rw [m.last_type]; simp) []
    rw [List.append_nil] at hsees
    have hmsg := messages_of_step hstepB hup₁ (by rw [hbuf (by simp), List.length_nil]; omega) hsees
    rw [hmsgB] at hmsg
    have hlen := congrArg List.length (hmsg.trans (congrArg (· ++ _) hmsg₁))
    simp [hall, messagesOf, m.last_type, WsFrameType.isMessage] at hlen
  | needRead =>
    -- all frames are read again, with the payload kept in front
    have hup₁ := hup.after_needRead ha₁ (hno fs₁)
    obtain ⟨fs, e, hs⟩ := Sees.total (wires m.frames) (wires m.frames).length c.ws 0
    have hall := hfound hs
    have hfirst : wires m.frames = m.first.wire ++ wires (m.middle ++ [m.last]) := by
      simp [Fragments.frames, Fragments.init, wires]
    have hagain := sees_again m.first hfirst (by rw [hfirst, List.length_append]; omega) ha₁.key hs
    rw [hsplit] at hagain
    have hmsg := messages_of_step hstepB hup₁ (by rw [hbuf (by simp)]; exact hroom) hagain
    have hpre := messagesOf_append c₁.lastWsStr hall
    rw [List.append_nil] at hpre
    have hsum : c.messages ++ [message] = c.messages ++ (messagesOf [] fs₁ ++ [c₁.lastWsStr ++ message]) := by
      rw [← hmsgB, hmsg, ← List.append_assoc, ← hmsg₁, ← hpre]
    have hboth := List.append_cancel_left hsum
    obtain ⟨hnone, hempty⟩ := only_message hboth
    exact hkeeps hnone (hkept₁.symm.trans hempty)

/-- A fragmented message is put together, in every application and in every grouping of its frames into reads, exactly when all
fragments but the last one are empty and the frames leave room in the buffer. -/
theorem reassembles_iff (hc : c.Upgraded []) (hk : c.lastWsStr = []) (m : Fragments) :
    (∀ env groups, (∀ g ∈ groups, g ≠ []) → groups.flatten = m.frames → Reassembles env c groups m.message) ↔
      (∀ f ∈ m.init, f.payload = []) ∧ (wires m.frames).length < c.req.buf.length := by
  have hinit : m.init ≠ [] := by simp [Fragments.init]
  constructor
  · intro hall
    have hone := hall (.bare []) [m.frames] (by simp [Fragments.frames]) (by simp)
    have htwo := hall (.bare []) [m.init, [m.last]] (by simp [hinit]) (by simp [Fragments.frames])
    refine ⟨?_, ?_⟩
    · by_contra hbad
      push Not at hbad
      exact not_both (.bare []) rfl hc hk hbad hone htwo
    · obtain ⟨ini, c', answer, hrun, hlen, -⟩ := hone
      obtain rfl : ini = [] := by simpa using hlen
      rw [List.map_singleton, serve_singleton] at hrun
      by_contra hfull
      exact step_full (.bare []) hc (by simpa using hfull) c' answer (List.singleton_inj.mp hrun)
  · rintro ⟨hempty, hfit⟩ env groups hne hflat
    have hmsg : m.message = m.last.payload := by
      rw [Fragments.message, Fragments.frames, List.flatMap_append, List.flatMap_eq_nil_iff.mpr hempty]
      simp
    rw [hmsg]
    refine serve_empties env hempty groups [] c hc hk hfit hne hflat ?_
    rintro rfl
    simp [Fragments.frames] at hflat

/-- A text in two fragments. -/
def twoFragments (a b : Bytes) (ha : a.length < 126) (hb : b.length < 126) : Fragments where
  first := { hiFrame with fin := false, payload := a, payload_lt := ha }
  middle := []
  last := { hiFrame with opcode := Opcode.cont, payload := b, opcode_lt := by decide, payload_lt := hb }
  first_opcode := .inl rfl
  first_fin := rfl
  middle_cont := by simp
  last_cont := rfl
  last_fin := rfl

/-- An empty fragment, and one with the text `hi`. -/
theorem reassembles_iff_hi : Reassembles accepting handshaken
    [[(twoFragments [] (bytes "hi") (by decide) (by decide)).first], [(twoFragments [] (bytes "hi") (by decide) (by decide)).last]]
    (bytes "hi") :=
  (reassembles_iff upgraded_handshaken.1 upgraded_handshaken.2.1 (twoFragments [] (bytes "hi") (by decide) (by decide))).mpr
    ⟨by decide, by rw [upgraded_handshaken.2.2]; decide⟩ accepting _ (by decide) rfl

/-- The fragments `a` and `b`, each in its own read: no message is raised. -/
theorem not_reassembles_a_b : ¬Reassembles accepting handshaken
    [[(twoFragments (bytes "a") (bytes "b") (by decide) (by decide)).first],
      [(twoFragments (bytes "a") (bytes "b") (by decide) (by decide)).last]] (bytes "ab") := by
  rintro ⟨ini, c', answer, hrun, -, hmsg⟩
  have hnone : ∀ s ∈ serve accepting handshaken [[0x01, 0x81, 1, 2, 3, 4, 0x60], [0x80, 0x81, 1, 2, 3, 4, 0x63]],
      s.trace.filterMap Act.message? = [] := by decide +kernel
  have hreads : [[(twoFragments (bytes "a") (bytes "b") (by decide) (by decide)).first],
      [(twoFragments (bytes "a") (bytes "b") (by decide) (by decide)).last]].map wires =
      [[0x01, 0x81, 1, 2, 3, 4, 0x60], [0x80, 0x81, 1, 2, 3, 4, 0x63]] := by decide
  rw [hreads] at hrun
  have hlast : c'.messages = [] := by
    apply hnone (.processed c' answer)
    rw [hrun]
    simp
  rw [hlast] at hmsg
  simp at hmsg

end Server

end Netcore
