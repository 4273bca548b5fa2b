import Netcore.Connection.Steps

/-!
# What each part of a connection adds to the trace

A connection only ever adds to its trace. For each function the lemma here says which acts it can add (`Extends`), and which
of the members that decide the next step (`continueWork`, the type of the request) it leaves alone. Only `callBack` runs a
handler, and it runs it on the request of the moment.
-/

namespace Netcore

/-- An act that neither looks up a route nor runs a handler. -/
def Act.Quiet : Act → Prop
  | .peek _ | .handler _ _ => False
  | _ => True

/-- An act that, when it runs a handler, runs it on the request `r`. -/
def Act.RunsOn (r : Request) : Act → Prop
  | .handler _ q => q = r
  | _ => True

/-- An act that runs no handler satisfies what is asked of the handlers that run. -/
theorem Act.Quiet.runsOn {a : Act} (h : a.Quiet) (r : Request) : a.RunsOn r := by
  cases a with
  | handler t q => exact h.elim
  | _ => trivial

namespace Connection

/-- `c'` has done what `c` has done, and after that only acts that satisfy `P`. -/
def Extends (P : Act → Prop) (c c' : Connection) : Prop := ∃ acts, c'.trace = c.trace ++ acts ∧ ∀ a ∈ acts, P a

namespace Extends

variable {P Q : Act → Prop} {c c' c'' : Connection}

/-- A connection that has done no more extends the other by nothing. -/
theorem of_eq (h : c'.trace = c.trace) : Extends P c c' := ⟨[], by simp [h], by simp⟩

/-- One act more. -/
theorem of_snoc {a : Act} (h : c'.trace = c.trace ++ [a]) (ha : P a) : Extends P c c' := by
  refine ⟨[a], h, ?_⟩
  intro b hb
  rw [List.mem_singleton.mp hb]
  exact ha

/-- What is done after one another may be put together. -/
theorem trans (h1 : Extends P c c') (h2 : Extends P c' c'') : Extends P c c'' := by
  obtain ⟨l1, e1, p1⟩ := h1
  obtain ⟨l2, e2, p2⟩ := h2
  refine ⟨l1 ++ l2, by rw [e2, e1, List.append_assoc], ?_⟩
  intro a ha
  rcases List.mem_append.mp ha with ha | ha
  · exact p1 a ha
  · exact p2 a ha

/-- The acts added satisfy every weaker property too. -/
theorem mono (h : Extends P c c') (hpq : ∀ a, P a → Q a) : Extends Q c c' := by
  obtain ⟨l, e, p⟩ := h
  exact ⟨l, e, fun a ha => hpq a (p a ha)⟩

/-- What holds of every act of the trace and of every act that is added holds of the whole trace. -/
theorem forall_mem (h : Extends P c c') (hp : ∀ a ∈ c.trace, P a) : ∀ a ∈ c'.trace, P a := by
  obtain ⟨l, e, p⟩ := h
  intro a ha
  rw [e] at ha
  rcases List.mem_append.mp ha with ha | ha
  · exact hp a ha
  · exact p a ha

end Extends

/-! ## Members that are left alone -/

/-- `log` puts one act behind the others. -/
@[simp] theorem log_trace (c : Connection) (a : Act) : (c.log a).trace = c.trace ++ [a] := rfl
@[simp] theorem log_req (c : Connection) (a : Act) : (c.log a).req = c.req := rfl
@[simp] theorem log_res (c : Connection) (a : Act) : (c.log a).res = c.res := rfl
@[simp] theorem log_continueWork (c : Connection) (a : Act) : (c.log a).continueWork = c.continueWork := rfl

@[simp] theorem responseBack_trace (c : Connection) (s : StatusType) (t : Bytes) : (c.responseBack s t).trace = c.trace := rfl
@[simp] theorem responseBack_req (c : Connection) (s : StatusType) (t : Bytes) : (c.responseBack s t).req = c.req := rfl
@[simp] theorem responseBack_continueWork (c : Connection) (s : StatusType) (t : Bytes) :
    (c.responseBack s t).continueWork = c.continueWork := rfl

@[simp] theorem close_trace (c : Connection) : c.close.trace = c.trace := by
  unfold close
  split <;> rfl

/-- `call_event` adds one entry, the event with the part data that the callback sees. -/
@[simp] theorem callEvent_trace (env : Env) (c : Connection) (s : DataProcState) :
    (callEvent env c s).trace = c.trace ++ [.event s c.req.partData] := by
  unfold callEvent
  cases env.event s <;> rfl

/-- Of what `call_event` does, nothing looks up a route or runs a handler of a route. -/
theorem callEvent_extends (env : Env) (c : Connection) (s : DataProcState) : Extends Act.Quiet c (callEvent env c s) :=
  Extends.of_snoc (callEvent_trace env c s) trivial

@[simp] theorem callEvent_continueWork (env : Env) (c : Connection) (s : DataProcState) :
    (callEvent env c s).continueWork = c.continueWork := by
  unfold callEvent
  cases env.event s <;> rfl

@[simp] theorem callEvent_ws (env : Env) (c : Connection) (s : DataProcState) : (callEvent env c s).ws = c.ws := by
  unfold callEvent
  cases env.event s <;> rfl

/-- The page for a request without a route is no act of an application. -/
@[simp] theorem answerNotFound_trace (env : Env) (c : Connection) : (answerNotFound env c).trace = c.trace := by
  unfold answerNotFound
  cases env.notFound <;> rfl

@[simp] theorem checkKeepAlive_trace (c : Connection) : c.checkKeepAlive.trace = c.trace := by
  obtain ⟨keep, ws, up, h⟩ := checkKeepAlive_eq c
  rw [h]

@[simp] theorem checkKeepAlive_req (c : Connection) : c.checkKeepAlive.req = c.req := by
  obtain ⟨keep, ws, up, h⟩ := checkKeepAlive_eq c
  rw [h]

@[simp] theorem checkKeepAlive_continueWork (c : Connection) : c.checkKeepAlive.continueWork = c.continueWork := by
  obtain ⟨keep, ws, up, h⟩ := checkKeepAlive_eq c
  rw [h]

/-! ## Handlers -/

/-- A download opens at most one file and runs no handler. -/
theorem processDownload_extends (env : Env) (c : Connection) (path : Bytes) :
    Extends Act.Quiet c (processDownload env c path) := by
  unfold processDownload
  cases c.req.state with
  | dataBegin =>
    refine Extends.of_snoc (a := .openFile (cString path)) ?_ trivial
    dsimp only
    cases env.files (cString path) with
    | none => rfl
    | some content =>
      dsimp only
      split <;> rfl
  | dataContinue =>
    apply Extends.of_eq
    dsimp only
    cases c.fileTag <;> rfl
  | dataEnd | dataAllEnd | dataClose | dataError => exact Extends.of_eq rfl

/-- The default handler runs no handler of a route. -/
theorem staticHandler_extends (env : Env) (c : Connection) : Extends Act.Quiet c (staticHandler env c) := by
  unfold staticHandler
  cases env.downloadCheck with
  | none => exact processDownload_extends env c _
  | some check =>
    dsimp only
    split
    · obtain ⟨l, e, p⟩ := processDownload_extends env { c with res := (check c.req c.res).2 } (staticPath c.req)
      exact ⟨l, e, p⟩
    · exact Extends.of_eq rfl

/-- With a route, `call_back` runs its handler, once. -/
theorem callBack_trace {env : Env} {c : Connection} {t : Target}
    (hr : env.router.route c.req.getMethod c.req.getUrl = some t) :
    ∃ acts, (callBack env c).trace = c.trace ++ .handler t c.req :: acts ∧ ∀ a ∈ acts, a.Quiet := by
  unfold callBack
  rw [hr]
  cases t with
  | staticRes =>
    obtain ⟨acts, he, hq⟩ := staticHandler_extends env (c.log (.handler .staticRes c.req))
    exact ⟨acts, by rw [he]; simp, hq⟩
  | user id => exact ⟨[], rfl, by simp⟩

/-- `call_back` runs a handler, if any, on the request it was called with. -/
theorem callBack_extends (env : Env) (c : Connection) : Extends (Act.RunsOn c.req) c (callBack env c) := by
  unfold callBack
  cases env.router.route c.req.getMethod c.req.getUrl with
  | none => exact Extends.of_snoc (a := .notFound) (by simp) trivial
  | some t =>
    have hrun : Extends (Act.RunsOn c.req) c (c.log (.handler t c.req)) := Extends.of_snoc rfl rfl
    cases t with
    | staticRes =>
      exact hrun.trans ((staticHandler_extends env _).mono fun a ha => ha.runsOn c.req)
    | user id => exact hrun.trans (Extends.of_eq rfl)

/-! ## Multipart bodies -/

/-- A callback of the multipart reader runs no handler of a route: it fires an event, at most. -/
theorem onReaderCall_extends (env : Env) (c : Connection) (call : Multipart.ReaderCall) :
    Extends Act.Quiet c (onReaderCall env c call) := by
  cases call with
  | onPartBegin headers =>
    apply Extends.of_eq
    unfold onReaderCall onPartBegin
    dsimp only
    split_ifs <;> rfl
  | onPartData data =>
    unfold onReaderCall onPartData
    dsimp only
    split_ifs
    · exact Extends.of_eq rfl
    · exact Extends.of_snoc rfl trivial
    · exact Extends.of_eq rfl
    · exact Extends.of_eq rfl
  | onPartEnd =>
    apply Extends.of_eq
    unfold onReaderCall onPartEnd
    dsimp only
    split_ifs
    · rfl
    · split
      · rfl
      · split <;> rfl
    · rfl
  | onEnd =>
    apply Extends.of_eq
    unfold onReaderCall onEnd
    dsimp only
    split <;> rfl

/-- The members of a request that the callbacks of the multipart reader leave alone. -/
structure SameMessage (r r' : Request) : Prop where
  buf : r'.buf = r.buf
  curSize : r'.curSize = r.curSize
  method : r'.method = r.method
  url : r'.url = r.url
  methodStr : r'.methodStr = r.methodStr
  urlStr : r'.urlStr = r.urlStr
  headerLen : r'.headerLen = r.headerLen
  bodyLen : r'.bodyLen = r.bodyLen
  leftBodyLen : r'.leftBodyLen = r.leftBodyLen
  httpType : r'.httpType = r.httpType

theorem SameMessage.refl (r : Request) : SameMessage r r := ⟨rfl, rfl, rfl, rfl, rfl, rfl, rfl, rfl, rfl, rfl⟩

theorem SameMessage.trans {r r' r'' : Request} (h1 : SameMessage r r') (h2 : SameMessage r' r'') : SameMessage r r'' where
  buf := h2.buf.trans h1.buf
  curSize := h2.curSize.trans h1.curSize
  method := h2.method.trans h1.method
  url := h2.url.trans h1.url
  methodStr := h2.methodStr.trans h1.methodStr
  urlStr := h2.urlStr.trans h1.urlStr
  headerLen := h2.headerLen.trans h1.headerLen
  bodyLen := h2.bodyLen.trans h1.bodyLen
  leftBodyLen := h2.leftBodyLen.trans h1.leftBodyLen
  httpType := h2.httpType.trans h1.httpType

/-- The value of a field grows, and the message stays. -/
theorem updateMultipartValue_same (r : Request) (key data : Bytes) : SameMessage r (r.updateMultipartValue key data) := by
  unfold Request.updateMultipartValue
  dsimp only
  split <;> split <;> exact ⟨rfl, rfl, rfl, rfl, rfl, rfl, rfl, rfl, rfl, rfl⟩

/-- A field of the form is kept, and the message stays. -/
theorem saveMultipartKeyValue_same (r : Request) (key value : Bytes) : SameMessage r (r.saveMultipartKeyValue key value) := by
  unfold Request.saveMultipartKeyValue
  split <;> exact ⟨rfl, rfl, rfl, rfl, rfl, rfl, rfl, rfl, rfl, rfl⟩

/-- Data goes to the file of an upload, and the message stays. -/
theorem writeUploadData_same (r : Request) (data : Bytes) : SameMessage r (r.writeUploadData data) := by
  unfold Request.writeUploadData
  split <;> exact ⟨rfl, rfl, rfl, rfl, rfl, rfl, rfl, rfl, rfl, rfl⟩

/-- The file of an upload is closed, and the message stays. -/
theorem closeUploadFile_same (r : Request) : SameMessage r r.closeUploadFile := by
  unfold Request.closeUploadFile
  split <;> exact ⟨rfl, rfl, rfl, rfl, rfl, rfl, rfl, rfl, rfl, rfl⟩

/-- The callbacks of the multipart reader change neither the message nor the next step. -/
theorem onReaderCall_same (env : Env) (c : Connection) (call : Multipart.ReaderCall) :
    SameMessage c.req (onReaderCall env c call).req ∧ (onReaderCall env c call).continueWork = c.continueWork := by
  cases call with
  | onPartBegin headers =>
    unfold onReaderCall onPartBegin
    dsimp only
    split_ifs
    · exact ⟨⟨rfl, rfl, rfl, rfl, rfl, rfl, rfl, rfl, rfl, rfl⟩, rfl⟩
    · exact ⟨⟨rfl, rfl, rfl, rfl, rfl, rfl, rfl, rfl, rfl, rfl⟩, rfl⟩
    · exact ⟨⟨rfl, rfl, rfl, rfl, rfl, rfl, rfl, rfl, rfl, rfl⟩, rfl⟩
    · refine ⟨SameMessage.trans ?_ (saveMultipartKeyValue_same _ _ _), rfl⟩
      exact ⟨rfl, rfl, rfl, rfl, rfl, rfl, rfl, rfl, rfl, rfl⟩
  | onPartData data =>
    unfold onReaderCall onPartData
    dsimp only
    split_ifs
    · exact ⟨SameMessage.refl _, rfl⟩
    · exact ⟨SameMessage.refl _, rfl⟩
    · exact ⟨writeUploadData_same _ _, rfl⟩
    · exact ⟨updateMultipartValue_same _ _ _, rfl⟩
  | onPartEnd =>
    unfold onReaderCall onPartEnd
    dsimp only
    split_ifs
    · exact ⟨SameMessage.refl _, rfl⟩
    · split
      · exact ⟨closeUploadFile_same _, rfl⟩
      · split
        · refine ⟨(closeUploadFile_same c.req).trans ?_, rfl⟩
          exact ⟨rfl, rfl, rfl, rfl, rfl, rfl, rfl, rfl, rfl, rfl⟩
        · exact ⟨closeUploadFile_same _, rfl⟩
    · exact ⟨SameMessage.refl _, rfl⟩
  | onEnd =>
    unfold onReaderCall onEnd
    dsimp only
    split <;> exact ⟨⟨rfl, rfl, rfl, rfl, rfl, rfl, rfl, rfl, rfl, rfl⟩, rfl⟩

/-- A run of callbacks adds no handler, and changes neither the message nor the next step. -/
theorem foldl_onReaderCall (env : Env) (calls : List Multipart.ReaderCall) : ∀ c : Connection,
    Extends Act.Quiet c (calls.foldl (onReaderCall env) c) ∧ SameMessage c.req (calls.foldl (onReaderCall env) c).req ∧
      (calls.foldl (onReaderCall env) c).continueWork = c.continueWork := by
  induction calls with
  | nil => exact fun c => ⟨Extends.of_eq rfl, SameMessage.refl _, rfl⟩
  | cons call calls ih =>
    intro c
    obtain ⟨h1, h2, h3⟩ := ih (onReaderCall env c call)
    obtain ⟨k2, k3⟩ := onReaderCall_same env c call
    exact ⟨(onReaderCall_extends env c call).trans h1, k2.trans h2, h3.trans k3⟩

/-- `parse_multipart` runs no handler and leaves the type of the request and the next step alone. -/
theorem parseMultipart_extends (env : Env) (c : Connection) (size length : Nat) :
    Extends Act.Quiet c (parseMultipart env c size length).1 ∧
      (parseMultipart env c size length).1.req.httpType = c.req.httpType ∧
      (parseMultipart env c size length).1.continueWork = c.continueWork := by
  unfold parseMultipart
  dsimp only
  split_ifs with h0
  · exact ⟨Extends.of_eq rfl, rfl, rfl⟩
  · split
    · rename_i r calls ret _
      obtain ⟨h1, h2, h3⟩ := foldl_onReaderCall env calls
        { c with req := c.req.setPartData (Slices.slice c.req.buf size (size + length)), reader := r }
      have h1' : Extends Act.Quiet c _ := Extends.trans (Extends.of_eq rfl) h1
      split_ifs
      · exact ⟨h1'.trans (Extends.of_eq rfl), h2.httpType, h3⟩
      · exact ⟨h1'.trans (Extends.of_eq rfl), h2.httpType, h3⟩
    · rename_i r calls msg _
      obtain ⟨h1, h2, h3⟩ := foldl_onReaderCall env calls
        { c with req := c.req.setPartData (Slices.slice c.req.buf size (size + length)), reader := r }
      exact ⟨Extends.trans (Extends.of_eq rfl) h1, h2.httpType, h3⟩
    · exact ⟨Extends.of_eq rfl, rfl, rfl⟩

/-- The sizes after a `parse_multipart` without an error. -/
theorem parseMultipart_sizes (env : Env) (c : Connection) (size length : Nat)
    (h : (parseMultipart env c size length).2 = .hasError false) :
    (parseMultipart env c size length).1.req.bodyLen = c.req.bodyLen ∧
      (parseMultipart env c size length).1.req.headerLen = c.req.headerLen ∧
      (parseMultipart env c size length).1.req.curSize = c.req.curSize ∧
      (parseMultipart env c size length).1.req.leftBodyLen =
        if length = 0 then c.req.leftBodyLen else sizeT (c.req.leftBodyLen - length) := by
  revert h
  unfold parseMultipart
  dsimp only
  split_ifs with h0
  · exact fun _ => ⟨rfl, rfl, rfl, rfl⟩
  · split
    · rename_i r calls ret _
      obtain ⟨-, h2, -⟩ := foldl_onReaderCall env calls
        { c with req := c.req.setPartData (Slices.slice c.req.buf size (size + length)), reader := r }
      split_ifs
      · intro h
        cases h
      · intro _
        refine ⟨h2.bodyLen, h2.headerLen, h2.curSize, ?_⟩
        rw [← show (calls.foldl (onReaderCall env) _).req.leftBodyLen = c.req.leftBodyLen from h2.leftBodyLen]
        rfl
    · intro h
      cases h
    · intro h
      cases h

/-! ## WebSocket frames -/

/-- A frame runs no handler, and leaves the next step alone unless the connection is to be written to and closed. -/
theorem handleWsFrame_extends (env : Env) (c : Connection) (type : WsFrameType) (payload : Bytes) :
    Extends Act.Quiet c (handleWsFrame env c type payload).1 ∧
      ((handleWsFrame env c type payload).2 = some true →
        (handleWsFrame env c type payload).1.continueWork = c.continueWork) := by
  have hlog : Extends Act.Quiet c (c.log (.frame type payload)) := Extends.of_snoc rfl trivial
  unfold handleWsFrame
  cases type with
  | errorFrame => exact ⟨(hlog.trans (callEvent_extends env _ _)).trans (Extends.of_eq (close_trace _)), by simp⟩
  | textFrame | binaryFrame =>
    refine ⟨hlog.trans (Extends.trans (Extends.of_eq rfl) (callEvent_extends env _ _)), ?_⟩
    intro _
    simp
  | closeFrame =>
    dsimp only
    split
    · exact ⟨hlog, by simp⟩
    · refine ⟨?_, by simp⟩
      generalize closeMessage env payload _ = message
      have he := callEvent_extends env
        { c.log (.frame .closeFrame payload) with req := c.req.setPartData message } .dataClose
      exact (hlog.trans (Extends.trans (Extends.of_eq rfl) he)).trans (Extends.of_snoc rfl trivial)
  | pingFrame => exact ⟨hlog.trans (Extends.of_snoc rfl trivial), fun _ => rfl⟩
  | pongFrame | openingFrame | incompleteFrame | incompleteTextFrame | incompleteBinaryFrame => exact ⟨hlog, fun _ => rfl⟩

/-- The handshake runs the handler on the request it was called with, and only frames are read after it. -/
theorem responseHandshake_extends (env : Env) (c : Connection) :
    Extends (Act.RunsOn { c.req with state := .dataBegin }) c (responseHandshake env c) ∧
      (responseHandshake env c).continueWork = some .handleWsData := by
  refine ⟨?_, rfl⟩
  let c₁ : Connection := { c with res := c.res.buildResponseStr }.log (.write c.res.buildResponseStr.repStr)
  let c₂ : Connection := { c₁ with req := { c₁.req with state := .dataBegin } }
  have h1 : Extends (Act.RunsOn c₂.req) c c₁ := Extends.of_snoc rfl trivial
  have h2 : Extends (Act.RunsOn c₂.req) c₁ c₂ := Extends.of_eq rfl
  have h3 := callBack_extends env c₂
  have h4 := (callEvent_extends env (callBack env c₂) (callBack env c₂).req.state).mono fun a ha => ha.runsOn c₂.req
  exact (((h1.trans h2).trans h3).trans h4).trans (Extends.of_eq rfl)

/-- To keep a fragment of a message is no act, and the processing goes on as it did. -/
theorem keepFragment_extends (P : Act → Prop) (c : Connection) (type : WsFrameType) (payload : Bytes) :
    Extends P c (keepFragment c type payload) ∧ (keepFragment c type payload).continueWork = c.continueWork := by
  unfold keepFragment
  split <;> exact ⟨Extends.of_eq rfl, rfl⟩

/-- The loop over the frames runs no handler; when it is to be read on, the next step is the same. -/
theorem wsLoop_extends (env : Env) (data : Bytes) (stop : Nat) : ∀ (fuel : Nat) (c : Connection) (start : Nat),
    Extends Act.Quiet c (wsLoop env data stop fuel c start).1 ∧
      ((wsLoop env data stop fuel c start).2 ≠ .state .needWrite → (wsLoop env data stop fuel c start).2 ≠ .nullRead →
        (wsLoop env data stop fuel c start).1.continueWork = c.continueWork) := by
  intro fuel
  induction fuel with
  | zero => exact fun c _ => ⟨Extends.of_eq rfl, fun _ _ => rfl⟩
  | succ fuel ih =>
    intro c start
    rcases hp : c.ws.parseHeader (data.drop start) (stop - start) with ⟨ws, ret⟩
    have hret := c.ws.parseHeader_ret (data.drop start) (stop - start)
    rw [hp] at hret
    rcases hret with rfl | ⟨len, rfl⟩
    · rw [wsLoop_header_incomplete hp]
      exact ⟨Extends.of_eq rfl, fun _ _ => rfl⟩
    rcases hq : ws.parsePayload (data.drop (start + len)) (stop - (start + len)) with ⟨type, payload⟩
    by_cases ht : type = .incompleteFrame
    · subst ht
      rw [wsLoop_payload_incomplete hp hq]
      exact ⟨Extends.of_eq rfl, fun _ _ => rfl⟩
    rw [wsLoop_frame hp hq ht]
    obtain ⟨k1, k2⟩ := keepFragment_extends Act.Quiet { c with ws := ws } type payload
    obtain ⟨f1, f2⟩ := handleWsFrame_extends env (keepFragment { c with ws := ws } type payload) type payload
    have hk : Extends Act.Quiet c (handleWsFrame env (keepFragment { c with ws := ws } type payload) type payload).1 :=
      Extends.trans (Extends.of_eq rfl) (k1.trans f1)
    revert f2 hk
    rcases handleWsFrame env (keepFragment { c with ws := ws } type payload) type payload with ⟨c₁, _ | _ | _⟩
    · exact fun _ hk => ⟨hk, fun _ h => absurd rfl h⟩
    · exact fun _ hk => ⟨hk, fun h => absurd rfl h⟩
    · intro f2 hk
      have hw : c₁.continueWork = c.continueWork := (f2 rfl).trans k2
      unfold afterFrame
      dsimp only
      split
      · obtain ⟨i1, i2⟩ := ih c₁ (start + len)
        exact ⟨hk.trans i1, fun h h' => (i2 h h').trans hw⟩
      · exact ⟨hk.trans (Extends.of_eq rfl), fun _ _ => hw⟩

end Connection

end Netcore
