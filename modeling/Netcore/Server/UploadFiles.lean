import Netcore.Multipart.PartData
import Netcore.Server.FormErrors

/-!
# Upload files

A file part is written to the last element of `files_`, whichever part that was opened for: `on_part_begin` does not look at what
`open_upload_file` answers. A run of the callbacks is followed here with an outcome for each attempt to open a file (`Opening`), and
with the file that the part under way has (`Uploading.own`), which the source does not keep.

`isolated_iff` says what comes of it: the callbacks keep to the files of their parts, and a file that cannot be opened puts the
request in `data_error`, exactly when there is no such file.
-/

namespace Netcore

open Multipart

/-! ## The first call of a reader -/

namespace Multipart

/-- A call of the parser that the reader does not pass on. -/
def Callback.silent : Callback → Bool
  | .onPartBegin | .onHeaderField _ | .onHeaderValue _ | .onHeaderEnd => true
  | .onHeadersEnd | .onPartData _ | .onPartEnd | .onEnd => false

/-- A parser that has not come to the data of a part. -/
structure Parser.Early (p : Parser) : Prop where
  mark : p.partDataMark = none
  notStart : p.state ≠ .partDataStart
  notData : p.state ≠ .partData

/-- The calls that a parser has made when it comes to the first data of a part, or until then. -/
def Started (p : Parser) (calls : List Callback) : Prop :=
  (p.Early ∧ ∀ c ∈ calls, c.silent = true) ∨
    ∃ pre post, calls = pre ++ .onHeadersEnd :: post ∧ ∀ c ∈ pre, c.silent = true

/-- An iteration leaves the parser early, or ends the headers of the first part. -/
def Iter.Early : Iter → Prop
  | .next p calls _ => (p.Early ∧ ∀ c ∈ calls, c.silent = true) ∨ calls = [.onHeadersEnd]
  | .error p _ | .stop p => p.Early
  | .throw _ _ _ => False

theorem Callback.forall_silent_nil : ∀ c ∈ ([] : List Callback), c.silent = true := fun _ h => absurd h List.not_mem_nil

/-- `data_callback_clear` makes no loud call with a callback that is silent. -/
theorem silent_dataCallbackClear {cb : Bytes → Callback} (hcb : ∀ x, (cb x).silent = true) (mark : Option Nat) (buffer : Bytes)
    (i : Nat) (e : Bool) : ∀ c ∈ dataCallbackClear cb mark buffer i e, c.silent = true := by
  intro c hc
  obtain ⟨x, rfl⟩ := of_mem_dataCallbackClear hc
  exact hcb x

/-- Nor does `data_callback_flush`. -/
theorem silent_dataCallbackFlush {cb : Bytes → Callback} (hcb : ∀ x, (cb x).silent = true) (mark : Option Nat) (buffer : Bytes) :
    ∀ c ∈ (dataCallbackFlush cb mark buffer).1, c.silent = true := by
  intro c hc
  obtain ⟨x, rfl⟩ := of_mem_dataCallbackFlush hc
  exact hcb x

section Parser

variable {p : Parser} (h : p.Early)
include h

/-- While it reads the opening line, the parser stays early. -/
theorem startBoundary_early (i : Nat) (c : UInt8) : (startBoundary p i c).Early := by
  have hkeep : (Iter.next { p with index := p.index + 1 } [] (i + 1)).Early :=
    .inl ⟨⟨h.mark, h.notStart, h.notData⟩, Callback.forall_silent_nil⟩
  unfold startBoundary
  split_ifs
  · exact h
  · exact hkeep
  · exact h
  · refine .inl ⟨⟨h.mark, State.noConfusion, State.noConfusion⟩, ?_⟩
    exact fun c hc => by rw [List.mem_singleton.mp hc]; rfl
  · exact h
  · exact hkeep

/-- While it reads the name of a header, the parser stays early. -/
theorem headerField_early (buffer : Bytes) (i : Nat) (c : UInt8) : (headerField p buffer i c).Early := by
  have hcount : ({ p with index := p.index + 1 } : Parser).Early := ⟨h.mark, h.notStart, h.notData⟩
  have hkeep : (Iter.next { p with index := p.index + 1 } [] (i + 1)).Early := .inl ⟨hcount, Callback.forall_silent_nil⟩
  unfold headerField
  simp only
  split_ifs
  · exact .inl ⟨⟨h.mark, State.noConfusion, State.noConfusion⟩, Callback.forall_silent_nil⟩
  · exact hkeep
  · exact hcount
  · exact .inl ⟨⟨h.mark, State.noConfusion, State.noConfusion⟩, silent_dataCallbackClear (fun _ => rfl) _ _ _ _⟩
  · exact hcount
  · exact hkeep

/-- While it reads the value of a header, the parser stays early. -/
theorem headerValue_early (buffer : Bytes) (i : Nat) (c : UInt8) : (headerValue p buffer i c).Early := by
  unfold headerValue
  split_ifs
  · refine .inl ⟨⟨h.mark, State.noConfusion, State.noConfusion⟩, List.forall_mem_append.mpr ⟨?_, ?_⟩⟩
    · exact silent_dataCallbackClear (fun _ => rfl) _ _ _ _
    · exact fun c hc => by rw [List.mem_singleton.mp hc]; rfl
  · exact .inl ⟨h, Callback.forall_silent_nil⟩

/-- One iteration before the data of a part. -/
theorem body_early (buffer : Bytes) (i : Nat) : (body p buffer i).Early := by
  unfold body
  simp only
  cases hs : p.state with
  | parseError => exact h
  | partEnd => exact h
  | partDataStart => exact absurd hs h.notStart
  | partData => exact absurd hs h.notData
  | ended => exact .inl ⟨h, Callback.forall_silent_nil⟩
  | start =>
    exact startBoundary_early (p := { p with index := 0, state := .startBoundary }) ⟨h.mark, State.noConfusion, State.noConfusion⟩
      i _
  | startBoundary => exact startBoundary_early h i _
  | headerFieldStart =>
    exact headerField_early (p := { p with state := .headerField, headerFieldMark := some i, index := 0 })
      ⟨h.mark, State.noConfusion, State.noConfusion⟩ buffer i _
  | headerField => exact headerField_early h buffer i _
  | headerValueStart =>
    simp only
    split_ifs
    · exact .inl ⟨h, Callback.forall_silent_nil⟩
    · exact headerValue_early (p := { p with headerValueMark := some i, state := .headerValue })
        ⟨h.mark, State.noConfusion, State.noConfusion⟩ buffer i _
  | headerValue => exact headerValue_early h buffer i _
  | headerValueAlmostDone =>
    simp only
    split_ifs
    · exact h
    · exact .inl ⟨⟨h.mark, State.noConfusion, State.noConfusion⟩, Callback.forall_silent_nil⟩
  | headersAlmostDone =>
    simp only
    split_ifs
    · exact h
    · exact .inr rfl

/-- The flush at the end of a buffer leaves an early parser early, and calls about headers only. -/
theorem flush_early (buffer : Bytes) : (flush p buffer).1.Early ∧ ∀ c ∈ (flush p buffer).2, c.silent = true := by
  unfold flush
  rw [h.mark]
  refine ⟨⟨rfl, h.notStart, h.notData⟩, ?_⟩
  rw [List.forall_mem_append, List.forall_mem_append]
  exact ⟨⟨silent_dataCallbackFlush (fun _ => rfl) _ _, silent_dataCallbackFlush (fun _ => rfl) _ _⟩, Callback.forall_silent_nil⟩

end Parser

/-- More calls of an early parser, or of one that has come to a part. -/
theorem Started.next {p p' : Parser} {calls cs : List Callback} (h : Started p calls)
    (hnext : p.Early → (p'.Early ∧ ∀ c ∈ cs, c.silent = true) ∨ cs = [.onHeadersEnd]) : Started p' (calls ++ cs) := by
  rcases h with ⟨hp, hcalls⟩ | ⟨pre, post, rfl, hpre⟩
  · rcases hnext hp with ⟨hp', hcs⟩ | rfl
    · exact .inl ⟨hp', List.forall_mem_append.mpr ⟨hcalls, hcs⟩⟩
    · exact .inr ⟨calls, [], rfl, hcalls⟩
  · exact .inr ⟨pre, post ++ cs, List.append_assoc pre _ cs, hpre⟩

/-- Another parser after the same calls. -/
theorem Started.of_early {p p' : Parser} {calls : List Callback} (h : Started p calls) (hearly : p.Early → p'.Early) :
    Started p' calls := h.imp_left fun hp => ⟨hearly hp.1, hp.2⟩

/-- What a call of `feed` comes to for an early parser. -/
def FeedResult.Started : FeedResult → Prop
  | .returned p calls _ | .threw p calls _ | .running p calls => Multipart.Started p calls

/-- Over the loop of `feed`: no call until the headers of a part have ended, and then `onHeadersEnd` first. -/
theorem feedLoop_started {p₀ : Parser} (h₀ : p₀.Early) (buffer : Bytes) (fuel : Nat) : ∀ {p : Parser} {calls : List Callback} (i : Nat),
    Started p calls → (feedLoop p₀ buffer fuel p calls i).Started := by
  have hflush : ∀ {p : Parser} {calls : List Callback} (ret : Nat), Started p calls →
      (FeedResult.returned (flush p buffer).1 (calls ++ (flush p buffer).2) ret).Started :=
    fun _ h => h.next fun hp => .inl (flush_early hp buffer)
  induction fuel with
  | zero =>
    intro p calls i h
    rw [feedLoop]
    split_ifs
    · exact hflush _ h
    · exact h
  | succ fuel ih =>
    intro p calls i h
    rw [feedLoop]
    split_ifs
    · exact hflush _ h
    · have hbody := fun hp : p.Early => body_early hp buffer i
      cases hb : body p buffer i with
      | next p' cs j =>
        rw [hb] at hbody
        exact ih j (h.next hbody)
      | error p' msg =>
        rw [hb] at hbody
        exact h.of_early fun hp => ⟨(hbody hp).mark, State.noConfusion, State.noConfusion⟩
      | stop p' =>
        rw [hb] at hbody
        exact h.of_early fun hp => ⟨(hbody hp).mark, h₀.notStart, h₀.notData⟩
      | throw p' cs msg =>
        rw [hb] at hbody
        exact h.next fun hp => (hbody hp).elim

/-- A call of `feed` on an early parser leaves it early, or begins a part. -/
theorem feed_started {p : Parser} (h : p.Early) (buffer : Bytes) : (feed p buffer).Started := by
  have hstart : Started p [] := .inl ⟨h, Callback.forall_silent_nil⟩
  unfold feed
  split_ifs
  · exact hstart
  · exact feedLoop_started h buffer _ 0 hstart

namespace Reader

/-- Calls about the headers do not get past the reader. -/
theorem onCallbacks_silent (cs : List Callback) : ∀ r : Reader, (∀ c ∈ cs, c.silent = true) → (r.onCallbacks cs).2 = [] := by
  induction cs with
  | nil => exact fun r _ => rfl
  | cons c cs ih =>
    intro r h
    obtain ⟨hc, hcs⟩ := List.forall_mem_cons.mp h
    have hone : (r.onCallback c).2 = [] := by
      cases c with
      | onHeadersEnd | onPartData d | onPartEnd | onEnd => cases hc
      | onPartBegin | onHeaderField d | onHeaderValue d | onHeaderEnd => rfl
    rw [onCallbacks]
    simp only [hone, ih _ hcs, List.nil_append]

end Reader

/-- There is no call, or the first one is the beginning of a part; without calls the parser is early still. -/
def ReaderResult.Begins : ReaderResult → Prop
  | .returned r calls _ => (r.parser.Early ∧ calls = []) ∨ ∃ headers rest, calls = .onPartBegin headers :: rest
  | .threw _ calls _ => calls = [] ∨ ∃ headers rest, calls = .onPartBegin headers :: rest
  | .running => True

/-- The calls of such a result, if there are any, begin with `onPartBegin`. -/
theorem ReaderResult.Begins.calls {result : ReaderResult} (h : result.Begins) :
    result.calls = [] ∨ ∃ headers rest, result.calls = .onPartBegin headers :: rest := by
  cases result with
  | returned r calls ret => exact h.imp_left And.right
  | threw r calls msg => exact h
  | running => exact .inl rfl

namespace Reader

/-- For the reader: no call as long as the parser is early, and then `onPartBegin` with the headers. -/
theorem onCallbacks_started {p : Parser} {cs : List Callback} (h : Started p cs) (r : Reader) :
    (p.Early ∧ (r.onCallbacks cs).2 = []) ∨ ∃ headers rest, (r.onCallbacks cs).2 = .onPartBegin headers :: rest := by
  rcases h with ⟨hp, hcs⟩ | ⟨pre, post, rfl, hpre⟩
  · exact .inl ⟨hp, onCallbacks_silent cs r hcs⟩
  · refine .inr ⟨(r.onCallbacks pre).1.currentHeaders, ?_⟩
    rw [onCallbacks_append, onCallbacks_silent pre r hpre, onCallbacks]
    exact ⟨_, rfl⟩

/-- A reader whose parser is early calls `onPartBegin` before anything else. -/
theorem feed_begins {r : Reader} (h : r.parser.Early) (buffer : Bytes) : (r.feed buffer).Begins := by
  have hstarted := feed_started h buffer
  unfold feed
  cases hf : Multipart.feed r.parser buffer with
  | returned p cs ret =>
    rw [hf] at hstarted
    exact onCallbacks_started hstarted r
  | threw p cs msg =>
    rw [hf] at hstarted
    exact (onCallbacks_started hstarted r).imp_left And.right
  | running p cs => trivial

/-- Whatever is fed to a new parser, the first call that the reader's user gets is the beginning of a part. -/
theorem feedAll_begins (chunks : List Bytes) : ∀ {r : Reader}, r.parser.Early → (r.feedAll chunks).Begins := by
  induction chunks with
  | nil => exact fun h => .inl ⟨h, rfl⟩
  | cons b bs ih =>
    intro r h
    have hfirst := feed_begins h b
    unfold feedAll
    cases hf : r.feed b with
    | returned r₁ out₁ n₁ =>
      rw [hf] at hfirst
      simp only
      rcases hfirst with ⟨h₁, rfl⟩ | ⟨headers, rest, rfl⟩
      · have hrest := ih h₁
        cases hfs : r₁.feedAll bs with
        | returned r₂ out₂ n₂ =>
          rw [hfs] at hrest
          exact hrest
        | threw r₂ out₂ msg =>
          rw [hfs] at hrest
          exact hrest
        | running => trivial
      · cases r₁.feedAll bs with
        | returned r₂ out₂ n₂ => exact .inr ⟨headers, rest ++ out₂, rfl⟩
        | threw r₂ out₂ msg => exact .inr ⟨headers, rest ++ out₂, rfl⟩
        | running => trivial
    | threw r₁ out₁ msg => rwa [hf] at hfirst
    | running => trivial

/-- `setBoundary` sets the parser to the beginning of a form. -/
theorem setBoundary_early (r : Reader) (boundary : Bytes) (fill : Nat → UInt8) : (r.setBoundary boundary fill).parser.Early :=
  ⟨rfl, State.noConfusion, State.noConfusion⟩

end Reader

end Multipart

/-! ## Openings -/

/-- What an attempt to open an upload comes to: the name that is made from the clock, and whether the file is opened. -/
structure Opening where
  name : Bytes
  opened : Bool
  deriving DecidableEq, Repr

/-- What is outside the connection when an attempt comes to this. -/
def Env.opening (env : Env) (o : Opening) : Env := { env with uploadName := fun _ => o.name, canCreate := fun _ => o.opened }

/-- Calls of a reader, each with what an attempt to open a file would come to. -/
def withOpenings (openings : Nat → Opening) : List ReaderCall → List (Opening × ReaderCall)
  | [] => []
  | call :: calls => (openings 0, call) :: withOpenings (fun n => openings (n + 1)) calls

/-- The data of a call. -/
def Multipart.ReaderCall.data : ReaderCall → Bytes
  | .onPartData d => d
  | .onPartBegin _ | .onPartEnd | .onEnd => []

namespace Connection

/-- A part with these headers is a file with a name, and `on_part_begin` tries to open an upload for it. -/
def AsksFile (c : Connection) (headers : Headers) : Prop :=
  (c.req.setMultipartHeaders headers).isMultipartFile = true ∧
    (c.req.setMultipartHeaders headers).getMultipartFieldName (bytes "filename") ≠ []

instance (c : Connection) (headers : Headers) : Decidable (c.AsksFile headers) := inferInstanceAs (Decidable (_ ∧ _))

/-- What has been written to each upload. -/
def contents (c : Connection) : List Bytes := c.req.files.map UploadFile.written

/-- A field is kept apart from the files. -/
theorem saveMultipartKeyValue_uploads (r : Request) (key value : Bytes) :
    (r.saveMultipartKeyValue key value).files = r.files ∧ (r.saveMultipartKeyValue key value).state = r.state := by
  unfold Request.saveMultipartKeyValue
  split_ifs
  · exact ⟨rfl, rfl⟩
  · exact ⟨rfl, rfl⟩

/-- The data of a field goes to its value, and to no file. -/
theorem updateMultipartValue_uploads (r : Request) (key data : Bytes) :
    (r.updateMultipartValue key data).files = r.files ∧ (r.updateMultipartValue key data).state = r.state := by
  unfold Request.updateMultipartValue
  dsimp only
  split <;> split <;> exact ⟨rfl, rfl⟩

/-- `write_upload_data` appends the data to the last file. -/
theorem writeUploadData_append {r : Request} {fs : List UploadFile} {f : UploadFile} (h : r.files = fs ++ [f]) (data : Bytes) :
    r.writeUploadData data = { r with files := fs ++ [f.write data] } := by
  unfold Request.writeUploadData
  rw [h, List.reverse_append]
  simp

/-- `close_upload_file` closes the last file and leaves what it holds. -/
theorem closeUploadFile_append {r : Request} {fs : List UploadFile} {f : UploadFile} (h : r.files = fs ++ [f]) :
    r.closeUploadFile = { r with files := fs ++ [{ f with isOpen := false }] } := by
  unfold Request.closeUploadFile
  rw [h, List.reverse_append]
  simp

/-- What `on_part_data` does to the uploads, when there is one. -/
theorem onPartData_uploads {c c' : Connection} {data : Bytes} {fs : List UploadFile} {f : UploadFile} (h : c.onPartData data = c')
    (hfiles : c.req.files = fs ++ [f]) : c'.trace = c.trace ∧ c'.isMultiPartFile = c.isMultiPartFile ∧ c'.req.state = c.req.state ∧
      c'.req.files = if c.req.state ≠ .dataError ∧ c.isMultiPartFile = true then fs ++ [f.write data] else fs ++ [f] := by
  unfold onPartData at h
  by_cases he : c.req.state = .dataError
  · rw [if_pos he] at h
    rw [← h, if_neg fun hboth => hboth.1 he]
    exact ⟨rfl, rfl, rfl, hfiles⟩
  · by_cases hf : c.isMultiPartFile = true
    · have hsome : c.req.files ≠ [] := by simp [hfiles]
      rw [if_neg he, if_pos hf, if_neg fun hboth => hsome hboth.2, writeUploadData_append hfiles] at h
      rw [← h, if_pos ⟨he, hf⟩]
      exact ⟨rfl, rfl, rfl, rfl⟩
    · rw [if_neg he, if_neg hf] at h
      obtain ⟨hkeep, hstate⟩ := updateMultipartValue_uploads c.req (c.req.getMultipartFieldName (bytes "name")) data
      rw [← h, if_neg fun hboth => hf hboth.2]
      exact ⟨rfl, rfl, hstate, hkeep.trans hfiles⟩

/-- Data that is not written to an upload. -/
theorem onPartData_text {c c' : Connection} {data : Bytes} (h : c.onPartData data = c')
    (hc : c.isMultiPartFile = true → c.req.state = .dataError) : c'.trace = c.trace ∧ c'.isMultiPartFile = c.isMultiPartFile ∧
      c'.req.state = c.req.state ∧ c'.req.files = c.req.files := by
  unfold onPartData at h
  by_cases he : c.req.state = .dataError
  · rw [if_pos he] at h
    rw [← h]
    exact ⟨rfl, rfl, rfl, rfl⟩
  · rw [if_neg he, if_neg fun hf => he (hc hf)] at h
    obtain ⟨hkeep, hstate⟩ := updateMultipartValue_uploads c.req (c.req.getMultipartFieldName (bytes "name")) data
    rw [← h]
    exact ⟨rfl, rfl, hstate, hkeep⟩

/-- What `on_part_end` does to the uploads: at the end of a file it closes the last one. -/
theorem onPartEnd_uploads {c c' : Connection} (h : c.onPartEnd = c') : c'.trace = c.trace ∧
    c'.isMultiPartFile = c.isMultiPartFile ∧ c'.req.state = c.req.state ∧
      ((c.isMultiPartFile = true → c.req.state ≠ .dataError → c.req.files = []) ∧ c'.req.files = c.req.files ∨
        ∃ fs f path, c.req.files = fs ++ [f] ∧ c'.req.files = fs ++ [{ f with path := path, isOpen := false }]) := by
  unfold onPartEnd at h
  dsimp only at h
  by_cases he : c.req.state = .dataError
  · rw [if_pos he] at h
    rw [← h]
    exact ⟨rfl, rfl, rfl, .inl ⟨fun _ hne => absurd he hne, rfl⟩⟩
  · by_cases hf : c.isMultiPartFile = true
    · rw [if_neg he, if_pos hf] at h
      rcases List.eq_nil_or_concat c.req.files with hnil | ⟨fs, f, hfiles⟩
      · have hclose : c.req.closeUploadFile = c.req := by
          unfold Request.closeUploadFile
          rw [hnil]
          rfl
        rw [hclose, hnil] at h
        rw [← h]
        exact ⟨rfl, rfl, rfl, .inl ⟨fun _ _ => hnil, rfl⟩⟩
      · rw [List.concat_eq_append] at hfiles
        rw [closeUploadFile_append hfiles] at h
        simp only [List.reverse_append, List.reverse_cons, List.reverse_nil, List.nil_append, List.singleton_append,
          List.reverse_reverse] at h
        split_ifs at h
        · rw [← h]
          exact ⟨rfl, rfl, rfl, .inr ⟨fs, f, _, hfiles, rfl⟩⟩
        · rw [← h]
          exact ⟨rfl, rfl, rfl, .inr ⟨fs, f, f.path, hfiles, rfl⟩⟩
    · rw [if_neg he, if_neg hf] at h
      rw [← h]
      exact ⟨rfl, rfl, rfl, .inl ⟨fun hf' => absurd hf' hf, rfl⟩⟩

/-- `on_end` does nothing to them. -/
theorem onEnd_uploads {c c' : Connection} (h : c.onEnd = c') : c'.trace = c.trace ∧ c'.isMultiPartFile = c.isMultiPartFile ∧
    c'.req.state = c.req.state ∧ c'.req.files = c.req.files := by
  unfold onEnd at h
  split_ifs at h
  · rw [← h]
    exact ⟨rfl, rfl, rfl, rfl⟩
  · rw [← h]
    exact ⟨rfl, rfl, rfl, rfl⟩

/-- What `on_part_begin` does to the uploads. -/
theorem onPartBegin_uploads (env : Env) (o : Opening) {c c' : Connection} {headers : Headers}
    (h : onPartBegin (env.opening o) c headers = c') : c'.trace = c.trace ∧
      (¬c.AsksFile headers ∧ c'.req.files = c.req.files ∧ (c'.isMultiPartFile = true → c'.req.state = .dataError) ∨
        c.AsksFile headers ∧ c'.isMultiPartFile = true ∧ c'.req.state = c.req.state ∧
          ∃ path, c'.req.files = if o.opened then c.req.files ++ [{ path := path }] else c.req.files) := by
  unfold onPartBegin at h
  dsimp only at h
  by_cases hfile : (c.req.setMultipartHeaders headers).isMultipartFile = true
  · by_cases hname : (c.req.setMultipartHeaders headers).getMultipartFieldName (bytes "filename") = []
    · rw [if_pos ⟨hname, hfile⟩] at h
      rw [← h]
      exact ⟨rfl, .inl ⟨fun hasks => hasks.2 hname, rfl, fun _ => rfl⟩⟩
    · rw [if_neg fun hboth => hname hboth.1, if_pos hfile] at h
      split_ifs at h with hopen
      · have ho : o.opened = true := hopen
        rw [← h, ho]
        exact ⟨rfl, .inr ⟨⟨hfile, hname⟩, hfile, rfl, _, rfl⟩⟩
      · have ho : o.opened = false := Bool.eq_false_iff.mpr hopen
        rw [← h, ho]
        exact ⟨rfl, .inr ⟨⟨hfile, hname⟩, hfile, rfl, [], rfl⟩⟩
  · rw [if_neg fun hboth => hfile hboth.2, if_neg hfile] at h
    rw [← h]
    exact ⟨rfl, .inl ⟨fun hasks => hfile hasks.1, (saveMultipartKeyValue_uploads _ _ _).1, fun hf => absurd hf hfile⟩⟩

/-- A callback meets what is outside the connection in one attempt to open a file. -/
theorem onReaderCall_opening (env : Env) (c : Connection) (call : ReaderCall) :
    ∃ o, onReaderCall env c call = onReaderCall (env.opening o) c call := by
  cases call with
  | onPartBegin headers =>
    exact ⟨⟨env.uploadName c.req.files.length, env.canCreate (bytes "www/" ++ env.uploadName c.req.files.length ++
      getExtension ((c.req.setMultipartHeaders headers).getMultipartFieldName (bytes "filename")) ++ bytes "_ing")⟩, rfl⟩
  | onPartData data | onPartEnd | onEnd => exact ⟨⟨[], false⟩, rfl⟩

end Connection

/-- A connection during a form, and which of its files was opened for the part under way. -/
structure Uploading where
  conn : Connection
  own : Option Nat := none
  deriving DecidableEq, Repr

namespace Uploading

/-- One callback. -/
def step (env : Env) (u : Uploading) (s : Opening × ReaderCall) : Uploading where
  conn := Connection.onReaderCall (env.opening s.1) u.conn s.2
  own :=
    match s.2 with
    | .onPartBegin headers => if u.conn.AsksFile headers ∧ s.1.opened = true then some u.conn.req.files.length else none
    | .onPartEnd => none
    | .onPartData _ | .onEnd => u.own

/-- Every callback of a run satisfies `P`, with the connection that it is called on. -/
def Along (env : Env) (P : Uploading → Opening × ReaderCall → Prop) : Uploading → List (Opening × ReaderCall) → Prop
  | _, [] => True
  | u, s :: steps => P u s ∧ Along env P (u.step env s) steps

/-- The assertion of `write_upload_data` holds, data goes to the file of its part and nowhere else, and a file that cannot be opened
puts the request in `data_error`. -/
structure Isolated (env : Env) (u : Uploading) (s : Opening × ReaderCall) : Prop where
  asserts : (u.step env s).conn.trace ≠ u.conn.trace ++ [.assertFailed]
  bytes : ∀ i w, u.conn.contents[i]? = some w → (u.step env s).conn.contents[i]? =
    some (w ++ if u.own = some i ∧ u.conn.req.state ≠ .dataError then s.2.data else [])
  refused : ∀ headers, s.2 = .onPartBegin headers → u.conn.AsksFile headers → s.1.opened = false →
    (u.step env s).conn.req.state = .dataError

/-- If the callback tries to open a file, and the request is not in `data_error` yet, then the file is opened. -/
def Opens (u : Uploading) (s : Opening × ReaderCall) : Prop :=
  ∀ headers, s.2 = .onPartBegin headers → u.conn.AsksFile headers → s.1.opened = true ∨ u.conn.req.state = .dataError

/-- The file of the part under way is the last one, and open; without one nothing is open to write to. -/
structure Owned (u : Uploading) : Prop where
  file : ∀ i, u.own = some i → u.conn.isMultiPartFile = true ∧
    ∃ fs f, u.conn.req.files = fs ++ [f] ∧ f.isOpen = true ∧ fs.length = i
  noFile : u.own = none → u.conn.isMultiPartFile = true → u.conn.req.state ≠ .dataError →
    ∃ fs f, u.conn.req.files = fs ++ [f] ∧ f.isOpen = false

section Step

variable {env : Env} {u : Uploading} {o : Opening}

/-- The contents of the files, with the last one named. -/
theorem contents_append {c : Connection} {fs : List UploadFile} {f : UploadFile} (h : c.req.files = fs ++ [f]) :
    c.contents = fs.map UploadFile.written ++ [f.written] := by
  rw [Connection.contents, h, List.map_append, List.map_singleton]

/-- A call without data, after which everything that was written is there as before. -/
theorem isolated_of_prefix {call : ReaderCall} (hdata : call.data = [])
    (htrace : (u.step env (o, call)).conn.trace = u.conn.trace)
    (hkept : u.conn.contents <+: (u.step env (o, call)).conn.contents)
    (hrefused : ∀ headers, call = .onPartBegin headers → u.conn.AsksFile headers → o.opened = false →
      (u.step env (o, call)).conn.req.state = .dataError) : u.Isolated env (o, call) := by
  refine ⟨?_, fun i w hw => ?_, hrefused⟩
  · rw [htrace]
    simp
  · obtain ⟨hlt, -⟩ := List.getElem?_eq_some_iff.mp hw
    obtain ⟨more, hmore⟩ := hkept
    rw [hdata, ite_self, List.append_nil, ← hmore, List.getElem?_append_left hlt]
    exact hw

/-- There is a file when one is to be written to. -/
theorem Owned.files_ne_nil (h : u.Owned) (hf : u.conn.isMultiPartFile = true) (hne : u.conn.req.state ≠ .dataError) :
    u.conn.req.files ≠ [] := by
  intro hnil
  have hlast : ∃ fs f, u.conn.req.files = fs ++ [f] := by
    cases hown : u.own with
    | none =>
      obtain ⟨fs, f, hlast, -⟩ := h.noFile hown hf hne
      exact ⟨fs, f, hlast⟩
    | some i =>
      obtain ⟨-, fs, f, hlast, -⟩ := h.file i hown
      exact ⟨fs, f, hlast⟩
  obtain ⟨fs, f, hlast⟩ := hlast
  rw [hnil] at hlast
  exact absurd hlast.symm (by simp)

/-- A part begins. -/
theorem owned_begin {headers : Headers} (h : u.Opens (o, .onPartBegin headers)) : (u.step env (o, .onPartBegin headers)).Owned := by
  generalize hc : Connection.onPartBegin (env.opening o) u.conn headers = c
  have hstep : u.step env (o, .onPartBegin headers) =
      ⟨c, if u.conn.AsksFile headers ∧ o.opened = true then some u.conn.req.files.length else none⟩ := by rw [← hc]; rfl
  rw [hstep]
  obtain ⟨-, ⟨hasks, -, herror⟩ | ⟨hasks, hfile, hstate, path, hfiles⟩⟩ := Connection.onPartBegin_uploads env o hc
  · rw [if_neg fun hboth => hasks hboth.1]
    exact ⟨fun i hi => (Option.some_ne_none i hi.symm).elim, fun _ hf hne => absurd (herror hf) hne⟩
  · cases ho : o.opened with
    | true =>
      rw [ho, if_pos rfl] at hfiles
      rw [if_pos ⟨hasks, rfl⟩]
      exact ⟨fun i hi => ⟨hfile, _, _, hfiles, rfl, Option.some.inj hi⟩, fun hnone => by cases hnone⟩
    | false =>
      -- a file that is not opened is only asked for in `data_error`
      have herror := (h headers rfl hasks).resolve_left (by simp [ho])
      rw [if_neg fun hboth => Bool.noConfusion hboth.2]
      exact ⟨fun i hi => (Option.some_ne_none i hi.symm).elim, fun _ _ hne => absurd (hstate.trans herror) hne⟩

/-- A part that begins writes to no file, and one that cannot be opened is an error. -/
theorem isolated_begin {headers : Headers} (h : u.Opens (o, .onPartBegin headers)) : u.Isolated env (o, .onPartBegin headers) := by
  generalize hc : Connection.onPartBegin (env.opening o) u.conn headers = c
  have hconn : (u.step env (o, .onPartBegin headers)).conn = c := hc
  obtain ⟨htrace, hcases⟩ := Connection.onPartBegin_uploads env o hc
  refine isolated_of_prefix rfl (hconn ▸ htrace) ?_ ?_
  · rw [hconn, Connection.contents, Connection.contents]
    rcases hcases with ⟨-, hfiles, -⟩ | ⟨-, -, -, path, hfiles⟩
    · rw [hfiles]
    · rw [hfiles]
      split_ifs
      · rw [List.map_append]
        exact List.prefix_append _ _
      · exact List.prefix_rfl
  · intro headers' heq hasks ho
    cases heq
    rcases hcases with ⟨hnot, -, -⟩ | ⟨-, -, hstate, -⟩
    · exact absurd hasks hnot
    · rw [hconn, hstate]
      exact (h headers rfl hasks).resolve_left (ne_true_of_eq_false ho)

/-- What data does to the uploads of a form. -/
theorem onPartData_owned (h : u.Owned) {data : Bytes} {c : Connection} (hc : u.conn.onPartData data = c) :
    c.trace = u.conn.trace ∧ c.isMultiPartFile = u.conn.isMultiPartFile ∧ c.req.state = u.conn.req.state ∧
      (c.req.files = u.conn.req.files ∧ (∀ i, u.own = some i → u.conn.req.state = .dataError) ∨
        ∃ fs f, u.conn.req.files = fs ++ [f] ∧ f.isOpen = true ∧ u.own = some fs.length ∧ u.conn.req.state ≠ .dataError ∧
          c.req.files = fs ++ [{ f with written := f.written ++ data }]) := by
  by_cases htext : u.conn.isMultiPartFile = true → u.conn.req.state = .dataError
  · obtain ⟨htrace, hfile, hstate, hfiles⟩ := Connection.onPartData_text hc htext
    exact ⟨htrace, hfile, hstate, .inl ⟨hfiles, fun i hi => htext (h.file i hi).1⟩⟩
  · obtain ⟨hf, he⟩ := not_forall.mp htext
    cases hown : u.own with
    | none =>
      -- the last file is closed, and takes nothing
      obtain ⟨fs, f, hlast, hclosed⟩ := h.noFile hown hf he
      obtain ⟨htrace, hfile, hstate, hfiles⟩ := Connection.onPartData_uploads hc hlast
      refine ⟨htrace, hfile, hstate, .inl ⟨?_, fun i hi => (Option.some_ne_none i hi.symm).elim⟩⟩
      rw [hfiles, if_pos ⟨he, hf⟩, UploadFile.write, if_neg (by simp [hclosed]), hlast]
    | some i =>
      obtain ⟨-, fs, f, hlast, hopen, rfl⟩ := h.file i hown
      obtain ⟨htrace, hfile, hstate, hfiles⟩ := Connection.onPartData_uploads hc hlast
      rw [if_pos ⟨he, hf⟩, UploadFile.write, if_pos hopen] at hfiles
      exact ⟨htrace, hfile, hstate, .inr ⟨fs, f, hlast, hopen, rfl, he, hfiles⟩⟩

/-- Data leaves the part with the file it had. -/
theorem owned_data (h : u.Owned) (data : Bytes) : (u.step env (o, .onPartData data)).Owned := by
  generalize hc : u.conn.onPartData data = c
  have hstep : u.step env (o, .onPartData data) = ⟨c, u.own⟩ := by rw [← hc]; rfl
  rw [hstep]
  obtain ⟨-, hfile, hstate, ⟨hfiles, -⟩ | ⟨fs, f, -, hopen, hown, -, hfiles⟩⟩ := onPartData_owned h hc
  · refine ⟨fun i hi => ?_, fun hnone hf hne => ?_⟩
    · rw [hfile, hfiles]
      exact h.file i hi
    · rw [hfiles]
      exact h.noFile hnone (hfile ▸ hf) (hstate ▸ hne)
  · refine ⟨fun i hi => ⟨hfile.trans (h.file i hi).1, fs, _, hfiles, hopen, ?_⟩, fun hnone => ?_⟩
    · exact Option.some.inj (hown.symm.trans hi)
    · exact absurd (hown.symm.trans hnone) (Option.some_ne_none _)

/-- Data goes to the file of the part under way, and the other files stay as they are. -/
theorem isolated_data (h : u.Owned) (data : Bytes) : u.Isolated env (o, .onPartData data) := by
  generalize hc : u.conn.onPartData data = c
  have hconn : (u.step env (o, .onPartData data)).conn = c := hc
  obtain ⟨htrace, -, -, hcases⟩ := onPartData_owned h hc
  refine ⟨?_, ?_, fun headers heq => by cases heq⟩
  · rw [hconn, htrace]
    simp
  · intro i w hw
    rw [hconn]
    rcases hcases with ⟨hfiles, herror⟩ | ⟨fs, f, hlast, -, hown, hne, hfiles⟩
    · rw [if_neg fun hboth => hboth.2 (herror i hboth.1)]
      rw [List.append_nil, ← hw, Connection.contents, Connection.contents, hfiles]
    · rw [contents_append hlast] at hw
      rw [contents_append hfiles, hown]
      rcases Nat.lt_trichotomy i fs.length with hlt | rfl | hgt
      · have hlt' : i < (fs.map UploadFile.written).length := by rwa [List.length_map]
        rw [if_neg fun hboth => absurd (Option.some.inj hboth.1) (Nat.ne_of_gt hlt), List.append_nil]
        rw [List.getElem?_append_left hlt'] at hw ⊢
        exact hw
      · rw [if_pos ⟨rfl, hne⟩]
        rw [List.getElem?_append_right (by rw [List.length_map])] at hw ⊢
        rw [List.length_map, Nat.sub_self] at hw ⊢
        obtain rfl := Option.some.inj hw
        rfl
      · -- there is no such file
        obtain ⟨hlt, -⟩ := List.getElem?_eq_some_iff.mp hw
        rw [List.length_append, List.length_map, List.length_singleton] at hlt
        omega

/-- A part ends. -/
theorem owned_end (h : u.Owned) : (u.step env (o, .onPartEnd)).Owned := by
  generalize hc : u.conn.onPartEnd = c
  have hstep : u.step env (o, .onPartEnd) = ⟨c, none⟩ := by rw [← hc]; rfl
  rw [hstep]
  obtain ⟨-, hfile, hstate, hcases⟩ := Connection.onPartEnd_uploads hc
  refine ⟨fun i hi => (Option.some_ne_none i hi.symm).elim, fun _ hf hne => ?_⟩
  rcases hcases with ⟨hnil, -⟩ | ⟨fs, f, path, -, hfiles⟩
  · exact absurd (hnil (hfile ▸ hf) (hstate ▸ hne)) (h.files_ne_nil (hfile ▸ hf) (hstate ▸ hne))
  · exact ⟨fs, _, hfiles, rfl⟩

/-- The end of a part writes to no file. -/
theorem isolated_end (u : Uploading) : u.Isolated env (o, .onPartEnd) := by
  generalize hc : u.conn.onPartEnd = c
  have hconn : (u.step env (o, .onPartEnd)).conn = c := hc
  obtain ⟨htrace, -, -, hcases⟩ := Connection.onPartEnd_uploads hc
  refine isolated_of_prefix rfl (hconn ▸ htrace) ?_ fun headers heq => by cases heq
  rw [hconn]
  rcases hcases with ⟨-, hfiles⟩ | ⟨fs, f, path, hlast, hfiles⟩
  · rw [Connection.contents, Connection.contents, hfiles]
  · rw [contents_append hlast, contents_append hfiles]

/-- The form ends. -/
theorem owned_onEnd (h : u.Owned) : (u.step env (o, .onEnd)).Owned := by
  generalize hc : u.conn.onEnd = c
  have hstep : u.step env (o, .onEnd) = ⟨c, u.own⟩ := by rw [← hc]; rfl
  rw [hstep]
  obtain ⟨-, hfile, hstate, hfiles⟩ := Connection.onEnd_uploads hc
  refine ⟨fun i hi => ?_, fun hnone hf hne => ?_⟩
  · rw [hfile, hfiles]
    exact h.file i hi
  · rw [hfiles]
    exact h.noFile hnone (hfile ▸ hf) (hstate ▸ hne)

/-- The end of the form writes to no file. -/
theorem isolated_onEnd (u : Uploading) : u.Isolated env (o, .onEnd) := by
  generalize hc : u.conn.onEnd = c
  have hconn : (u.step env (o, .onEnd)).conn = c := hc
  obtain ⟨htrace, -, -, hfiles⟩ := Connection.onEnd_uploads hc
  refine isolated_of_prefix rfl (hconn ▸ htrace) ?_ fun headers heq => by cases heq
  rw [hconn, Connection.contents, Connection.contents, hfiles]

/-- A callback after which a file that could not be opened has put the request in `data_error`: the request was in it before. -/
theorem opens_of_isolated {s : Opening × ReaderCall} (h : u.Isolated env s) : u.Opens s := by
  intro headers hbegin hasks
  cases ho : s.1.opened with
  | true => exact .inl rfl
  | false =>
    have herror := h.refused headers hbegin hasks ho
    rw [step, hbegin] at herror
    generalize hc : Connection.onPartBegin (env.opening s.1) u.conn headers = c
    obtain ⟨-, ⟨hnot, -⟩ | ⟨-, -, hstate, -⟩⟩ := Connection.onPartBegin_uploads env s.1 hc
    · exact absurd hasks hnot
    · exact .inr (hstate.symm.trans (hc ▸ herror))

end Step

/-! ## Runs -/

section Run

variable {env : Env}

/-- What follows from `P` at every step holds along a run where `P` does. -/
theorem Along.imp {P Q : Uploading → Opening × ReaderCall → Prop} (hpq : ∀ u s, P u s → Q u s) (steps : List (Opening × ReaderCall)) :
    ∀ {u : Uploading}, Along env P u steps → Along env Q u steps := by
  induction steps with
  | nil => exact fun _ => trivial
  | cons s steps ih => exact fun h => ⟨hpq _ _ h.1, ih h.2⟩

/-- From the first part on. -/
theorem Owned.along (steps : List (Opening × ReaderCall)) : ∀ {u : Uploading}, u.Owned → Along env Opens u steps →
    Along env (Isolated env) u steps := by
  induction steps with
  | nil => exact fun _ _ => trivial
  | cons s steps ih =>
    rintro u howned ⟨hopens, hrest⟩
    obtain ⟨o, call⟩ := s
    cases call with
    | onPartBegin headers => exact ⟨isolated_begin hopens, ih (owned_begin hopens) hrest⟩
    | onPartData data => exact ⟨isolated_data howned data, ih (owned_data howned data) hrest⟩
    | onPartEnd => exact ⟨isolated_end u, ih (owned_end howned) hrest⟩
    | onEnd => exact ⟨isolated_onEnd u, ih (owned_onEnd howned) hrest⟩

/-- The callbacks of a form under one environment are such a run. -/
theorem exists_openings (env : Env) (calls : List ReaderCall) : ∀ u : Uploading, ∃ openings : Nat → Opening,
    ((withOpenings openings calls).foldl (step env) u).conn = calls.foldl (Connection.onReaderCall env) u.conn := by
  induction calls with
  | nil => exact fun u => ⟨fun _ => ⟨[], false⟩, rfl⟩
  | cons call calls ih =>
    intro u
    obtain ⟨o, ho⟩ := Connection.onReaderCall_opening env u.conn call
    obtain ⟨openings, hrun⟩ := ih (u.step env (o, call))
    refine ⟨fun n => n.casesOn o openings, ?_⟩
    rw [List.foldl_cons, ho]
    exact hrun

/-- **Upload files are isolated**, whatever the form and however it comes in, exactly when every file that is asked for before the
request is in `data_error` can be opened. -/
theorem isolated_iff (env : Env) (r : Reader) (boundary : Bytes) (fill : Nat → UInt8) (chunks : List Bytes) (openings : Nat → Opening)
    (c : Connection) :
    Along env (Isolated env) { conn := c } (withOpenings openings ((r.setBoundary boundary fill).feedAll chunks).calls) ↔
      Along env Opens { conn := c } (withOpenings openings ((r.setBoundary boundary fill).feedAll chunks).calls) := by
  refine ⟨Along.imp (fun _ _ => opens_of_isolated) _, fun h => ?_⟩
  rcases (Reader.feedAll_begins chunks (r.setBoundary_early boundary fill)).calls with hnil | ⟨headers, rest, hcalls⟩
  · rw [hnil]
    trivial
  · rw [hcalls] at h ⊢
    exact ⟨isolated_begin h.1, (owned_begin h.1).along _ h.2⟩

/-- A form that begins with a file that cannot be opened. -/
theorem not_along_isolated {c : Connection} {headers : Headers} {calls rest : List ReaderCall} {openings : Nat → Opening}
    (hcalls : calls = .onPartBegin headers :: rest) (hasks : c.AsksFile headers) (hne : c.req.state ≠ .dataError)
    (ho : (openings 0).opened = false) : ¬ Along env (Isolated env) { conn := c } (withOpenings openings calls) := by
  intro h
  rw [hcalls] at h
  rcases opens_of_isolated h.1 headers rfl hasks with hopened | herror
  · exact ne_true_of_eq_false ho hopened
  · exact hne herror

/-- No file can be opened. -/
def noneOpened : Nat → Opening := fun _ => ⟨bytes "1", false⟩

/-- The callbacks go on as if it had been opened. -/
theorem not_isolated : ¬ ∀ (env : Env) (r : Reader) (boundary : Bytes) (fill : Nat → UInt8) (chunks : List Bytes)
    (openings : Nat → Opening) (c : Connection),
    Along env (Isolated env) { conn := c } (withOpenings openings ((r.setBoundary boundary fill).feedAll chunks).calls) := by
  intro h
  have hfirst : ∀ (r : Reader) (boundary : Bytes) (fill : Nat → UInt8) (chunks : List Bytes) (headers : Headers)
      (rest : List ReaderCall), ((r.setBoundary boundary fill).feedAll chunks).calls = .onPartBegin headers :: rest →
        ¬(Server.fresh .none).AsksFile headers := by
    intro r boundary fill chunks headers rest hcalls hasks
    have ho : (noneOpened 0).opened = false := rfl
    exact not_along_isolated hcalls hasks (by decide) ho (h (Env.bare []) r boundary fill chunks noneOpened (Server.fresh .none))
  have hcalls : ((({} : Reader).setBoundary (delimiter (bytes "x")) fun _ => 0).feedAll
      [bytes "--x\r\nContent-Disposition: form-data; name=\"a\"; filename=\"a.txt\"\r\n\r\nhi\r\n--x--"]).calls =
        [.onPartBegin [(bytes "Content-Disposition", bytes "form-data; name=\"a\"; filename=\"a.txt\"")], .onPartData (bytes "hi"),
          .onPartEnd, .onEnd] := by decide +kernel
  exact hfirst _ _ _ _ _ _ hcalls (by decide +kernel)

end Run

end Uploading

end Netcore
