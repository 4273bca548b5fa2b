import Netcore.Multipart.Form

/-!
# Header values of parts

`HEADER_VALUE` reports a header value up to the CR that ends it. So a value that was written with a CR in it is not read back:
whatever a reader is fed, no header value that it hands on has a CR (`feedAll_oneLine`). `ValueMark` is the invariant of the byte
loop: what is marked as a value has none so far.
-/

namespace Netcore
namespace Multipart

open Slices

/-- A call that brings no CR into a header value. -/
def Callback.OneLine : Callback → Prop
  | .onHeaderValue d => CR ∉ d
  | _ => True

/-- What is marked as a header value before position `i`, which is nothing outside `HEADER_VALUE`, has no CR. -/
def ValueMark (buffer : Bytes) (i : Nat) (p : Parser) : Prop :=
  ∀ m, p.headerValueMark = some m → p.state = .headerValue ∧ m ≤ i ∧ CR ∉ slice buffer m i

/-- Without a mark there is nothing to ask. -/
theorem ValueMark.none {buffer : Bytes} {i : Nat} {p : Parser} (h : p.headerValueMark = none) : ValueMark buffer i p := by
  intro m hm
  rw [h] at hm
  cases hm

/-- Outside `HEADER_VALUE` nothing is marked. -/
theorem ValueMark.unmarked {buffer : Bytes} {i : Nat} {p : Parser} (h : ValueMark buffer i p) (hs : p.state ≠ .headerValue) :
    p.headerValueMark = Option.none := by
  cases hm : p.headerValueMark with
  | none => rfl
  | some m => exact absurd (h m hm).1 hs

/-- An iteration that keeps the mark, and whose calls bring no CR into a value. -/
def Iter.OneLine (buffer : Bytes) : Iter → Prop
  | .next p cs j => ValueMark buffer (min j buffer.length) p ∧ ∀ c ∈ cs, c.OneLine
  | .error _ _ => True
  | .stop p => p.headerValueMark = none
  | .throw _ cs _ => ∀ c ∈ cs, c.OneLine

/-! ## One iteration -/

/-- A call for a range without CR brings none into a value. -/
theorem oneLine_callbackRange (cb : Bytes → Callback) {buffer : Bytes} {s e : Nat} (h : (cb (slice buffer s e)).OneLine)
    (allowEmpty : Bool) : ∀ c ∈ callbackRange cb buffer s e allowEmpty, c.OneLine := by
  intro c hc
  unfold callbackRange at hc
  split_ifs at hc
  · cases hc
  · rw [List.mem_singleton] at hc
    rwa [hc]

/-- `data_callback_clear` with a callback of another kind brings no CR into a value. -/
theorem oneLine_dataCallbackClear (cb : Bytes → Callback) (hcb : ∀ d, (cb d).OneLine) (mark : Option Nat) (buffer : Bytes)
    (i : Nat) (allowEmpty : Bool) : ∀ c ∈ dataCallbackClear cb mark buffer i allowEmpty, c.OneLine := by
  cases mark with
  | none =>
    intro c hc
    cases hc
  | some m => exact oneLine_callbackRange cb (hcb _) allowEmpty

/-- No value is marked in the opening line. -/
theorem startBoundary_oneLine {p : Parser} (hm : p.headerValueMark = none) (buffer : Bytes) (i : Nat) (c : UInt8) :
    (startBoundary p i c).OneLine buffer := by
  unfold startBoundary
  split_ifs
  · trivial
  · exact ⟨ValueMark.none hm, by simp⟩
  · trivial
  · exact ⟨ValueMark.none hm, by simp [Callback.OneLine]⟩
  · trivial
  · exact ⟨ValueMark.none hm, by simp⟩

/-- A header name marks no value. -/
theorem headerField_oneLine {p : Parser} (hm : p.headerValueMark = none) (buffer : Bytes) (i : Nat) (c : UInt8) :
    (headerField p buffer i c).OneLine buffer := by
  unfold headerField
  simp only
  split_ifs
  · exact ⟨ValueMark.none hm, by simp⟩
  · exact ⟨ValueMark.none hm, by simp⟩
  · trivial
  · exact ⟨ValueMark.none hm, oneLine_dataCallbackClear .onHeaderField (fun _ => trivial) _ _ _ _⟩
  · trivial
  · exact ⟨ValueMark.none hm, by simp⟩

/-- A byte of a value that is no CR is marked as well. -/
theorem headerValue_oneLine {p : Parser} {buffer : Bytes} {i : Nat} {c : UInt8} (h : ValueMark buffer i p)
    (hs : p.state = .headerValue) (hc : buffer[i]? = some c) : (headerValue p buffer i c).OneLine buffer := by
  unfold headerValue
  split_ifs with hcr
  · refine ⟨ValueMark.none rfl, ?_⟩
    intro x hx
    rcases List.mem_append.mp hx with hx | hx
    · cases hm : p.headerValueMark with
      | none =>
        rw [hm] at hx
        cases hx
      | some m =>
        rw [hm] at hx
        exact oneLine_callbackRange .onHeaderValue (h m hm).2.2 true x hx
    · rw [List.mem_singleton] at hx
      rw [hx]
      trivial
  · refine ⟨?_, by simp⟩
    obtain ⟨hi, -⟩ := List.getElem?_eq_some_iff.mp hc
    rw [Nat.min_eq_left hi]
    intro m hm
    obtain ⟨-, hle, hfree⟩ := h m hm
    refine ⟨hs, by omega, ?_⟩
    rw [slice_succ hle hc, List.mem_append, List.mem_singleton, not_or]
    exact ⟨hfree, Ne.symm hcr⟩

/-- A false lead is part data. -/
theorem keepOrReplay_oneLine {p : Parser} (hm : p.headerValueMark = none) {calls : List Callback} (hc : ∀ c ∈ calls, c.OneLine)
    (prevIndex : Nat) (buffer : Bytes) (i : Nat) (c : UInt8) : (keepOrReplay p calls prevIndex i c).OneLine buffer := by
  unfold keepOrReplay
  split_ifs
  · exact hc
  · exact ⟨ValueMark.none hm, hc⟩
  · refine ⟨ValueMark.none hm, ?_⟩
    intro x hx
    rcases List.mem_append.mp hx with hx | hx
    · exact hc x hx
    · exact oneLine_callbackRange .onPartData trivial false x hx
  · exact ⟨ValueMark.none hm, hc⟩

/-- A match with the delimiter is about part data. -/
theorem matchBoundary_oneLine {p : Parser} (hm : p.headerValueMark = none) (buffer : Bytes) (i : Nat) (c : UInt8) :
    (matchBoundary p buffer i c).OneLine buffer := by
  unfold matchBoundary
  split_ifs
  all_goals first
    | (refine keepOrReplay_oneLine ?_ (oneLine_dataCallbackClear .onPartData (fun _ => trivial) _ _ _ _) _ _ _ _; exact hm)
    | (refine keepOrReplay_oneLine ?_ (by simp [Callback.OneLine]) _ _ _ _; exact hm)
    | exact ⟨ValueMark.none hm, by simp [Callback.OneLine]⟩

/-- `process_part_data` makes no call about a header. -/
theorem processPartData_oneLine {p : Parser} (hm : p.headerValueMark = none) (buffer : Bytes) (i : Nat) (c : UInt8) :
    (processPartData p buffer i c).OneLine buffer := by
  unfold processPartData
  simp only
  split_ifs
  · exact ⟨ValueMark.none hm, by simp⟩
  · exact matchBoundary_oneLine hm _ _ _
  · exact matchBoundary_oneLine hm _ _ _

/-- Every iteration keeps the mark: in `HEADER_VALUE` a CR ends the value before it is looked at. -/
theorem body_oneLine {p : Parser} {buffer : Bytes} {i : Nat} (h : ValueMark buffer i p) (hi : i < buffer.length) :
    (body p buffer i).OneLine buffer := by
  have hget : buffer[i]? = some (buffer.getD i 0) := by
    rw [List.getD_eq_getElem?_getD, List.getElem?_eq_getElem hi]
    rfl
  have hnone : p.state ≠ .headerValue → p.headerValueMark = none := h.unmarked
  unfold body
  simp only
  cases hs : p.state with
  | parseError => exact hnone (by simp [hs])
  | start =>
    refine startBoundary_oneLine ?_ _ _ _
    exact hnone (by simp [hs])
  | startBoundary => exact startBoundary_oneLine (hnone (by simp [hs])) _ _ _
  | headerFieldStart =>
    refine headerField_oneLine ?_ _ _ _
    exact hnone (by simp [hs])
  | headerField => exact headerField_oneLine (hnone (by simp [hs])) _ _ _
  | headerValueStart =>
    simp only
    split_ifs
    · exact ⟨ValueMark.none (hnone (by simp [hs])), by simp⟩
    · refine headerValue_oneLine ?_ rfl hget
      intro m hm
      obtain rfl : i = m := Option.some.inj hm
      exact ⟨rfl, Nat.le_refl _, by simp⟩
  | headerValue => exact headerValue_oneLine h hs hget
  | headerValueAlmostDone =>
    simp only
    split_ifs
    · trivial
    · exact ⟨ValueMark.none (hnone (by simp [hs])), by simp⟩
  | headersAlmostDone =>
    simp only
    split_ifs
    · trivial
    · exact ⟨ValueMark.none (hnone (by simp [hs])), by simp [Callback.OneLine]⟩
  | partDataStart =>
    refine processPartData_oneLine ?_ _ _ _
    exact hnone (by simp [hs])
  | partData => exact processPartData_oneLine (hnone (by simp [hs])) _ _ _
  | partEnd => exact hnone (by simp [hs])
  | ended => exact ⟨ValueMark.none (hnone (by simp [hs])), by simp⟩

/-! ## Runs -/

/-- A parser between two buffers: it has given up, or what is marked in the next buffer is empty so far. -/
def Parser.OneLine (p : Parser) : Prop := p.state = .parseError ∨ ∀ next, ValueMark next 0 p

/-- A result whose calls bring no CR into a value, and after which the next buffer can come. -/
def FeedResult.OneLine : FeedResult → Prop
  | .returned p cs _ => p.OneLine ∧ ∀ c ∈ cs, c.OneLine
  | .threw _ cs _ => ∀ c ∈ cs, c.OneLine
  | .running _ _ => True

/-- A flush hands on what is marked, up to the end of the buffer. -/
theorem dataCallbackFlush_oneLine (cb : Bytes → Callback) {mark : Option Nat} {buffer : Bytes}
    (h : ∀ m, mark = some m → (cb (slice buffer m buffer.length)).OneLine) : ∀ c ∈ (dataCallbackFlush cb mark buffer).1, c.OneLine := by
  cases mark with
  | none =>
    intro c hc
    cases hc
  | some m => exact oneLine_callbackRange cb (h m rfl) false

/-- The calls after the loop report what is marked, and the marks move to the beginning of the next buffer. -/
theorem flush_oneLine {p : Parser} {buffer : Bytes} (h : ValueMark buffer buffer.length p) :
    (flush p buffer).1.OneLine ∧ ∀ c ∈ (flush p buffer).2, c.OneLine := by
  refine ⟨.inr ?_, ?_⟩
  · intro next m hm
    cases hv : p.headerValueMark with
    | none =>
      simp [flush, dataCallbackFlush, hv] at hm
    | some k =>
      obtain rfl : 0 = m := by simpa [flush, dataCallbackFlush, hv] using hm
      exact ⟨(h k hv).1, Nat.le_refl 0, by simp⟩
  · intro c hc
    rcases List.mem_append.mp hc with hc | hc
    · rcases List.mem_append.mp hc with hc | hc
      · exact dataCallbackFlush_oneLine .onHeaderField (fun _ _ => trivial) c hc
      · exact dataCallbackFlush_oneLine .onHeaderValue (fun m hm => (h m hm).2.2) c hc
    · exact dataCallbackFlush_oneLine .onPartData (fun _ _ => trivial) c hc

/-- The loop keeps the mark, and its calls bring no CR into a value. -/
theorem feedLoop_oneLine (p₀ : Parser) (buffer : Bytes) (fuel : Nat) : ∀ {p : Parser} {i : Nat} {calls : List Callback},
    ValueMark buffer (min i buffer.length) p → (∀ c ∈ calls, c.OneLine) → (feedLoop p₀ buffer fuel p calls i).OneLine := by
  have hend : ∀ (fuel : Nat) {p : Parser} {i : Nat} {calls : List Callback}, buffer.length ≤ i →
      ValueMark buffer (min i buffer.length) p → (∀ c ∈ calls, c.OneLine) → (feedLoop p₀ buffer fuel p calls i).OneLine := by
    intro fuel p i calls hi h hc
    rw [Nat.min_eq_right hi] at h
    obtain ⟨hp, hflush⟩ := flush_oneLine h
    rw [feedLoop_end p₀ fuel calls hi]
    exact ⟨hp, fun c hm => (List.mem_append.mp hm).elim (hc c) (hflush c)⟩
  induction fuel with
  | zero =>
    intro p i calls h hc
    rcases Nat.lt_or_ge i buffer.length with hi | hi
    · rw [feedLoop, if_neg (Nat.not_le.mpr hi)]
      trivial
    · exact hend 0 hi h hc
  | succ fuel ih =>
    intro p i calls h hc
    rcases Nat.lt_or_ge i buffer.length with hi | hi
    · rw [Nat.min_eq_left hi.le] at h
      have hbody := body_oneLine h hi
      rw [feedLoop, if_neg (Nat.not_le.mpr hi)]
      cases hb : body p buffer i with
      | next p' cs j =>
        rw [hb] at hbody
        exact ih hbody.1 fun c hm => (List.mem_append.mp hm).elim (hc c) (hbody.2 c)
      | error p' msg => exact ⟨.inl rfl, hc⟩
      | stop p' =>
        rw [hb] at hbody
        exact ⟨.inr fun next => ValueMark.none hbody, hc⟩
      | throw p' cs msg =>
        rw [hb] at hbody
        exact fun c hm => (List.mem_append.mp hm).elim (hc c) (hbody c)
    · exact hend _ hi h hc

/-- So does a call of `feed` on a parser between two buffers. -/
theorem feed_oneLine {p : Parser} (h : p.OneLine) (buffer : Bytes) : (feed p buffer).OneLine := by
  unfold feed
  split_ifs with h0
  · exact ⟨h, by simp⟩
  · rw [not_or] at h0
    rcases h with h | h
    · exact absurd h h0.1
    · exact feedLoop_oneLine p buffer _ (by rw [Nat.zero_min]; exact h buffer) (by simp)

/-! ## Readers -/

/-- Header values without a CR. -/
def Headers.OneLine (hs : Headers) : Prop := ∀ h ∈ hs, CR ∉ h.2

/-- A call of the reader's user that hands on no header value with a CR. -/
def ReaderCall.OneLine : ReaderCall → Prop
  | .onPartBegin hs => Headers.OneLine hs
  | _ => True

/-- A reader that has collected no header value with a CR. -/
structure Reader.OneLine (r : Reader) : Prop where
  parser : r.parser.OneLine
  value : CR ∉ r.currentHeaderValue
  headers : Headers.OneLine r.currentHeaders

/-- A call of the parser: the value grows by what it reports. -/
theorem Reader.onCallback_oneLine {r : Reader} (h : r.OneLine) {c : Callback} (hc : c.OneLine) :
    (r.onCallback c).1.OneLine ∧ ∀ x ∈ (r.onCallback c).2, x.OneLine := by
  cases c with
  | onHeaderValue d =>
    refine ⟨⟨h.parser, ?_, h.headers⟩, by simp [onCallback]⟩
    simp only [onCallback, List.mem_append, not_or]
    exact ⟨h.value, hc⟩
  | onHeaderEnd =>
    refine ⟨⟨h.parser, by simp [onCallback], ?_⟩, by simp [onCallback]⟩
    intro e he
    rcases (List.mem_orderedInsert _).mp he with rfl | he
    · exact h.value
    · exact h.headers e he
  | onHeadersEnd =>
    refine ⟨⟨h.parser, h.value, by simp [onCallback, Headers.OneLine]⟩, ?_⟩
    intro x hx
    obtain rfl := List.mem_singleton.mp hx
    exact h.headers
  | onPartBegin => exact ⟨h, by simp [onCallback]⟩
  | onHeaderField d => exact ⟨⟨h.parser, h.value, h.headers⟩, by simp [onCallback]⟩
  | onPartData d => exact ⟨h, by simp [onCallback, ReaderCall.OneLine]⟩
  | onPartEnd => exact ⟨h, by simp [onCallback, ReaderCall.OneLine]⟩
  | onEnd => exact ⟨h, by simp [onCallback, ReaderCall.OneLine]⟩

/-- The reader puts its headers together from calls without CR. -/
theorem Reader.onCallbacks_oneLine (cs : List Callback) : ∀ {r : Reader}, r.OneLine → (∀ c ∈ cs, c.OneLine) →
    (r.onCallbacks cs).1.OneLine ∧ ∀ x ∈ (r.onCallbacks cs).2, x.OneLine := by
  induction cs with
  | nil =>
    intro r h _
    exact ⟨h, by simp⟩
  | cons c cs ih =>
    intro r h hc
    obtain ⟨h₁, hx₁⟩ := Reader.onCallback_oneLine h (hc c (by simp))
    obtain ⟨h₂, hx₂⟩ := ih h₁ fun x hx => hc x (List.mem_cons_of_mem c hx)
    exact ⟨h₂, fun x hx => (List.mem_append.mp hx).elim (hx₁ x) (hx₂ x)⟩

/-- A reader that is fed has no CR in the headers it keeps and in those it hands on. -/
theorem Reader.feed_oneLine {r r' : Reader} {calls : List ReaderCall} {ret : Nat} (h : r.OneLine) {buffer : Bytes}
    (hf : r.feed buffer = .returned r' calls ret) : r'.OneLine ∧ ∀ x ∈ calls, x.OneLine := by
  have hfeed := Multipart.feed_oneLine h.parser buffer
  obtain ⟨p, cs, hp, rfl, rfl⟩ := Reader.of_feed_returned hf
  rw [hp] at hfeed
  obtain ⟨hr, hx⟩ := Reader.onCallbacks_oneLine cs h hfeed.2
  exact ⟨⟨hfeed.1, hr.value, hr.headers⟩, hx⟩

/-- **No header value that a reader hands on has a CR**, whatever it is fed. -/
theorem Reader.feedAll_oneLine (chunks : List Bytes) : ∀ {r r' : Reader} {calls : List ReaderCall} {ret : Nat}, r.OneLine →
    r.feedAll chunks = .returned r' calls ret → ∀ x ∈ calls, x.OneLine := by
  induction chunks with
  | nil =>
    intro r r' calls ret _ hf
    cases hf
    simp
  | cons b bs ih =>
    intro r r' calls ret h hf
    obtain ⟨r₁, out₁, n₁, out₂, n₂, h₁, h₂, rfl⟩ := Reader.of_feedAll_cons_returned hf
    obtain ⟨hr₁, hx₁⟩ := Reader.feed_oneLine h h₁
    exact fun x hx => (List.mem_append.mp hx).elim (hx₁ x) (ih hr₁ h₂ x)

/-- A reader that was just set up has no headers. -/
theorem Reader.setBoundary_oneLine (boundary : Bytes) (fill : Nat → UInt8) : (({} : Reader).setBoundary boundary fill).OneLine :=
  ⟨.inr fun _ => ValueMark.none rfl, by simp [setBoundary], by simp [setBoundary, Headers.OneLine]⟩

/-- The parts of a delivery, with the one under way, have no header value with a CR. -/
def Delivery.OneLine (d : Delivery) : Prop :=
  (∀ p ∈ d.parts, Headers.OneLine p.headers) ∧ ∀ p, d.current = some p → Headers.OneLine p.headers

/-- A part that begins has the headers of the reader. -/
theorem Delivery.step_oneLine {d d' : Delivery} {c : ReaderCall} (hc : c.OneLine) (h : d.OneLine) (hs : d.step c = some d') :
    d'.OneLine := by
  cases c with
  | onPartBegin hd =>
    simp only [step] at hs
    split_ifs at hs
    cases hs
    exact ⟨h.1, fun p hp => by cases hp; exact hc⟩
  | onPartData x =>
    obtain ⟨p, hp, rfl⟩ := Option.map_eq_some_iff.mp hs
    exact ⟨h.1, fun q hq => by cases hq; exact h.2 p hp⟩
  | onPartEnd =>
    obtain ⟨p, hp, rfl⟩ := Option.map_eq_some_iff.mp hs
    refine ⟨?_, fun q hq => by cases hq⟩
    intro q hq
    rcases List.mem_append.mp hq with hq | hq
    · exact h.1 q hq
    · rw [List.mem_singleton.mp hq]
      exact h.2 p hp
  | onEnd =>
    simp only [step] at hs
    split_ifs at hs
    cases hs
    exact h

/-- The parts of a run have no CR in their headers. -/
theorem Delivery.run_oneLine (calls : List ReaderCall) : ∀ {d d' : Delivery}, (∀ x ∈ calls, x.OneLine) → d.OneLine →
    d.run calls = some d' → d'.OneLine := by
  induction calls with
  | nil =>
    intro d d' _ h hrun
    cases hrun
    exact h
  | cons c cs ih =>
    intro d d' hc h hrun
    rw [run_cons] at hrun
    obtain ⟨d₁, hstep, hrest⟩ := Option.bind_eq_some_iff.mp hrun
    exact ih (fun x hx => hc x (List.mem_cons_of_mem c hx)) (step_oneLine (hc c (by simp)) h hstep) hrest

end Multipart
end Netcore
