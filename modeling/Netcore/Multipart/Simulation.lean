import Netcore.Multipart.Scanner

/-!
# The reader computes the scanner

`Sim` relates the reader in the middle of a buffer to the scanner: the bytes that the parser has marked and not yet reported
are bytes the scanner has already taken (`pending`), and the lookbehind buffer begins with the bytes the scanner holds. One
iteration of the byte loop is none, one or many steps of the scanner: none when a false lead is replayed, many when
`processPartData` skips. `loop_sim` follows the loop to the end of the buffer, and `feedAll_sim` a list of buffers: whatever
the scanner does on their concatenation, the reader does, wherever they were cut.
-/

namespace Netcore
namespace Multipart

open Slices Delimiter

/-- The bytes from a mark up to `i`: read, and not yet reported. -/
def pending (buffer : Bytes) (mark : Option Nat) (i : Nat) : Bytes :=
  match mark with
  | none => []
  | some m => slice buffer m i

/-- A mark is set, at or before `i`, exactly when `P` holds. -/
def MarkOk (mark : Option Nat) (P : Prop) (i : Nat) : Prop := (P → ∃ m, mark = some m ∧ m ≤ i) ∧ (¬P → mark = none)

/-- The counter `index` of the parser, by state. -/
structure IndexOk (pat : Bytes) (p : Parser) (s : Scanner) : Prop where
  counting : s.state = .startBoundary ∨ s.state = .headerField → p.index = s.index
  fresh : s.state = .headersAlmostDone ∨ s.state = .partDataStart → p.index = 0 ∧ s.held = []
  lead : s.state = .partData →
    p.index = s.held.length ∧ p.lookbehind.take p.index = s.held ∧ s.held.length ≤ pat.length + 1

/-- Outside a header line no name is kept, and in a name `index` counts its bytes. -/
structure NameOk (s : Scanner) : Prop where
  counted : s.state = .headerField → s.name.length = s.index
  blank : s.state ≠ .headerField → s.state ≠ .headerValueStart → s.state ≠ .headerValue → s.name = []

/-- The reader `r` with the parser `p` at position `i` of a buffer, having delivered `d`, is in the scanner state `s`. -/
structure Sim (pat buffer : Bytes) (i : Nat) (p : Parser) (r : Reader) (d : Delivery) (s : Scanner) : Prop where
  boundary : p.boundary = pat
  look : p.lookbehind.length = pat.length + 8
  state : p.state = s.state
  alive : s.state ≠ .parseError
  flags : p.flags = s.flags
  headers : r.currentHeaders = s.headers
  name : r.currentHeaderName ++ pending buffer p.headerFieldMark i = s.name
  value : r.currentHeaderValue ++ pending buffer p.headerValueMark i = s.value
  delivered : d.push (pending buffer p.partDataMark i) = s.delivery
  fieldMark : MarkOk p.headerFieldMark (s.state = .headerField) i
  valueMark : MarkOk p.headerValueMark (s.state = .headerValue) i
  dataMark : MarkOk p.partDataMark (s.state = .partData ∧ s.held = []) i
  index : IndexOk pat p s
  nameOk : NameOk s
  opened : d.current.isSome = decide (s.state = .partDataStart ∨ s.state = .partData)
  finished : d.finished = decide (s.state = .ended)

/-! ## Pending bytes and reports -/

/-- Without a mark nothing is pending. -/
@[simp] theorem pending_none (buffer : Bytes) (i : Nat) : pending buffer none i = [] := rfl

/-- At the mark nothing is pending yet. -/
@[simp] theorem pending_self (buffer : Bytes) (i : Nat) : pending buffer (some i) i = [] := by
  simp [pending]

/-- A byte after the mark is pending. -/
theorem pending_succ {buffer : Bytes} {m i : Nat} (hm : m ≤ i) (hi : i < buffer.length) :
    pending buffer (some m) (i + 1) = pending buffer (some m) i ++ [buffer.getD i 0] := by
  have hc : buffer[i]? = some (buffer.getD i 0) := by
    rw [List.getD_eq_getElem?_getD, List.getElem?_eq_getElem hi]
    rfl
  exact slice_succ hm hc

/-- What follows `i` begins with the byte at `i`. -/
theorem drop_eq_cons {buffer : Bytes} {i : Nat} (hi : i < buffer.length) :
    buffer.drop i = buffer.getD i 0 :: buffer.drop (i + 1) := by
  rw [List.drop_eq_getElem_cons hi, List.getD_eq_getElem?_getD, List.getElem?_eq_getElem hi]
  rfl

/-- A piece of a header name goes to the name that the reader keeps. -/
theorem onCallbacks_field (r : Reader) (buffer : Bytes) (s e : Nat) (b : Bool) :
    r.onCallbacks (callbackRange .onHeaderField buffer s e b) =
      ({ r with currentHeaderName := r.currentHeaderName ++ slice buffer s e }, []) := by
  unfold callbackRange
  split
  · rename_i h
    simp [h.1]
  · rfl

/-- A piece of a header value goes to the value that the reader keeps. -/
theorem onCallbacks_value (r : Reader) (buffer : Bytes) (s e : Nat) (b : Bool) :
    r.onCallbacks (callbackRange .onHeaderValue buffer s e b) =
      ({ r with currentHeaderValue := r.currentHeaderValue ++ slice buffer s e }, []) := by
  unfold callbackRange
  split
  · rename_i h
    simp [h.1]
  · rfl

/-- A report of part data delivers the bytes reported, and leaves the reader alone. -/
theorem onCallbacks_data (r : Reader) (buffer : Bytes) (s e : Nat) (b : Bool) {d : Delivery} (hd : d.current.isSome) :
    (r.onCallbacks (callbackRange .onPartData buffer s e b)).1 = r ∧
      d.run (r.onCallbacks (callbackRange .onPartData buffer s e b)).2 = some (d.push (slice buffer s e)) := by
  unfold callbackRange
  split
  · rename_i h
    simp [h.1]
  · exact ⟨rfl, Delivery.run_data hd _⟩

/-! ## One iteration -/

/-- What one iteration of the loop at `i` owes the scanner, which ends this buffer in `sf`: an error only when the scanner
rejects the input with the same delivery, and otherwise a new position, from which the scanner still ends in `sf`. -/
def IterOk (pat buffer : Bytes) (r : Reader) (d : Delivery) (sf : Scanner) : Iter → Prop
  | .next p' cs j => ∃ d' s', d.run (r.onCallbacks cs).2 = some d' ∧
      Sim pat buffer (min j buffer.length) p' (r.onCallbacks cs).1 d' s' ∧ s'.run pat (buffer.drop j) = some sf
  | .error _ _ => sf.state = .parseError ∧ sf.delivery = d
  | .stop _ => False
  | .throw _ _ _ => False

/-- Out of part data, the scanner and the reader have delivered the same. -/
theorem Sim.push_eq {pat buffer : Bytes} {i : Nat} {p : Parser} {r : Reader} {d : Delivery} {s : Scanner}
    (h : Sim pat buffer i p r d s) (hs : ¬(s.state = .partData ∧ s.held = [])) : s.delivery = d := by
  rw [← h.delivered, h.dataMark.2 hs, pending_none, Delivery.push_nil]

/-- A mark that is not wanted, before and after, is not there. -/
theorem MarkOk.absent {P Q : Prop} {mark : Option Nat} {i j : Nat} (h : MarkOk mark P i) (hP : ¬P) (hQ : ¬Q) :
    MarkOk mark Q j := ⟨fun q => absurd q hQ, fun _ => h.2 hP⟩

/-- No mark is right where none is wanted. -/
theorem MarkOk.none {P : Prop} {i : Nat} (hP : ¬P) : MarkOk none P i := ⟨fun q => absurd q hP, fun _ => rfl⟩

/-- A mark is right where one is wanted, and not behind the position. -/
theorem MarkOk.some {P : Prop} {m i : Nat} (hP : P) (hm : m ≤ i) : MarkOk (some m) P i :=
  ⟨fun _ => ⟨m, rfl, hm⟩, fun q => absurd hP q⟩

section Iteration

variable {pat buffer : Bytes} {i : Nat} {p : Parser} {r : Reader} {d : Delivery} {s sf : Scanner}

/-- A step of the scanner on the byte at `i`, matched by an iteration that moves to the next byte. -/
theorem iterOk_next {p' : Parser} {cs : List Callback} {d' : Delivery} {s' : Scanner} (hi : i < buffer.length)
    (hrun : s.run pat (buffer.drop i) = some sf) (hstep : s.step pat (buffer.getD i 0) = some s')
    (hd : d.run (r.onCallbacks cs).2 = some d') (h : Sim pat buffer (i + 1) p' (r.onCallbacks cs).1 d' s') :
    IterOk pat buffer r d sf (.next p' cs (i + 1)) := by
  refine ⟨d', s', hd, ?_, ?_⟩
  · rw [Nat.min_eq_left hi]
    exact h
  · rw [drop_eq_cons hi, Scanner.run_cons_of_step hstep] at hrun
    exact hrun

/-- A step of the scanner that rejects the input, matched by an error. -/
theorem iterOk_error {p' : Parser} {msg : String} {s' : Scanner} (hi : i < buffer.length)
    (hrun : s.run pat (buffer.drop i) = some sf) (hstep : s.step pat (buffer.getD i 0) = some s'.fail)
    (hd : s'.delivery = d) : IterOk pat buffer r d sf (.error p' msg) := by
  rw [drop_eq_cons hi, Scanner.run_cons_of_step hstep, Scanner.run_parseError rfl, Option.some.injEq] at hrun
  subst hrun
  exact ⟨rfl, hd⟩

/-- A state in which no bytes are marked. -/
def Unmarked (st : State) : Prop := st ≠ .headerField ∧ st ≠ .headerValue ∧ st ≠ .partData

/-- In an unmarked state everything read has been reported. -/
theorem Sim.unmarked (h : Sim pat buffer i p r d s) (hs : Unmarked s.state) :
    p.headerFieldMark = none ∧ p.headerValueMark = none ∧ p.partDataMark = none ∧
      r.currentHeaderName = s.name ∧ r.currentHeaderValue = s.value ∧ d = s.delivery := by
  obtain ⟨h1, h2, h3⟩ := hs
  have hf := h.fieldMark.2 h1
  have hv := h.valueMark.2 h2
  have hp := h.dataMark.2 (fun hc => h3 hc.1)
  have hn := h.name
  have hv' := h.value
  have hd := h.delivered
  rw [hf, pending_none, List.append_nil] at hn
  rw [hv, pending_none, List.append_nil] at hv'
  rw [hp, pending_none, Delivery.push_nil] at hd
  exact ⟨hf, hv, hp, hn, hv', hd⟩

/-- From one unmarked state to another, with nothing delivered. -/
theorem Sim.of_unmarked {p' : Parser} {r' : Reader} {d' : Delivery} {s' : Scanner} (j : Nat) (h : Sim pat buffer i p r d s)
    (hu : p'.headerFieldMark = none ∧ p'.headerValueMark = none ∧ p'.partDataMark = none ∧
      r'.currentHeaderName = s'.name ∧ r'.currentHeaderValue = s'.value ∧ d' = s'.delivery)
    (hs : Unmarked s'.state) (hb : p'.boundary = p.boundary) (hl : p'.lookbehind.length = p.lookbehind.length)
    (hstate : p'.state = s'.state) (halive : s'.state ≠ .parseError) (hfl : p'.flags = s'.flags)
    (hh : r'.currentHeaders = s'.headers) (hidx : IndexOk pat p' s') (hno : NameOk s')
    (ho : d'.current.isSome = decide (s'.state = .partDataStart ∨ s'.state = .partData))
    (hfin : d'.finished = decide (s'.state = .ended)) : Sim pat buffer j p' r' d' s' := by
  obtain ⟨h1, h2, h3⟩ := hs
  obtain ⟨hf, hv, hp, hn, hv', hd⟩ := hu
  exact
    { boundary := hb.trans h.boundary
      look := by rw [hl]; exact h.look
      state := hstate
      alive := halive
      flags := hfl
      headers := hh
      name := by rw [hf, pending_none, List.append_nil, hn]
      value := by rw [hv, pending_none, List.append_nil, hv']
      delivered := by rw [hp, pending_none, Delivery.push_nil, hd]
      fieldMark := by rw [hf]; exact MarkOk.none h1
      valueMark := by rw [hv]; exact MarkOk.none h2
      dataMark := by rw [hp]; exact MarkOk.none (fun hc => h3 hc.1)
      index := hidx
      nameOk := hno
      opened := ho
      finished := hfin }

/-- A byte of the first delimiter line. -/
theorem startBoundary_sim (h : Sim pat buffer i p r d s) (hs : s.state = .startBoundary)
    (hi : i < buffer.length) (hrun : s.run pat (buffer.drop i) = some sf) :
    IterOk pat buffer r d sf (startBoundary p i (buffer.getD i 0)) := by
  have hst : s.step pat (buffer.getD i 0) = some (Scanner.startBoundary pat s (buffer.getD i 0)) := by
    simp [Scanner.step, hs]
  have hu := h.unmarked (by simp [Unmarked, hs])
  have hd : s.delivery = d := hu.2.2.2.2.2.symm
  have hidx : p.index = s.index := h.index.counting (Or.inl hs)
  have hname : s.name = [] := h.nameOk.blank (by simp [hs]) (by simp [hs]) (by simp [hs])
  -- the comparison goes on, and the delimiter line is complete
  have hmore : Sim pat buffer (i + 1) { p with index := p.index + 1 } r d { s with index := s.index + 1 } :=
    h.of_unmarked (i + 1) hu (by simp [Unmarked, hs]) rfl rfl h.state h.alive h.flags h.headers
      ⟨fun _ => by simp [hidx], by simp [hs], by simp [hs]⟩ ⟨by simp [hs], fun _ _ _ => hname⟩ h.opened h.finished
  have hline : Sim pat buffer (i + 1) { p with index := 0, state := .headerFieldStart } r d
      { s with index := 0, state := .headerFieldStart } :=
    h.of_unmarked (i + 1) hu (by simp [Unmarked]) rfl rfl rfl (by simp) h.flags h.headers ⟨by simp, by simp, by simp⟩
      ⟨by simp, fun _ _ _ => hname⟩ (by simpa [hs] using h.opened) (by simpa [hs] using h.finished)
  obtain rfl := h.boundary
  unfold Scanner.startBoundary at hst
  unfold startBoundary
  simp only [Parser.boundarySize, hidx] at hst ⊢
  simp only [hidx] at hmore
  split_ifs at hst ⊢
  · exact iterOk_error hi hrun hst hd
  · exact iterOk_next hi hrun hst rfl hmore
  · exact iterOk_error hi hrun hst hd
  · exact iterOk_next hi hrun hst rfl hline
  · exact iterOk_error hi hrun hst hd
  · exact iterOk_next hi hrun hst rfl hmore

/-- A byte of a header name, the colon after it, or the CR of the blank line. -/
theorem headerField_sim (h : Sim pat buffer i p r d s) (hs : s.state = .headerField)
    (hi : i < buffer.length) (hrun : s.run pat (buffer.drop i) = some sf) :
    IterOk pat buffer r d sf (headerField p buffer i (buffer.getD i 0)) := by
  have hst : s.step pat (buffer.getD i 0) = Scanner.headerField s (buffer.getD i 0) := by
    simp [Scanner.step, hs]
  have hidx : p.index = s.index := h.index.counting (Or.inr hs)
  have hd : s.delivery = d := h.push_eq (by simp [hs])
  obtain ⟨m, hm, hmi⟩ := h.fieldMark.1 hs
  have hv := h.valueMark.2 (by simp [hs])
  have hp := h.dataMark.2 (by simp [hs])
  have hname := h.name
  have hvalue := h.value
  rw [hm] at hname
  rw [hv, pending_none, List.append_nil] at hvalue
  -- one more byte of the name
  have hmore : Sim pat buffer (i + 1) { p with index := p.index + 1 } r d
      { s with index := s.index + 1, name := s.name ++ [buffer.getD i 0] } :=
    { h with
      name := by rw [hm, pending_succ hmi hi, ← List.append_assoc, hname]
      value := by rw [hv, pending_none, List.append_nil, hvalue]
      delivered := by rw [hp, pending_none, Delivery.push_nil, hd]
      fieldMark := by rw [hm]; exact MarkOk.some hs (Nat.le_succ_of_le hmi)
      valueMark := h.valueMark.absent (by simp [hs]) (by simp [hs])
      dataMark := h.dataMark.absent (by simp [hs]) (by simp [hs])
      index := ⟨fun _ => by simp [hidx], by simp [hs], by simp [hs]⟩
      nameOk := ⟨fun _ => by simp [h.nameOk.counted hs], by simp [hs]⟩ }
  have hcr : s.index = 0 → Sim pat buffer (i + 1) { p with headerFieldMark := none, state := .headersAlmostDone } r d
      { s with state := .headersAlmostDone, held := [] } := by
    intro h0
    have hn : s.name = [] := List.eq_nil_of_length_eq_zero ((h.nameOk.counted hs).trans h0)
    have hr : r.currentHeaderName = [] := by
      rw [hn, List.append_eq_nil_iff] at hname
      exact hname.1
    exact h.of_unmarked (i + 1) ⟨rfl, hv, hp, by rw [hr, hn], hvalue, hd.symm⟩ (by simp [Unmarked]) rfl rfl rfl (by simp)
      h.flags h.headers ⟨by simp, fun _ => ⟨by rw [hidx, h0], rfl⟩, by simp⟩ ⟨by simp, fun _ _ _ => hn⟩
      (by simpa [hs] using h.opened) (by simpa [hs] using h.finished)
  have hcolon : Sim pat buffer (i + 1)
      { p with index := p.index + 1, headerFieldMark := none, state := .headerValueStart }
      { r with currentHeaderName := r.currentHeaderName ++ slice buffer m i } d
      { s with state := .headerValueStart, index := s.index + 1 } :=
    h.of_unmarked (i + 1) ⟨rfl, hv, hp, hname, hvalue, hd.symm⟩ (by simp [Unmarked]) rfl rfl rfl (by simp)
      h.flags h.headers ⟨by simp, by simp, by simp⟩ ⟨by simp, by simp⟩
      (by simpa [hs] using h.opened) (by simpa [hs] using h.finished)
  have hcb : r.onCallbacks (dataCallbackClear .onHeaderField p.headerFieldMark buffer i false) =
      ({ r with currentHeaderName := r.currentHeaderName ++ slice buffer m i }, []) := by
    rw [hm]
    exact onCallbacks_field r buffer m i false
  unfold Scanner.headerField at hst
  unfold headerField
  simp only [hidx, Nat.reduceEqDiff] at hst ⊢
  simp only [hidx] at hmore hcolon hcr
  split_ifs at hst ⊢ with h1 h2 h3 h4
  · exact iterOk_next hi hrun hst rfl (hcr h2)
  · rw [drop_eq_cons hi, Scanner.run_cons, hst] at hrun
    cases hrun
  · exact iterOk_next hi hrun hst rfl hmore
  · exact iterOk_error hi hrun hst hd
  · exact iterOk_next hi hrun hst (by rw [hcb]; rfl) (by rw [hcb]; exact hcolon)
  · exact iterOk_error hi hrun hst hd
  · exact iterOk_next hi hrun hst rfl hmore

/-- A byte of a header value, or the CR after it, on which the reader files the header. -/
theorem headerValue_sim (h : Sim pat buffer i p r d s) (hs : s.state = .headerValue)
    (hi : i < buffer.length) (hrun : s.run pat (buffer.drop i) = some sf) :
    IterOk pat buffer r d sf (headerValue p buffer i (buffer.getD i 0)) := by
  have hst : s.step pat (buffer.getD i 0) = some (Scanner.headerValue s (buffer.getD i 0)) := by
    simp [Scanner.step, hs]
  have hd : s.delivery = d := h.push_eq (by simp [hs])
  obtain ⟨m, hm, hmi⟩ := h.valueMark.1 hs
  have hf := h.fieldMark.2 (by simp [hs])
  have hp := h.dataMark.2 (by simp [hs])
  have hname := h.name
  have hvalue := h.value
  rw [hm] at hvalue
  rw [hf, pending_none, List.append_nil] at hname
  have hmore : Sim pat buffer (i + 1) p r d { s with value := s.value ++ [buffer.getD i 0] } :=
    { h with
      name := by rw [hf, pending_none, List.append_nil, hname]
      value := by rw [hm, pending_succ hmi hi, ← List.append_assoc, hvalue]
      delivered := by rw [hp, pending_none, Delivery.push_nil, hd]
      fieldMark := h.fieldMark.absent (by simp [hs]) (by simp [hs])
      valueMark := by rw [hm]; exact MarkOk.some hs (Nat.le_succ_of_le hmi)
      dataMark := h.dataMark.absent (by simp [hs]) (by simp [hs])
      index := ⟨by simp [hs], by simp [hs], by simp [hs]⟩
      nameOk := ⟨by simp [hs], by simp [hs]⟩ }
  have hcr : Sim pat buffer (i + 1) { p with headerValueMark := none, state := .headerValueAlmostDone }
      { r with
        currentHeaders := OrderedMap.emplaceMulti r.currentHeaders r.currentHeaderName
          (r.currentHeaderValue ++ slice buffer m i)
        currentHeaderName := []
        currentHeaderValue := [] } d
      { s with
        state := .headerValueAlmostDone
        headers := OrderedMap.emplaceMulti s.headers s.name s.value
        name := []
        value := [] } :=
    h.of_unmarked (i + 1) ⟨hf, rfl, hp, rfl, rfl, hd.symm⟩ (by simp [Unmarked]) rfl rfl rfl (by simp) h.flags
      (by rw [h.headers, hname, ← hvalue, pending]) ⟨by simp, by simp, by simp⟩ ⟨by simp, by simp⟩
      (by simpa [hs] using h.opened) (by simpa [hs] using h.finished)
  have hcb : r.onCallbacks (dataCallbackClear .onHeaderValue p.headerValueMark buffer i true ++ [.onHeaderEnd]) =
      ({ r with
        currentHeaders := OrderedMap.emplaceMulti r.currentHeaders r.currentHeaderName
          (r.currentHeaderValue ++ slice buffer m i)
        currentHeaderName := []
        currentHeaderValue := [] }, []) := by
    rw [hm, Reader.onCallbacks_append, dataCallbackClear, onCallbacks_value]
    rfl
  unfold Scanner.headerValue at hst
  unfold headerValue
  split_ifs at hst ⊢ with h1
  · exact iterOk_next hi hrun hst (by rw [hcb]; rfl) (by rw [hcb]; exact hcr)
  · exact iterOk_next hi hrun hst rfl hmore

/-- The LF after the CR of a header line. -/
theorem headerValueAlmostDone_sim (h : Sim pat buffer i p r d s) (hs : s.state = .headerValueAlmostDone)
    (hi : i < buffer.length) (hrun : s.run pat (buffer.drop i) = some sf) :
    IterOk pat buffer r d sf (body p buffer i) := by
  have hst : s.step pat (buffer.getD i 0) =
      if buffer.getD i 0 ≠ LF then some s.fail else some { s with state := .headerFieldStart } := by
    simp [Scanner.step, hs]
  have hu := h.unmarked (by simp [Unmarked, hs])
  have hname : s.name = [] := h.nameOk.blank (by simp [hs]) (by simp [hs]) (by simp [hs])
  have hnext : Sim pat buffer (i + 1) { p with state := .headerFieldStart } r d { s with state := .headerFieldStart } :=
    h.of_unmarked (i + 1) hu (by simp [Unmarked]) rfl rfl rfl (by simp) h.flags h.headers ⟨by simp, by simp, by simp⟩
      ⟨by simp, fun _ _ _ => hname⟩ (by simpa [hs] using h.opened) (by simpa [hs] using h.finished)
  simp only [body, h.state, hs]
  split_ifs at hst ⊢ with h1
  · exact iterOk_error hi hrun hst hu.2.2.2.2.2.symm
  · exact iterOk_next hi hrun hst rfl hnext

/-- The LF of the blank line, on which the reader announces the part. -/
theorem headersAlmostDone_sim (h : Sim pat buffer i p r d s) (hs : s.state = .headersAlmostDone)
    (hi : i < buffer.length) (hrun : s.run pat (buffer.drop i) = some sf) :
    IterOk pat buffer r d sf (body p buffer i) := by
  have hst : s.step pat (buffer.getD i 0) = if buffer.getD i 0 ≠ LF then some s.fail else
      some { s with state := .partDataStart, headers := [], delivery := s.delivery.openPart s.headers } := by
    simp [Scanner.step, hs]
  obtain ⟨hf, hv, hp, hn, hv', hd⟩ := h.unmarked (by simp [Unmarked, hs])
  have hname : s.name = [] := h.nameOk.blank (by simp [hs]) (by simp [hs]) (by simp [hs])
  have hrd : d.run (r.onCallbacks [.onHeadersEnd]).2 = some (d.openPart r.currentHeaders) :=
    Delivery.run_begin (by simpa [hs] using h.opened) (by simpa [hs] using h.finished) _
  have hnext : Sim pat buffer (i + 1) { p with state := .partDataStart } { r with currentHeaders := [] }
      (d.openPart r.currentHeaders)
      { s with state := .partDataStart, headers := [], delivery := s.delivery.openPart s.headers } :=
    h.of_unmarked (i + 1) ⟨hf, hv, hp, hn, hv', by rw [hd, h.headers]⟩ (by simp [Unmarked]) rfl rfl rfl (by simp) h.flags
      rfl ⟨by simp, fun _ => h.index.fresh (Or.inl hs), by simp⟩ ⟨by simp, fun _ _ _ => hname⟩
      (by simp [Delivery.openPart]) (by simpa [hs, Delivery.openPart] using h.finished)
  simp only [body, h.state, hs]
  split_ifs at hst ⊢ with h1
  · exact iterOk_error hi hrun hst hd.symm
  · exact iterOk_next hi hrun hst hrd hnext

/-! ### Part data -/

/-- The byte at `i` is kept as part of a possible delimiter; data before it has been reported. -/
theorem Sim.keep (h : Sim pat buffer i p r d s) (hs : s.state = .partData) (hl : s.held.length ≤ pat.length) (c : UInt8)
    (fl : Flags) :
    Sim pat buffer (i + 1)
      { p with index := p.index + 1, flags := fl, partDataMark := none, lookbehind := p.lookbehind.set p.index c } r
      (d.push (pending buffer p.partDataMark i)) { s with flags := fl, held := s.held ++ [c] } := by
  obtain ⟨hx, htake, -⟩ := h.index.lead hs
  have hf := h.fieldMark.2 (by simp [hs])
  have hv := h.valueMark.2 (by simp [hs])
  have hname := h.name
  have hvalue := h.value
  rw [hf, pending_none, List.append_nil] at hname
  rw [hv, pending_none, List.append_nil] at hvalue
  have hlen : p.index < p.lookbehind.length := by
    have := h.look
    omega
  have htake' : (p.lookbehind.set p.index c).take (p.index + 1) = s.held ++ [c] := by
    rw [List.take_add_one, List.take_set_of_le (Nat.le_refl _), htake, List.getElem?_set_self hlen]
    rfl
  exact
    { h with
      look := by rw [List.length_set]; exact h.look
      flags := rfl
      name := by rw [hf, pending_none, List.append_nil, hname]
      value := by rw [hv, pending_none, List.append_nil, hvalue]
      delivered := by rw [pending_none, Delivery.push_nil, h.delivered]
      fieldMark := h.fieldMark.absent (by simp [hs]) (by simp [hs])
      valueMark := h.valueMark.absent (by simp [hs]) (by simp [hs])
      dataMark := MarkOk.none (by simp)
      index := ⟨by simp [hs], by simp [hs], fun _ => ⟨by simp [hx], htake', by simp; omega⟩⟩
      nameOk := ⟨by simp [hs], fun _ _ _ => h.nameOk.blank (by simp [hs]) (by simp [hs]) (by simp [hs])⟩
      opened := by rw [Delivery.push_current_isSome]; exact h.opened
      finished := h.finished }

/-- An iteration that keeps its byte, and reports the data marked before it. -/
theorem keep_sim {calls : List Callback} {p' : Parser} (prev : Nat) (fl : Flags) (h : Sim pat buffer i p r d s)
    (hs : s.state = .partData) (hl : s.held.length ≤ pat.length) (hi : i < buffer.length)
    (hrun : s.run pat (buffer.drop i) = some sf)
    (hst : s.step pat (buffer.getD i 0) = some { s with flags := fl, held := s.held ++ [buffer.getD i 0] })
    (hp' : p' = { p with index := p.index + 1, flags := fl, partDataMark := none })
    (hcalls : calls = dataCallbackClear .onPartData p.partDataMark buffer i false) :
    IterOk pat buffer r d sf (keepOrReplay p' calls prev i (buffer.getD i 0)) := by
  obtain ⟨hx, -, -⟩ := h.index.lead hs
  have hlook := h.look
  have hk : keepOrReplay p' calls prev i (buffer.getD i 0) =
      .next { p' with lookbehind := p'.lookbehind.set p.index (buffer.getD i 0) } calls (i + 1) := by
    subst hp'
    rw [keepOrReplay, if_pos (Nat.succ_pos _), if_neg (by rw [Parser.lookbehindSize]; simp only [Nat.add_sub_cancel]; omega)]
    rfl
  have hopen : d.current.isSome := by simpa [hs] using h.opened
  have hcb : (r.onCallbacks calls).1 = r ∧
      d.run (r.onCallbacks calls).2 = some (d.push (pending buffer p.partDataMark i)) := by
    subst hcalls
    cases hm : p.partDataMark with
    | none => simp [dataCallbackClear]
    | some m => exact onCallbacks_data r buffer m i false hopen
  rw [hk]
  refine iterOk_next hi hrun hst hcb.2 ?_
  rw [hcb.1, hp']
  exact h.keep hs hl _ fl

/-- A false lead: the bytes kept are reported and the current byte is looked at again, as the scanner does. -/
theorem replay_sim (h : Sim pat buffer i p r d s) (hs : s.state = .partData) (hne : s.held ≠ []) (hi : i < buffer.length)
    (hrun : s.run pat (buffer.drop i) = some sf)
    (hst : s.step pat (buffer.getD i 0) =
      { s with delivery := s.delivery.push s.held, held := [] }.step pat (buffer.getD i 0)) :
    IterOk pat buffer r d sf (keepOrReplay { p with index := 0 } [] p.index i (buffer.getD i 0)) := by
  obtain ⟨hx, htake, -⟩ := h.index.lead hs
  have hpos : 0 < p.index := hx ▸ List.length_pos_iff.mpr hne
  have hk : keepOrReplay { p with index := 0 } [] p.index i (buffer.getD i 0) =
      .next { p with index := 0, partDataMark := some i } (callbackRange .onPartData p.lookbehind 0 p.index false) i := by
    rw [keepOrReplay, if_neg (Nat.lt_irrefl 0), if_pos hpos]
    rfl
  have hopen : d.current.isSome := by simpa [hs] using h.opened
  have hd : s.delivery = d := h.push_eq (fun hc => hne hc.2)
  obtain ⟨hcb1, hcb2⟩ := onCallbacks_data r p.lookbehind 0 p.index false hopen
  rw [slice_zero, htake] at hcb2
  rw [hk]
  refine ⟨d.push s.held, { s with delivery := s.delivery.push s.held, held := [] }, hcb2, ?_, ?_⟩
  · rw [Nat.min_eq_left (Nat.le_of_lt hi), hcb1]
    exact
      { h with
        delivered := by rw [pending_self, Delivery.push_nil, hd]
        dataMark := MarkOk.some ⟨hs, rfl⟩ (Nat.le_refl i)
        index := ⟨by simp [hs], by simp [hs], fun _ => ⟨rfl, rfl, by simp⟩⟩
        nameOk := ⟨by simp [hs], fun _ _ _ => h.nameOk.blank (by simp [hs]) (by simp [hs]) (by simp [hs])⟩
        opened := by rw [Delivery.push_current_isSome]; exact h.opened
        finished := h.finished }
  · rw [drop_eq_cons hi, Scanner.run_cons] at hrun ⊢
    rw [← hst]
    exact hrun

/-- Giving up a lead is starting over with nothing held. -/
theorem step_restart (hpat : pat ≠ []) (hs : s.state = .partData) (c : UInt8) :
    { s with delivery := s.delivery.push s.held, held := [] }.step pat c = some (s.restart pat c) := by
  have h0 : pat[0]? = pat.head? := List.head?_eq_getElem?.symm
  simp only [Scanner.step, hs, Scanner.partData, List.length_nil, List.length_pos_iff.mpr hpat, if_true, scanStep, h0,
    Scanner.restart, Delivery.push_push]
  by_cases hc : pat.head? = some c
  · simp [hc]
  · simp [hc]

/-- The byte does not continue the match of the delimiter. -/
theorem step_mismatch (hs : s.state = .partData) (hl : s.held.length < pat.length) {c : UInt8}
    (hc : pat[s.held.length]? ≠ some c) : s.step pat c = some (s.restart pat c) := by
  simp only [Scanner.step, hs, Scanner.partData, hl, if_true, scanStep, hc, if_false, Scanner.restart]
  split
  · rfl
  · rfl

/-- The byte continues the match of the delimiter. -/
theorem step_match (hs : s.state = .partData) (hl : s.held.length < pat.length) {c : UInt8}
    (hc : pat[s.held.length]? = some c) : s.step pat c = some { s with held := s.held ++ [c] } := by
  have hsc : scanStep pat s.held c = ([], s.held ++ [c]) := by
    unfold scanStep
    rw [if_pos hc]
  simp [Scanner.step, hs, Scanner.partData, hl, hsc]

/-- A byte of part data compared with the delimiter, while not all of the delimiter is held. -/
theorem matchDelimiter_sim (hpat : pat ≠ []) (h : Sim pat buffer i p r d s) (hs : s.state = .partData)
    (hl : s.held.length < pat.length) (hi : i < buffer.length) (hrun : s.run pat (buffer.drop i) = some sf) :
    IterOk pat buffer r d sf (matchBoundary p buffer i (buffer.getD i 0)) := by
  obtain ⟨hx, -, -⟩ := h.index.lead hs
  have hsize : p.index < p.boundarySize := by rw [Parser.boundarySize, h.boundary, hx]; exact hl
  have hget : p.boundary.getD p.index 0 = buffer.getD i 0 ↔ pat[s.held.length]? = some (buffer.getD i 0) := by
    rw [h.boundary, hx, List.getD_eq_getElem?_getD, List.getElem?_eq_getElem hl]
    simp
  rw [matchBoundary, if_pos hsize]
  by_cases hc : pat[s.held.length]? = some (buffer.getD i 0)
  · rw [if_pos (hget.mpr hc)]
    have hst := step_match hs hl hc
    split
    · exact keep_sim p.index s.flags h hs (Nat.le_of_lt hl) hi hrun hst (by rw [h.flags]) rfl
    · rename_i h0
      have hm : p.partDataMark = none := h.dataMark.2 (fun hn => h0 (by rw [hx, hn.2]; rfl))
      exact keep_sim p.index s.flags h hs (Nat.le_of_lt hl) hi hrun hst (by rw [← hm, h.flags])
        (by rw [hm]; rfl)
  · rw [if_neg (fun hg => hc (hget.mp hg))]
    have hst := step_mismatch hs hl hc
    by_cases hne : s.held = []
    · have h0 : p.index = 0 := by rw [hx, hne]; rfl
      obtain ⟨m, hm, hmi⟩ := h.dataMark.1 ⟨hs, hne⟩
      have hhead : pat.head? ≠ some (buffer.getD i 0) := by
        rw [List.head?_eq_getElem?]
        rw [hne] at hc
        exact hc
      rw [Scanner.restart, if_neg hhead] at hst
      have hk : keepOrReplay { p with index := 0 } [] p.index i (buffer.getD i 0) = .next { p with index := 0 } [] (i + 1) := by
        rw [keepOrReplay, h0]
        rfl
      have hf := h.fieldMark.2 (by simp [hs])
      have hv := h.valueMark.2 (by simp [hs])
      have hname := h.name
      have hvalue := h.value
      rw [hk]
      rw [hf, pending_none, List.append_nil] at hname
      rw [hv, pending_none, List.append_nil] at hvalue
      refine iterOk_next hi hrun hst rfl ?_
      exact
        { h with
          name := by rw [hf, pending_none, List.append_nil]; exact hname
          value := by rw [hv, pending_none, List.append_nil]; exact hvalue
          delivered := by
            have hdel := h.delivered
            rw [hm] at hdel ⊢
            rw [pending_succ hmi hi, ← Delivery.push_push, hdel, hne, List.nil_append]
          fieldMark := h.fieldMark.absent (by simp [hs]) (by simp [hs])
          valueMark := h.valueMark.absent (by simp [hs]) (by simp [hs])
          dataMark := by rw [hm]; exact MarkOk.some ⟨hs, rfl⟩ (Nat.le_succ_of_le hmi)
          index := ⟨by simp [hs], by simp [hs], fun _ => ⟨rfl, rfl, by simp⟩⟩
          nameOk := ⟨by simp [hs], fun _ _ _ => h.nameOk.blank (by simp [hs]) (by simp [hs]) (by simp [hs])⟩ }
    · exact replay_sim h hs hne hi hrun (hst.trans (step_restart hpat hs _).symm)

/-- The byte after a whole delimiter: CR or hyphen, else the lead was false. -/
theorem matchTail_sim (hpat : pat ≠ []) (h : Sim pat buffer i p r d s) (hs : s.state = .partData)
    (hl : s.held.length = pat.length) (hi : i < buffer.length) (hrun : s.run pat (buffer.drop i) = some sf) :
    IterOk pat buffer r d sf (matchBoundary p buffer i (buffer.getD i 0)) := by
  obtain ⟨hx, -, -⟩ := h.index.lead hs
  have hsize : p.index = p.boundarySize := by rw [Parser.boundarySize, h.boundary, hx]; exact hl
  have hne : s.held ≠ [] := by
    intro hn
    rw [hn] at hl
    exact hpat (List.eq_nil_of_length_eq_zero hl.symm)
  have hm : p.partDataMark = none := h.dataMark.2 (fun hn => hne hn.2)
  have hst : s.step pat (buffer.getD i 0) = Scanner.partData pat s (buffer.getD i 0) := by simp [Scanner.step, hs]
  rw [Scanner.partData, if_neg (by omega), if_pos hl] at hst
  rw [matchBoundary, if_neg (by omega), if_pos hsize]
  split_ifs at hst ⊢ with h1 h2
  · exact keep_sim p.index _ h hs (Nat.le_of_eq hl) hi hrun hst (by rw [← hm, h.flags]) (by rw [hm]; rfl)
  · exact keep_sim p.index _ h hs (Nat.le_of_eq hl) hi hrun hst (by rw [← hm, h.flags]) (by rw [hm]; rfl)
  · exact replay_sim h hs hne hi hrun (hst.trans (step_restart hpat hs _).symm)

/-- The last byte of a delimiter line: the part ends, and with two hyphens the form. -/
theorem matchLast_sim (hpat : pat ≠ []) (h : Sim pat buffer i p r d s) (hs : s.state = .partData)
    (hl : s.held.length = pat.length + 1) (hi : i < buffer.length) (hrun : s.run pat (buffer.drop i) = some sf) :
    IterOk pat buffer r d sf (matchBoundary p buffer i (buffer.getD i 0)) := by
  obtain ⟨hx, -, -⟩ := h.index.lead hs
  have hsize : p.index = p.boundarySize + 1 := by rw [Parser.boundarySize, h.boundary, hx]; exact hl
  have hne : s.held ≠ [] := List.ne_nil_of_length_pos (by omega)
  have hm : p.partDataMark = none := h.dataMark.2 (fun hn => hne hn.2)
  have hf := h.fieldMark.2 (by simp [hs])
  have hv := h.valueMark.2 (by simp [hs])
  have hname := h.name
  have hvalue := h.value
  rw [hf, pending_none, List.append_nil] at hname
  rw [hv, pending_none, List.append_nil] at hvalue
  have hd : s.delivery = d := h.push_eq (fun hc => hne hc.2)
  have hblank : s.name = [] := h.nameOk.blank (by simp [hs]) (by simp [hs]) (by simp [hs])
  have hclose : d.run [.onPartEnd] = some d.closePart := Delivery.run_partEnd (by simpa [hs] using h.opened)
  have hfin : d.closePart.finished = false := by simpa [Delivery.closePart, hs] using h.finished
  have hst : s.step pat (buffer.getD i 0) = Scanner.partData pat s (buffer.getD i 0) := by simp [Scanner.step, hs]
  have hfl := h.flags
  rw [Scanner.partData, if_neg (by omega), if_neg (by omega), if_pos hl, ← hfl] at hst
  rw [matchBoundary, if_neg (by omega), if_neg (by omega), if_pos hsize]
  split_ifs at hst ⊢ with h1 h2 h3 h4
  · refine iterOk_next hi hrun hst hclose ?_
    · exact h.of_unmarked (i + 1) ⟨hf, hv, hm, hname, hvalue, by rw [hd]⟩ (by simp [Unmarked]) rfl rfl rfl (by simp) rfl
        h.headers ⟨by simp, by simp, by simp⟩ ⟨by simp, fun _ _ _ => hblank⟩ rfl hfin
  · exact replay_sim h hs hne hi hrun (hst.trans (step_restart hpat hs _).symm)
  · have hlook := h.look
    have hk : keepOrReplay { p with state := .ended } [.onPartEnd, .onEnd] p.index i (buffer.getD i 0) =
        .next { p with state := .ended, lookbehind := p.lookbehind.set (p.index - 1) (buffer.getD i 0) }
          [.onPartEnd, .onEnd] (i + 1) := by
      rw [keepOrReplay, if_pos (by simp only; omega), if_neg (by simp only [Parser.lookbehindSize]; omega)]
    rw [hk]
    have hend : d.run (r.onCallbacks [.onPartEnd, .onEnd]).2 = some d.closePart.finish := by
      have hout : (r.onCallbacks [.onPartEnd, .onEnd]).2 = [.onPartEnd] ++ [.onEnd] := rfl
      rw [hout, Delivery.run_append, hclose]
      exact Delivery.run_end rfl hfin
    refine iterOk_next hi hrun hst hend ?_
    · exact h.of_unmarked (i + 1) ⟨hf, hv, hm, hname, hvalue, by rw [hd]⟩ (by simp [Unmarked]) rfl List.length_set rfl
        (by simp) rfl
        h.headers ⟨by simp, by simp, by simp⟩ ⟨by simp, fun _ _ _ => hblank⟩ rfl rfl
  · exact replay_sim h hs hne hi hrun (hst.trans (step_restart hpat hs _).symm)
  · exact replay_sim h hs hne hi hrun (hst.trans (step_restart hpat hs _).symm)

/-- A byte of part data compared with the delimiter and its tail. -/
theorem matchBoundary_sim (hpat : pat ≠ []) (h : Sim pat buffer i p r d s) (hs : s.state = .partData)
    (hi : i < buffer.length) (hrun : s.run pat (buffer.drop i) = some sf) :
    IterOk pat buffer r d sf (matchBoundary p buffer i (buffer.getD i 0)) := by
  obtain ⟨-, -, hle⟩ := h.index.lead hs
  rcases Nat.lt_trichotomy s.held.length pat.length with hlt | heq | hgt
  · exact matchDelimiter_sim hpat h hs hlt hi hrun
  · exact matchTail_sim hpat h hs heq hi hrun
  · exact matchLast_sim hpat h hs (by omega) hi hrun

/-- The bytes that the skip loop passes over are data, and nothing is held after them. -/
theorem skip_spec (buffer : Bytes) (hpat : p.boundary ≠ []) (fuel : Nat) : ∀ {i : Nat}, i ≤ buffer.length →
    i ≤ skip p buffer fuel i ∧ skip p buffer fuel i ≤ buffer.length ∧
      Open p.boundary [] (slice buffer i (skip p buffer fuel i)) ∧
      scan p.boundary [] (slice buffer i (skip p buffer fuel i)) = (slice buffer i (skip p buffer fuel i), []) := by
  have hpos : 0 < p.boundary.length := List.length_pos_iff.mpr hpat
  have hstay : ∀ {i : Nat}, i ≤ buffer.length → i ≤ i ∧ i ≤ buffer.length ∧
      Open p.boundary [] (slice buffer i i) ∧ scan p.boundary [] (slice buffer i i) = (slice buffer i i, []) := by
    intro i hi
    rw [slice_self]
    exact ⟨Nat.le_refl i, hi, trivial, rfl⟩
  induction fuel with
  | zero => intro i hi; exact hstay hi
  | succ fuel ih =>
    intro i hi
    rw [skip]
    split
    · rename_i hfit
      split
      · exact hstay hi
      · rename_i hc
        rw [Parser.boundarySize] at hfit hc ⊢
        obtain ⟨h1, h2, h3, h4⟩ := ih (i := i + p.boundary.length) hfit
        -- the bytes of one jump: all but the last, and the last, which is no boundary character
        have hlast : buffer[i + (p.boundary.length - 1)]? = some (buffer.getD (i + (p.boundary.length - 1)) 0) := by
          have hlt : i + (p.boundary.length - 1) < buffer.length := by omega
          rw [List.getD_eq_getElem?_getD, List.getElem?_eq_getElem hlt]
          rfl
        have hjump : slice buffer i (i + p.boundary.length) =
            slice buffer i (i + (p.boundary.length - 1)) ++ [buffer.getD (i + (p.boundary.length - 1)) 0] := by
          rw [← slice_succ (by omega) hlast]
          congr 1
          omega
        have hnot : buffer.getD (i + (p.boundary.length - 1)) 0 ∉ p.boundary := by
          simpa [Parser.isBoundaryChar] using hc
        obtain ⟨h5, h6⟩ := scan_skip p.boundary (slice buffer i (i + (p.boundary.length - 1)))
          (by rw [length_slice (by omega)]; omega) hnot
        rw [← hjump] at h5 h6
        have hjoin := slice_append buffer (Nat.le_add_right i p.boundary.length) h1
        rw [← hjoin]
        refine ⟨by omega, h2, open_append h5 (by rw [h6]; exact h3), ?_⟩
        rw [scan_append, h6, h4]
    · exact hstay hi

/-- Part data: skip what cannot be a delimiter, then compare one byte. -/
theorem processPartData_sim (hpat : pat ≠ []) (h : Sim pat buffer i p r d s) (hs : s.state = .partData)
    (hi : i < buffer.length) (hrun : s.run pat (buffer.drop i) = some sf) :
    IterOk pat buffer r d sf (processPartData p buffer i (buffer.getD i 0)) := by
  obtain ⟨hx, -, -⟩ := h.index.lead hs
  rw [processPartData]
  split
  · rename_i h0
    have hheld : s.held = [] := List.eq_nil_of_length_eq_zero (hx.symm.trans h0)
    obtain ⟨h1, h2, h3, h4⟩ := skip_spec buffer (by rw [h.boundary]; exact hpat) buffer.length (Nat.le_of_lt hi)
    rw [h.boundary] at h3 h4
    generalize skip p buffer buffer.length i = j at *
    obtain ⟨m, hm, hmi⟩ := h.dataMark.1 ⟨hs, hheld⟩
    have hf := h.fieldMark.2 (by simp [hs])
    have hv := h.valueMark.2 (by simp [hs])
    have hname := h.name
    have hvalue := h.value
    rw [hf, pending_none, List.append_nil] at hname
    rw [hv, pending_none, List.append_nil] at hvalue
    have hsim : Sim pat buffer j p r d { s with delivery := s.delivery.push (slice buffer i j), held := [] } :=
      { h with
        name := by rw [hf, pending_none, List.append_nil]; exact hname
        value := by rw [hv, pending_none, List.append_nil]; exact hvalue
        delivered := by
          have hdel := h.delivered
          rw [hm] at hdel ⊢
          rw [pending] at hdel ⊢
          rw [← slice_append buffer hmi h1, ← Delivery.push_push, hdel]
        fieldMark := h.fieldMark.absent (by simp [hs]) (by simp [hs])
        valueMark := h.valueMark.absent (by simp [hs]) (by simp [hs])
        dataMark := by rw [hm]; exact MarkOk.some ⟨hs, rfl⟩ (hmi.trans h1)
        index := ⟨by simp [hs], by simp [hs], fun _ => ⟨by simpa using h0, by simp [h0], by simp⟩⟩
        nameOk := ⟨by simp [hs], fun _ _ _ => h.nameOk.blank (by simp [hs]) (by simp [hs]) (by simp [hs])⟩ }
    have hskip : { s with delivery := s.delivery.push (slice buffer i j), held := [] }.run pat (buffer.drop j) = some sf := by
      have hsplit : buffer.drop i = slice buffer i j ++ buffer.drop j := by
        rw [← slice_of_length_le i (Nat.le_refl buffer.length), ← slice_append buffer h1 h2,
          slice_of_length_le j (Nat.le_refl buffer.length)]
      have hr := Scanner.run_partData pat (slice buffer i j) hs (by rw [hheld]; exact h3)
      rw [hheld, h4] at hr
      rw [hsplit, Scanner.run_append_of_run hr] at hrun
      exact hrun
    simp only
    split
    · rename_i hj
      refine ⟨d, { s with delivery := s.delivery.push (slice buffer i j), held := [] }, rfl, ?_, ?_⟩
      · rw [Nat.min_eq_right (by omega), ← hj]
        exact hsim
      · rw [List.drop_of_length_le (by omega)] at hskip ⊢
        exact hskip
    · rename_i hj
      have hjlt : j < buffer.length := by omega
      exact matchBoundary_sim hpat hsim hs hjlt hskip
  · exact matchBoundary_sim hpat h hs hi hrun

/-- Every iteration of the byte loop follows the scanner. -/
theorem body_sim (hpat : pat ≠ []) (h : Sim pat buffer i p r d s) (hi : i < buffer.length)
    (hrun : s.run pat (buffer.drop i) = some sf) : IterOk pat buffer r d sf (body p buffer i) := by
  have hstate := h.state
  cases hs : s.state with
  | parseError => exact absurd hs h.alive
  | start =>
    simp only [body, hstate, hs]
    have hu := h.unmarked (by simp [Unmarked, hs])
    have hq : Sim pat buffer i { p with index := 0, state := .startBoundary } r d
        { s with index := 0, state := .startBoundary } :=
      h.of_unmarked i hu (by simp [Unmarked]) rfl rfl rfl (by simp) h.flags h.headers ⟨by simp, by simp, by simp⟩
        ⟨by simp, fun _ _ _ => h.nameOk.blank (by simp [hs]) (by simp [hs]) (by simp [hs])⟩
        (by simpa [hs] using h.opened) (by simpa [hs] using h.finished)
    refine startBoundary_sim hq rfl hi ?_
    rw [drop_eq_cons hi, Scanner.run_cons] at hrun ⊢
    simpa [Scanner.step, hs] using hrun
  | startBoundary =>
    simp only [body, hstate, hs]
    exact startBoundary_sim h hs hi hrun
  | headerFieldStart =>
    simp only [body, hstate, hs]
    obtain ⟨hf, hv, hp, hn, hv', hd⟩ := h.unmarked (by simp [Unmarked, hs])
    have hname : s.name = [] := h.nameOk.blank (by simp [hs]) (by simp [hs]) (by simp [hs])
    have hq : Sim pat buffer i { p with state := .headerField, headerFieldMark := some i, index := 0 } r d
        { s with index := 0, state := .headerField } :=
      { h with
        state := rfl
        alive := by simp
        name := by rw [pending_self, List.append_nil]; exact hn
        fieldMark := MarkOk.some rfl (Nat.le_refl i)
        valueMark := h.valueMark.absent (by simp [hs]) (by simp)
        dataMark := h.dataMark.absent (by simp [hs]) (by simp)
        index := ⟨by simp, by simp, by simp⟩
        nameOk := ⟨fun _ => by simp [hname], by simp⟩
        opened := by simpa [hs] using h.opened
        finished := by simpa [hs] using h.finished }
    refine headerField_sim hq rfl hi ?_
    rw [drop_eq_cons hi, Scanner.run_cons] at hrun ⊢
    simpa [Scanner.step, hs] using hrun
  | headerField =>
    simp only [body, hstate, hs]
    exact headerField_sim h hs hi hrun
  | headerValueStart =>
    simp only [body, hstate, hs]
    have hu := h.unmarked (by simp [Unmarked, hs])
    split
    · rename_i hc
      have hst : s.step pat (buffer.getD i 0) = some s := by
        simp only [Scanner.step, hs]
        rw [if_pos hc]
      exact iterOk_next hi hrun hst rfl (h.of_unmarked (i + 1) hu (by simp [Unmarked, hs]) rfl rfl hstate h.alive h.flags
        h.headers ⟨by simp [hs], by simp [hs], by simp [hs]⟩ h.nameOk h.opened h.finished)
    · rename_i hc
      have hq : Sim pat buffer i { p with headerValueMark := some i, state := .headerValue } r d
          { s with state := .headerValue } :=
        { h with
          state := rfl
          alive := by simp
          value := by rw [pending_self, List.append_nil]; exact hu.2.2.2.2.1
          fieldMark := h.fieldMark.absent (by simp [hs]) (by simp)
          valueMark := MarkOk.some rfl (Nat.le_refl i)
          dataMark := h.dataMark.absent (by simp [hs]) (by simp)
          index := ⟨by simp, by simp, by simp⟩
          nameOk := ⟨by simp, by simp⟩
          opened := by simpa [hs] using h.opened
          finished := by simpa [hs] using h.finished }
      refine headerValue_sim hq rfl hi ?_
      rw [drop_eq_cons hi, Scanner.run_cons] at hrun ⊢
      rw [Scanner.step, hs] at hrun
      simp only [if_neg hc] at hrun
      simpa [Scanner.step] using hrun
  | headerValue =>
    simp only [body, hstate, hs]
    exact headerValue_sim h hs hi hrun
  | headerValueAlmostDone => exact headerValueAlmostDone_sim h hs hi hrun
  | headersAlmostDone => exact headersAlmostDone_sim h hs hi hrun
  | partDataStart =>
    simp only [body, hstate, hs]
    obtain ⟨hf, hv, hp, hn, hv', hd⟩ := h.unmarked (by simp [Unmarked, hs])
    obtain ⟨h0, hheld⟩ := h.index.fresh (Or.inr hs)
    have hq : Sim pat buffer i { p with state := .partData, partDataMark := some i } r d { s with state := .partData } :=
      { h with
        state := rfl
        alive := by simp
        delivered := by rw [pending_self, Delivery.push_nil]; exact hd
        fieldMark := h.fieldMark.absent (by simp [hs]) (by simp)
        valueMark := h.valueMark.absent (by simp [hs]) (by simp)
        dataMark := MarkOk.some ⟨rfl, hheld⟩ (Nat.le_refl i)
        index := ⟨by simp, by simp, fun _ => ⟨by simp [h0, hheld], by simp [h0, hheld], by simp [hheld]⟩⟩
        nameOk := ⟨by simp, fun _ _ _ => h.nameOk.blank (by simp [hs]) (by simp [hs]) (by simp [hs])⟩
        opened := by simpa [hs] using h.opened
        finished := by simpa [hs] using h.finished }
    refine processPartData_sim hpat hq rfl hi ?_
    rw [← Scanner.run_partDataStart hs (by rw [drop_eq_cons hi]; simp)]
    exact hrun
  | partData =>
    simp only [body, hstate, hs]
    exact processPartData_sim hpat h hs hi hrun
  | partEnd =>
    rw [drop_eq_cons hi, Scanner.run_cons] at hrun
    simp [Scanner.step, hs] at hrun
  | ended =>
    simp only [body, hstate, hs]
    have hst : s.step pat (buffer.getD i 0) = some s := by simp [Scanner.step, hs]
    exact iterOk_next hi hrun hst rfl (h.of_unmarked (i + 1) (h.unmarked (by simp [Unmarked, hs])) (by simp [Unmarked, hs])
      rfl rfl hstate h.alive h.flags h.headers ⟨by simp [hs], by simp [hs], by simp [hs]⟩ h.nameOk h.opened h.finished)

end Iteration

/-! ## Whole buffers -/

section Buffers

variable {pat buffer : Bytes} {i : Nat} {p : Parser} {r : Reader} {d : Delivery} {s sf : Scanner}

/-- At the beginning of a buffer nothing is pending. -/
theorem pending_zero (buffer : Bytes) {mark : Option Nat} (h : mark = none ∨ mark = some 0) : pending buffer mark 0 = [] := by
  rcases h with rfl | rfl
  · rfl
  · exact pending_self buffer 0

/-- The mark that `dataCallbackFlush` leaves. -/
theorem dataCallbackFlush_mark (cb : Bytes → Callback) (buffer : Bytes) {mark : Option Nat} {P : Prop} (h : MarkOk mark P i) :
    MarkOk (dataCallbackFlush cb mark buffer).2 P 0 ∧
      ((dataCallbackFlush cb mark buffer).2 = none ∨ (dataCallbackFlush cb mark buffer).2 = some 0) := by
  cases mark with
  | none =>
    refine ⟨⟨fun hP => ?_, fun _ => rfl⟩, Or.inl rfl⟩
    obtain ⟨m, hm, -⟩ := h.1 hP
    cases hm
  | some m =>
    refine ⟨⟨fun _ => ⟨0, rfl, Nat.le_refl 0⟩, fun hP => ?_⟩, Or.inr rfl⟩
    cases h.2 hP

/-- After the last byte of a buffer what is marked is reported, and the relation holds at the start of the next one. -/
theorem flush_sim (h : Sim pat buffer buffer.length p r d s) :
    ∃ d', d.run (r.onCallbacks (flush p buffer).2).2 = some d' ∧
      ∀ next : Bytes, Sim pat next 0 (flush p buffer).1 (r.onCallbacks (flush p buffer).2).1 d' s := by
  have h1 : r.onCallbacks (dataCallbackFlush .onHeaderField p.headerFieldMark buffer).1 =
      ({ r with currentHeaderName := s.name }, []) := by
    rw [← h.name]
    cases p.headerFieldMark with
    | none => simp [dataCallbackFlush]
    | some m => exact onCallbacks_field r buffer m buffer.length false
  have h2 : ∀ r' : Reader, r'.currentHeaderValue = r.currentHeaderValue →
      r'.onCallbacks (dataCallbackFlush .onHeaderValue p.headerValueMark buffer).1 =
        ({ r' with currentHeaderValue := s.value }, []) := by
    intro r' hr'
    rw [← h.value, ← hr']
    cases p.headerValueMark with
    | none => simp [dataCallbackFlush]
    | some m => exact onCallbacks_value r' buffer m buffer.length false
  have h3 : ∀ r' : Reader, (r'.onCallbacks (dataCallbackFlush .onPartData p.partDataMark buffer).1).1 = r' ∧
      d.run (r'.onCallbacks (dataCallbackFlush .onPartData p.partDataMark buffer).1).2 = some s.delivery := by
    intro r'
    rw [← h.delivered]
    cases hm : p.partDataMark with
    | none => simp [dataCallbackFlush]
    | some m =>
      have hst : s.state = .partData ∧ s.held = [] := by
        by_contra hc
        rw [h.dataMark.2 hc] at hm
        cases hm
      exact onCallbacks_data r' buffer m buffer.length false (by simpa [hst.1] using h.opened)
  refine ⟨s.delivery, ?_, ?_⟩
  · simp only [flush, Reader.onCallbacks_append, h1, h2 { r with currentHeaderName := s.name } rfl, List.nil_append]
    exact (h3 _).2
  · intro next
    obtain ⟨hf, hf0⟩ := dataCallbackFlush_mark .onHeaderField buffer h.fieldMark
    obtain ⟨hv, hv0⟩ := dataCallbackFlush_mark .onHeaderValue buffer h.valueMark
    obtain ⟨hp, hp0⟩ := dataCallbackFlush_mark .onPartData buffer h.dataMark
    have hr : (r.onCallbacks (flush p buffer).2).1 = { r with currentHeaderName := s.name, currentHeaderValue := s.value } := by
      simp only [flush, Reader.onCallbacks_append, h1, h2 { r with currentHeaderName := s.name } rfl, (h3 _).1]
    have hopen : s.delivery.current.isSome = d.current.isSome := by
      rw [← h.delivered, Delivery.push_current_isSome]
    have hfin : s.delivery.finished = d.finished := by
      rw [← h.delivered]
      rfl
    rw [hr]
    exact
      { h with
        name := by simp only [flush]; rw [pending_zero next hf0, List.append_nil]
        value := by simp only [flush]; rw [pending_zero next hv0, List.append_nil]
        delivered := by simp only [flush]; rw [pending_zero next hp0, Delivery.push_nil]
        fieldMark := hf
        valueMark := hv
        dataMark := hp
        index := ⟨h.index.counting, h.index.fresh, h.index.lead⟩
        opened := hopen.trans h.opened
        finished := hfin.trans h.finished }

/-- The reader between two buffers, having delivered `d`, is in the scanner state `s`: both go on, or both have rejected. -/
def Matches (pat : Bytes) (r : Reader) (d : Delivery) (s : Scanner) : Prop :=
  (∀ next : Bytes, Sim pat next 0 r.parser r d s) ∨
    (r.parser.state = .parseError ∧ s.state = .parseError ∧ s.delivery = d)

/-- The loop at the end of the buffer only reports what is marked. -/
theorem loop_end (p₀ : Parser) (fuel : Nat) (calls : List Callback) (hi : buffer.length ≤ i)
    (h : Sim pat buffer (min i buffer.length) p r d s) (hrun : s.run pat (buffer.drop i) = some sf) :
    ∃ p' cs ret d', feedLoop p₀ buffer fuel p calls i = .returned p' (calls ++ cs) ret ∧
      d.run (r.onCallbacks cs).2 = some d' ∧ Matches pat { (r.onCallbacks cs).1 with parser := p' } d' sf := by
  rw [Nat.min_eq_right hi] at h
  rw [List.drop_of_length_le hi, Scanner.run_nil, Option.some.injEq] at hrun
  obtain ⟨d', hd', hsim⟩ := flush_sim h
  refine ⟨_, _, _, d', feedLoop_end p₀ fuel calls hi, hd', Or.inl (fun next => ?_)⟩
  subst hrun
  exact { hsim next with }

/-- The byte loop ends, and it follows the scanner to the end of the buffer. -/
theorem loop_sim (hpat : pat ≠ []) (p₀ : Parser) (fuel : Nat) : ∀ {p : Parser} {r : Reader} {d : Delivery} {s : Scanner}
    {i : Nat} (calls : List Callback), loopFuel buffer i p.index ≤ fuel →
    Sim pat buffer (min i buffer.length) p r d s → s.run pat (buffer.drop i) = some sf →
    ∃ p' cs ret d', feedLoop p₀ buffer fuel p calls i = .returned p' (calls ++ cs) ret ∧
      d.run (r.onCallbacks cs).2 = some d' ∧ Matches pat { (r.onCallbacks cs).1 with parser := p' } d' sf := by
  induction fuel with
  | zero =>
    intro p r d s i calls hfuel h hrun
    exact loop_end p₀ 0 calls (length_le_of_loopFuel hfuel) h hrun
  | succ fuel ih =>
    intro p r d s i calls hfuel h hrun
    rcases Nat.lt_or_ge i buffer.length with hi | hi
    · rw [Nat.min_eq_left (Nat.le_of_lt hi)] at h
      have hbody := body_sim hpat h hi hrun
      rw [feedLoop, if_neg (Nat.not_le.mpr hi)]
      simp only
      cases hb : body p buffer i with
      | next p' cs j =>
        rw [hb] at hbody
        obtain ⟨d', s', hd', hs', hr'⟩ := hbody
        have hmove := body_advances p buffer i
        rw [hb] at hmove
        have hless := loopFuel_lt hi hmove
        obtain ⟨p₂, cs₂, ret, d₂, hloop, hd₂, hm⟩ := ih (calls ++ cs) (by omega) hs' hr'
        refine ⟨p₂, cs ++ cs₂, ret, d₂, ?_, ?_, ?_⟩
        · simp only [hloop, List.append_assoc]
        · rw [Reader.onCallbacks_append, Delivery.run_append, hd']
          exact hd₂
        · rw [Reader.onCallbacks_append]
          exact hm
      | error p' msg =>
        rw [hb] at hbody
        exact ⟨_, [], i, d, by rw [List.append_nil], rfl, Or.inr ⟨rfl, hbody⟩⟩
      | stop p' => rw [hb] at hbody; exact hbody.elim
      | throw p' cs msg => rw [hb] at hbody; exact hbody.elim
    · exact loop_end p₀ (fuel + 1) calls hi h hrun

/-- A `feed` of the reader is a run of the scanner. -/
theorem feed_sim (hpat : pat ≠ []) (h : Matches pat r d s) (hb : buffer ≠ []) (hrun : s.run pat buffer = some sf) :
    ∃ r' calls ret d', r.feed buffer = .returned r' calls ret ∧ d.run calls = some d' ∧ Matches pat r' d' sf := by
  have hlen : buffer.length ≠ 0 := fun h0 => hb (List.eq_nil_of_length_eq_zero h0)
  rcases h with h | ⟨hp, hs, hd⟩
  · have h0 := h buffer
    have halive : r.parser.state ≠ .parseError := by rw [h0.state]; exact h0.alive
    obtain ⟨p', cs, ret, d', hloop, hd', hm⟩ := loop_sim hpat r.parser (2 * buffer.length + 2) []
      (loopFuel_start buffer r.parser.index)
      (by rw [Nat.zero_min]; exact h0) (by rw [List.drop_zero]; exact hrun)
    refine ⟨{ (r.onCallbacks cs).1 with parser := p' }, (r.onCallbacks cs).2, ret, d', ?_, hd', hm⟩
    rw [Reader.feed, feed, if_neg (by simp [halive, hlen]), hloop]
    rfl
  · rw [Scanner.run_parseError hs, Option.some.injEq] at hrun
    subst hrun
    refine ⟨r, [], 0, d, ?_, rfl, Or.inr ⟨hp, hs, hd⟩⟩
    rw [Reader.feed, feed, if_pos (Or.inl hp)]
    rfl

/-- A reader fed a list of buffers does what the scanner does on their concatenation. -/
theorem feedAll_sim (hpat : pat ≠ []) (chunks : List Bytes) : ∀ {r : Reader} {d : Delivery} {s : Scanner},
    (∀ b ∈ chunks, b ≠ []) → Matches pat r d s → s.run pat chunks.flatten = some sf →
    ∃ r' calls ret d', r.feedAll chunks = .returned r' calls ret ∧ d.run calls = some d' ∧ Matches pat r' d' sf := by
  induction chunks with
  | nil =>
    intro r d s _ h hrun
    rw [List.flatten_nil, Scanner.run_nil, Option.some.injEq] at hrun
    subst hrun
    exact ⟨r, [], 0, d, rfl, rfl, h⟩
  | cons b bs ih =>
    intro r d s hne h hrun
    rw [List.flatten_cons, Scanner.run_append] at hrun
    obtain ⟨s₁, hs₁, hrun₁⟩ := Option.bind_eq_some_iff.mp hrun
    obtain ⟨r₁, c₁, n₁, d₁, hf₁, hd₁, hm₁⟩ := feed_sim hpat h (hne b (by simp)) hs₁
    obtain ⟨r₂, c₂, n₂, d₂, hf₂, hd₂, hm₂⟩ := ih (fun x hx => hne x (List.mem_cons_of_mem b hx)) hm₁ hrun₁
    refine ⟨r₂, c₁ ++ c₂, n₁ + n₂, d₂, ?_, ?_, hm₂⟩
    · rw [Reader.feedAll, hf₁]
      simp only [hf₂]
    · rw [Delivery.run_append, hd₁]
      exact hd₂

/-- `set_boundary` on a fresh reader is the start of the scanner. -/
theorem matches_setBoundary (fill : Nat → UInt8) : Matches pat (({} : Reader).setBoundary pat fill) {} {} := by
  refine Or.inl (fun next => ?_)
  exact
    { boundary := rfl
      look := by simp [Reader.setBoundary, Parser.setBoundary]
      state := rfl
      alive := by simp
      flags := rfl
      headers := rfl
      name := rfl
      value := rfl
      delivered := rfl
      fieldMark := MarkOk.none (by simp)
      valueMark := MarkOk.none (by simp)
      dataMark := MarkOk.none (by simp)
      index := ⟨by simp, by simp, by simp⟩
      nameOk := ⟨by simp, by simp⟩
      opened := rfl
      finished := rfl }

end Buffers

end Multipart
end Netcore
