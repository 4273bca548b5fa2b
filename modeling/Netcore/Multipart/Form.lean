import Netcore.Multipart.Reader

/-!
# What a multipart reader is for

The abstract side of the multipart modules: a form is a list of parts, `serialize` writes it as a body, and a `Delivery` is
what a user of the reader has received so far. `Delivery.run` replays calls of the user's callbacks and refuses a call out of
order, so that `run ∅ calls = some d` says at once that the calls are well ordered and what they delivered. Data that
arrives in several slices is data that arrives at once (`Delivery.push_push`), which is why nothing here depends on how
a body is cut into buffers.
-/

namespace Netcore
namespace Multipart

/-- A part of a form: its header lines and its content. -/
structure Part where
  headers : Headers
  content : Bytes
  deriving DecidableEq, Repr

/-- The delimiter that `set_boundary` is given for the boundary token `b`. -/
def delimiter (b : Bytes) : Bytes := CRLF ++ [HYPHEN, HYPHEN] ++ b

/-- The delimiter begins with CR, LF and two hyphens. -/
theorem delimiter_eq (b : Bytes) : delimiter b = CR :: ([LF, HYPHEN, HYPHEN] ++ b) := rfl

/-- The delimiter is not empty. -/
theorem delimiter_ne_nil (b : Bytes) : delimiter b ≠ [] := by simp [delimiter_eq]

/-- Nothing in a delimiter but its first byte is a CR. -/
theorem cr_not_mem_tail {b : Bytes} (hb : CR ∉ b) : CR ∉ [LF, HYPHEN, HYPHEN] ++ b := by
  simp [hb]

/-- A header line: name, colon, space, value, line end. -/
def headerLine (h : Bytes × Bytes) : Bytes := h.1 ++ [COLON, SPACE] ++ h.2 ++ CRLF

/-- The header lines, the blank line and the content of a part. -/
def serializePart (p : Part) : Bytes := p.headers.flatMap headerLine ++ CRLF ++ p.content

/-- The rest of a body after the first delimiter line: the parts, separated by delimiter lines and closed by the last one. -/
def serializeParts (b : Bytes) : List Part → Bytes
  | [] => []
  | [p] => serializePart p ++ delimiter b ++ [HYPHEN, HYPHEN]
  | p :: ps => serializePart p ++ delimiter b ++ CRLF ++ serializeParts b ps

/-- The body of a form: `--b` and a line end, then the parts. -/
def serialize (b : Bytes) (ps : List Part) : Bytes := [HYPHEN, HYPHEN] ++ b ++ CRLF ++ serializeParts b ps

/-- A letter or a hyphen, the characters of a part header's name. -/
def isNameChar (c : UInt8) : Bool := decide (c = HYPHEN ∨ (65 ≤ c ∧ c ≤ 90) ∨ (97 ≤ c ∧ c ≤ 122))

/-- A header line that `headerLine` writes so that it can be read back. -/
structure HeaderOk (h : Bytes × Bytes) : Prop where
  name_ne : h.1 ≠ []
  name_chars : ∀ c ∈ h.1, isNameChar c = true
  value_cr : CR ∉ h.2
  value_space : h.2.head? ≠ some SPACE

/-- A part that can be carried under the boundary token `b`. -/
structure PartOk (b : Bytes) (p : Part) : Prop where
  headers_ok : ∀ h ∈ p.headers, HeaderOk h
  content_free : ¬ delimiter b <:+: p.content

/-- A part as a reader delivers it: its headers as a multimap, that is in name order, those of one name as written. -/
def Part.delivered (p : Part) : Part := ⟨OrderedMap.multimapOf p.headers, p.content⟩

/-- The headers are delivered in the order of a multimap, and each as often as it was sent. -/
theorem Part.delivered_headers (p : Part) : p.delivered.headers.Perm p.headers := OrderedMap.multimapOf_perm p.headers

/-! ## Deliveries -/

/-- What the user of a reader has received: the parts that ended, the part under way, and whether `on_end` was called. -/
structure Delivery where
  parts : List Part := []
  current : Option Part := none
  finished : Bool := false
  deriving DecidableEq, Repr

namespace Delivery

/-- One call; `none` when it comes out of order. -/
def step (d : Delivery) : ReaderCall → Option Delivery
  | .onPartBegin h => if d.current = none ∧ d.finished = false then some { d with current := some ⟨h, []⟩ } else none
  | .onPartData x => d.current.map fun p => { d with current := some { p with content := p.content ++ x } }
  | .onPartEnd => d.current.map fun p => { d with parts := d.parts ++ [p], current := none }
  | .onEnd => if d.current = none ∧ d.finished = false then some { d with finished := true } else none

/-- The calls in order. -/
def run (d : Delivery) (calls : List ReaderCall) : Option Delivery := calls.foldlM step d

@[simp] theorem run_nil (d : Delivery) : d.run [] = some d := rfl

theorem run_cons (d : Delivery) (c : ReaderCall) (cs : List ReaderCall) :
    d.run (c :: cs) = (d.step c).bind fun d' => d'.run cs := rfl

/-- Calls one after another are followed one after another. -/
theorem run_append (d : Delivery) (cs cs' : List ReaderCall) :
    d.run (cs ++ cs') = (d.run cs).bind fun d' => d'.run cs' := by
  simp only [run, List.foldlM_append]
  rfl

/-- The delivery after more data of the part under way. -/
def push (d : Delivery) (x : Bytes) : Delivery :=
  { d with current := d.current.map fun p => { p with content := p.content ++ x } }

/-- Empty data adds nothing. -/
@[simp] theorem push_nil (d : Delivery) : d.push [] = d := by
  cases d with
  | mk parts current finished => cases current <;> simp [push]

/-- Data in two pieces is one piece. -/
theorem push_push (d : Delivery) (x y : Bytes) : (d.push x).push y = d.push (x ++ y) := by
  cases d with
  | mk parts current finished => cases current <;> simp [push]

/-- Data leaves the part open. -/
@[simp] theorem push_current_isSome (d : Delivery) (x : Bytes) : (d.push x).current.isSome = d.current.isSome := by
  cases d with
  | mk parts current finished => cases current <;> simp [push]

/-- The delivery after `on_part_begin`. -/
def openPart (d : Delivery) (h : Headers) : Delivery := { d with current := some ⟨h, []⟩ }

/-- The delivery after `on_part_end`. -/
def closePart (d : Delivery) : Delivery := { d with parts := d.parts ++ d.current.toList, current := none }

/-- The delivery after `on_end`. -/
def finish (d : Delivery) : Delivery := { d with finished := true }

/-- A part begins if none is open. -/
theorem run_begin {d : Delivery} (hc : d.current = none) (hf : d.finished = false) (h : Headers) :
    d.run [.onPartBegin h] = some (d.openPart h) := by
  simp [run, step, hc, hf, openPart]

/-- A part that is open ends. -/
theorem run_partEnd {d : Delivery} (h : d.current.isSome) : d.run [.onPartEnd] = some d.closePart := by
  cases d with
  | mk parts current finished =>
    cases current with
    | none => simp at h
    | some p => rfl

/-- The form ends if no part is open. -/
theorem run_end {d : Delivery} (hc : d.current = none) (hf : d.finished = false) :
    d.run [.onEnd] = some d.finish := by
  simp [run, step, hc, hf, finish]

/-- Data is taken if a part is open. -/
theorem run_data {d : Delivery} (h : d.current.isSome) (x : Bytes) : d.run [.onPartData x] = some (d.push x) := by
  cases d with
  | mk parts current finished =>
    cases current with
    | none => simp at h
    | some p => rfl

/-- The calls that a list of parts is delivered with, when the content of each arrives in the given slices. -/
def callsOf : List (Headers × List Bytes) → List ReaderCall
  | [] => [.onEnd]
  | (h, ss) :: rest => .onPartBegin h :: (ss.map .onPartData ++ .onPartEnd :: callsOf rest)

/-- By induction over the pieces: data that comes in pieces is taken as a whole. -/
theorem run_slices (ss : List Bytes) : ∀ {d : Delivery}, d.current.isSome → d.run (ss.map .onPartData) = some (d.push ss.flatten) := by
  induction ss with
  | nil =>
    intro d _
    simp
  | cons x ss ih =>
    intro d hd
    have hfirst := run_data hd x
    have hrest := ih (d := d.push x) (by simpa using hd)
    rw [List.map_cons, ← List.singleton_append, run_append, hfirst, List.flatten_cons, ← push_push]
    exact hrest

/-- The calls of a list of parts deliver these parts. -/
theorem run_callsOf (sl : List (Headers × List Bytes)) : ∀ qs : List Part, ({ parts := qs } : Delivery).run (callsOf sl) =
    some { parts := qs ++ sl.map fun x => ⟨x.1, x.2.flatten⟩, finished := true } := by
  induction sl with
  | nil =>
    intro qs
    simp [callsOf, run_cons, step]
  | cons x sl ih =>
    intro qs
    have hbegin := run_begin (d := { parts := qs }) rfl rfl x.1
    have hdata := run_slices x.2 (d := ({ parts := qs } : Delivery).openPart x.1) rfl
    have hend := run_partEnd (d := (({ parts := qs } : Delivery).openPart x.1).push x.2.flatten) rfl
    rw [callsOf, ← List.singleton_append, run_append, hbegin, Option.bind_some, run_append, hdata, Option.bind_some,
      ← List.singleton_append, run_append, hend, Option.bind_some]
    refine (ih (qs ++ [⟨x.1, x.2.flatten⟩])).trans ?_
    simp

/-- The calls of a finished delivery, from any point on: data and the end of the part under way, if there is one, then whole
parts and the end. -/
theorem calls_of_run (calls : List ReaderCall) : ∀ {d d' : Delivery}, d.run calls = some d' → d'.finished = true →
    d'.current = none → d.finished = false →
    (d.current = none → ∃ sl : List (Headers × List Bytes), calls = callsOf sl ∧ d'.parts = d.parts ++ sl.map fun x => ⟨x.1, x.2.flatten⟩) ∧
    (∀ p, d.current = some p → ∃ (ss : List Bytes) (sl : List (Headers × List Bytes)), calls = ss.map .onPartData ++ .onPartEnd :: callsOf sl ∧
      d'.parts = d.parts ++ ⟨p.headers, p.content ++ ss.flatten⟩ :: sl.map fun x => (⟨x.1, x.2.flatten⟩ : Part)) := by
  induction calls with
  | nil =>
    intro d d' hrun hfin _ hnot
    rw [run_nil, Option.some.injEq] at hrun
    rw [hrun, hfin] at hnot
    cases hnot
  | cons c cs ih =>
    intro d d' hrun hfin hcur hnot
    rw [run_cons] at hrun
    obtain ⟨d₁, hstep, hrest⟩ := Option.bind_eq_some_iff.mp hrun
    refine ⟨fun hnone => ?_, fun p hsome => ?_⟩
    · cases c with
      | onPartBegin h =>
        simp only [step, hnone, hnot, and_self, if_true, Option.some.injEq] at hstep
        subst hstep
        obtain ⟨ss, sl, hcs, hparts⟩ := (ih hrest hfin hcur rfl).2 _ rfl
        exact ⟨(h, ss) :: sl, by rw [hcs]; rfl, by simpa using hparts⟩
      | onPartData x => simp [step, hnone] at hstep
      | onPartEnd => simp [step, hnone] at hstep
      | onEnd =>
        simp only [step, hnone, hnot, and_self, if_true, Option.some.injEq] at hstep
        subst hstep
        -- nothing can follow `on_end`
        cases cs with
        | nil =>
          rw [run_nil, Option.some.injEq] at hrest
          subst hrest
          exact ⟨[], rfl, by simp⟩
        | cons c cs => cases c <;> simp [run_cons, step] at hrest
    · cases c with
      | onPartBegin h => simp [step, hsome] at hstep
      | onPartData x =>
        simp only [step, hsome, Option.map_some, Option.some.injEq] at hstep
        subst hstep
        obtain ⟨ss, sl, hcs, hparts⟩ := (ih hrest hfin hcur hnot).2 _ rfl
        exact ⟨x :: ss, sl, by rw [hcs]; rfl, by simpa using hparts⟩
      | onPartEnd =>
        simp only [step, hsome, Option.map_some, Option.some.injEq] at hstep
        subst hstep
        obtain ⟨sl, hcs, hparts⟩ := (ih hrest hfin hcur hnot).1 rfl
        exact ⟨[], sl, by rw [hcs]; rfl, by simpa using hparts⟩
      | onEnd => simp [step, hsome] at hstep

end Delivery

end Multipart
end Netcore
