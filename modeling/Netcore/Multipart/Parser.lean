import Netcore.Basic

/-!
# `multipart_parser`

The state machine of `multipart_parser.hpp`, one iteration of the byte loop of `feed` at a time. The parser calls eight
callbacks; the model returns the calls as a list, in order, each with the bytes it was given. The locals `state`, `flags`
and `index` of `feed` are the members of the same name while the loop runs: they are written back at its end, and on an
error, where only `state` and `errorReason` are, `feed` restores the other two. The local `prevIndex` is overwritten by
`processPartData` before every use, so it lives there.

The loop counter is carried as the value it has after the `i++` of the `for`: `i + 1` after an ordinary byte, `i` after the
`i--` of a replay (also at 0, where the unsigned counter wraps and wraps back), and `len + 1` when a skip ends the buffer.
-/

namespace Netcore
namespace Multipart

open Slices

/-- `multipart_parser::State`. -/
inductive State where
  | parseError
  | start
  | startBoundary
  | headerFieldStart
  | headerField
  | headerValueStart
  | headerValue
  | headerValueAlmostDone
  | headersAlmostDone
  | partDataStart
  | partData
  | partEnd
  | ended
  deriving DecidableEq, Repr

/-- `multipart_parser::Flags`: the two bits of `flags`. -/
structure Flags where
  partBoundary : Bool := false
  lastBoundary : Bool := false
  deriving DecidableEq, Repr

/-- One call of a parser callback, with the bytes `[buffer + start, buffer + end)` it was given. -/
inductive Callback where
  | onHeaderField (data : Bytes)
  | onHeaderValue (data : Bytes)
  | onHeaderEnd
  | onHeadersEnd
  | onPartBegin
  | onPartData (data : Bytes)
  | onPartEnd
  | onEnd
  deriving DecidableEq, Repr

/-- The members of `multipart_parser`. `boundarySize` and `lookbehindSize` are the lengths of `boundary` and `lookbehind`,
`boundaryIndex[c]` is membership in `boundary`, and a mark equal to `UNMARKED` is `none`. -/
structure Parser where
  boundary : Bytes := []
  lookbehind : Bytes := []
  state : State := .parseError
  flags : Flags := {}
  index : Nat := 0
  headerFieldMark : Option Nat := none
  headerValueMark : Option Nat := none
  partDataMark : Option Nat := none
  errorReason : String := "Parser uninitialized."
  deriving DecidableEq, Repr

namespace Parser

def boundarySize (p : Parser) : Nat := p.boundary.length

def lookbehindSize (p : Parser) : Nat := p.lookbehind.length

/-- `isBoundaryChar`, over the table that `indexBoundary` fills. -/
def isBoundaryChar (p : Parser) (c : UInt8) : Bool := decide (c ∈ p.boundary)

/-- `set_boundary`. The lookbehind buffer is fresh memory: `fill` is what `new char[]` happens to hold. -/
def setBoundary (boundary : Bytes) (fill : Nat → UInt8) : Parser :=
  { boundary := boundary
    lookbehind := (List.range (boundary.length + 8)).map fill
    state := .start
    errorReason := "No error." }

def succeeded (p : Parser) : Bool := decide (p.state = .ended)

def hasError (p : Parser) : Bool := decide (p.state = .parseError)

def stopped (p : Parser) : Bool := p.hasError || p.succeeded

end Parser

/-- `callback` with a range: no call when the range is empty and empty ranges are not allowed. -/
def callbackRange (cb : Bytes → Callback) (buffer : Bytes) (start stop : Nat) (allowEmpty : Bool) : List Callback :=
  if start = stop ∧ allowEmpty = false then [] else [cb (slice buffer start stop)]

/-- `dataCallback` with `clear`: report the marked bytes up to `i` and drop the mark. -/
def dataCallbackClear (cb : Bytes → Callback) (mark : Option Nat) (buffer : Bytes) (i : Nat) (allowEmpty : Bool) :
    List Callback :=
  match mark with
  | none => []
  | some m => callbackRange cb buffer m i allowEmpty

/-- `dataCallback` without `clear`: report the marked bytes up to the end of the buffer; the mark moves to 0. -/
def dataCallbackFlush (cb : Bytes → Callback) (mark : Option Nat) (buffer : Bytes) : List Callback × Option Nat :=
  match mark with
  | none => ([], none)
  | some m => (callbackRange cb buffer m buffer.length false, some 0)

/-- What one iteration of the byte loop does: go on at `i` (the counter after the `i++`), return the offset of an error
after `setError`, return the offset from the `default` case, or throw `std::out_of_range`. -/
inductive Iter where
  | next (p : Parser) (calls : List Callback) (i : Nat)
  | error (p : Parser) (message : String)
  | stop (p : Parser)
  | throw (p : Parser) (calls : List Callback) (message : String)

/-- The cases `START` (after it has reset `index`) and `START_BOUNDARY`. -/
def startBoundary (p : Parser) (i : Nat) (c : UInt8) : Iter :=
  if p.index + 2 = p.boundarySize then
    if c ≠ CR then .error p "Malformed. Expected CR after boundary."
    else .next { p with index := p.index + 1 } [] (i + 1)
  else if p.index + 1 = p.boundarySize then
    if c ≠ LF then .error p "Malformed. Expected LF after boundary CR."
    else .next { p with index := 0, state := .headerFieldStart } [.onPartBegin] (i + 1)
  else if c ≠ p.boundary.getD (p.index + 2) 0 then
    .error p "Malformed. Found different boundary data than the given one."
  else .next { p with index := p.index + 1 } [] (i + 1)

/-- `lower`. -/
def lower (c : UInt8) : UInt8 := c ||| 0x20

/-- The cases `HEADER_FIELD_START` (after it has set the mark) and `HEADER_FIELD`. -/
def headerField (p : Parser) (buffer : Bytes) (i : Nat) (c : UInt8) : Iter :=
  if c = CR then .next { p with headerFieldMark := none, state := .headersAlmostDone } [] (i + 1)
  else
    let p := { p with index := p.index + 1 }
    if c = HYPHEN then .next p [] (i + 1)
    else if c = COLON then
      if p.index = 1 then .error p "Malformed first header name character."
      else
        .next { p with headerFieldMark := none, state := .headerValueStart }
          (dataCallbackClear .onHeaderField p.headerFieldMark buffer i false) (i + 1)
    else if lower c < 97 ∨ 122 < lower c then .error p "Malformed header name."
    else .next p [] (i + 1)

/-- The case `HEADER_VALUE`. -/
def headerValue (p : Parser) (buffer : Bytes) (i : Nat) (c : UInt8) : Iter :=
  if c = CR then
    .next { p with headerValueMark := none, state := .headerValueAlmostDone }
      (dataCallbackClear .onHeaderValue p.headerValueMark buffer i true ++ [.onHeaderEnd]) (i + 1)
  else .next p [] (i + 1)

/-- The skip loop of `processPartData`: whole boundary lengths are passed over while the byte that would be the last of
a delimiter starting here is no boundary character. `fuel` bounds the iterations by the bytes left. -/
def skip (p : Parser) (buffer : Bytes) : Nat → Nat → Nat
  | 0, i => i
  | fuel + 1, i =>
    if i + p.boundarySize ≤ buffer.length then
      if p.isBoundaryChar (buffer.getD (i + (p.boundarySize - 1)) 0) then i
      else skip p buffer fuel (i + p.boundarySize)
    else i

/-- The end of `processPartData`: a byte of a possible delimiter is kept in the lookbehind buffer; when a lead turned out
to be false, the bytes kept are part data and the current byte is considered again. (The source also tests `index - 1 < 0`,
which no unsigned number satisfies.) -/
def keepOrReplay (p : Parser) (calls : List Callback) (prevIndex i : Nat) (c : UInt8) : Iter :=
  if 0 < p.index then
    if p.lookbehindSize ≤ p.index - 1 then
      .throw { p with
        state := .parseError
        errorReason := "Parser bug: index overflows lookbehind buffer. Please send bug report with input file attached." }
        calls "index overflows lookbehind buffer"
    else .next { p with lookbehind := p.lookbehind.set (p.index - 1) c } calls (i + 1)
  else if 0 < prevIndex then
    .next { p with partDataMark := some i } (calls ++ callbackRange .onPartData p.lookbehind 0 prevIndex false) i
  else .next p calls (i + 1)

/-- The comparison of `processPartData`, after the skip: the byte `c` at `i` against the delimiter and its tail. -/
def matchBoundary (p : Parser) (buffer : Bytes) (i : Nat) (c : UInt8) : Iter :=
  if p.index < p.boundarySize then
    if p.boundary.getD p.index 0 = c then
      if p.index = 0 then
        keepOrReplay { p with index := p.index + 1, partDataMark := none }
          (dataCallbackClear .onPartData p.partDataMark buffer i false) p.index i c
      else keepOrReplay { p with index := p.index + 1 } [] p.index i c
    else keepOrReplay { p with index := 0 } [] p.index i c
  else if p.index = p.boundarySize then
    if c = CR then
      keepOrReplay { p with index := p.index + 1, flags := { p.flags with partBoundary := true } } [] p.index i c
    else if c = HYPHEN then
      keepOrReplay { p with index := p.index + 1, flags := { p.flags with lastBoundary := true } } [] p.index i c
    else keepOrReplay { p with index := 0 } [] p.index i c
  else if p.index = p.boundarySize + 1 then
    if p.flags.partBoundary = true then
      if c = LF then
        .next { p with index := 0, flags := { p.flags with partBoundary := false }, state := .headerFieldStart }
          [.onPartEnd, .onPartBegin] (i + 1)
      else keepOrReplay { p with index := 0 } [] p.index i c
    else if p.flags.lastBoundary = true then
      if c = HYPHEN then keepOrReplay { p with state := .ended } [.onPartEnd, .onEnd] p.index i c
      else keepOrReplay { p with index := 0 } [] p.index i c
    else keepOrReplay { p with index := 0 } [] p.index i c
  else if p.index = p.boundarySize + 2 then
    if c = CR then keepOrReplay { p with index := p.index + 1 } [] p.index i c
    else keepOrReplay { p with index := 0 } [] p.index i c
  else if p.index = p.boundarySize + 3 then
    if c = LF then .next { p with index := 0, state := .ended } [.onPartEnd, .onEnd] (i + 1)
    else keepOrReplay { p with index := 0 } [] p.index i c
  else keepOrReplay p [] p.index i c

/-- `processPartData`, in state `PART_DATA`. -/
def processPartData (p : Parser) (buffer : Bytes) (i : Nat) (c : UInt8) : Iter :=
  if p.index = 0 then
    let j := skip p buffer buffer.length i
    if j = buffer.length then .next p [] (j + 1)
    else matchBoundary p buffer j (buffer.getD j 0)
  else matchBoundary p buffer i c

/-- One iteration of the byte loop of `feed`: the `switch` on the byte at `i`. -/
def body (p : Parser) (buffer : Bytes) (i : Nat) : Iter :=
  let c := buffer.getD i 0
  match p.state with
  | .parseError => .stop p
  | .start => startBoundary { p with index := 0, state := .startBoundary } i c
  | .startBoundary => startBoundary p i c
  | .headerFieldStart =>
    headerField { p with state := .headerField, headerFieldMark := some i, index := 0 } buffer i c
  | .headerField => headerField p buffer i c
  | .headerValueStart =>
    if c = SPACE then .next p [] (i + 1)
    else headerValue { p with headerValueMark := some i, state := .headerValue } buffer i c
  | .headerValue => headerValue p buffer i c
  | .headerValueAlmostDone =>
    if c ≠ LF then .error p "Malformed header value: LF expected after CR"
    else .next { p with state := .headerFieldStart } [] (i + 1)
  | .headersAlmostDone =>
    if c ≠ LF then .error p "Malformed header ending: LF expected after CR"
    else .next { p with state := .partDataStart } [.onHeadersEnd] (i + 1)
  | .partDataStart => processPartData { p with state := .partData, partDataMark := some i } buffer i c
  | .partData => processPartData p buffer i c
  | .ended => .next p [] (i + 1)
  | .partEnd => .stop p

/-- How a call of `feed` ends: with a return value, or with the exception `std::out_of_range`. `running` is a loop cut off
by the fuel of the model; `feed` gives it more than it uses. -/
inductive FeedResult where
  | returned (p : Parser) (calls : List Callback) (ret : Nat)
  | threw (p : Parser) (calls : List Callback) (message : String)
  | running (p : Parser) (calls : List Callback)

/-- The three `dataCallback` calls after the loop. -/
def flush (p : Parser) (buffer : Bytes) : Parser × List Callback :=
  let (c1, m1) := dataCallbackFlush .onHeaderField p.headerFieldMark buffer
  let (c2, m2) := dataCallbackFlush .onHeaderValue p.headerValueMark buffer
  let (c3, m3) := dataCallbackFlush .onPartData p.partDataMark buffer
  ({ p with headerFieldMark := m1, headerValueMark := m2, partDataMark := m3 }, c1 ++ c2 ++ c3)

/-- The byte loop of `feed`, from `i` on; `p₀` is the parser when `feed` was called. -/
def feedLoop (p₀ : Parser) (buffer : Bytes) : Nat → Parser → List Callback → Nat → FeedResult
  | fuel, p, calls, i =>
    if buffer.length ≤ i then
      let (p', cs) := flush p buffer
      .returned p' (calls ++ cs) buffer.length
    else
      match fuel with
      | 0 => .running p calls
      | fuel + 1 =>
        match body p buffer i with
        | .next p' cs j => feedLoop p₀ buffer fuel p' (calls ++ cs) j
        | .error p' msg =>
          .returned { p' with state := .parseError, errorReason := msg, index := p₀.index, flags := p₀.flags } calls i
        | .stop p' => .returned { p' with index := p₀.index, flags := p₀.flags, state := p₀.state } calls i
        | .throw p' cs msg => .threw { p' with index := p₀.index, flags := p₀.flags } (calls ++ cs) msg

/-- Behind the last byte, the loop flushes what is marked and returns. -/
theorem feedLoop_end (p₀ : Parser) {buffer : Bytes} (fuel : Nat) {p : Parser} (calls : List Callback) {i : Nat}
    (h : buffer.length ≤ i) : feedLoop p₀ buffer fuel p calls i =
      .returned (flush p buffer).1 (calls ++ (flush p buffer).2) buffer.length := by
  cases fuel <;> simp [feedLoop, h]

/-- `multipart_parser::feed`. A byte takes at most two iterations: one that replays a false lead and one that consumes it. -/
def feed (p : Parser) (buffer : Bytes) : FeedResult :=
  if p.state = .parseError ∨ buffer.length = 0 then .returned p [] 0
  else feedLoop p buffer (2 * buffer.length + 2) p [] 0

/-! ## The byte loop ends -/

/-- Iterations that are enough for the loop at `i`: two for each byte left, and one more when there is a lead to replay. -/
def loopFuel (buffer : Bytes) (i index : Nat) : Nat := 2 * (buffer.length - i) + if 0 < index then 1 else 0

/-- Where an iteration at `i` goes: forward, or it resets a positive `index` and stays. -/
def Moves (i index j index' : Nat) : Prop := i < j ∨ (j = i ∧ 0 < index ∧ index' = 0)

/-- An iteration that moves on, or sets a positive `index` back, takes fuel. -/
theorem loopFuel_lt {buffer : Bytes} {i j index index' : Nat} (hi : i < buffer.length) (h : Moves i index j index') :
    loopFuel buffer j index' < loopFuel buffer i index := by
  unfold loopFuel
  rcases h with h | ⟨rfl, hpos, hzero⟩
  · split_ifs <;> omega
  · rw [if_pos hpos, if_neg (by omega)]
    omega

/-- Without fuel there are no bytes left. -/
theorem length_le_of_loopFuel {buffer : Bytes} {i index : Nat} (h : loopFuel buffer i index ≤ 0) : buffer.length ≤ i := by
  unfold loopFuel at h
  omega

/-- A call of `feed` starts with fuel for two iterations a byte. -/
theorem loopFuel_start (buffer : Bytes) (index : Nat) : loopFuel buffer 0 index ≤ 2 * buffer.length + 2 := by
  unfold loopFuel
  split_ifs <;> omega

/-- An iteration that goes on makes progress. -/
def Iter.Advances (i index : Nat) : Iter → Prop
  | .next p _ j => Moves i index j p.index
  | _ => True

/-- A byte is kept, or `index` is set back to zero before it is looked at again. -/
theorem keepOrReplay_advances (p : Parser) (calls : List Callback) (prevIndex i : Nat) (c : UInt8) :
    (keepOrReplay p calls prevIndex i c).Advances i prevIndex := by
  unfold keepOrReplay
  split_ifs with h1 h2 h3
  · trivial
  · exact Or.inl (Nat.lt_succ_self i)
  · exact Or.inr ⟨rfl, h3, by simp only; omega⟩
  · exact Or.inl (Nat.lt_succ_self i)

/-- Every branch of the match with the delimiter goes on. -/
theorem matchBoundary_advances (p : Parser) (buffer : Bytes) (i : Nat) (c : UInt8) :
    (matchBoundary p buffer i c).Advances i p.index := by
  unfold matchBoundary
  split_ifs
  all_goals first
    | exact keepOrReplay_advances _ _ _ _ _
    | exact Or.inl (Nat.lt_succ_self i)

/-- The skip over part data never goes back. -/
theorem le_skip (p : Parser) (buffer : Bytes) (fuel : Nat) : ∀ i, i ≤ skip p buffer fuel i := by
  induction fuel with
  | zero => intro i; exact Nat.le_refl i
  | succ fuel ih =>
    intro i
    rw [skip]
    split_ifs
    · exact Nat.le_refl i
    · exact (Nat.le_add_right i _).trans (ih _)
    · exact Nat.le_refl i

/-- So does `process_part_data`, after a skip or without one. -/
theorem processPartData_advances (p : Parser) (buffer : Bytes) (i : Nat) (c : UInt8) :
    (processPartData p buffer i c).Advances i p.index := by
  unfold processPartData
  simp only
  split_ifs with h0 hend
  · have hle := le_skip p buffer buffer.length i
    exact Or.inl (by omega)
  · -- nothing is kept, so the comparison after the skip cannot replay
    have hle := le_skip p buffer buffer.length i
    have hmove := matchBoundary_advances p buffer (skip p buffer buffer.length i)
      (buffer.getD (skip p buffer buffer.length i) 0)
    revert hmove
    cases matchBoundary p buffer (skip p buffer buffer.length i) (buffer.getD (skip p buffer buffer.length i) 0) with
    | next q cs j =>
      rintro (hlt | ⟨-, hpos, -⟩)
      · exact Or.inl (by omega)
      · exact absurd hpos (by omega)
    | error q msg => exact id
    | stop q => exact id
    | throw q cs msg => exact id
  · exact matchBoundary_advances p buffer i c

/-- The branch of a header name goes on by a byte. -/
theorem headerField_advances (p : Parser) (buffer : Bytes) (i n : Nat) (c : UInt8) :
    (headerField p buffer i c).Advances i n := by
  unfold headerField
  simp only
  split_ifs
  all_goals first
    | trivial
    | exact Or.inl (Nat.lt_succ_self i)

/-- The branch of a header value goes on by a byte. -/
theorem headerValue_advances (p : Parser) (buffer : Bytes) (i n : Nat) (c : UInt8) :
    (headerValue p buffer i c).Advances i n := by
  unfold headerValue
  split_ifs
  · exact Or.inl (Nat.lt_succ_self i)
  · exact Or.inl (Nat.lt_succ_self i)

/-- The branch of the opening line goes on by a byte. -/
theorem startBoundary_advances (p : Parser) (i n : Nat) (c : UInt8) : (startBoundary p i c).Advances i n := by
  unfold startBoundary
  split_ifs
  all_goals first
    | trivial
    | exact Or.inl (Nat.lt_succ_self i)

/-- Every iteration of the byte loop makes progress, from any parser. -/
theorem body_advances (p : Parser) (buffer : Bytes) (i : Nat) : (body p buffer i).Advances i p.index := by
  unfold body
  simp only
  cases p.state with
  | parseError => trivial
  | start => exact startBoundary_advances _ _ _ _
  | startBoundary => exact startBoundary_advances _ _ _ _
  | headerFieldStart => exact headerField_advances _ _ _ _ _
  | headerField => exact headerField_advances _ _ _ _ _
  | headerValueStart =>
    simp only
    split_ifs
    · exact Or.inl (Nat.lt_succ_self i)
    · exact headerValue_advances _ _ _ _ _
  | headerValue => exact headerValue_advances _ _ _ _ _
  | headerValueAlmostDone =>
    simp only
    split_ifs
    · trivial
    · exact Or.inl (Nat.lt_succ_self i)
  | headersAlmostDone =>
    simp only
    split_ifs
    · trivial
    · exact Or.inl (Nat.lt_succ_self i)
  | partDataStart => exact processPartData_advances { p with state := .partData, partDataMark := some i } buffer i _
  | partData => exact processPartData_advances p buffer i _
  | partEnd => trivial
  | ended => exact Or.inl (Nat.lt_succ_self i)

/-- A parser that is neither in `PARSE_ERROR` nor in `PART_END`, the states in which an iteration gives up. -/
def Parser.Live (p : Parser) : Prop := p.state ≠ .parseError ∧ p.state ≠ .partEnd

/-- An iteration that goes on with a live parser, or sets an error, or throws. -/
def Iter.Live : Iter → Prop
  | .next p _ _ => p.Live
  | .stop _ => False
  | _ => True

/-- A false lead leaves a parser live. -/
theorem keepOrReplay_live {p : Parser} (h : p.Live) (calls : List Callback) (prevIndex i : Nat) (c : UInt8) :
    (keepOrReplay p calls prevIndex i c).Live := by
  unfold keepOrReplay
  split_ifs
  · trivial
  · exact h
  · exact h
  · exact h

/-- A match with the delimiter leaves a parser live. -/
theorem matchBoundary_live {p : Parser} (h : p.Live) (buffer : Bytes) (i : Nat) (c : UInt8) :
    (matchBoundary p buffer i c).Live := by
  unfold matchBoundary
  split_ifs
  all_goals first
    | (refine keepOrReplay_live ?_ _ _ _ _; exact h)
    | (refine keepOrReplay_live ?_ _ _ _ _; exact ⟨by simp, by simp⟩)
    | exact ⟨by simp, by simp⟩

/-- `process_part_data` leaves a parser live, or sets an error. -/
theorem processPartData_live {p : Parser} (h : p.Live) (buffer : Bytes) (i : Nat) (c : UInt8) :
    (processPartData p buffer i c).Live := by
  unfold processPartData
  simp only
  split_ifs
  · exact h
  · exact matchBoundary_live h _ _ _
  · exact matchBoundary_live h _ _ _

/-- The branch of a header name leaves a parser live, or sets an error. -/
theorem headerField_live {p : Parser} (h : p.Live) (buffer : Bytes) (i : Nat) (c : UInt8) : (headerField p buffer i c).Live := by
  unfold headerField
  simp only
  split_ifs
  all_goals first
    | trivial
    | exact ⟨h.1, h.2⟩
    | exact ⟨by simp, by simp⟩

/-- The branch of a header value leaves a parser live, or sets an error. -/
theorem headerValue_live {p : Parser} (h : p.Live) (buffer : Bytes) (i : Nat) (c : UInt8) : (headerValue p buffer i c).Live := by
  unfold headerValue
  split_ifs
  · exact ⟨by simp, by simp⟩
  · exact h

/-- The branch of the opening line leaves a parser live, or sets an error. -/
theorem startBoundary_live {p : Parser} (h : p.Live) (i : Nat) (c : UInt8) : (startBoundary p i c).Live := by
  unfold startBoundary
  split_ifs
  all_goals first
    | trivial
    | exact ⟨h.1, h.2⟩
    | exact ⟨by simp, by simp⟩

/-- An iteration of a live parser does not give up, and nothing but an error ends its life. -/
theorem body_live {p : Parser} (h : p.Live) (buffer : Bytes) (i : Nat) : (body p buffer i).Live := by
  unfold body
  simp only
  cases hs : p.state with
  | parseError => exact absurd hs h.1
  | start => exact startBoundary_live ⟨by simp, by simp⟩ _ _
  | startBoundary => exact startBoundary_live h _ _
  | headerFieldStart => exact headerField_live ⟨by simp, by simp⟩ _ _ _
  | headerField => exact headerField_live h _ _ _
  | headerValueStart =>
    simp only
    split_ifs
    · exact h
    · exact headerValue_live ⟨by simp, by simp⟩ _ _ _
  | headerValue => exact headerValue_live h _ _ _
  | headerValueAlmostDone =>
    simp only
    split_ifs
    · trivial
    · exact ⟨by simp, by simp⟩
  | headersAlmostDone =>
    simp only
    split_ifs
    · trivial
    · exact ⟨by simp, by simp⟩
  | partDataStart => exact processPartData_live (p := { p with state := .partData, partDataMark := some i }) ⟨by simp, by simp⟩ _ _ _
  | partData => exact processPartData_live h _ _ _
  | partEnd => exact absurd hs h.2
  | ended => exact h

/-- A call of `feed` that came to an end: with an error, with the whole buffer taken, or with an exception. -/
def FeedResult.Ends (length : Nat) : FeedResult → Prop
  | .returned p _ ret => p.state = .parseError ∨ ret = length
  | .threw _ _ _ => True
  | .running _ _ => False

/-- By induction on the fuel: the loop on a live parser comes to an end. -/
theorem feedLoop_ends (p₀ : Parser) (buffer : Bytes) (fuel : Nat) : ∀ {p : Parser} {i : Nat} (calls : List Callback),
    loopFuel buffer i p.index ≤ fuel → p.Live → (feedLoop p₀ buffer fuel p calls i).Ends buffer.length := by
  induction fuel with
  | zero =>
    intro p i calls hfuel h
    rw [feedLoop_end p₀ 0 calls (length_le_of_loopFuel hfuel)]
    exact .inr rfl
  | succ fuel ih =>
    intro p i calls hfuel h
    rw [feedLoop]
    split_ifs with hi
    · exact .inr rfl
    · have hlive := body_live h buffer i
      have hmove := body_advances p buffer i
      cases hb : body p buffer i with
      | next p' cs j =>
        rw [hb] at hlive hmove
        have hless := loopFuel_lt (Nat.not_le.mp hi) hmove
        exact ih (calls ++ cs) (by omega) hlive
      | error p' msg => exact .inl rfl
      | stop p' =>
        rw [hb] at hlive
        exact hlive.elim
      | throw p' cs msg => trivial

/-- Every `feed` of a live parser ends: it takes the whole buffer unless there is an error or an exception. -/
theorem feed_ends {p : Parser} (h : p.Live) (buffer : Bytes) : (feed p buffer).Ends buffer.length := by
  unfold feed
  split_ifs with h0
  · rcases h0 with h0 | h0
    · exact .inl h0
    · exact .inr h0.symm
  · exact feedLoop_ends p buffer _ [] (loopFuel_start buffer p.index) h

end Multipart
end Netcore
