import Netcore.Multipart.Simulation

/-!
# The reader and the cuts of its input

What a user of the reader observes of a run is the sequence of calls with the data of each part put together, and the
verdict at the end (`Observed`). `Simulation.lean` gives the same observation for all cuts of an input on which the scanner
runs to the end. The scanner stops at a CR in a header name. The reader goes on: the name read so far is forgotten when it is
in one buffer, and kept for the next header when a buffer ended in it.

`feedAll_observed` extends the result to every input in which no such CR is followed by LF: then the next byte is an error,
wherever the buffers were cut. For that the simulation is followed up to the CR in the middle of a buffer
(`feedLoop_until`); the only iteration that looks ahead is the skip of `processPartData`, and it does not look past the CR.
-/

namespace Netcore
namespace Multipart

open Slices Delimiter

/-! ## What is observed -/

/-- One more call, with data added to the data before it. -/
def addCall (out : List ReaderCall) : ReaderCall → List ReaderCall
  | .onPartData x =>
    match out.getLast? with
    | some (.onPartData y) => out.dropLast ++ [.onPartData (y ++ x)]
    | _ => if x = [] then out else out ++ [.onPartData x]
  | c => out ++ [c]

/-- The calls with the data of each part in one piece. -/
def joinData (calls : List ReaderCall) : List ReaderCall := calls.foldl addCall []

/-- What a user sees of a run: the calls, the data of a part in one piece, whether the run ended in an exception, and what
`has_error` and `succeeded` return after it. -/
structure Observed where
  calls : List ReaderCall
  threw : Bool
  hasError : Bool
  succeeded : Bool
  deriving DecidableEq, Repr

/-- What a user sees; `none` for a run that has not ended. -/
def ReaderResult.observed : ReaderResult → Option Observed
  | .returned r calls _ => some ⟨joinData calls, false, r.hasError, r.succeeded⟩
  | .threw r calls _ => some ⟨joinData calls, true, r.hasError, r.succeeded⟩
  | .running => none

/-- The calls that open a part and bring its data. -/
def openCalls (p : Part) : List ReaderCall :=
  .onPartBegin p.headers :: if p.content = [] then [] else [.onPartData p.content]

/-- The calls that a delivery consists of. -/
def Delivery.calls (d : Delivery) : List ReaderCall :=
  d.parts.flatMap (fun p => openCalls p ++ [.onPartEnd]) ++ d.current.toList.flatMap openCalls ++
    if d.finished then [.onEnd] else []

/-- Part data is added to the part that is open. -/
theorem addCall_data (out : List ReaderCall) (p : Part) (x : Bytes) :
    addCall (out ++ openCalls p) (.onPartData x) = out ++ openCalls { p with content := p.content ++ x } := by
  unfold openCalls
  by_cases hc : p.content = []
  · by_cases hx : x = []
    · simp [addCall, hc, hx]
    · simp [addCall, hc, hx]
  · simp [addCall, hc]

/-- A call that is in order adds itself to the calls delivered. -/
theorem Delivery.calls_step {d d' : Delivery} {c : ReaderCall} (hd : d.finished = true → d.current = none)
    (h : d.step c = some d') : addCall d.calls c = d'.calls ∧ (d'.finished = true → d'.current = none) := by
  cases d with
  | mk parts current finished =>
    cases c with
    | onPartBegin hs =>
      simp only [step] at h
      split_ifs at h with hc
      obtain ⟨rfl, rfl⟩ := hc
      cases h
      simp [calls, addCall, openCalls]
    | onPartData x =>
      cases current with
      | none => cases h
      | some p =>
        cases h
        have hf : finished = false := by
          cases finished with
          | false => rfl
          | true => cases hd rfl
        simp only [calls, hf, Option.toList_some, List.flatMap_singleton, if_neg Bool.false_ne_true, List.append_nil]
        exact ⟨addCall_data _ p x, by simp⟩
    | onPartEnd =>
      cases current with
      | none => cases h
      | some p =>
        cases h
        have hf : finished = false := by
          cases finished with
          | false => rfl
          | true => cases hd rfl
        simp [calls, addCall, hf]
    | onEnd =>
      simp only [step] at h
      split_ifs at h with hc
      obtain ⟨rfl, rfl⟩ := hc
      cases h
      simp [calls, addCall]

/-- Calls in order, with the data put together, are the calls of what they delivered. -/
theorem Delivery.joinData_run (calls : List ReaderCall) : ∀ {d d' : Delivery}, (d.finished = true → d.current = none) →
    d.run calls = some d' → calls.foldl addCall d.calls = d'.calls := by
  induction calls with
  | nil =>
    intro d d' _ h
    rw [run_nil, Option.some.injEq] at h
    rw [h]
    rfl
  | cons c cs ih =>
    intro d d' hd h
    rw [run_cons] at h
    obtain ⟨d₁, hstep, hrest⟩ := Option.bind_eq_some_iff.mp h
    obtain ⟨hadd, hd₁⟩ := Delivery.calls_step hd hstep
    rw [List.foldl_cons, hadd]
    exact ih hd₁ hrest

/-- What is observed of a run that returns and whose calls are in order. -/
theorem observed_returned {r : Reader} {calls : List ReaderCall} {d : Delivery} (ret : Nat)
    (h : ({} : Delivery).run calls = some d) :
    (ReaderResult.returned r calls ret).observed = some ⟨d.calls, false, r.hasError, r.succeeded⟩ := by
  rw [ReaderResult.observed, joinData, ← Delivery.joinData_run calls (by simp) h]
  rfl

/-! ## Where the scanner stops -/

/-- The header line under way is ended by a CR before its colon. -/
def Scanner.CutBy (s : Scanner) (c : UInt8) : Prop := s.state = .headerField ∧ c = CR ∧ s.index ≠ 0

instance (s : Scanner) (c : UInt8) : Decidable (s.CutBy c) := inferInstanceAs (Decidable (_ ∧ _ ∧ _))

/-- A state that a run of the scanner can be in. -/
structure Scanner.Regular (pat : Bytes) (s : Scanner) : Prop where
  state : s.state ≠ .partEnd
  held : s.state = .headersAlmostDone ∨ s.state = .partDataStart ∨ s.state = .partData → s.held.length ≤ pat.length + 1

namespace Scanner

variable {pat : Bytes} {s s' : Scanner} {c : UInt8}

/-- In the opening line the scanner stays regular. -/
theorem startBoundary_regular (hs : s.state = .startBoundary) : (startBoundary pat s c).Regular pat := by
  unfold startBoundary fail
  split_ifs
  all_goals exact ⟨by simp [hs], by simp [hs]⟩

/-- In the name of a header the scanner stays regular. -/
theorem headerField_regular (hs : s.state = .headerField) (h : headerField s c = some s') : s'.Regular pat := by
  unfold headerField fail at h
  split_ifs at h
  all_goals
    cases h
    exact ⟨by simp [hs], by simp [hs]⟩

/-- In the value of a header the scanner stays regular. -/
theorem headerValue_regular (hs : s.state = .headerValue) : (headerValue s c).Regular pat := by
  unfold headerValue
  split_ifs
  · exact ⟨by simp, by simp⟩
  · exact ⟨by simp [hs], by simp [hs]⟩

/-- After a lead that was false the scanner stays regular. -/
theorem restart_regular (hs : s.state = .partData) : (restart pat s c).Regular pat := by
  unfold restart
  split_ifs
  · exact ⟨by simp [hs], by simp⟩
  · exact ⟨by simp [hs], by simp⟩

/-- In the data of a part the scanner stays regular. -/
theorem partData_regular (hs : s.state = .partData) (h : partData pat s c = some s') : s'.Regular pat := by
  have hscan := scanStep_length_le pat s.held c
  unfold partData at h
  split_ifs at h
  all_goals cases h
  · exact ⟨by simp [hs], fun _ => by simp only; omega⟩
  · exact ⟨by simp [hs], fun _ => by simp only [List.length_append, List.length_singleton]; omega⟩
  · exact ⟨by simp [hs], fun _ => by simp only [List.length_append, List.length_singleton]; omega⟩
  · exact restart_regular hs
  · exact ⟨by simp, by simp⟩
  · exact restart_regular hs
  · exact ⟨by simp, by simp⟩
  · exact restart_regular hs
  · exact restart_regular hs

/-- Every step keeps the scanner regular. -/
theorem step_regular (hr : s.Regular pat) (h : s.step pat c = some s') : s'.Regular pat := by
  unfold step at h
  cases hs : s.state with
  | parseError =>
    simp only [hs, Option.some.injEq] at h
    exact h ▸ hr
  | start =>
    simp only [hs, Option.some.injEq] at h
    exact h ▸ startBoundary_regular rfl
  | startBoundary =>
    simp only [hs, Option.some.injEq] at h
    exact h ▸ startBoundary_regular hs
  | headerFieldStart =>
    simp only [hs] at h
    exact headerField_regular rfl h
  | headerField =>
    simp only [hs] at h
    exact headerField_regular hs h
  | headerValueStart =>
    simp only [hs] at h
    split_ifs at h
    · exact Option.some.inj h ▸ hr
    · exact Option.some.inj h ▸ headerValue_regular rfl
  | headerValue =>
    simp only [hs, Option.some.injEq] at h
    exact h ▸ headerValue_regular hs
  | headerValueAlmostDone =>
    simp only [hs] at h
    split_ifs at h
    · exact Option.some.inj h ▸ ⟨by simp [fail], by simp [fail]⟩
    · exact Option.some.inj h ▸ ⟨by simp, by simp⟩
  | headersAlmostDone =>
    simp only [hs] at h
    split_ifs at h
    · exact Option.some.inj h ▸ ⟨by simp [fail], by simp [fail]⟩
    · exact Option.some.inj h ▸ ⟨by simp, fun _ => hr.held (Or.inl hs)⟩
  | partDataStart =>
    simp only [hs] at h
    exact partData_regular rfl h
  | partData =>
    simp only [hs] at h
    exact partData_regular hs h
  | partEnd => exact absurd hs hr.state
  | ended =>
    simp only [hs, Option.some.injEq] at h
    exact h ▸ hr

/-- The scanner stops only at a CR in a header name. -/
theorem cutBy_of_step_eq_none (hr : s.Regular pat) (h : s.step pat c = none) : s.CutBy c := by
  have hfield : ∀ {q : Scanner}, headerField q c = none → c = CR ∧ q.index ≠ 0 := by
    intro q hq
    unfold headerField at hq
    split_ifs at hq with h1 h2
    exact ⟨h1, h2⟩
  have hdata : ∀ {q : Scanner}, q.held.length ≤ pat.length + 1 → partData pat q c ≠ none := by
    intro q hq
    unfold partData
    split_ifs
    all_goals first
      | exact Option.some_ne_none _
      | omega
  unfold step at h
  cases hs : s.state with
  | headerFieldStart =>
    simp only [hs] at h
    exact absurd rfl (hfield h).2
  | headerField =>
    simp only [hs] at h
    exact ⟨hs, hfield h⟩
  | partDataStart =>
    simp only [hs] at h
    exact absurd h (hdata (hr.held (Or.inr (Or.inl hs))))
  | partData =>
    simp only [hs] at h
    exact absurd h (hdata (hr.held (Or.inr (Or.inr hs))))
  | partEnd => exact absurd hs hr.state
  | headerValueStart =>
    simp only [hs] at h
    split_ifs at h
  | headerValueAlmostDone =>
    simp only [hs] at h
    split_ifs at h
  | headersAlmostDone =>
    simp only [hs] at h
    split_ifs at h
  | _ =>
    simp only [hs] at h
    cases h

/-- The scanner reads an input to its end, or up to a CR in a header name. -/
theorem run_or_cutBy (bs : Bytes) : ∀ {s : Scanner}, s.Regular pat → (∃ s', s.run pat bs = some s') ∨
    ∃ u t sc, bs = u ++ CR :: t ∧ s.run pat u = some sc ∧ sc.CutBy CR := by
  induction bs with
  | nil => intro s _; exact Or.inl ⟨s, rfl⟩
  | cons c cs ih =>
    intro s hr
    cases hstep : s.step pat c with
    | none =>
      have hcut := cutBy_of_step_eq_none hr hstep
      obtain rfl := hcut.2.1
      exact Or.inr ⟨[], cs, s, rfl, rfl, hcut⟩
    | some s₁ =>
      rcases ih (step_regular hr hstep) with ⟨s', hrun⟩ | ⟨u, t, sc, rfl, hrun, hcut⟩
      · exact Or.inl ⟨s', by rw [run_cons_of_step hstep]; exact hrun⟩
      · exact Or.inr ⟨c :: u, t, sc, rfl, by rw [run_cons_of_step hstep]; exact hrun, hcut⟩

/-- The scanner is regular to begin with. -/
theorem regular_start (pat : Bytes) : ({} : Scanner).Regular pat := ⟨by simp, by simp⟩

end Scanner

/-! ## An iteration looks at the bytes before a position only -/

section Ahead

variable {buffer : Bytes} {n i : Nat} {p : Parser}

/-- The bytes before a cut are those of the buffer. -/
theorem getD_take (h : i < n) : (buffer.take n).getD i 0 = buffer.getD i 0 := by
  simp [List.getD_eq_getElem?_getD, h]

/-- What is handed on before a cut does not depend on what follows it. -/
theorem dataCallbackClear_take (cb : Bytes → Callback) (mark : Option Nat) (h : i ≤ n) (e : Bool) :
    dataCallbackClear cb mark (buffer.take n) i e = dataCallbackClear cb mark buffer i e := by
  cases mark with
  | none => rfl
  | some m => simp only [dataCallbackClear, callbackRange, slice_take buffer h]

/-- The skip loop reads the boundary and nothing else of the parser. -/
theorem skip_congr {q : Parser} (buffer : Bytes) (h : q.boundary = p.boundary) (fuel : Nat) :
    ∀ i, skip q buffer fuel i = skip p buffer fuel i := by
  induction fuel with
  | zero => intro i; rfl
  | succ fuel ih =>
    intro i
    have hsize : q.boundarySize = p.boundarySize := congrArg List.length h
    have hchar : ∀ c, q.isBoundaryChar c = p.isBoundaryChar c := fun c => by simp [Parser.isBoundaryChar, h]
    simp only [skip, hsize, hchar, ih]

/-- The skip loop ends at the same place in a buffer and in its first `n` bytes, when it ends before the last window of these. -/
theorem skip_take (hpos : 0 < p.boundarySize) (hn : n ≤ buffer.length) (fuel : Nat) : ∀ {fuel' i : Nat}, n - i ≤ fuel →
    buffer.length - i ≤ fuel' → skip p (buffer.take n) fuel i + p.boundarySize ≤ n →
    skip p buffer fuel' i = skip p (buffer.take n) fuel i := by
  have hlen : (buffer.take n).length = n := by rw [List.length_take, Nat.min_eq_left hn]
  induction fuel with
  | zero =>
    intro fuel' i hf _ hend
    rw [skip] at hend
    omega
  | succ fuel ih =>
    intro fuel' i hf hf' hend
    rw [skip, hlen] at hend ⊢
    by_cases hi : i + p.boundarySize ≤ n
    · obtain ⟨fuel', rfl⟩ : ∃ k, fuel' = k + 1 := ⟨fuel' - 1, by omega⟩
      rw [skip, if_pos (hi.trans hn)]
      rw [if_pos hi, getD_take (by omega)] at hend ⊢
      split_ifs at hend ⊢ with hc
      · rfl
      · exact ih (by omega) (by omega) hend
    · rw [if_neg hi] at hend
      exact absurd hend hi

/-- A match with the delimiter looks at nothing behind its byte. -/
theorem matchBoundary_take (h : i ≤ n) (c : UInt8) : matchBoundary p (buffer.take n) i c = matchBoundary p buffer i c := by
  unfold matchBoundary
  rw [dataCallbackClear_take _ _ h]

/-- A skip that ends before the cut is the same with and without what follows. -/
theorem processPartData_take (hpos : 0 < p.boundarySize) (hn : n ≤ buffer.length) (hi : i < n)
    (hskip : p.index = 0 → skip p (buffer.take n) (buffer.take n).length i + p.boundarySize ≤ n) (c : UInt8) :
    processPartData p (buffer.take n) i c = processPartData p buffer i c := by
  have hlen : (buffer.take n).length = n := by rw [List.length_take, Nat.min_eq_left hn]
  unfold processPartData
  simp only
  split_ifs with h0 h1 h2 h2
  · have := hskip h0
    omega
  · have := hskip h0
    omega
  · have heq := skip_take hpos hn (buffer.take n).length (by omega) (Nat.sub_le buffer.length i) (hskip h0)
    have := hskip h0
    rw [heq] at h2
    omega
  · have heq := skip_take hpos hn (buffer.take n).length (by omega) (Nat.sub_le buffer.length i) (hskip h0)
    have hend := hskip h0
    rw [heq, getD_take (by omega), matchBoundary_take (by omega)]
  · exact matchBoundary_take (Nat.le_of_lt hi) c

/-- An iteration before `n` does not look at the bytes from `n` on, if its skip ends in time. -/
theorem body_take (hpos : 0 < p.boundarySize) (hn : n ≤ buffer.length) (hi : i < n)
    (hskip : p.state = .partDataStart ∨ p.state = .partData → p.index = 0 →
      skip p (buffer.take n) (buffer.take n).length i + p.boundarySize ≤ n) :
    body p (buffer.take n) i = body p buffer i := by
  unfold body
  simp only [getD_take hi]
  cases hs : p.state with
  | headerFieldStart => simp only [headerField, dataCallbackClear_take _ _ (Nat.le_of_lt hi)]
  | headerField => simp only [headerField, dataCallbackClear_take _ _ (Nat.le_of_lt hi)]
  | headerValueStart => simp only [headerValue, dataCallbackClear_take _ _ (Nat.le_of_lt hi)]
  | headerValue => simp only [headerValue, dataCallbackClear_take _ _ (Nat.le_of_lt hi)]
  | partDataStart =>
    refine processPartData_take (p := { p with state := .partData, partDataMark := some i }) hpos hn hi (fun h0 => ?_) _
    have heq := skip_congr (q := { p with state := .partData, partDataMark := some i }) (p := p)
      (buffer.take n) rfl (buffer.take n).length i
    rw [heq]
    exact hskip (Or.inl hs) h0
  | partData => exact processPartData_take hpos hn hi (hskip (Or.inr hs)) _
  | _ => rfl

/-- An iteration that goes on at most at the byte after `i`. -/
def Iter.Near (i : Nat) : Iter → Prop
  | .next _ _ j => j ≤ i + 1
  | _ => True

/-- A false lead goes on at the same byte or at the next. -/
theorem keepOrReplay_near (q : Parser) (calls : List Callback) (prev i : Nat) (c : UInt8) :
    (keepOrReplay q calls prev i c).Near i := by
  unfold keepOrReplay
  split_ifs
  · trivial
  · exact Nat.le_refl _
  · exact Nat.le_succ i
  · exact Nat.le_refl _

/-- A match with the delimiter goes on at the next byte at most. -/
theorem matchBoundary_near (q : Parser) (buf : Bytes) (i : Nat) (c : UInt8) : (matchBoundary q buf i c).Near i := by
  unfold matchBoundary
  split_ifs
  all_goals first
    | exact keepOrReplay_near _ _ _ _ _
    | exact Nat.le_refl _

/-- An iteration goes on at the next byte, but for a skip. -/
theorem body_near (buffer : Bytes) (i : Nat) (hskip : p.state ≠ .partDataStart ∧ p.state ≠ .partData) : (body p buffer i).Near i := by
  unfold body startBoundary headerField headerValue
  simp only
  cases hs : p.state with
  | partDataStart => exact absurd hs hskip.1
  | partData => exact absurd hs hskip.2
  | _ =>
    simp only
    first
      | trivial
      | exact Nat.le_refl _
      | (split_ifs <;> first | trivial | exact Nat.le_refl _)

/-- Part data whose skip ends before the end of the buffer goes on there at the latest. -/
theorem processPartData_le {q : Parser} {cs : List Callback} {j : Nat} {c : UInt8} (hi : i < buffer.length)
    (hskip : p.index = 0 → skip p buffer buffer.length i < buffer.length)
    (h : processPartData p buffer i c = .next q cs j) : j ≤ buffer.length := by
  unfold processPartData at h
  simp only at h
  split_ifs at h with h0 hend
  · exact absurd hend (Nat.ne_of_lt (hskip h0))
  · have hnear := matchBoundary_near p buffer (skip p buffer buffer.length i)
      (buffer.getD (skip p buffer buffer.length i) 0)
    rw [h] at hnear
    exact Nat.le_trans hnear (hskip h0)
  · have hnear := matchBoundary_near p buffer i c
    rw [h] at hnear
    exact Nat.le_trans hnear hi

/-- An iteration whose skip, if any, ends before the end of the buffer goes on there at the latest. -/
theorem body_le {q : Parser} {cs : List Callback} {j : Nat} (hi : i < buffer.length)
    (hskip : p.state = .partDataStart ∨ p.state = .partData → p.index = 0 →
      skip p buffer buffer.length i < buffer.length)
    (h : body p buffer i = .next q cs j) : j ≤ buffer.length := by
  by_cases hs : p.state = .partDataStart
  · have hcong := skip_congr (q := { p with state := .partData, partDataMark := some i }) (p := p) buffer rfl
      buffer.length i
    simp only [body, hs] at h
    exact processPartData_le hi (fun h0 => by rw [hcong]; exact hskip (Or.inl hs) h0) h
  · by_cases hs' : p.state = .partData
    · simp only [body, hs'] at h
      exact processPartData_le hi (hskip (Or.inr hs')) h
    · have hnear := body_near buffer i ⟨hs, hs'⟩
      rw [h] at hnear
      exact Nat.le_trans hnear hi

end Ahead

/-! ## Up to a position in the middle of a buffer -/

section Until

variable {pat buffer : Bytes} {n i : Nat} {p : Parser} {r : Reader} {d : Delivery} {s sf : Scanner}

/-- When the part under way is over at `n`, a skip leaves room for a delimiter before `n`. -/
theorem skip_in_time (hpat : pat ≠ []) (h : Sim pat buffer i p r d s) (hs : p.state = .partDataStart ∨ p.state = .partData)
    (h0 : p.index = 0) (hi : i < buffer.length) (hrun : s.run pat (buffer.drop i) = some sf)
    (hsf : sf.state ≠ .partData) : skip p buffer buffer.length i + p.boundarySize ≤ buffer.length := by
  rw [h.state] at hs
  have hheld : s.held = [] := by
    rcases hs with hs | hs
    · exact (h.index.fresh (Or.inr hs)).2
    · exact List.eq_nil_of_length_eq_zero ((h.index.lead hs).1.symm.trans h0)
  obtain ⟨hle, hend, hopen, hscan⟩ := skip_spec buffer (p := p) (by rw [h.boundary]; exact hpat) buffer.length
    (Nat.le_of_lt hi)
  by_contra hlate
  -- too few bytes are left for a delimiter, so the scanner is still in the part
  rw [h.boundary] at hopen hscan
  rw [Parser.boundarySize, h.boundary] at hlate
  have hrest := (open_of_length pat (buffer.drop (skip p buffer buffer.length i)) []
    (by rw [List.length_nil, List.length_drop]; omega)).1
  have hall : Open pat s.held (buffer.drop i) := by
    rw [hheld, ← slice_append_drop buffer hle]
    exact open_append hopen (by rw [hscan]; exact hrest)
  have hne : buffer.drop i ≠ [] := by
    rw [drop_eq_cons hi]
    exact List.cons_ne_nil _ _
  have hpart : { s with state := .partData }.run pat (buffer.drop i) = some sf := by
    rcases hs with hs | hs
    · rw [← Scanner.run_partDataStart hs hne]
      exact hrun
    · rw [← hrun, ← hs]
  have hscanned := Scanner.run_partData pat (buffer.drop i) (s := { s with state := .partData }) rfl hall
  rw [hscanned, Option.some.injEq] at hpart
  exact hsf (hpart ▸ rfl)

/-- The byte loop follows the scanner up to the position `n` of a buffer, when no part is under way there. -/
theorem feedLoop_until (hpat : pat ≠ []) (hn : n ≤ buffer.length) (hsf : sf.state ≠ .partData) (halive : sf.state ≠ .parseError)
    (p₀ : Parser) (fuel : Nat) : ∀ {p : Parser} {r : Reader} {d : Delivery} {s : Scanner} {i : Nat} (calls : List Callback),
    loopFuel buffer i p.index ≤ fuel → i ≤ n → Sim pat (buffer.take n) i p r d s →
    s.run pat ((buffer.take n).drop i) = some sf →
    ∃ fuel' p' cs d', feedLoop p₀ buffer fuel p calls i = feedLoop p₀ buffer fuel' p' (calls ++ cs) n ∧
      loopFuel buffer n p'.index ≤ fuel' ∧ d.run (r.onCallbacks cs).2 = some d' ∧
      Sim pat (buffer.take n) n p' (r.onCallbacks cs).1 d' sf := by
  have hlen : (buffer.take n).length = n := by rw [List.length_take, Nat.min_eq_left hn]
  -- at `n` there is nothing to do
  have hdone : ∀ {fuel : Nat} {p : Parser} {r : Reader} {d : Delivery} {s : Scanner} (calls : List Callback),
      loopFuel buffer n p.index ≤ fuel → Sim pat (buffer.take n) n p r d s →
      s.run pat ((buffer.take n).drop n) = some sf →
      ∃ fuel' p' cs d', feedLoop p₀ buffer fuel p calls n = feedLoop p₀ buffer fuel' p' (calls ++ cs) n ∧
        loopFuel buffer n p'.index ≤ fuel' ∧ d.run (r.onCallbacks cs).2 = some d' ∧
        Sim pat (buffer.take n) n p' (r.onCallbacks cs).1 d' sf := by
    intro fuel p r d s calls hfuel h hrun
    rw [List.drop_of_length_le (Nat.le_of_eq hlen), Scanner.run_nil, Option.some.injEq] at hrun
    subst hrun
    exact ⟨fuel, p, [], d, by rw [List.append_nil], hfuel, rfl, h⟩
  induction fuel with
  | zero =>
    intro p r d s i calls hfuel hi h hrun
    have := length_le_of_loopFuel hfuel
    obtain rfl : i = n := by omega
    exact hdone calls hfuel h hrun
  | succ fuel ih =>
    intro p r d s i calls hfuel hi h hrun
    rcases Nat.eq_or_lt_of_le hi with rfl | hlt
    · exact hdone calls hfuel h hrun
    · have hpos : 0 < p.boundarySize := by
        rw [Parser.boundarySize, h.boundary]
        exact List.length_pos_iff.mpr hpat
      have hskip : p.state = .partDataStart ∨ p.state = .partData → p.index = 0 →
          skip p (buffer.take n) (buffer.take n).length i + p.boundarySize ≤ n := by
        intro hs h0
        have hroom := skip_in_time hpat h hs h0 (by omega) hrun hsf
        omega
      have hbody := body_sim hpat h (by omega) hrun
      have heq := body_take hpos hn hlt hskip
      rw [feedLoop, if_neg (by omega), ← heq]
      cases hb : body p (buffer.take n) i with
      | next p' cs j =>
        rw [hb] at hbody
        have hj := body_le (by omega) (fun hs h0 => by have := hskip hs h0; omega) hb
        rw [hlen] at hj
        obtain ⟨d', s', hd', hs', hr'⟩ := hbody
        rw [hlen, Nat.min_eq_left hj] at hs'
        have hmove := body_advances p buffer i
        rw [← heq, hb] at hmove
        have hless := loopFuel_lt (show i < buffer.length by omega) hmove
        obtain ⟨fuel', p₂, cs₂, d₂, hloop, hf₂, hd₂, hs₂⟩ := ih (calls ++ cs) (by omega) hj hs' hr'
        refine ⟨fuel', p₂, cs ++ cs₂, d₂, ?_, hf₂, ?_, ?_⟩
        · rw [← List.append_assoc]
          exact hloop
        · rw [Reader.onCallbacks_append, Delivery.run_append, hd']
          exact hd₂
        · rw [Reader.onCallbacks_append]
          exact hs₂
      | error p' msg =>
        rw [hb] at hbody
        exact absurd hbody.1 halive
      | stop p' => rw [hb] at hbody; exact hbody.elim
      | throw p' cs msg => rw [hb] at hbody; exact hbody.elim

end Until

/-! ## After the CR -/

section Cut

variable {pat buffer : Bytes} {r : Reader} {d : Delivery} {s sc : Scanner}

/-- After a CR in a header name: the parser wants LF, and nothing is marked. -/
structure Hanging (p : Parser) : Prop where
  state : p.state = .headersAlmostDone
  field : p.headerFieldMark = none
  value : p.headerValueMark = none
  data : p.partDataMark = none

/-- Any byte but LF is an error then. -/
theorem body_hanging {p : Parser} {i : Nat} (h : Hanging p) (hc : buffer.getD i 0 ≠ LF) :
    body p buffer i = .error p "Malformed header ending: LF expected after CR" := by
  simp only [body, h.state]
  rw [if_pos hc]

/-- A parser that waits for LF has nothing to flush. -/
theorem flush_hanging {p : Parser} (h : Hanging p) (buffer : Bytes) : flush p buffer = (p, []) := by
  cases p with
  | mk boundary lookbehind state flags index fieldMark valueMark dataMark reason =>
    obtain rfl : fieldMark = none := h.field
    obtain rfl : valueMark = none := h.value
    obtain rfl : dataMark = none := h.data
    rfl

/-- The parser's state and what has been delivered, between two buffers. -/
theorem Matches.state_delivery (h : Matches pat r d s) : r.parser.state = s.state ∧ d = s.delivery := by
  rcases h with h | ⟨hp, hs, hd⟩
  · have hdel := (h []).delivered
    refine ⟨(h []).state, ?_⟩
    have hnone : pending [] r.parser.partDataMark 0 = [] := by
      cases r.parser.partDataMark with
      | none => rfl
      | some m => simp [pending, slice]
    rw [hnone, Delivery.push_nil] at hdel
    exact hdel
  · exact ⟨hp.trans hs.symm, hd.symm⟩

/-- A reader that has rejected its input makes no more calls. -/
theorem feedAll_parseError (h : r.parser.state = .parseError) (chunks : List Bytes) :
    r.feedAll chunks = .returned r [] 0 := by
  induction chunks with
  | nil => rfl
  | cons b bs ih =>
    have hfeed : r.feed b = .returned r [] 0 := by
      rw [Reader.feed, feed, if_pos (Or.inl h)]
      rfl
    rw [Reader.feedAll, hfeed]
    simp only [ih]
    rfl

/-- A buffer with more bytes after a point at which a header name is under way: the byte loop comes to that point. -/
theorem feed_until {x y : Bytes} (hpat : pat ≠ []) (h : Matches pat r d s) (hrun : s.run pat x = some sc)
    (hsc : sc.state = .headerField) (hy : y ≠ []) : ∃ fuel p cs,
      feed r.parser (x ++ y) = feedLoop r.parser (x ++ y) fuel p cs x.length ∧ loopFuel (x ++ y) x.length p.index ≤ fuel ∧
      d.run (r.onCallbacks cs).2 = some sc.delivery ∧ Sim pat x x.length p (r.onCallbacks cs).1 sc.delivery sc := by
  have hsim : ∀ next : Bytes, Sim pat next 0 r.parser r d s := by
    rcases h with h | ⟨-, hs, -⟩
    · exact h
    · rw [Scanner.run_parseError hs, Option.some.injEq] at hrun
      rw [hrun, hsc] at hs
      cases hs
  have htake : (x ++ y).take x.length = x := List.take_left
  have hpart : sc.state ≠ .partData := by simp [hsc]
  have halive : sc.state ≠ .parseError := by simp [hsc]
  obtain ⟨fuel, p, cs, d', hloop, hfuel, hd', hs'⟩ := feedLoop_until hpat
    (show x.length ≤ (x ++ y).length by simp) hpart halive r.parser (2 * (x ++ y).length + 2) [] (loopFuel_start _ r.parser.index)
    (Nat.zero_le _) (by rw [htake]; exact hsim x) (by rw [htake, List.drop_zero]; exact hrun)
  rw [htake] at hs'
  have hdel : d' = sc.delivery := (hs'.push_eq (by simp [hsc])).symm
  have hstate : r.parser.state ≠ .parseError := by rw [(hsim x).state]; exact (hsim x).alive
  rw [hdel] at hd' hs'
  exact ⟨fuel, p, cs, by rw [feed, if_neg (by simp [hstate, hy]), hloop, List.nil_append], hfuel, hd', hs'⟩

/-- The buffer with the CR: what was delivered before it stands, and the parser has found an error if a byte follows. -/
theorem feed_cut {x y : Bytes} (hpat : pat ≠ []) (h : Matches pat r d s) (hrun : s.run pat x = some sc)
    (hsc : sc.state = .headerField) (hy : y.head? ≠ some LF) :
    ∃ r' calls ret, r.feed (x ++ CR :: y) = .returned r' calls ret ∧ d.run calls = some sc.delivery ∧
      (y = [] → Hanging r'.parser) ∧ (y ≠ [] → r'.parser.state = .parseError) := by
  obtain ⟨fuel, p, cs, hfeed, hfuel, hd', hs'⟩ := feed_until hpat h hrun hsc (show CR :: y ≠ [] by simp)
  have hlen : (x ++ CR :: y).length = x.length + (y.length + 1) := by simp
  have hvalue := hs'.valueMark.2 (by simp [hsc])
  have hdata := hs'.dataMark.2 (by simp [hsc])
  -- the CR
  have hcr : (x ++ CR :: y).getD x.length 0 = CR := by simp
  have hbody : body p (x ++ CR :: y) x.length =
      .next { p with headerFieldMark := none, state := .headersAlmostDone } [] (x.length + 1) := by
    simp only [body, hs'.state, hsc, hcr, headerField, if_true]
  have hhang : Hanging { p with headerFieldMark := none, state := .headersAlmostDone } := ⟨rfl, rfl, hvalue, hdata⟩
  obtain ⟨fuel, rfl⟩ : ∃ k, fuel = k + 2 := ⟨fuel - 2, by unfold loopFuel at hfuel; omega⟩
  rw [feedLoop, if_neg (by omega)] at hfeed
  simp only [hbody, List.append_nil] at hfeed
  cases y with
  | nil =>
    rw [feedLoop_end _ _ _ (by simp), flush_hanging hhang, List.append_nil] at hfeed
    exact ⟨_, _, _, by rw [Reader.feed, hfeed], hd', fun _ => hhang, by simp⟩
  | cons c y =>
    have hc : (x ++ CR :: c :: y).getD (x.length + 1) 0 ≠ LF := by
      have hget : (x ++ CR :: c :: y).getD (x.length + 1) 0 = c := by simp
      rw [hget]
      simpa using hy
    rw [feedLoop, if_neg (by simp)] at hfeed
    simp only [body_hanging hhang hc] at hfeed
    exact ⟨_, _, _, by rw [Reader.feed, hfeed], hd', by simp, fun _ => rfl⟩

/-- The buffer after it. -/
theorem feed_hanging (h : Hanging r.parser) (hb : buffer ≠ []) (hlf : buffer.head? ≠ some LF) :
    ∃ r' ret, r.feed buffer = .returned r' [] ret ∧ r'.parser.state = .parseError := by
  cases buffer with
  | nil => exact absurd rfl hb
  | cons c cs =>
    have hc : (c :: cs).getD 0 0 ≠ LF := by simpa using hlf
    have hfeed : feed r.parser (c :: cs) = feedLoop r.parser (c :: cs) (2 * (c :: cs).length + 2) r.parser [] 0 := by
      rw [feed, if_neg (by simp [h.state])]
    rw [feedLoop, if_neg (by simp)] at hfeed
    simp only [body_hanging h hc] at hfeed
    exact ⟨_, _, by rw [Reader.feed, hfeed]; rfl, rfl⟩

/-- The buffer in which a byte of the input comes: the first one, or a later one. -/
theorem append_eq_append_cons_cases {b rest u t : Bytes} {c : UInt8} (h : b ++ rest = u ++ c :: t) :
    (∃ u', u = b ++ u' ∧ rest = u' ++ c :: t) ∨ ∃ y, b = u ++ c :: y ∧ t = y ++ rest := by
  rcases List.append_eq_append_iff.mp h with ⟨u', hu, hrest⟩ | ⟨y, hb, hrest⟩
  · exact Or.inl ⟨u', hu, hrest⟩
  · cases y with
    | nil => exact Or.inl ⟨[], by simpa using hb.symm, by simpa using hrest.symm⟩
    | cons d y =>
      obtain ⟨rfl, ht⟩ : c = d ∧ t = y ++ rest := by simpa using hrest
      exact Or.inr ⟨y, hb, ht⟩

/-- A run over an input with a CR in a header name that no LF follows: what was delivered before the CR is all, and the run
ends with an error if a byte follows the CR. -/
theorem feedAll_cut (hpat : pat ≠ []) {t : Bytes} (hsc : sc.state = .headerField) (ht : t.head? ≠ some LF)
    (chunks : List Bytes) : ∀ {r : Reader} {d : Delivery} {s : Scanner} {u : Bytes}, (∀ b ∈ chunks, b ≠ []) →
    chunks.flatten = u ++ CR :: t → Matches pat r d s → s.run pat u = some sc →
    ∃ r' calls ret, r.feedAll chunks = .returned r' calls ret ∧ d.run calls = some sc.delivery ∧
      r'.parser.state = if t = [] then .headersAlmostDone else .parseError := by
  induction chunks with
  | nil => intro r d s u _ hflat _ _; simp at hflat
  | cons b bs ih =>
    intro r d s u hne hflat h hrun
    rw [List.flatten_cons] at hflat
    have hne' : ∀ x ∈ bs, x ≠ [] := fun x hx => hne x (List.mem_cons_of_mem b hx)
    rcases append_eq_append_cons_cases hflat with ⟨u', rfl, hrest⟩ | ⟨y, rfl, rfl⟩
    · -- the CR comes in a later buffer
      rw [Scanner.run_append] at hrun
      obtain ⟨s₁, hs₁, hrun₁⟩ := Option.bind_eq_some_iff.mp hrun
      obtain ⟨r₁, c₁, n₁, d₁, hf₁, hd₁, hm₁⟩ := feed_sim hpat h (hne b (by simp)) hs₁
      obtain ⟨r₂, c₂, n₂, hf₂, hd₂, hst⟩ := ih hne' hrest hm₁ hrun₁
      refine ⟨r₂, c₁ ++ c₂, n₁ + n₂, ?_, ?_, hst⟩
      · rw [Reader.feedAll, hf₁]
        simp only [hf₂]
      · rw [Delivery.run_append, hd₁]
        exact hd₂
    · have hy : y.head? ≠ some LF := by
        intro hc
        refine ht ?_
        rw [List.head?_append, hc]
        rfl
      obtain ⟨r₁, c₁, n₁, hf₁, hd₁, hhang, herr⟩ := feed_cut hpat h hrun hsc hy
      by_cases hy0 : y = []
      · subst hy0
        cases bs with
        | nil =>
          refine ⟨r₁, c₁ ++ [], n₁ + 0, ?_, by rw [List.append_nil]; exact hd₁, (hhang rfl).state⟩
          rw [Reader.feedAll, hf₁]
          rfl
        | cons b' bs' =>
          have hb' : b' ≠ [] := hne' b' (by simp)
          have hlf : b'.head? ≠ some LF := by
            cases b' with
            | nil => exact absurd rfl hb'
            | cons c cs => simpa using ht
          obtain ⟨r₂, n₂, hf₂, hst⟩ := feed_hanging (hhang rfl) hb' hlf
          refine ⟨r₂, c₁ ++ ([] ++ []), n₁ + (n₂ + 0), ?_, ?_, ?_⟩
          · rw [Reader.feedAll, hf₁]
            simp only [Reader.feedAll, hf₂, feedAll_parseError hst]
          · rw [List.append_nil, List.append_nil]
            exact hd₁
          · rw [hst, if_neg (by simp [hb'])]
      · refine ⟨r₁, c₁ ++ [], n₁ + 0, ?_, by rw [List.append_nil]; exact hd₁, ?_⟩
        · rw [Reader.feedAll, hf₁]
          simp only [feedAll_parseError (herr hy0)]
        · rw [herr hy0, if_neg (by simp [hy0])]

end Cut

/-- No header line of the input is ended by CR LF before its colon: the scanner is not in a header name before any CR LF. -/
def Uncut (b s : Bytes) : Prop :=
  ∀ u t sc, s = u ++ CR :: LF :: t → ({} : Scanner).run (delimiter b) u = some sc → ¬ sc.CutBy CR

/-- It is enough to look at the positions of the input. -/
theorem uncut_iff (b s : Bytes) : Uncut b s ↔ ∀ k < s.length, s[k]? = some CR → s[k + 1]? = some LF →
    ∀ sc ∈ ({} : Scanner).run (delimiter b) (s.take k), ¬ sc.CutBy CR := by
  constructor
  · intro h k hk hcr hlf sc hsc
    refine h (s.take k) (s.drop (k + 2)) sc ?_ hsc
    obtain ⟨hk', hc⟩ := List.getElem?_eq_some_iff.mp hcr
    obtain ⟨hk'', hl⟩ := List.getElem?_eq_some_iff.mp hlf
    conv_lhs => rw [← List.take_append_drop k s, List.drop_eq_getElem_cons hk', List.drop_eq_getElem_cons hk'', hc, hl]
  · rintro h u t sc rfl hrun
    refine h u.length (by simp) (by simp) (by simp) sc ?_
    rw [List.take_left]
    exact hrun

instance (b s : Bytes) : Decidable (Uncut b s) := decidable_of_iff _ (uncut_iff b s).symm

/-- **The cuts of the input do not matter**: every way to feed an input, none of whose header lines is ended by CR LF before
its colon, in buffers that are not empty gives the same observation, whatever the fresh memory held. -/
theorem feedAll_observed (b s : Bytes) (h : Uncut b s) : ∃ o, ∀ (fill : Nat → UInt8) (chunks : List Bytes),
    (∀ c ∈ chunks, c ≠ []) → chunks.flatten = s →
    ((({} : Reader).setBoundary (delimiter b) fill).feedAll chunks).observed = some o := by
  have hpat := delimiter_ne_nil b
  rcases Scanner.run_or_cutBy s (Scanner.regular_start (delimiter b)) with ⟨sf, hrun⟩ | ⟨u, t, sc, rfl, hrun, hcut⟩
  · refine ⟨⟨sf.delivery.calls, false, decide (sf.state = .parseError), decide (sf.state = .ended)⟩, ?_⟩
    intro fill chunks hne hflat
    obtain ⟨r', calls, ret, d', hf, hd, hm⟩ := feedAll_sim hpat chunks hne (matches_setBoundary fill) (hflat ▸ hrun)
    obtain ⟨hstate, rfl⟩ := hm.state_delivery
    rw [hf, observed_returned ret hd]
    simp [Reader.hasError, Reader.succeeded, Parser.hasError, Parser.succeeded, hstate]
  · have ht : t.head? ≠ some LF := by
      intro hlf
      cases t with
      | nil => cases hlf
      | cons c t =>
        obtain rfl : c = LF := by simpa using hlf
        exact h u t sc rfl hrun hcut
    refine ⟨⟨sc.delivery.calls, false, decide (t ≠ []), false⟩, ?_⟩
    intro fill chunks hne hflat
    obtain ⟨r', calls, ret, hf, hd, hstate⟩ := feedAll_cut hpat hcut.1 ht chunks hne hflat (matches_setBoundary fill) hrun
    rw [hf, observed_returned ret hd]
    by_cases h0 : t = []
    · simp [Reader.hasError, Reader.succeeded, Parser.hasError, Parser.succeeded, hstate, h0]
    · simp [Reader.hasError, Reader.succeeded, Parser.hasError, Parser.succeeded, hstate, h0]

/-- A part, and a second one whose first header line is malformed: its CR comes before a colon and no LF after it. -/
theorem feedAll_observed_malformed : ∃ o, ∀ (fill : Nat → UInt8) (chunks : List Bytes), (∀ c ∈ chunks, c ≠ []) →
    chunks.flatten = bytes "--x\r\nA: b\r\n\r\nhi\r\n--x\r\nab\r!" →
    ((({} : Reader).setBoundary (delimiter (bytes "x")) fill).feedAll chunks).observed = some o :=
  feedAll_observed (bytes "x") (bytes "--x\r\nA: b\r\n\r\nhi\r\n--x\r\nab\r!") (by decide +kernel)

/-- With the line `ab` in the header block of a first part, the header of the second part is called `A` when all comes in one
buffer, and `aA` when a buffer ends after the `a`. -/
theorem not_feedAll_observed : ¬ ∃ o, ∀ (fill : Nat → UInt8) (chunks : List Bytes), (∀ c ∈ chunks, c ≠ []) →
    chunks.flatten = bytes "--x\r\nab\r\nhi\r\n--x\r\nA: b\r\n\r\nyo\r\n--x--" →
    ((({} : Reader).setBoundary (delimiter (bytes "x")) fill).feedAll chunks).observed = some o := by
  rintro ⟨o, h⟩
  have hwhole := h (fun _ => 0) [bytes "--x\r\nab\r\nhi\r\n--x\r\nA: b\r\n\r\nyo\r\n--x--"] (by decide +kernel)
    (by decide +kernel)
  have hcut := h (fun _ => 0) [bytes "--x\r\na", bytes "b\r\nhi\r\n--x\r\nA: b\r\n\r\nyo\r\n--x--"] (by decide +kernel)
    (by decide +kernel)
  rw [← hcut] at hwhole
  revert hwhole
  decide +kernel

end Multipart
end Netcore
