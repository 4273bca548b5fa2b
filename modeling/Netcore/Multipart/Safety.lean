import Netcore.Multipart.Form

/-!
# When the multipart parser throws

`processPartData` throws when `index` has run past the lookbehind buffer. In `PART_DATA` itself it cannot: `index` counts
the bytes of one delimiter line, and the buffer has room for them (`Bounded`). But `HEADER_FIELD` counts the bytes of a
header name with the same `index`, and a CR before the colon goes to `HEADERS_ALMOST_DONE` without resetting it. A line of
more than `boundarySize + 8` letters, cut in this way, is what it takes (`Visit.LongCut`): `feedAll_not_threw` says that a
run without such a step never throws, and `feedAll_threw_long_cut` shows one that does.
-/

namespace Netcore
namespace Multipart

/-- Buffers passed to the parser's `feed` one after the other. -/
def feedAll (p : Parser) : List Bytes → FeedResult
  | [] => .returned p [] 0
  | b :: bs =>
    match feed p b with
    | .returned p₁ cs₁ ret₁ =>
      match feedAll p₁ bs with
      | .returned p₂ cs₂ ret₂ => .returned p₂ (cs₁ ++ cs₂) (ret₁ + ret₂)
      | .threw p₂ cs₂ msg => .threw p₂ (cs₁ ++ cs₂) msg
      | .running p₂ cs₂ => .running p₂ (cs₁ ++ cs₂)
    | .threw p₁ cs₁ msg => .threw p₁ cs₁ msg
    | .running p₁ cs₁ => .running p₁ cs₁

/-- One iteration of the byte loop: the parser before it and the byte it looks at. -/
structure Visit where
  parser : Parser
  byte : UInt8
  deriving DecidableEq, Repr

/-- The iterations of the byte loop from `i` on. -/
def loopVisits (buffer : Bytes) : Nat → Parser → Nat → List Visit
  | 0, _, _ => []
  | fuel + 1, p, i =>
    if buffer.length ≤ i then []
    else
      ⟨p, buffer.getD i 0⟩ ::
        match body p buffer i with
        | .next p' _ j => loopVisits buffer fuel p' j
        | _ => []

/-- The iterations of one `feed`. -/
def feedVisits (p : Parser) (buffer : Bytes) : List Visit :=
  if p.state = .parseError ∨ buffer.length = 0 then [] else loopVisits buffer (2 * buffer.length + 2) p 0

/-- The iterations of a run: of every `feed` in turn, up to one that throws. -/
def visits (p : Parser) : List Bytes → List Visit
  | [] => []
  | b :: bs =>
    feedVisits p b ++
      match feed p b with
      | .returned p' _ _ => visits p' bs
      | _ => []

/-- A CR cuts a header line before its colon, after more bytes than the lookbehind buffer has. -/
def Visit.LongCut (v : Visit) : Prop :=
  v.parser.state = .headerField ∧ v.byte = CR ∧ v.parser.boundarySize + 8 < v.parser.index

instance (v : Visit) : Decidable v.LongCut := inferInstanceAs (Decidable (_ ∧ _ ∧ _))

/-- The exception `std::out_of_range` left the call. -/
def FeedResult.isThrow : FeedResult → Bool
  | .threw _ _ _ => true
  | _ => false

/-- What keeps a parser from throwing: from the blank line of a header block to the end of the part, `index` is within the
lookbehind buffer. -/
structure Bounded (p : Parser) : Prop where
  look : p.lookbehindSize = p.boundarySize + 8
  live : p.state ≠ .parseError ∧ p.state ≠ .partEnd
  index : p.state = .headersAlmostDone ∨ p.state = .partDataStart ∨ p.state = .partData → p.index ≤ p.boundarySize + 8

/-- An iteration that goes on with a bounded parser, or reports malformed input. -/
def Iter.Safe : Iter → Prop
  | .next p _ _ => Bounded p
  | .error _ _ => True
  | .stop _ => False
  | .throw _ _ _ => False

/-! ## One iteration -/

theorem startBoundary_safe {p : Parser} (h : p.lookbehindSize = p.boundarySize + 8) (hs : p.state = .startBoundary) (i : Nat)
    (c : UInt8) : (startBoundary p i c).Safe := by
  have hmore : Bounded { p with index := p.index + 1 } := ⟨h, by simp [hs], by simp [hs]⟩
  have hline : Bounded { p with index := 0, state := .headerFieldStart } := ⟨h, by simp, by simp⟩
  unfold startBoundary
  split_ifs
  · trivial
  · exact hmore
  · trivial
  · exact hline
  · trivial
  · exact hmore

/-- A CR in a header name hands `index` on to the part data; it has to be small. -/
theorem headerField_safe {p : Parser} (h : p.lookbehindSize = p.boundarySize + 8) (hs : p.state = .headerField)
    (buffer : Bytes) (i : Nat) (c : UInt8) (hcut : c = CR → p.index ≤ p.boundarySize + 8) :
    (headerField p buffer i c).Safe := by
  have hmore : Bounded { p with index := p.index + 1 } := ⟨h, by simp [hs], by simp [hs]⟩
  unfold headerField
  simp only
  split_ifs with h1
  · exact ⟨h, by simp, fun _ => hcut h1⟩
  · exact hmore
  · trivial
  · exact ⟨h, by simp, by simp⟩
  · trivial
  · exact hmore

theorem headerValue_safe {p : Parser} (h : p.lookbehindSize = p.boundarySize + 8) (hs : p.state = .headerValue)
    (buffer : Bytes) (i : Nat) (c : UInt8) : (headerValue p buffer i c).Safe := by
  unfold headerValue
  split_ifs
  · exact ⟨h, by simp, by simp⟩
  · exact ⟨h, by simp [hs], by simp [hs]⟩

/-- A byte is kept inside the lookbehind buffer, or replayed. -/
theorem keepOrReplay_safe {p : Parser} (h : p.lookbehindSize = p.boundarySize + 8)
    (hs : p.state ≠ .parseError ∧ p.state ≠ .partEnd) (hi : p.index ≤ p.boundarySize + 8)
    (calls : List Callback) (prevIndex i : Nat) (c : UInt8) : (keepOrReplay p calls prevIndex i c).Safe := by
  unfold keepOrReplay
  split_ifs with h1 h2 h3
  · exact absurd h2 (by omega)
  · refine ⟨?_, hs, fun _ => hi⟩
    simp only [Parser.lookbehindSize, List.length_set]
    exact h
  · exact ⟨h, hs, fun _ => hi⟩
  · exact ⟨h, hs, fun _ => hi⟩

/-- Every branch of the comparison leaves `index` alone, resets it, or counts one more byte of a delimiter line. -/
theorem matchBoundary_safe {p : Parser} (h : p.lookbehindSize = p.boundarySize + 8) (hs : p.state = .partData)
    (hi : p.index ≤ p.boundarySize + 8) (buffer : Bytes) (i : Nat) (c : UInt8) : (matchBoundary p buffer i c).Safe := by
  have hlive : p.state ≠ .parseError ∧ p.state ≠ .partEnd := by simp [hs]
  have hreset : (keepOrReplay { p with index := 0 } [] p.index i c).Safe :=
    keepOrReplay_safe (p := { p with index := 0 }) h hlive (Nat.zero_le _) _ _ _ _
  have hmore : ∀ (fl : Flags) (mark : Option Nat) (calls : List Callback), p.index + 1 ≤ p.boundarySize + 8 →
      (keepOrReplay { p with index := p.index + 1, flags := fl, partDataMark := mark } calls p.index i c).Safe :=
    fun fl mark calls hle =>
      keepOrReplay_safe (p := { p with index := p.index + 1, flags := fl, partDataMark := mark }) h hlive hle _ _ _ _
  unfold matchBoundary
  split_ifs
  · exact hmore _ _ _ (by omega)
  · exact hmore _ _ _ (by omega)
  · exact hreset
  · exact hmore _ _ _ (by omega)
  · exact hmore _ _ _ (by omega)
  · exact hreset
  · exact ⟨h, by simp, by simp⟩
  · exact hreset
  · exact keepOrReplay_safe (p := { p with state := .ended }) h (by simp) hi _ _ _ _
  · exact hreset
  · exact hreset
  · exact hmore _ _ _ (by omega)
  · exact hreset
  · exact ⟨h, by simp, by simp⟩
  · exact hreset
  · exact keepOrReplay_safe h hlive hi _ _ _ _

theorem processPartData_safe {p : Parser} (h : p.lookbehindSize = p.boundarySize + 8) (hs : p.state = .partData)
    (hi : p.index ≤ p.boundarySize + 8) (buffer : Bytes) (i : Nat) (c : UInt8) : (processPartData p buffer i c).Safe := by
  unfold processPartData
  simp only
  split_ifs
  · exact ⟨h, by simp [hs], fun _ => hi⟩
  · exact matchBoundary_safe h hs hi _ _ _
  · exact matchBoundary_safe h hs hi _ _ _

/-- An iteration from a bounded parser that is no long cut does not throw, and leaves a bounded parser. -/
theorem body_safe {p : Parser} (h : Bounded p) (buffer : Bytes) (i : Nat)
    (hcut : ¬ Visit.LongCut ⟨p, buffer.getD i 0⟩) : (body p buffer i).Safe := by
  unfold body
  simp only
  cases hs : p.state with
  | parseError => exact absurd hs h.live.1
  | start => exact startBoundary_safe (p := { p with index := 0, state := .startBoundary }) h.look rfl _ _
  | startBoundary => exact startBoundary_safe h.look hs _ _
  | headerFieldStart =>
    exact headerField_safe (p := { p with state := .headerField, headerFieldMark := some i, index := 0 }) h.look rfl _ _ _
      (fun _ => Nat.zero_le _)
  | headerField =>
    refine headerField_safe h.look hs _ _ _ (fun hc => ?_)
    by_contra hlong
    exact hcut ⟨hs, hc, by simp only; omega⟩
  | headerValueStart =>
    simp only
    split_ifs
    · exact h
    · exact headerValue_safe (p := { p with headerValueMark := some i, state := .headerValue }) h.look rfl _ _ _
  | headerValue => exact headerValue_safe h.look hs _ _ _
  | headerValueAlmostDone =>
    simp only
    split_ifs
    · trivial
    · exact ⟨h.look, by simp, by simp⟩
  | headersAlmostDone =>
    simp only
    split_ifs
    · trivial
    · exact ⟨h.look, by simp, fun _ => h.index (Or.inl hs)⟩
  | partDataStart =>
    exact processPartData_safe (p := { p with state := .partData, partDataMark := some i }) h.look rfl
      (h.index (Or.inr (Or.inl hs))) _ _ _
  | partData => exact processPartData_safe h.look hs (h.index (Or.inr (Or.inr hs))) _ _ _
  | partEnd => exact absurd hs h.live.2
  | ended => exact h

/-! ## Runs -/

theorem flush_bounded {p : Parser} (h : Bounded p) (buffer : Bytes) : Bounded (flush p buffer).1 := ⟨h.look, h.live, h.index⟩

/-- A result that is no exception: a parser that has rejected its input, or a bounded one. -/
def FeedResult.Safe : FeedResult → Prop
  | .returned p _ _ => p.state = .parseError ∨ Bounded p
  | .threw _ _ _ => False
  | .running _ _ => False

/-- The byte loop from a bounded parser, when no iteration of it is a long cut. -/
theorem feedLoop_safe (p₀ : Parser) (buffer : Bytes) (fuel : Nat) : ∀ {p : Parser} {i : Nat} (calls : List Callback),
    loopFuel buffer i p.index ≤ fuel → Bounded p → (∀ v ∈ loopVisits buffer fuel p i, ¬ v.LongCut) →
    (feedLoop p₀ buffer fuel p calls i).Safe := by
  induction fuel with
  | zero =>
    intro p i calls hfuel h _
    rw [feedLoop_end p₀ 0 calls (length_le_of_loopFuel hfuel)]
    exact Or.inr (flush_bounded h buffer)
  | succ fuel ih =>
    intro p i calls hfuel h hv
    rw [feedLoop]
    rw [loopVisits] at hv
    split_ifs at hv ⊢ with hi
    · exact Or.inr (flush_bounded h buffer)
    · have hbody := body_safe h buffer i (hv _ (by simp))
      cases hb : body p buffer i with
      | next p' cs j =>
        rw [hb] at hv hbody
        have hmove := body_advances p buffer i
        rw [hb] at hmove
        have hless := loopFuel_lt (Nat.not_le.mp hi) hmove
        exact ih (calls ++ cs) (by omega) hbody (fun v hm => hv v (List.mem_cons_of_mem _ hm))
      | error p' msg => exact Or.inl rfl
      | stop p' => rw [hb] at hbody; exact hbody.elim
      | throw p' cs msg => rw [hb] at hbody; exact hbody.elim

/-- One call of `feed`. -/
theorem feed_safe {p : Parser} (h : p.state = .parseError ∨ Bounded p) (buffer : Bytes)
    (hv : ∀ v ∈ feedVisits p buffer, ¬ v.LongCut) : (feed p buffer).Safe := by
  unfold feed
  unfold feedVisits at hv
  split_ifs at hv ⊢ with hc
  · exact h
  · rcases h with h | h
    · exact absurd (Or.inl h) hc
    · exact feedLoop_safe p buffer _ [] (loopFuel_start buffer p.index) h hv

/-- A run of `feed` calls. -/
theorem feedAll_safe (chunks : List Bytes) : ∀ {p : Parser}, p.state = .parseError ∨ Bounded p →
    (∀ v ∈ visits p chunks, ¬ v.LongCut) → (feedAll p chunks).Safe := by
  induction chunks with
  | nil => intro p h _; exact h
  | cons b bs ih =>
    intro p h hv
    rw [visits] at hv
    have hfeed := feed_safe h b (fun v hm => hv v (List.mem_append_left _ hm))
    rw [feedAll]
    cases hf : feed p b with
    | returned p₁ cs₁ ret₁ =>
      rw [hf] at hfeed hv
      simp only
      have hrest := ih hfeed (fun v hm => hv v (List.mem_append_right _ hm))
      cases hr : feedAll p₁ bs with
      | returned p₂ cs₂ ret₂ => rw [hr] at hrest; exact hrest
      | threw p₂ cs₂ msg => rw [hr] at hrest; exact hrest.elim
      | running p₂ cs₂ => rw [hr] at hrest; exact hrest.elim
    | threw p₁ cs₁ msg => rw [hf] at hfeed; exact hfeed.elim
    | running p₁ cs₁ => rw [hf] at hfeed; exact hfeed.elim

/-- `set_boundary` makes room for a delimiter and eight bytes more. -/
theorem bounded_setBoundary (boundary : Bytes) (fill : Nat → UInt8) : Bounded (Parser.setBoundary boundary fill) :=
  ⟨by simp [Parser.lookbehindSize, Parser.boundarySize, Parser.setBoundary], by simp [Parser.setBoundary],
    by simp [Parser.setBoundary]⟩

/-- **The parser does not throw** in a run in which no CR cuts a header line of more than `boundarySize + 8` bytes before
its colon: every `feed` of it returns. -/
theorem feedAll_not_threw (b : Bytes) (fill : Nat → UInt8) (chunks : List Bytes)
    (hv : ∀ v ∈ visits (Parser.setBoundary (delimiter b) fill) chunks, ¬ v.LongCut) :
    ∃ q calls ret, feedAll (Parser.setBoundary (delimiter b) fill) chunks = .returned q calls ret := by
  have hsafe := feedAll_safe chunks (Or.inr (bounded_setBoundary (delimiter b) fill)) hv
  revert hsafe
  cases feedAll (Parser.setBoundary (delimiter b) fill) chunks with
  | returned p cs ret => intro _; exact ⟨p, cs, ret, rfl⟩
  | threw p cs msg => intro hsafe; exact hsafe.elim
  | running p cs => intro hsafe; exact hsafe.elim

/-- A body with a short header line that its CR cuts, in two buffers. -/
theorem feedAll_not_threw_short_cut : ∃ q calls ret,
    feedAll (Parser.setBoundary (delimiter (bytes "x")) (fun _ => 0)) [bytes "--x\r\nab", bytes "c\r\nhi"] =
      .returned q calls ret :=
  feedAll_not_threw (bytes "x") (fun _ => 0) [bytes "--x\r\nab", bytes "c\r\nhi"] (by decide +kernel)

/-- Under the boundary `x`, whose delimiter has five bytes, a header line of fourteen letters without a colon is enough. -/
theorem feedAll_threw_long_cut :
    (feedAll (Parser.setBoundary (delimiter (bytes "x")) (fun _ => 0)) [bytes "--x\r\nabcdefghijklmn\r\n!"]).isThrow =
      true := by
  decide +kernel

end Multipart
end Netcore
