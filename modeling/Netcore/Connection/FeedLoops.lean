import Netcore.Connection
import Netcore.Lib.Loops
import Netcore.Multipart.Chunking

/-!
# The loops that feed the parser

`feed` has a loop over the bytes of the buffer, `processPartData` one in it that skips boundary lengths, and `parse_multipart` one
around it. Here each of them is given by its iteration alone, with the counter of the byte loop as the `size_t` it is: a replayed
byte takes it one back, at 0 to the greatest `size_t`, and the `i++` of the `for` takes it forward again.

`feed_loops_end` says that all three end, for every boundary that `get_content_type` can set and every state that a parser can get
into, and that what they end with is what the model computes with its fuel.
-/

namespace Netcore

open Loops

namespace Multipart

/-! ## The skip loop -/

/-- One iteration of the skip loop of `processPartData`. -/
def skipStep (p : Parser) (buffer : Bytes) (i : Nat) : Nat ⊕ Nat :=
  if i + p.boundarySize ≤ buffer.length then
    if p.isBoundaryChar (buffer.getD (i + (p.boundarySize - 1)) 0) then .inr i else .inl (i + p.boundarySize)
  else .inr i

/-- The loop of the skip ends where it is. -/
theorem skipStep_inr {p : Parser} {buffer : Bytes} {i j : Nat} (h : skipStep p buffer i = .inr j) : j = i := by
  unfold skipStep at h
  split_ifs at h
  · exact (Sum.inr.inj h).symm
  · exact (Sum.inr.inj h).symm

/-- What the loop ends with is what `skip` computes with that much fuel. -/
theorem skip_of_ends {p : Parser} {buffer : Bytes} {i n j : Nat} (h : Ends (skipStep p buffer) i n j) {fuel : Nat} (hn : n ≤ fuel) :
    skip p buffer fuel i = j := by
  obtain ⟨k, hsteps, hend⟩ := h
  induction hsteps generalizing fuel with
  | refl i =>
    obtain rfl := skipStep_inr hend
    cases fuel with
    | zero => rfl
    | succ fuel =>
      unfold skipStep at hend
      rw [skip]
      split_ifs at hend ⊢
      · rfl
      · rfl
  | head hs _ ih =>
    cases fuel with
    | zero => exact absurd hn (Nat.not_succ_le_zero _)
    | succ fuel =>
      unfold skipStep at hs
      split_ifs at hs with h1 h2
      rw [skip, if_pos h1, if_neg h2, Sum.inl.inj hs]
      exact ih (Nat.le_of_succ_le_succ hn) hend

/-- With a boundary that is not empty, every iteration leaves fewer bytes. -/
theorem skip_ends {p : Parser} (hp : 0 < p.boundarySize) (buffer : Bytes) (i : Nat) :
    ∃ n, n ≤ buffer.length ∧ Ends (skipStep p buffer) i n (skip p buffer buffer.length i) := by
  have hstep : ∀ s t, True → skipStep p buffer s = .inl t → True ∧ buffer.length - t < buffer.length - s := by
    intro s t _ hs
    unfold skipStep at hs
    split_ifs at hs with h1 h2
    have ht := Sum.inl.inj hs
    exact ⟨trivial, by omega⟩
  obtain ⟨n, j, hn, hj⟩ := exists_ends hstep buffer.length i trivial (Nat.sub_le _ _)
  rw [skip_of_ends hj hn]
  exact ⟨n, hn, hj⟩

/-! ## The byte loop -/

/-- Where the byte loop of `feed` stands: the parser, the calls so far, and the counter. -/
abbrev FeedState := Parser × List Callback × Nat

/-- The counter after the `switch`, when it is to be `j` after the `i++`. -/
def counterBefore (j : Nat) : Nat := sizeT ((j : Int) - 1)

/-- The `i++` of the `for`. -/
def increment (i : Nat) : Nat := sizeT ((i : Int) + 1)

/-- A counter that was taken back at 0 comes back to it. -/
theorem increment_counterBefore {j : Nat} (h : j < 18446744073709551616) : increment (counterBefore j) = j := by
  unfold increment counterBefore sizeT
  omega

/-- One iteration of the byte loop of `feed`, or its end; `p₀` is the parser when `feed` was called. -/
def feedStep (p₀ : Parser) (buffer : Bytes) : FeedState → FeedState ⊕ FeedResult
  | (p, calls, i) =>
    if buffer.length ≤ i then .inr (.returned (flush p buffer).1 (calls ++ (flush p buffer).2) buffer.length)
    else
      match body p buffer i with
      | .next p' cs j => .inl (p', calls ++ cs, increment (counterBefore j))
      | .error p' msg =>
        .inr (.returned { p' with state := .parseError, errorReason := msg, index := p₀.index, flags := p₀.flags } calls i)
      | .stop p' => .inr (.returned { p' with index := p₀.index, flags := p₀.flags, state := p₀.state } calls i)
      | .throw p' cs msg => .inr (.threw { p' with index := p₀.index, flags := p₀.flags } (calls ++ cs) msg)

/-- The boundary stays, and an exception leaves the parser in `PARSE_ERROR`. -/
def Iter.Keeps (b : Bytes) : Iter → Prop
  | .next p _ _ | .error p _ | .stop p => p.boundary = b
  | .throw p _ _ => p.boundary = b ∧ p.state = .parseError

/-- A false lead keeps the boundary. -/
theorem keepOrReplay_keeps (p : Parser) (calls : List Callback) (prevIndex i : Nat) (c : UInt8) :
    (keepOrReplay p calls prevIndex i c).Keeps p.boundary := by
  unfold keepOrReplay
  split_ifs
  · exact ⟨rfl, rfl⟩
  · exact rfl
  · exact rfl
  · exact rfl

/-- A match with the delimiter keeps the boundary. -/
theorem matchBoundary_keeps (p : Parser) (buffer : Bytes) (i : Nat) (c : UInt8) : (matchBoundary p buffer i c).Keeps p.boundary := by
  unfold matchBoundary
  split_ifs
  all_goals first
    | exact keepOrReplay_keeps _ _ _ _ _
    | exact rfl

/-- `process_part_data` keeps the boundary. -/
theorem processPartData_keeps (p : Parser) (buffer : Bytes) (i : Nat) (c : UInt8) :
    (processPartData p buffer i c).Keeps p.boundary := by
  unfold processPartData
  simp only
  split_ifs
  · exact rfl
  · exact matchBoundary_keeps _ _ _ _
  · exact matchBoundary_keeps _ _ _ _

/-- Every iteration keeps the boundary. -/
theorem body_keeps (p : Parser) (buffer : Bytes) (i : Nat) : (body p buffer i).Keeps p.boundary := by
  unfold body startBoundary headerField headerValue
  simp only
  cases p.state with
  | partDataStart => exact processPartData_keeps _ _ _ _
  | partData => exact processPartData_keeps _ _ _ _
  | _ =>
    simp only
    first
      | exact rfl
      | (split_ifs <;> exact rfl)

/-- The skip ends within the buffer. -/
theorem skip_le (p : Parser) (buffer : Bytes) (fuel : Nat) : ∀ {i : Nat}, i ≤ buffer.length →
    skip p buffer fuel i ≤ buffer.length := by
  induction fuel with
  | zero => exact id
  | succ fuel ih =>
    intro i hi
    rw [skip]
    split_ifs with h
    · exact hi
    · exact ih h
    · exact hi

/-- An iteration ends at most one byte behind the buffer, so its counter does not wrap. -/
theorem processPartData_le_succ {p q : Parser} {buffer : Bytes} {i j : Nat} {c : UInt8} {cs : List Callback} (hi : i < buffer.length)
    (h : processPartData p buffer i c = .next q cs j) : j ≤ buffer.length + 1 := by
  have hle := skip_le p buffer buffer.length (Nat.le_of_lt hi)
  unfold processPartData at h
  simp only at h
  split_ifs at h with h0 hend
  · cases h
    omega
  · have hnear := matchBoundary_near p buffer (skip p buffer buffer.length i) (buffer.getD (skip p buffer buffer.length i) 0)
    rw [h] at hnear
    exact hnear.trans (Nat.succ_le_succ hle)
  · have hnear := matchBoundary_near p buffer i c
    rw [h] at hnear
    exact hnear.trans (by omega)

/-- The counter gets at most one behind the end of the buffer. -/
theorem body_le_succ {p q : Parser} {buffer : Bytes} {i j : Nat} {cs : List Callback} (hi : i < buffer.length)
    (h : body p buffer i = .next q cs j) : j ≤ buffer.length + 1 := by
  by_cases hs : p.state ≠ .partDataStart ∧ p.state ≠ .partData
  · have hnear := body_near buffer i hs
    rw [h] at hnear
    exact hnear.trans (by omega)
  · unfold body at h
    simp only at h
    cases hp : p.state with
    | partDataStart =>
      rw [hp] at h
      exact processPartData_le_succ hi h
    | partData =>
      rw [hp] at h
      exact processPartData_le_succ hi h
    | _ => exact absurd hs (by simp [hp])

/-- What an iteration of the loop that goes on does. -/
theorem feedStep_inl {p₀ p q : Parser} {buffer : Bytes} {calls cs : List Callback} {i j : Nat}
    (hlen : buffer.length + 1 < 18446744073709551616) (h : feedStep p₀ buffer (p, calls, i) = .inl (q, cs, j)) :
    i < buffer.length ∧ ∃ cs', body p buffer i = .next q cs' j ∧ cs = calls ++ cs' := by
  simp only [feedStep] at h
  split_ifs at h with hi
  have hi' : i < buffer.length := Nat.not_le.mp hi
  cases hb : body p buffer i with
  | next q' cs' j' =>
    have hj := body_le_succ hi' hb
    have hcount : increment (counterBefore j') = j' := increment_counterBefore (by omega)
    simp only [hb, hcount, Sum.inl.injEq, Prod.mk.injEq] at h
    obtain ⟨rfl, rfl, rfl⟩ := h
    exact ⟨hi', cs', rfl, rfl⟩
  | error q' msg =>
    rw [hb] at h
    cases h
  | stop q' =>
    rw [hb] at h
    cases h
  | throw q' cs' msg =>
    rw [hb] at h
    cases h

/-- What the loop ends with is what `feedLoop` computes with more fuel than that. -/
theorem feedLoop_of_ends {p₀ : Parser} {buffer : Bytes} (hlen : buffer.length + 1 < 18446744073709551616) {s : FeedState} {n : Nat}
    {r : FeedResult} (h : Ends (feedStep p₀ buffer) s n r) {fuel : Nat} (hn : n < fuel) :
    feedLoop p₀ buffer fuel s.1 s.2.1 s.2.2 = r := by
  obtain ⟨t, hsteps, hend⟩ := h
  induction hsteps generalizing fuel with
  | refl s =>
    obtain ⟨p, calls, i⟩ := s
    obtain ⟨fuel, rfl⟩ := Nat.exists_eq_succ_of_ne_zero (Nat.ne_of_gt hn)
    simp only [feedStep] at hend
    rw [feedLoop]
    split_ifs at hend ⊢ with hi
    · exact Sum.inr.inj hend
    · cases hb : body p buffer i with
      | next q cs j =>
        rw [hb] at hend
        cases hend
      | error q msg =>
        rw [hb] at hend
        exact Sum.inr.inj hend
      | stop q =>
        rw [hb] at hend
        exact Sum.inr.inj hend
      | throw q cs msg =>
        rw [hb] at hend
        exact Sum.inr.inj hend
  | @head s t _ _ hs _ ih =>
    obtain ⟨p, calls, i⟩ := s
    obtain ⟨q, cs, j⟩ := t
    obtain ⟨fuel, rfl⟩ := Nat.exists_eq_succ_of_ne_zero (Nat.ne_of_gt (Nat.zero_lt_of_lt hn))
    obtain ⟨hi, cs', hb, rfl⟩ := feedStep_inl hlen hs
    simp only [feedLoop, if_neg (Nat.not_le.mpr hi), hb]
    exact ih (by omega) hend

/-- A step of the loop keeps the boundary. -/
theorem feedStep_boundary {p₀ : Parser} {b buffer : Bytes} (hlen : buffer.length + 1 < 18446744073709551616) (s t : FeedState)
    (hs : s.1.boundary = b) (h : feedStep p₀ buffer s = .inl t) : t.1.boundary = b := by
  obtain ⟨-, cs, hbody, -⟩ := feedStep_inl hlen h
  have hkeeps := body_keeps s.1 buffer s.2.2
  rw [hbody] at hkeeps
  exact hkeeps.trans hs

/-- An iteration that goes on keeps the parser alive, and leaves fewer of the iterations that are enough. -/
theorem feedStep_live {p₀ : Parser} {buffer : Bytes} (hlen : buffer.length + 1 < 18446744073709551616) (s t : FeedState)
    (hs : s.1.Live) (h : feedStep p₀ buffer s = .inl t) :
    t.1.Live ∧ loopFuel buffer t.2.2 t.1.index < loopFuel buffer s.2.2 s.1.index := by
  obtain ⟨hi, cs, hbody, -⟩ := feedStep_inl hlen h
  have hlive := body_live hs buffer s.2.2
  have hmove := body_advances s.1 buffer s.2.2
  rw [hbody] at hlive hmove
  exact ⟨hlive, loopFuel_lt hi hmove⟩

/-- The byte loop ends, after at most two iterations for each byte and one more. -/
theorem feedStep_ends {p : Parser} (hp : p.Live) {buffer : Bytes} (hne : buffer ≠ [])
    (hlen : buffer.length + 1 < 18446744073709551616) :
    ∃ n, n ≤ 2 * buffer.length + 1 ∧ Ends (feedStep p buffer) (p, [], 0) n (feed p buffer) := by
  have hfuel : loopFuel buffer 0 p.index ≤ 2 * buffer.length + 1 := by
    unfold loopFuel
    split_ifs <;> omega
  obtain ⟨n, r, hn, hr⟩ := exists_ends (feedStep_live hlen) _ (p, [], 0) hp hfuel
  have hstart : ¬(p.state = .parseError ∨ buffer.length = 0) := not_or.mpr ⟨hp.1, fun h => hne (List.length_eq_zero_iff.mp h)⟩
  have hfeed : feed p buffer = r := by
    rw [feed, if_neg hstart]
    exact feedLoop_of_ends hlen hr (Nat.lt_succ_of_le hn)
  rw [hfeed]
  exact ⟨n, hn, hr⟩

/-! ## The states of a parser -/

/-- The states that a parser with the boundary `b` can get into, by calls of `feed` one after the other. -/
inductive Parser.Reachable (b : Bytes) : Parser → Prop where
  | setBoundary (fill : Nat → UInt8) : Reachable b (Parser.setBoundary b fill)
  | returned {p p' : Parser} {buffer : Bytes} {calls : List Callback} {ret : Nat} :
      Reachable b p → feed p buffer = .returned p' calls ret → Reachable b p'
  | threw {p p' : Parser} {buffer : Bytes} {calls : List Callback} {message : String} :
      Reachable b p → feed p buffer = .threw p' calls message → Reachable b p'

/-- The parser that a call leaves has the boundary `b` and is not in `PART_END`, which no branch of `feed` sets. -/
def FeedResult.Keeps (b : Bytes) : FeedResult → Prop
  | .returned p _ _ | .threw p _ _ | .running p _ => p.boundary = b ∧ p.state ≠ .partEnd

/-- By induction on the fuel: the loop keeps the boundary. -/
theorem feedLoop_keeps (p₀ : Parser) {b : Bytes} (buffer : Bytes) (fuel : Nat) : ∀ {p : Parser} (calls : List Callback) (i : Nat),
    p.boundary = b → p.Live → (feedLoop p₀ buffer fuel p calls i).Keeps b := by
  induction fuel with
  | zero =>
    intro p calls i hb hp
    rw [feedLoop]
    split_ifs
    · exact ⟨hb, hp.2⟩
    · exact ⟨hb, hp.2⟩
  | succ fuel ih =>
    intro p calls i hb hp
    rw [feedLoop]
    split_ifs
    · exact ⟨hb, hp.2⟩
    · have hkeeps := body_keeps p buffer i
      have hlive := body_live hp buffer i
      cases hbody : body p buffer i with
      | next q cs j =>
        rw [hbody] at hkeeps hlive
        exact ih _ j (hkeeps.trans hb) hlive
      | error q msg =>
        rw [hbody] at hkeeps
        exact ⟨hkeeps.trans hb, by simp⟩
      | stop q =>
        rw [hbody] at hlive
        exact hlive.elim
      | throw q cs msg =>
        rw [hbody] at hkeeps
        exact ⟨hkeeps.1.trans hb, by simp [hkeeps.2]⟩

/-- A call of `feed` keeps the boundary. -/
theorem feed_keeps {p : Parser} {b : Bytes} (hb : p.boundary = b) (hp : p.state ≠ .partEnd) (buffer : Bytes) :
    (feed p buffer).Keeps b := by
  unfold feed
  split_ifs with h
  · exact ⟨hb, hp⟩
  · exact feedLoop_keeps p buffer _ [] 0 hb ⟨fun he => h (.inl he), hp⟩

/-- A parser that can be reached has its boundary, and it is live unless it is in `PARSE_ERROR`. -/
theorem Parser.Reachable.keeps {b : Bytes} {p : Parser} (h : p.Reachable b) : p.boundary = b ∧ p.state ≠ .partEnd := by
  induction h with
  | setBoundary fill => exact ⟨rfl, by simp [Parser.setBoundary]⟩
  | @returned p _ buffer _ _ _ hf ih =>
    have hkeeps := feed_keeps ih.1 ih.2 buffer
    rw [hf] at hkeeps
    exact hkeeps
  | @threw p _ buffer _ _ _ hf ih =>
    have hkeeps := feed_keeps ih.1 ih.2 buffer
    rw [hf] at hkeeps
    exact hkeeps

/-- How a call of `feed` may end: with the whole buffer taken; with the offset at which an iteration of the loop met an error, none
before it having done so; at once, in `PARSE_ERROR`; or with an exception. -/
def FeedResult.Proper (p : Parser) (buffer : Bytes) : FeedResult → Prop
  | .returned _ _ ret =>
    ret = buffer.length ∨ (p.state = .parseError ∧ ret = 0) ∨
      ∃ n q calls q' msg, Steps (feedStep p buffer) (p, [], 0) n (q, calls, ret) ∧ ret < buffer.length ∧
        body q buffer ret = .error q' msg
  | .threw _ _ _ => True
  | .running _ _ => False

/-- A call of `feed` ends in one of the proper ways. -/
theorem feed_proper {p : Parser} (hp : p.state ≠ .partEnd) {buffer : Bytes} (hlen : buffer.length + 1 < 18446744073709551616) :
    (feed p buffer).Proper p buffer := by
  by_cases hstart : p.state = .parseError ∨ buffer.length = 0
  · rw [feed, if_pos hstart]
    rcases hstart with herr | hnil
    · exact .inr (.inl ⟨herr, rfl⟩)
    · exact .inl hnil.symm
  · have hlive : p.Live := ⟨fun h => hstart (.inl h), hp⟩
    obtain ⟨n, -, t, hsteps, hend⟩ := feedStep_ends hlive (fun h => hstart (.inr (by rw [h]; rfl))) hlen
    obtain ⟨q, calls, i⟩ := t
    have hq : q.Live := hsteps.keeps (fun s t hs h => (feedStep_live hlen s t hs h).1) hlive
    simp only [feedStep] at hend
    split_ifs at hend with hi
    · rw [← Sum.inr.inj hend]
      exact .inl rfl
    · have hbody := body_live hq buffer i
      cases hb : body q buffer i with
      | next q' cs j =>
        rw [hb] at hend
        cases hend
      | error q' msg =>
        rw [hb] at hend
        rw [← Sum.inr.inj hend]
        exact .inr (.inr ⟨n, q, calls, q', msg, hsteps, Nat.not_le.mp hi, hb⟩)
      | stop q' =>
        rw [hb] at hbody
        exact hbody.elim
      | throw q' cs msg =>
        rw [hb] at hend
        rw [← Sum.inr.inj hend]
        trivial

end Multipart

/-! ## The loop of `parse_multipart` -/

namespace Connection

open Multipart

/-- Where the loop stands: the reader, its calls so far, and `fed`. -/
abbrev ParseState := Reader × List ReaderCall × Nat

/-- One iteration of the `do`-`while` loop. -/
def parseStep (data : Bytes) : ParseState → ParseState ⊕ ReaderResult
  | (r, calls, fed) =>
    match r.feed (data.drop fed) with
    | .returned r' cs ret =>
      if fed + ret < data.length ∧ r'.stopped = false then .inl (r', calls ++ cs, fed + ret)
      else .inr (.returned r' (calls ++ cs) (fed + ret))
    | .threw r' cs msg => .inr (.threw r' (calls ++ cs) msg)
    | .running => .inr .running

/-- A `feed` that returns has taken all of the data, or has stopped at an error. -/
theorem feed_stopped {r r' : Reader} (h : r.parser.state ≠ .partEnd) {data : Bytes} {calls : List ReaderCall} {ret : Nat}
    (hf : r.feed data = .returned r' calls ret) : ¬(ret < data.length ∧ r'.stopped = false) := by
  have hends : (Multipart.feed r.parser data).Ends data.length := by
    by_cases hs : r.parser.state = .parseError
    · rw [Multipart.feed, if_pos (.inl hs)]
      exact .inl hs
    · exact feed_ends ⟨hs, h⟩ data
  obtain ⟨p, cs, hp, rfl, -⟩ := Reader.of_feed_returned hf
  rw [hp] at hends
  rintro ⟨hlt, hgo⟩
  rcases hends with he | he
  · simp [Reader.stopped, Parser.stopped, Parser.hasError, he] at hgo
  · omega

/-- The loop of `parse_multipart` runs once. -/
theorem feedMultipart_eq_feed {r : Reader} (h : r.parser.state ≠ .partEnd) (fuel : Nat) (data : Bytes) :
    feedMultipart (fuel + 1) r data = r.feed data := by
  unfold feedMultipart
  cases hf : r.feed data with
  | returned r' cs ret =>
    dsimp only
    rw [if_neg (feed_stopped h hf)]
  | threw r' cs msg => rfl
  | running => rfl

/-- The loop of `parse` ends with what `feed` returns. -/
theorem parseStep_ends {r : Reader} (h : r.parser.state ≠ .partEnd) (data : Bytes) :
    Ends (parseStep data) (r, [], 0) 0 (r.feed data) := by
  refine .done ?_
  simp only [parseStep, List.drop_zero, Nat.zero_add, List.nil_append]
  cases hf : r.feed data with
  | returned r' cs ret =>
    dsimp only
    rw [if_neg (feed_stopped h hf)]
  | threw r' cs msg => rfl
  | running => rfl

end Connection

open Multipart Connection in
/-- **The loops that feed the parser end**, for a boundary of at least four bytes, whatever state the parser is in and whatever the
buffer holds: the skip loop whenever the byte loop comes to it, the byte loop after at most two iterations for each byte and one more,
and the loop of `parse_multipart` after its first iteration. `feed` takes the whole buffer, or returns the offset of the first error,
or throws. -/
theorem feed_loops_end {b : Bytes} (hb : 4 ≤ b.length) {r : Reader} (hr : r.parser.Reachable b) (buffer : Bytes)
    (hlen : buffer.length + 1 < 18446744073709551616) :
    (∀ n q calls i, Steps (feedStep r.parser buffer) (r.parser, [], 0) n (q, calls, i) → ∀ j,
      ∃ m, m ≤ buffer.length ∧ Ends (skipStep q buffer) j m (skip q buffer buffer.length j)) ∧
    (r.parser.state ≠ .parseError → buffer ≠ [] →
      ∃ n, n ≤ 2 * buffer.length + 1 ∧ Ends (feedStep r.parser buffer) (r.parser, [], 0) n (feed r.parser buffer)) ∧
    (feed r.parser buffer).Proper r.parser buffer ∧
    Ends (parseStep buffer) (r, [], 0) 0 (feedMultipart (buffer.length + 1) r buffer) ∧
    feedMultipart (buffer.length + 1) r buffer ≠ .running := by
  obtain ⟨hboundary, hstate⟩ := hr.keeps
  have hproper := feed_proper hstate hlen
  have honce := feedMultipart_eq_feed hstate buffer.length buffer
  refine ⟨?_, ?_, hproper, ?_, ?_⟩
  · intro n q calls i hsteps j
    have hq : q.boundary = b := hsteps.keeps (feedStep_boundary hlen) hboundary
    refine skip_ends ?_ buffer j
    rw [Parser.boundarySize, hq]
    omega
  · intro herr hne
    exact feedStep_ends ⟨herr, hstate⟩ hne hlen
  · rw [honce]
    exact parseStep_ends hstate buffer
  · rw [honce]
    unfold Reader.feed
    cases hf : feed r.parser buffer with
    | returned p cs ret => simp
    | threw p cs msg => simp
    | running p cs =>
      rw [hf] at hproper
      exact hproper.elim

/-- A form with one part, whose data have the beginning of a boundary in them. -/
def falseLead : Bytes := bytes "--x\r\nContent-Disposition: form-data\r\n\r\nseveral words\r\n--y and more\r\n--x--\r\n"

/-- The loops on such a form, which skip the words and come back from the false lead. -/
theorem feed_loops_end_falseLead :
    (∃ n, n ≤ 2 * falseLead.length + 1 ∧
      Ends (Multipart.feedStep (.setBoundary (bytes "\r\n--x") fun _ => 0) falseLead) (.setBoundary (bytes "\r\n--x") fun _ => 0, [], 0) n
        (Multipart.feed (.setBoundary (bytes "\r\n--x") fun _ => 0) falseLead)) ∧
      Connection.feedMultipart (falseLead.length + 1) { parser := .setBoundary (bytes "\r\n--x") fun _ => 0 } falseLead ≠ .running := by
  obtain ⟨-, hends, -, -, hreturns⟩ := feed_loops_end (r := { parser := .setBoundary (bytes "\r\n--x") fun _ => 0 }) (by decide)
    (.setBoundary _) falseLead (by decide)
  exact ⟨hends (by decide) (by decide), hreturns⟩

end Netcore
