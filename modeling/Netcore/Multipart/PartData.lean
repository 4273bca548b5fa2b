import Netcore.Multipart.Safety
import Netcore.Multipart.Simulation

/-!
# Part data comes from the input

On a false lead `processPartData` reports the first `index` bytes of the lookbehind buffer as part data. They are bytes of
the input as long as `index` counts bytes kept there, which `PART_DATA` sees to. But `HEADER_FIELD` uses the same counter,
and a line that its CR and LF end before a colon starts the part data with the length of the line in it (`Visit.Cut`): the
next false lead reports whatever the heap held.

`places` follows a run with the position of every iteration in the input, `Honest` says what the calls of a run owe the
input, and `places_honest` proves it of every run without such a line. The invariant is `Within`: what has been reported of
the part, what is marked and what is kept are, in this order, the input since the end of the header block.
-/

namespace Netcore
namespace Multipart

open Slices

/-! ## Where a call is made -/

/-- One iteration of the byte loop or the report after the loop: how many bytes were fed before the byte it looks at, the
parser at that moment, and the calls it makes. -/
structure Place where
  pos : Nat
  parser : Parser
  calls : List Callback
  deriving DecidableEq, Repr

/-- A call and its position. -/
structure Located where
  pos : Nat
  call : Callback
  deriving DecidableEq, Repr

/-- The calls of a place. -/
def Place.located (v : Place) : List Located := v.calls.map (Located.mk v.pos)

/-- The places of the byte loop from `i` on, in a buffer that `off` bytes precede. -/
def loopPlaces (off : Nat) (buffer : Bytes) : Nat → Parser → Nat → List Place
  | fuel, p, i =>
    if buffer.length ≤ i then [⟨off + buffer.length, p, (flush p buffer).2⟩]
    else
      match fuel with
      | 0 => []
      | fuel + 1 =>
        match body p buffer i with
        | .next p' cs j => ⟨off + i, p, cs⟩ :: loopPlaces off buffer fuel p' j
        | .error _ _ => [⟨off + i, p, []⟩]
        | .stop _ => [⟨off + i, p, []⟩]
        | .throw _ cs _ => [⟨off + i, p, cs⟩]

/-- The places of one `feed`. -/
def feedPlaces (off : Nat) (p : Parser) (buffer : Bytes) : List Place :=
  if p.state = .parseError ∨ buffer.length = 0 then [] else loopPlaces off buffer (2 * buffer.length + 2) p 0

/-- The places of a run. -/
def places (off : Nat) (p : Parser) : List Bytes → List Place
  | [] => []
  | b :: bs =>
    feedPlaces off p b ++
      match feed p b with
      | .returned p' _ _ => places (off + b.length) p' bs
      | _ => []

/-- The calls that a `feed` or a run of them has made. -/
def FeedResult.calls : FeedResult → List Callback
  | .returned _ cs _ => cs
  | .threw _ cs _ => cs
  | .running _ cs => cs

theorem feedLoop_places (p₀ : Parser) (off : Nat) (buffer : Bytes) (fuel : Nat) : ∀ (p : Parser) (calls : List Callback) (i : Nat),
    (feedLoop p₀ buffer fuel p calls i).calls = calls ++ (loopPlaces off buffer fuel p i).flatMap Place.calls := by
  induction fuel with
  | zero =>
    intro p calls i
    rw [feedLoop, loopPlaces]
    split_ifs
    · simp [FeedResult.calls]
    · simp [FeedResult.calls]
  | succ fuel ih =>
    intro p calls i
    rw [feedLoop, loopPlaces]
    split_ifs
    · simp [FeedResult.calls]
    · cases body p buffer i with
      | next p' cs j =>
        simp only [ih, List.flatMap_cons, List.append_assoc]
      | error p' msg => simp [FeedResult.calls]
      | stop p' => simp [FeedResult.calls]
      | throw p' cs msg => simp [FeedResult.calls]

theorem feed_places (off : Nat) (p : Parser) (buffer : Bytes) :
    (feed p buffer).calls = (feedPlaces off p buffer).flatMap Place.calls := by
  unfold feed feedPlaces
  split_ifs
  · rfl
  · exact feedLoop_places p off buffer _ p [] 0

/-- The calls of the places of a run are the calls of the run. -/
theorem places_calls (chunks : List Bytes) : ∀ (off : Nat) (p : Parser),
    (feedAll p chunks).calls = (places off p chunks).flatMap Place.calls := by
  induction chunks with
  | nil => intro off p; rfl
  | cons b bs ih =>
    intro off p
    have hfeed := feed_places off p b
    rw [feedAll, places, List.flatMap_append, ← hfeed]
    cases hf : feed p b with
    | returned p₁ cs₁ ret₁ =>
      have hrest := ih (off + b.length) p₁
      simp only
      rw [← hrest]
      cases feedAll p₁ bs <;> rfl
    | threw p₁ cs₁ msg => simp [FeedResult.calls]
    | running p₁ cs₁ => simp [FeedResult.calls]

/-! ## What the calls owe the input -/

/-- The data reported for a part whose header block has just ended: up to the next `onPartEnd`. -/
def partBytes : List Located → Bytes
  | [] => []
  | ⟨_, .onPartEnd⟩ :: _ => []
  | ⟨_, .onPartData d⟩ :: cs => d ++ partBytes cs
  | _ :: cs => partBytes cs

/-- The calls `cs` tell the truth about the input `s` under the delimiter `pat`: a header block ends at a line feed, the data
reported for the part so far is a beginning of what follows it, and once the part has ended it is everything up to the
delimiter and the two bytes after it, at which the end was called. -/
structure Honest (pat s : Bytes) (cs : List Located) : Prop where
  begins : ∀ {done rest k}, cs = done ++ ⟨k, .onHeadersEnd⟩ :: rest → s[k]? = some LF ∧ partBytes rest <+: s.drop (k + 1)
  ends : ∀ {done part rest k e}, cs = done ++ ⟨k, .onHeadersEnd⟩ :: part ++ ⟨e, .onPartEnd⟩ :: rest →
    (∀ c ∈ part, c.call ≠ .onPartEnd) → ∃ x y, s.drop (k + 1) = partBytes part ++ pat ++ [x, y] ++ s.drop (e + 1)

/-- A header block that is ended by a line without a colon: the LF after the CR that cut it. -/
def Visit.Cut (v : Visit) : Prop := v.parser.state = .headersAlmostDone ∧ v.byte = LF ∧ v.parser.index ≠ 0

instance (v : Visit) : Decidable v.Cut := inferInstanceAs (Decidable (_ ∧ _ ∧ _))

/-- Where part data is looked at, the bytes that a false lead would report are the last `index` bytes of the input. -/
def Place.Kept (s : Bytes) (v : Place) : Prop :=
  v.parser.state = .partDataStart ∨ v.parser.state = .partData →
    v.parser.lookbehind.take v.parser.index = slice s (v.pos - v.parser.index) v.pos

/-! ## Following the part under way -/

/-- A part under way: where its content starts in the input, and the data reported so far. -/
structure UnderWay where
  start : Nat
  data : Bytes

/-- A call that neither starts nor ends a part, nor reports data of one. -/
def Callback.aside : Callback → Bool
  | .onHeadersEnd => false
  | .onPartData _ => false
  | .onPartEnd => false
  | _ => true

/-- From the part `g` under way (if any) the calls lead to `g'`, each of them true about the input. -/
inductive Track (pat s : Bytes) : Option UnderWay → List Located → Option UnderWay → Prop where
  | nil (g : Option UnderWay) : Track pat s g [] g
  | aside {g g' : Option UnderWay} {cs : List Located} {k : Nat} {c : Callback} (hc : c.aside = true) (h : Track pat s g cs g') :
      Track pat s g (⟨k, c⟩ :: cs) g'
  | opened {g' : Option UnderWay} {cs : List Located} {k : Nat} (hk : s[k]? = some LF) (h : Track pat s (some ⟨k + 1, []⟩) cs g') :
      Track pat s none (⟨k, .onHeadersEnd⟩ :: cs) g'
  | data {g' : Option UnderWay} {cs : List Located} {k st : Nat} {d d' : Bytes} (hd : d ++ d' <+: s.drop st)
      (h : Track pat s (some ⟨st, d ++ d'⟩) cs g') : Track pat s (some ⟨st, d⟩) (⟨k, .onPartData d'⟩ :: cs) g'
  | ended {g' : Option UnderWay} {cs : List Located} {e st : Nat} {d : Bytes} {x y : UInt8}
      (he : s.drop st = d ++ pat ++ [x, y] ++ s.drop (e + 1)) (h : Track pat s none cs g') :
      Track pat s (some ⟨st, d⟩) (⟨e, .onPartEnd⟩ :: cs) g'

section Track

variable {pat s : Bytes} {g g₁ g' : Option UnderWay}

theorem Track.append {xs ys : List Located} (h : Track pat s g xs g₁) (h' : Track pat s g₁ ys g') :
    Track pat s g (xs ++ ys) g' := by
  induction h with
  | nil g => exact h'
  | aside hc _ ih => exact .aside hc (ih h')
  | opened hk _ ih => exact .opened hk (ih h')
  | data hd _ ih => exact .data hd (ih h')
  | ended he _ ih => exact .ended he (ih h')

theorem Track.split {xs ys : List Located} : ∀ {g : Option UnderWay}, Track pat s g (xs ++ ys) g' →
    ∃ g₁, Track pat s g xs g₁ ∧ Track pat s g₁ ys g' := by
  induction xs with
  | nil => intro g h; exact ⟨g, .nil g, h⟩
  | cons c xs ih =>
    intro g h
    rw [List.cons_append] at h
    cases h with
    | aside hc h =>
      obtain ⟨g₁, h1, h2⟩ := ih h
      exact ⟨g₁, .aside hc h1, h2⟩
    | opened hk h =>
      obtain ⟨g₁, h1, h2⟩ := ih h
      exact ⟨g₁, .opened hk h1, h2⟩
    | data hd h =>
      obtain ⟨g₁, h1, h2⟩ := ih h
      exact ⟨g₁, .data hd h1, h2⟩
    | ended he h =>
      obtain ⟨g₁, h1, h2⟩ := ih h
      exact ⟨g₁, .ended he h1, h2⟩

/-- Calls to one side of the parts. -/
theorem Track.asides {k : Nat} {cs : List Callback} (h : ∀ c ∈ cs, c.aside = true) (g : Option UnderWay) :
    Track pat s g (cs.map (Located.mk k)) g := by
  induction cs with
  | nil => exact .nil g
  | cons c cs ih => exact .aside (h c (by simp)) (ih (fun x hx => h x (List.mem_cons_of_mem c hx)))

theorem partBytes_aside {k : Nat} {c : Callback} (hc : c.aside = true) (cs : List Located) :
    partBytes (⟨k, c⟩ :: cs) = partBytes cs := by
  cases c with
  | onHeadersEnd => simp [Callback.aside] at hc
  | onPartData d => simp [Callback.aside] at hc
  | onPartEnd => simp [Callback.aside] at hc
  | _ => rfl

/-- The data reported for the part under way is a beginning of its content. -/
theorem Track.partBytes_isPrefix {cs : List Located} : ∀ {st : Nat} {d : Bytes}, Track pat s (some ⟨st, d⟩) cs g' →
    d <+: s.drop st → d ++ partBytes cs <+: s.drop st := by
  induction cs with
  | nil => intro st d _ hd; simpa [partBytes] using hd
  | cons c cs ih =>
    intro st d h hd
    cases h with
    | aside hc h => rw [partBytes_aside hc]; exact ih h hd
    | data hd' h =>
      have hrest := ih h hd'
      rw [List.append_assoc] at hrest
      exact hrest
    | ended he h => simpa [partBytes] using hd

/-- When the part under way ends, its data is what precedes the delimiter. -/
theorem Track.partBytes_eq {part rest : List Located} {e : Nat} : ∀ {st : Nat} {d : Bytes},
    Track pat s (some ⟨st, d⟩) (part ++ ⟨e, .onPartEnd⟩ :: rest) g' → (∀ c ∈ part, c.call ≠ .onPartEnd) →
    ∃ x y, s.drop st = d ++ partBytes part ++ pat ++ [x, y] ++ s.drop (e + 1) := by
  induction part with
  | nil =>
    intro st d h _
    cases h with
    | aside hc h => simp [Callback.aside] at hc
    | ended he h => exact ⟨_, _, by simpa [partBytes] using he⟩
  | cons c part ih =>
    intro st d h hne
    have hne' : ∀ c ∈ part, c.call ≠ .onPartEnd := fun x hx => hne x (List.mem_cons_of_mem c hx)
    rw [List.cons_append] at h
    cases h with
    | aside hc h => rw [partBytes_aside hc]; exact ih h hne'
    | data hd h =>
      obtain ⟨x, y, hxy⟩ := ih h hne'
      exact ⟨x, y, by simpa [partBytes, List.append_assoc] using hxy⟩
    | ended he h => exact absurd rfl (hne ⟨_, .onPartEnd⟩ List.mem_cons_self)

/-- A run whose calls have been followed from its start is honest. -/
theorem Track.honest {cs : List Located} (h : Track pat s g cs g') : Honest pat s cs := by
  have hopen : ∀ {done rest : List Located} {k : Nat}, cs = done ++ ⟨k, .onHeadersEnd⟩ :: rest →
      s[k]? = some LF ∧ Track pat s (some ⟨k + 1, []⟩) rest g' := by
    intro done rest k hcs
    rw [hcs] at h
    obtain ⟨g₁, -, h2⟩ := h.split
    cases h2 with
    | aside hc h => simp [Callback.aside] at hc
    | opened hk h => exact ⟨hk, h⟩
  refine ⟨fun {done rest k} hcs => ?_, fun {done part rest k e} hcs hne => ?_⟩
  · obtain ⟨hk, h2⟩ := hopen hcs
    exact ⟨hk, by simpa using h2.partBytes_isPrefix List.nil_prefix⟩
  · rw [List.append_assoc, List.cons_append] at hcs
    obtain ⟨x, y, hxy⟩ := (hopen hcs).2.partBytes_eq hne
    exact ⟨x, y, by simpa using hxy⟩

end Track

/-! ## The invariant -/

/-- In `PART_DATA`, at position `i` of a buffer that `off` bytes of the input precede: the data reported, the bytes marked and
the bytes kept are the input since `st`, and the bytes kept begin with the delimiter as far as it goes. -/
structure Within (pat s buffer : Bytes) (off i : Nat) (p : Parser) (st : Nat) (d : Bytes) : Prop where
  start : st ≤ off + i
  bytes : d ++ pending buffer p.partDataMark i ++ p.lookbehind.take p.index = slice s st (off + i)
  mark : MarkOk p.partDataMark (p.index = 0) i
  index : p.index ≤ pat.length + 1
  lead : (p.lookbehind.take p.index).take pat.length = pat.take p.index

/-- The parser at position `i` of a buffer, with the part `g` under way. -/
structure Follows (pat s buffer : Bytes) (off i : Nat) (p : Parser) (g : Option UnderWay) : Prop where
  boundary : p.boundary = pat
  look : p.lookbehind.length = pat.length + 8
  live : p.state ≠ .parseError ∧ p.state ≠ .partEnd
  outside : p.state ≠ .partDataStart → p.state ≠ .partData → g = none ∧ p.partDataMark = none
  fresh : p.state = .partDataStart → p.index = 0 ∧ p.partDataMark = none ∧ g = some ⟨off + i, []⟩
  within : p.state = .partData → ∃ st d, g = some ⟨st, d⟩ ∧ Within pat s buffer off i p st d

/-- What one iteration owes the input, when its calls are made at position `k`. -/
def Iter.Follows (pat s buffer : Bytes) (off k : Nat) (g : Option UnderWay) : Iter → Prop
  | .next p cs j => ∃ g', Track pat s g (cs.map (Located.mk k)) g' ∧
      Multipart.Follows pat s buffer off (min j buffer.length) p g'
  | .error _ _ => True
  | .stop _ => False
  | .throw _ _ _ => False

section Iteration

variable {pat s buffer later : Bytes} {off i k st : Nat} {p : Parser} {d : Bytes} {g : Option UnderWay}

/-- The byte at `i` of the buffer is a byte of the input. -/
theorem getElem?_input (hin : s.drop off = buffer ++ later) (hi : i < buffer.length) :
    s[off + i]? = some (buffer.getD i 0) := by
  rw [← List.getElem?_drop, hin, List.getElem?_append_left hi, List.getD_eq_getElem?_getD, List.getElem?_eq_getElem hi]
  rfl

/-- A slice of the buffer is a slice of the input. -/
theorem slice_input {j : Nat} (hin : s.drop off = buffer ++ later) (hij : i ≤ j) (hj : j ≤ buffer.length) :
    slice buffer i j = slice s (off + i) (off + j) := by
  have hd : s.drop (off + i) = buffer.drop i ++ later := by
    rw [← List.drop_drop, hin, List.drop_append_of_le_length (by omega)]
  rw [slice, slice, hd, List.take_append_of_le_length (by rw [List.length_drop]; omega)]
  congr 1
  omega

/-- Outside part data nothing is owed. -/
theorem Follows.of_outside {q : Parser} (j : Nat) (h : Follows pat s buffer off i p none) (hm : p.partDataMark = none)
    (hb : q.boundary = p.boundary) (hl : q.lookbehind = p.lookbehind) (hq : q.partDataMark = p.partDataMark)
    (hlive : q.state ≠ .parseError ∧ q.state ≠ .partEnd) (hs : q.state ≠ .partDataStart) (hs' : q.state ≠ .partData) :
    Follows pat s buffer off j q none :=
  { boundary := hb.trans h.boundary
    look := by rw [hl]; exact h.look
    live := hlive
    outside := fun _ _ => ⟨rfl, hq.trans hm⟩
    fresh := fun hc => absurd hc hs
    within := fun hc => absurd hc hs' }

/-- In `PART_DATA` the invariant is `Within`. -/
theorem Follows.of_within (hb : p.boundary = pat) (hl : p.lookbehind.length = pat.length + 8) (hs : p.state = .partData)
    (h : Within pat s buffer off i p st d) : Follows pat s buffer off i p (some ⟨st, d⟩) :=
  { boundary := hb
    look := hl
    live := by simp [hs]
    outside := fun _ hc => absurd hs hc
    fresh := fun hc => by rw [hs] at hc; cases hc
    within := fun _ => ⟨st, d, rfl, h⟩ }

/-- Data that continues what was reported, in the input. -/
theorem track_report (buf : Bytes) (a b : Nat) (hd : d ++ slice buf a b <+: s.drop st) :
    Track pat s (some ⟨st, d⟩) ((callbackRange .onPartData buf a b false).map (Located.mk k))
      (some ⟨st, d ++ slice buf a b⟩) := by
  unfold callbackRange
  split_ifs with h
  · rw [h.1, slice_self, List.append_nil]
    exact .nil _
  · exact .data hd (.nil _)

/-- With nothing kept, the bytes from a mark on follow what was reported. -/
theorem Within.of_index_zero {m : Nat} (h0 : p.index = 0) (hm : p.partDataMark = some m) (hmi : m ≤ i) (hst : st ≤ off + i)
    (hbytes : d ++ slice buffer m i = slice s st (off + i)) : Within pat s buffer off i p st d := by
  refine ⟨hst, ?_, ?_, by omega, by simp [h0]⟩
  · rw [hm, h0, List.take_zero, List.append_nil]
    exact hbytes
  · rw [hm]
    exact MarkOk.some h0 hmi

/-- With nothing kept, any number of bytes is passed over. -/
theorem Within.skip {j : Nat} (h : Within pat s buffer off i p st d) (hin : s.drop off = buffer ++ later)
    (h0 : p.index = 0) (hij : i ≤ j) (hj : j ≤ buffer.length) : Within pat s buffer off j p st d := by
  obtain ⟨m, hm, hmi⟩ := h.mark.1 h0
  have hstart := h.start
  have hbytes := h.bytes
  rw [h0, List.take_zero, List.append_nil, hm] at hbytes
  simp only [pending] at hbytes
  refine Within.of_index_zero h0 hm (hmi.trans hij) (by omega) ?_
  rw [← slice_append buffer hmi hij, ← List.append_assoc, hbytes, slice_input hin hij hj,
    slice_append s hstart (by omega)]

/-- The bytes marked are reported before a byte that is kept. -/
theorem Within.report (h : Within pat s buffer off i p st d) :
    Track pat s (some ⟨st, d⟩) ((dataCallbackClear .onPartData p.partDataMark buffer i false).map (Located.mk k))
      (some ⟨st, d ++ pending buffer p.partDataMark i⟩) := by
  have hpre : d ++ pending buffer p.partDataMark i <+: s.drop st :=
    (List.IsPrefix.trans ⟨_, h.bytes⟩ (slice_isPrefix_drop s st (off + i)))
  cases hm : p.partDataMark with
  | none =>
    rw [pending_none, List.append_nil]
    exact .nil _
  | some m =>
    rw [hm] at hpre
    exact track_report buffer m i hpre

/-- The byte at `i` is kept. -/
theorem Within.keep (h : Within pat s buffer off i p st d) (hlook : p.lookbehind.length = pat.length + 8)
    (hin : s.drop off = buffer ++ later) (hi : i < buffer.length) (hl : p.index ≤ pat.length)
    (hc : p.index < pat.length → pat[p.index]? = some (buffer.getD i 0)) (fl : Flags) :
    Within pat s buffer off (i + 1)
      { p with
        index := p.index + 1
        flags := fl
        partDataMark := none
        lookbehind := p.lookbehind.set p.index (buffer.getD i 0) } st (d ++ pending buffer p.partDataMark i) := by
  have htake : (p.lookbehind.set p.index (buffer.getD i 0)).take (p.index + 1) =
      p.lookbehind.take p.index ++ [buffer.getD i 0] := by
    rw [List.take_add_one, List.take_set_of_le (Nat.le_refl _), List.getElem?_set_self (by omega)]
    rfl
  have hlen : (p.lookbehind.take p.index).length = p.index := by
    rw [List.length_take]
    omega
  refine ⟨Nat.le_succ_of_le h.start, ?_, MarkOk.none (by simp), by simp only; omega, ?_⟩
  · simp only
    rw [htake, pending_none, List.append_nil, ← List.append_assoc, h.bytes, ← Nat.add_assoc,
      slice_succ h.start (getElem?_input hin hi)]
  · simp only
    have hlead := h.lead
    rw [htake]
    rcases Nat.lt_or_ge p.index pat.length with hlt | hge
    · -- the delimiter goes on
      rw [List.take_of_length_le (by omega)] at hlead
      rw [List.take_of_length_le (by rw [List.length_append, hlen, List.length_singleton]; omega), hlead, List.take_add_one,
        hc hlt]
      rfl
    · -- the delimiter is complete, and a byte of its tail is kept after it
      have heq : p.index = pat.length := by omega
      rw [List.take_append_of_le_length (by omega), hlead, heq, List.take_of_length_le (Nat.le_refl _),
        List.take_of_length_le (Nat.le_succ _)]

/-- With the delimiter and a byte of its tail kept, the next byte ends the part. -/
theorem Within.ends (h : Within pat s buffer off i p st d) (hlook : p.lookbehind.length = pat.length + 8)
    (hin : s.drop off = buffer ++ later) (hi : i < buffer.length) (hx : p.index = pat.length + 1) :
    ∃ x y, s.drop st = d ++ pat ++ [x, y] ++ s.drop (off + i + 1) := by
  have hm : p.partDataMark = none := h.mark.2 (by omega)
  have hbytes := h.bytes
  have hlead := h.lead
  have hlen : (p.lookbehind.take p.index).length = pat.length + 1 := by
    rw [List.length_take]
    omega
  rw [hx, List.take_of_length_le (Nat.le_succ _), ← hx] at hlead
  obtain ⟨x, hdrop⟩ := List.length_eq_one_iff.mp
    (show ((p.lookbehind.take p.index).drop pat.length).length = 1 by rw [List.length_drop, hlen]; omega)
  have hkept : p.lookbehind.take p.index = pat ++ [x] := by
    rw [← List.take_append_drop pat.length (p.lookbehind.take p.index), hlead, hdrop]
  refine ⟨x, buffer.getD i 0, ?_⟩
  rw [hm, pending_none, List.append_nil, hkept] at hbytes
  rw [← slice_append_drop s (Nat.le_succ_of_le h.start), slice_succ h.start (getElem?_input hin hi), ← hbytes]
  simp [List.append_assoc]

/-- An iteration that moves on by one byte. -/
theorem follows_next {q : Parser} {cs : List Callback} {g' : Option UnderWay} (hi : i < buffer.length)
    (ht : Track pat s g (cs.map (Located.mk k)) g') (h : Follows pat s buffer off (i + 1) q g') :
    (Iter.next q cs (i + 1)).Follows pat s buffer off k g := by
  refine ⟨g', ht, ?_⟩
  rw [Nat.min_eq_left hi]
  exact h

/-- The byte at `i` goes into the lookbehind buffer, which has room for it. -/
theorem keep_follows {q : Parser} {calls : List Callback} (prev : Nat) (fl : Flags) (h : Within pat s buffer off i p st d)
    (hb : p.boundary = pat) (hlook : p.lookbehind.length = pat.length + 8) (hs : p.state = .partData)
    (hin : s.drop off = buffer ++ later) (hi : i < buffer.length) (hl : p.index ≤ pat.length)
    (hc : p.index < pat.length → pat[p.index]? = some (buffer.getD i 0))
    (hq : q = { p with index := p.index + 1, flags := fl, partDataMark := none })
    (hcalls : calls = dataCallbackClear .onPartData p.partDataMark buffer i false) :
    (keepOrReplay q calls prev i (buffer.getD i 0)).Follows pat s buffer off k (some ⟨st, d⟩) := by
  have hk : keepOrReplay q calls prev i (buffer.getD i 0) =
      .next { q with lookbehind := p.lookbehind.set p.index (buffer.getD i 0) } calls (i + 1) := by
    subst hq
    rw [keepOrReplay, if_pos (Nat.succ_pos _), if_neg (by rw [Parser.lookbehindSize]; simp only [Nat.add_sub_cancel]; omega)]
    rfl
  rw [hk, hq, hcalls]
  exact follows_next hi h.report
    (Follows.of_within hb (by simp only [List.length_set]; exact hlook) hs (h.keep hlook hin hi hl hc fl))

/-- The byte at `i` does not go on with the delimiter: bytes kept are reported and it is looked at again, or it is data. -/
theorem reset_follows (h : Within pat s buffer off i p st d) (hb : p.boundary = pat)
    (hlook : p.lookbehind.length = pat.length + 8) (hs : p.state = .partData) (hin : s.drop off = buffer ++ later)
    (hi : i < buffer.length) :
    (keepOrReplay { p with index := 0 } [] p.index i (buffer.getD i 0)).Follows pat s buffer off k (some ⟨st, d⟩) := by
  have hbytes := h.bytes
  rw [keepOrReplay, if_neg (Nat.lt_irrefl 0)]
  split_ifs with hpos
  · -- a false lead
    rw [h.mark.2 (by omega), pending_none, List.append_nil] at hbytes
    have hpre : d ++ slice p.lookbehind 0 p.index <+: s.drop st := by
      rw [slice_zero, hbytes]
      exact slice_isPrefix_drop s st (off + i)
    refine ⟨_, track_report p.lookbehind 0 p.index hpre, ?_⟩
    rw [Nat.min_eq_left (Nat.le_of_lt hi)]
    refine Follows.of_within hb hlook hs (Within.of_index_zero rfl rfl (Nat.le_refl i) h.start ?_)
    rw [slice_self, List.append_nil, slice_zero, hbytes]
  · have h0 : p.index = 0 := by omega
    obtain ⟨m, hm, hmi⟩ := h.mark.1 h0
    rw [h0, List.take_zero, List.append_nil, hm] at hbytes
    refine follows_next hi (.nil _) (Follows.of_within hb hlook hs
      (Within.of_index_zero rfl hm (Nat.le_succ_of_le hmi) (Nat.le_succ_of_le h.start) ?_))
    have hmore := pending_succ hmi hi
    simp only [pending] at hmore hbytes
    rw [hmore, ← List.append_assoc, hbytes, ← Nat.add_assoc, slice_succ h.start (getElem?_input hin hi)]

/-- After the end of a part nothing is owed. -/
theorem ended_follows {q : Parser} {calls : List Callback} (h : Within pat s buffer off i p st d) (hb : p.boundary = pat)
    (hlook : p.lookbehind.length = pat.length + 8) (hin : s.drop off = buffer ++ later)
    (hi : i < buffer.length) (hx : p.index = pat.length + 1) (hk : k = off + i) (hcalls : ∀ c ∈ calls, c.aside = true)
    (hqb : q.boundary = p.boundary) (hql : q.lookbehind.length = p.lookbehind.length) (hqm : q.partDataMark = p.partDataMark)
    (hq : q.state = .headerFieldStart ∨ q.state = .ended) :
    (Iter.next q (.onPartEnd :: calls) (i + 1)).Follows pat s buffer off k (some ⟨st, d⟩) := by
  obtain ⟨x, y, hend⟩ := h.ends hlook hin hi hx
  subst hk
  have hnext : Follows pat s buffer off (i + 1) q none :=
    { boundary := hqb.trans hb
      look := hql.trans hlook
      live := by rcases hq with hq | hq <;> simp [hq]
      outside := fun _ _ => ⟨rfl, hqm.trans (h.mark.2 (by omega))⟩
      fresh := fun hc => by rcases hq with hq | hq <;> simp [hq] at hc
      within := fun hc => by rcases hq with hq | hq <;> simp [hq] at hc }
  exact follows_next hi (.ended hend (Track.asides hcalls none)) hnext

/-- The comparison of `processPartData` keeps the byte, gives the lead up, or ends the part. -/
theorem matchBoundary_follows (hpat : pat ≠ []) (h : Within pat s buffer off i p st d) (hb : p.boundary = pat)
    (hlook : p.lookbehind.length = pat.length + 8) (hs : p.state = .partData) (hin : s.drop off = buffer ++ later)
    (hi : i < buffer.length) (hk : p.index ≠ 0 → k = off + i) :
    (matchBoundary p buffer i (buffer.getD i 0)).Follows pat s buffer off k (some ⟨st, d⟩) := by
  have hreset := reset_follows (k := k) h hb hlook hs hin hi
  have hsize : p.boundarySize = pat.length := by rw [Parser.boundarySize, hb]
  have hget : p.index < pat.length → p.boundary.getD p.index 0 = buffer.getD i 0 → pat[p.index]? = some (buffer.getD i 0) := by
    intro hlt hc
    rw [hb, List.getD_eq_getElem?_getD, List.getElem?_eq_getElem hlt] at hc
    rw [List.getElem?_eq_getElem hlt, ← hc]
    rfl
  have hpos : 0 < pat.length := List.length_pos_iff.mpr hpat
  have hle := h.index
  rw [matchBoundary, hsize]
  split_ifs with h1 h2 h3 h4 h5 h6 h7 h8 h9 h10 h11
  · exact keep_follows p.index p.flags h hb hlook hs hin hi (by omega) (fun hlt => hget hlt h2) rfl rfl
  · have hm : p.partDataMark = none := h.mark.2 h3
    exact keep_follows p.index p.flags h hb hlook hs hin hi (by omega) (fun hlt => hget hlt h2) (by rw [← hm]) (by rw [hm]; rfl)
  · exact hreset
  · have hm : p.partDataMark = none := h.mark.2 (by omega)
    exact keep_follows p.index _ h hb hlook hs hin hi (by omega) (fun hlt => absurd hlt h1) (by rw [← hm]) (by rw [hm]; rfl)
  · have hm : p.partDataMark = none := h.mark.2 (by omega)
    exact keep_follows p.index _ h hb hlook hs hin hi (by omega) (fun hlt => absurd hlt h1) (by rw [← hm]) (by rw [hm]; rfl)
  · exact hreset
  · exact ended_follows h hb hlook hin hi h7 (hk (by omega)) (by simp [Callback.aside]) rfl rfl rfl (Or.inl rfl)
  · exact hreset
  · rw [keepOrReplay, if_pos (by simp only; omega), if_neg (by rw [Parser.lookbehindSize]; simp only; omega)]
    exact ended_follows h hb hlook hin hi h7 (hk (by omega)) (by simp [Callback.aside]) rfl (by simp) rfl (Or.inr rfl)
  · exact hreset
  · exact hreset
  all_goals omega

/-- Part data: the bytes skipped are marked already, and the next one is compared. -/
theorem processPartData_follows (hpat : pat ≠ []) (h : Within pat s buffer off i p st d) (hb : p.boundary = pat)
    (hlook : p.lookbehind.length = pat.length + 8) (hs : p.state = .partData) (hin : s.drop off = buffer ++ later)
    (hi : i < buffer.length) :
    (processPartData p buffer i (buffer.getD i 0)).Follows pat s buffer off (off + i) (some ⟨st, d⟩) := by
  have hspec := skip_spec (p := p) buffer (by rw [hb]; exact hpat) buffer.length (Nat.le_of_lt hi)
  have hskip : p.index = 0 → Within pat s buffer off (skip p buffer buffer.length i) p st d :=
    fun h0 => h.skip hin h0 hspec.1 hspec.2.1
  unfold processPartData
  simp only
  split_ifs with h0 hend
  · refine ⟨_, .nil _, ?_⟩
    rw [hend, Nat.min_eq_right (Nat.le_succ _)]
    exact Follows.of_within hb hlook hs (hend ▸ hskip h0)
  · exact matchBoundary_follows hpat (hskip h0) hb hlook hs hin (by omega) (fun hne => absurd h0 hne)
  · exact matchBoundary_follows hpat h hb hlook hs hin hi (fun _ => rfl)

/-- The first delimiter line. -/
theorem startBoundary_follows (h : Follows pat s buffer off i p none) (hm : p.partDataMark = none)
    (hs : p.state = .startBoundary) (hi : i < buffer.length) (c : UInt8) :
    (startBoundary p i c).Follows pat s buffer off k none := by
  have hmore : Follows pat s buffer off (i + 1) { p with index := p.index + 1 } none :=
    h.of_outside _ hm rfl rfl rfl (by simp [hs]) (by simp [hs]) (by simp [hs])
  have hline : Follows pat s buffer off (i + 1) { p with index := 0, state := .headerFieldStart } none :=
    h.of_outside _ hm rfl rfl rfl (by simp) (by simp) (by simp)
  unfold startBoundary
  split_ifs
  · trivial
  · exact follows_next hi (.nil _) hmore
  · trivial
  · exact follows_next hi (.aside rfl (.nil _)) hline
  · trivial
  · exact follows_next hi (.nil _) hmore

/-- What `callbackRange` reports. -/
theorem of_mem_callbackRange {cb : Bytes → Callback} {buf : Bytes} {a b : Nat} {e : Bool} {c : Callback}
    (hc : c ∈ callbackRange cb buf a b e) : ∃ x, c = cb x := by
  unfold callbackRange at hc
  split_ifs at hc
  · cases hc
  · exact ⟨_, List.mem_singleton.mp hc⟩

theorem of_mem_dataCallbackClear {cb : Bytes → Callback} {mark : Option Nat} {buf : Bytes} {j : Nat} {e : Bool} {c : Callback}
    (hc : c ∈ dataCallbackClear cb mark buf j e) : ∃ x, c = cb x := by
  cases mark with
  | none => cases hc
  | some m => exact of_mem_callbackRange hc

theorem of_mem_dataCallbackFlush {cb : Bytes → Callback} {mark : Option Nat} {buf : Bytes} {c : Callback}
    (hc : c ∈ (dataCallbackFlush cb mark buf).1) : ∃ x, c = cb x := by
  cases mark with
  | none => cases hc
  | some m => exact of_mem_callbackRange hc

/-- A report of a header name or value is to one side of the parts. -/
theorem aside_dataCallbackClear {cb : Bytes → Callback} (hcb : ∀ x, (cb x).aside = true) (mark : Option Nat) (buf : Bytes)
    (j : Nat) (e : Bool) : ∀ c ∈ dataCallbackClear cb mark buf j e, c.aside = true := by
  intro c hc
  obtain ⟨x, rfl⟩ := of_mem_dataCallbackClear hc
  exact hcb x

/-- A header name; a CR in it ends the header block, whatever `index` says. -/
theorem headerField_follows (h : Follows pat s buffer off i p none) (hm : p.partDataMark = none)
    (hs : p.state = .headerField) (hi : i < buffer.length) (c : UInt8) :
    (headerField p buffer i c).Follows pat s buffer off k none := by
  have hmore : Follows pat s buffer off (i + 1) { p with index := p.index + 1 } none :=
    h.of_outside _ hm rfl rfl rfl (by simp [hs]) (by simp [hs]) (by simp [hs])
  unfold headerField
  simp only
  split_ifs
  · exact follows_next hi (.nil _) (h.of_outside _ hm rfl rfl rfl (by simp) (by simp) (by simp))
  · exact follows_next hi (.nil _) hmore
  · trivial
  · exact follows_next hi (Track.asides (aside_dataCallbackClear (fun _ => rfl) _ _ _ _) none)
      (h.of_outside _ hm rfl rfl rfl (by simp) (by simp) (by simp))
  · trivial
  · exact follows_next hi (.nil _) hmore

/-- A header value. -/
theorem headerValue_follows (h : Follows pat s buffer off i p none) (hm : p.partDataMark = none)
    (hs : p.state = .headerValue) (hi : i < buffer.length) (c : UInt8) :
    (headerValue p buffer i c).Follows pat s buffer off k none := by
  unfold headerValue
  split_ifs
  · refine follows_next hi (Track.asides (fun x hx => ?_) none) (h.of_outside _ hm rfl rfl rfl (by simp) (by simp) (by simp))
    rcases List.mem_append.mp hx with hx | hx
    · exact aside_dataCallbackClear (fun _ => rfl) _ _ _ _ x hx
    · rw [List.mem_singleton.mp hx]
      rfl
  · exact follows_next hi (.nil _) (h.of_outside _ hm rfl rfl rfl (by simp [hs]) (by simp [hs]) (by simp [hs]))

/-- One iteration that does not end a header block with a cut line. -/
theorem body_follows (hpat : pat ≠ []) (h : Follows pat s buffer off i p g) (hin : s.drop off = buffer ++ later)
    (hi : i < buffer.length) (hcut : ¬ Visit.Cut ⟨p, buffer.getD i 0⟩) :
    (body p buffer i).Follows pat s buffer off (off + i) g := by
  unfold body
  simp only
  cases hs : p.state with
  | parseError => exact absurd hs h.live.1
  | partEnd => exact absurd hs h.live.2
  | start =>
    obtain ⟨rfl, hm⟩ := h.outside (by simp [hs]) (by simp [hs])
    exact startBoundary_follows (p := { p with index := 0, state := .startBoundary })
      (h.of_outside i hm rfl rfl rfl (by simp) (by simp) (by simp)) hm rfl hi _
  | startBoundary =>
    obtain ⟨rfl, hm⟩ := h.outside (by simp [hs]) (by simp [hs])
    exact startBoundary_follows h hm hs hi _
  | headerFieldStart =>
    obtain ⟨rfl, hm⟩ := h.outside (by simp [hs]) (by simp [hs])
    exact headerField_follows (p := { p with state := .headerField, headerFieldMark := some i, index := 0 })
      (h.of_outside i hm rfl rfl rfl (by simp) (by simp) (by simp)) hm rfl hi _
  | headerField =>
    obtain ⟨rfl, hm⟩ := h.outside (by simp [hs]) (by simp [hs])
    exact headerField_follows h hm hs hi _
  | headerValueStart =>
    obtain ⟨rfl, hm⟩ := h.outside (by simp [hs]) (by simp [hs])
    simp only
    split_ifs
    · exact follows_next hi (.nil _) (h.of_outside _ hm rfl rfl rfl (by simp [hs]) (by simp [hs]) (by simp [hs]))
    · exact headerValue_follows (p := { p with headerValueMark := some i, state := .headerValue })
        (h.of_outside i hm rfl rfl rfl (by simp) (by simp) (by simp)) hm rfl hi _
  | headerValue =>
    obtain ⟨rfl, hm⟩ := h.outside (by simp [hs]) (by simp [hs])
    exact headerValue_follows h hm hs hi _
  | headerValueAlmostDone =>
    obtain ⟨rfl, hm⟩ := h.outside (by simp [hs]) (by simp [hs])
    simp only
    split_ifs
    · trivial
    · exact follows_next hi (.nil _) (h.of_outside _ hm rfl rfl rfl (by simp) (by simp) (by simp))
  | headersAlmostDone =>
    obtain ⟨rfl, hm⟩ := h.outside (by simp [hs]) (by simp [hs])
    simp only
    split_ifs with hc
    · trivial
    · -- the content of the part starts at the next byte, with an `index` that counts nothing
      have hlf : buffer.getD i 0 = LF := not_not.mp hc
      have h0 : p.index = 0 := by
        by_contra hne
        exact hcut ⟨hs, hlf, hne⟩
      refine follows_next hi (.opened (hlf ▸ getElem?_input hin hi) (.nil _)) ?_
      exact
        { boundary := h.boundary
          look := h.look
          live := by simp
          outside := fun hc _ => absurd rfl hc
          fresh := fun _ => ⟨h0, hm, rfl⟩
          within := fun hc => by cases hc }
  | partDataStart =>
    obtain ⟨h0, -, rfl⟩ := h.fresh hs
    exact processPartData_follows (p := { p with state := .partData, partDataMark := some i }) hpat
      (Within.of_index_zero h0 rfl (Nat.le_refl i) (Nat.le_refl _) (by simp)) h.boundary h.look rfl hin hi
  | partData =>
    obtain ⟨st, d, rfl, hw⟩ := h.within hs
    exact processPartData_follows hpat hw h.boundary h.look hs hin hi
  | ended =>
    obtain ⟨rfl, hm⟩ := h.outside (by simp [hs]) (by simp [hs])
    exact follows_next hi (.nil _) (h.of_outside _ hm rfl rfl rfl (by simp [hs]) (by simp [hs]) (by simp [hs]))

/-- The bytes kept at a place are the last bytes of the input. -/
theorem Follows.kept (h : Follows pat s buffer off i p g) (hlen : off + i ≤ s.length) (cs : List Callback) :
    Place.Kept s ⟨off + i, p, cs⟩ := by
  rintro (hs | hs)
  · have h0 : p.index = 0 := (h.fresh hs).1
    simp [h0]
  · obtain ⟨st, d, -, hw⟩ := h.within hs
    have hkept := eq_slice_of_append hw.start hlen hw.bytes
    have hle := hw.index
    have hlook := h.look
    rw [List.length_take, Nat.min_eq_left (by omega)] at hkept
    exact hkept

end Iteration

/-! ## Runs -/

section Runs

variable {pat s buffer later : Bytes} {off k : Nat} {p : Parser} {g : Option UnderWay}

/-- After a buffer what is marked is reported, and the invariant holds at the start of the next one. -/
theorem flush_follows (h : Follows pat s buffer off buffer.length p g) :
    ∃ g', Track pat s g ((flush p buffer).2.map (Located.mk k)) g' ∧
      ∀ next : Bytes, Follows pat s next (off + buffer.length) 0 (flush p buffer).1 g' := by
  have haside : ∀ {cb : Bytes → Callback} (mark : Option Nat), (∀ x, (cb x).aside = true) →
      Track pat s g ((dataCallbackFlush cb mark buffer).1.map (Located.mk k)) g := by
    intro cb mark hcb
    refine Track.asides (fun c hc => ?_) g
    obtain ⟨x, rfl⟩ := of_mem_dataCallbackFlush hc
    exact hcb x
  have hheads := (haside p.headerFieldMark (fun x => show (Callback.onHeaderField x).aside = true from rfl)).append
    (haside p.headerValueMark (fun x => show (Callback.onHeaderValue x).aside = true from rfl))
  simp only [flush, List.map_append]
  by_cases hs : p.state = .partData
  · obtain ⟨st, d, rfl, hw⟩ := h.within hs
    obtain ⟨hmark, hmark0⟩ := dataCallbackFlush_mark .onPartData buffer hw.mark
    have hreport : Track pat s (some ⟨st, d⟩) ((dataCallbackFlush .onPartData p.partDataMark buffer).1.map (Located.mk k))
        (some ⟨st, d ++ pending buffer p.partDataMark buffer.length⟩) := by
      have hclear := hw.report (k := k)
      cases hm : p.partDataMark with
      | none => rw [hm] at hclear; exact hclear
      | some m => rw [hm] at hclear; exact hclear
    refine ⟨_, hheads.append hreport, fun next => ?_⟩
    refine Follows.of_within h.boundary h.look hs ⟨Nat.le_trans hw.start (Nat.le_refl _), ?_, hmark, hw.index, hw.lead⟩
    simp only
    rw [pending_zero next hmark0, List.append_nil]
    exact hw.bytes
  · have hm : p.partDataMark = none := by
      by_cases hs' : p.state = .partDataStart
      · exact (h.fresh hs').2.1
      · exact (h.outside hs' hs).2
    refine ⟨g, hheads.append ?_, fun next => ?_⟩
    · rw [hm]
      exact .nil g
    · exact
        { boundary := h.boundary
          look := h.look
          live := h.live
          outside := fun h1 h2 => ⟨(h.outside h1 h2).1, by simp only; rw [hm]; rfl⟩
          fresh := fun hc => ⟨(h.fresh hc).1, by simp only; rw [hm]; rfl, (h.fresh hc).2.2⟩
          within := fun hc => absurd hc hs }

/-- A `feed` that returned, after `off` bytes in all, with the part `g` under way. -/
def FeedResult.Follows (pat s : Bytes) (off : Nat) (g : Option UnderWay) : FeedResult → Prop
  | .returned p _ _ => p.state = .parseError ∨ ∀ next : Bytes, Multipart.Follows pat s next off 0 p g
  | .threw _ _ _ => False
  | .running _ _ => False

/-- The byte loop, when no iteration of it ends a header block with a cut line. -/
theorem feedLoop_follows (hpat : pat ≠ []) (hin : s.drop off = buffer ++ later) (hlen : off + buffer.length ≤ s.length)
    (p₀ : Parser) (fuel : Nat) : ∀ {p : Parser} {g : Option UnderWay} {i : Nat} (calls : List Callback),
    loopFuel buffer i p.index ≤ fuel → Follows pat s buffer off (min i buffer.length) p g →
    (∀ v ∈ loopVisits buffer fuel p i, ¬ v.Cut) →
    ∃ g', Track pat s g ((loopPlaces off buffer fuel p i).flatMap Place.located) g' ∧
      (feedLoop p₀ buffer fuel p calls i).Follows pat s (off + buffer.length) g' ∧
      ∀ v ∈ loopPlaces off buffer fuel p i, v.Kept s := by
  -- the report after the loop
  have hflush : ∀ {p : Parser} {g : Option UnderWay} {i : Nat}, buffer.length ≤ i →
      Follows pat s buffer off (min i buffer.length) p g →
      ∃ g', Track pat s g ([⟨off + buffer.length, p, (flush p buffer).2⟩].flatMap Place.located) g' ∧
        (∀ next : Bytes, Follows pat s next (off + buffer.length) 0 (flush p buffer).1 g') ∧
        ∀ v ∈ [(⟨off + buffer.length, p, (flush p buffer).2⟩ : Place)], v.Kept s := by
    intro p g i hi h
    rw [Nat.min_eq_right hi] at h
    obtain ⟨g', ht, hnext⟩ := flush_follows (k := off + buffer.length) h
    refine ⟨g', by simpa [Place.located] using ht, hnext, fun v hv => ?_⟩
    rw [List.mem_singleton.mp hv]
    exact h.kept hlen _
  induction fuel with
  | zero =>
    intro p g i calls hfuel h _
    have hi := length_le_of_loopFuel hfuel
    obtain ⟨g', ht, hnext, hkept⟩ := hflush hi h
    rw [loopPlaces, if_pos hi, feedLoop_end p₀ 0 calls hi]
    exact ⟨g', ht, Or.inr hnext, hkept⟩
  | succ fuel ih =>
    intro p g i calls hfuel h hv
    rw [loopPlaces, feedLoop]
    rw [loopVisits] at hv
    split_ifs at hv ⊢ with hi
    · obtain ⟨g', ht, hnext, hkept⟩ := hflush hi h
      exact ⟨g', ht, Or.inr hnext, hkept⟩
    · have hi' := Nat.not_le.mp hi
      rw [Nat.min_eq_left (Nat.le_of_lt hi')] at h
      have hbody := body_follows hpat h hin hi' (hv _ (by simp))
      have hhere := h.kept (by omega)
      cases hb : body p buffer i with
      | next p' cs j =>
        rw [hb] at hv hbody
        have hmove := body_advances p buffer i
        rw [hb] at hmove
        have hless := loopFuel_lt hi' hmove
        obtain ⟨g₁, ht₁, hnext⟩ := hbody
        obtain ⟨g', ht, hres, hkept⟩ := ih (calls ++ cs) (by omega) hnext (fun v hm => hv v (List.mem_cons_of_mem _ hm))
        refine ⟨g', ht₁.append ht, hres, fun v hm => ?_⟩
        rcases List.mem_cons.mp hm with rfl | hm
        · exact hhere cs
        · exact hkept v hm
      | error p' msg =>
        refine ⟨g, .nil g, Or.inl rfl, fun v hm => ?_⟩
        rw [List.mem_singleton.mp hm]
        exact hhere []
      | stop p' => rw [hb] at hbody; exact hbody.elim
      | throw p' cs msg => rw [hb] at hbody; exact hbody.elim

/-- One call of `feed`. -/
theorem feed_follows (hpat : pat ≠ []) (hin : s.drop off = buffer ++ later)
    (h : p.state = .parseError ∨ ∀ next : Bytes, Follows pat s next off 0 p g)
    (hv : ∀ v ∈ feedVisits p buffer, ¬ v.Cut) :
    ∃ g', Track pat s g ((feedPlaces off p buffer).flatMap Place.located) g' ∧
      (feed p buffer).Follows pat s (off + buffer.length) g' ∧ ∀ v ∈ feedPlaces off p buffer, v.Kept s := by
  unfold feedPlaces feed
  unfold feedVisits at hv
  split_ifs at hv ⊢ with hc
  · refine ⟨g, .nil g, ?_, by simp⟩
    rcases h with h | h
    · exact Or.inl h
    · rcases hc with hc | hc
      · exact Or.inl hc
      · rw [hc]
        exact Or.inr h
  · rcases h with h | h
    · exact absurd (Or.inl h) hc
    · have hlen : off + buffer.length ≤ s.length := by
        have hl := congrArg List.length hin
        rw [List.length_drop, List.length_append] at hl
        have hpos : buffer.length ≠ 0 := fun h0 => hc (Or.inr h0)
        omega
      exact feedLoop_follows hpat hin hlen p _ [] (loopFuel_start buffer p.index) (by rw [Nat.zero_min]; exact h buffer) hv

/-- A run of `feed` calls. -/
theorem places_follow (hpat : pat ≠ []) (chunks : List Bytes) : ∀ {off : Nat} {p : Parser} {g : Option UnderWay},
    s.drop off = chunks.flatten → p.state = .parseError ∨ (∀ next : Bytes, Follows pat s next off 0 p g) →
    (∀ v ∈ visits p chunks, ¬ v.Cut) →
    ∃ g', Track pat s g ((places off p chunks).flatMap Place.located) g' ∧ ∀ v ∈ places off p chunks, v.Kept s := by
  induction chunks with
  | nil =>
    intro off p g _ _ _
    exact ⟨g, .nil g, by simp [places]⟩
  | cons b bs ih =>
    intro off p g hin h hv
    rw [List.flatten_cons] at hin
    rw [visits] at hv
    obtain ⟨g₁, ht₁, hres, hkept₁⟩ := feed_follows hpat hin h (fun v hm => hv v (List.mem_append_left _ hm))
    rw [places]
    cases hf : feed p b with
    | returned p' cs ret =>
      rw [hf] at hres hv
      have hin' : s.drop (off + b.length) = bs.flatten := by
        rw [← List.drop_drop, hin, List.drop_left]
      obtain ⟨g', ht, hkept⟩ := ih hin' hres (fun v hm => hv v (List.mem_append_right _ hm))
      refine ⟨g', ?_, fun v hm => ?_⟩
      · rw [List.flatMap_append]
        exact ht₁.append ht
      · rcases List.mem_append.mp hm with hm | hm
        · exact hkept₁ v hm
        · exact hkept v hm
    | threw p' cs msg => rw [hf] at hres; exact hres.elim
    | running p' cs => rw [hf] at hres; exact hres.elim

/-- `set_boundary` starts outside the parts. -/
theorem follows_setBoundary (fill : Nat → UInt8) (next : Bytes) :
    Follows pat s next 0 0 (Parser.setBoundary pat fill) none :=
  { boundary := rfl
    look := by simp [Parser.setBoundary]
    live := by simp [Parser.setBoundary]
    outside := fun _ _ => ⟨rfl, rfl⟩
    fresh := fun hc => by cases hc
    within := fun hc => by cases hc }

end Runs

/-- The calls of a run from `set_boundary` on, each with its position in the input. -/
def located (boundary : Bytes) (fill : Nat → UInt8) (chunks : List Bytes) : List Located :=
  (places 0 (Parser.setBoundary boundary fill) chunks).flatMap Place.located

/-- Without their positions they are the calls of the run. -/
theorem located_calls (boundary : Bytes) (fill : Nat → UInt8) (chunks : List Bytes) :
    (located boundary fill chunks).map Located.call = (feedAll (Parser.setBoundary boundary fill) chunks).calls := by
  rw [places_calls chunks 0, located, List.map_flatMap]
  congr 1
  funext v
  simp [Place.located, Function.comp_def]

/-- **Part data is never fabricated** in a run in which no header block is ended by a line without a colon: the data reported
for a part is a beginning of what follows the line feed of its header block, all of it up to the delimiter once the part has
ended, and what a false lead would report at any moment are the last bytes of the input. -/
theorem places_honest (b : Bytes) (fill : Nat → UInt8) (chunks : List Bytes)
    (hv : ∀ v ∈ visits (Parser.setBoundary (delimiter b) fill) chunks, ¬ v.Cut) :
    Honest (delimiter b) chunks.flatten (located (delimiter b) fill chunks) ∧
      ∀ v ∈ places 0 (Parser.setBoundary (delimiter b) fill) chunks, v.Kept chunks.flatten := by
  obtain ⟨g', ht, hkept⟩ := places_follow (s := chunks.flatten) (by simp [delimiter]) chunks List.drop_zero
    (Or.inr (follows_setBoundary fill)) hv
  exact ⟨ht.honest, hkept⟩

/-- A part with a false lead in it, in three buffers; the lead and the delimiter are both cut by a buffer's end. -/
theorem places_honest_false_lead :
    Honest (delimiter (bytes "x")) (bytes "--x\r\nA: b\r\n\r\nhi\r\n-you\r\n--x--")
        (located (delimiter (bytes "x")) (fun _ => 0)
          [bytes "--x\r\nA: b\r\n\r\nhi\r\n", bytes "-you\r\n--", bytes "x--"]) ∧
      ∀ v ∈ places 0 (Parser.setBoundary (delimiter (bytes "x")) (fun _ => 0))
          [bytes "--x\r\nA: b\r\n\r\nhi\r\n", bytes "-you\r\n--", bytes "x--"],
        v.Kept (bytes "--x\r\nA: b\r\n\r\nhi\r\n-you\r\n--x--") :=
  places_honest (bytes "x") (fun _ => 0) [bytes "--x\r\nA: b\r\n\r\nhi\r\n", bytes "-you\r\n--", bytes "x--"]
    (by decide +kernel)

/-- Under the boundary `x`, the part whose header block is the one line `ab` has the content `hi`; reported are two bytes of
the fresh lookbehind buffer (here zeros) and then `hi`. -/
theorem not_honest_cut : ¬ Honest (delimiter (bytes "x")) (bytes "--x\r\nab\r\nhi")
    (located (delimiter (bytes "x")) (fun _ => 0) [bytes "--x\r\nab\r\nhi"]) := by
  intro h
  have hcalls : located (delimiter (bytes "x")) (fun _ => 0) [bytes "--x\r\nab\r\nhi"] =
      [⟨4, .onPartBegin⟩] ++ ⟨8, .onHeadersEnd⟩ :: [⟨9, .onPartData [0, 0]⟩, ⟨11, .onPartData (bytes "hi")⟩] := by
    decide +kernel
  have hdata := (h.begins hcalls).2
  revert hdata
  decide +kernel

end Multipart
end Netcore
