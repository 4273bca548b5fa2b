import Netcore.Lib.OrderedMap
import Netcore.Multipart.Parser

/-!
# `multipart_reader`

The reader of `multipart_reader.hpp`: it collects the header fragments that the parser reports into a multimap and passes
the parts on to the four callbacks of its user. Again the calls are returned as a list. The reader's own callbacks do not
touch the parser, so a `feed` of the reader is a `feed` of the parser followed by the parser's calls, in order.
-/

namespace Netcore
namespace Multipart

/-- `multipart_headers`, a `std::multimap<std::string, std::string>`. -/
abbrev Headers := List (Bytes × Bytes)

/-- One call of a callback of the reader's user. -/
inductive ReaderCall where
  | onPartBegin (headers : Headers)
  | onPartData (data : Bytes)
  | onPartEnd
  | onEnd
  deriving DecidableEq, Repr

/-- The members of `multipart_reader`. -/
structure Reader where
  parser : Parser := {}
  currentHeaders : Headers := []
  currentHeaderName : Bytes := []
  currentHeaderValue : Bytes := []
  deriving DecidableEq, Repr

namespace Reader

/-- `set_boundary`: only the parser is reset. -/
def setBoundary (r : Reader) (boundary : Bytes) (fill : Nat → UInt8) : Reader :=
  { r with parser := Parser.setBoundary boundary fill }

def succeeded (r : Reader) : Bool := r.parser.succeeded

def hasError (r : Reader) : Bool := r.parser.hasError

def stopped (r : Reader) : Bool := r.parser.stopped

/-- `cbPartBegin`, `cbHeaderField`, ..., `cbEnd`: what the reader does on one call of a parser callback. -/
def onCallback (r : Reader) : Callback → Reader × List ReaderCall
  | .onPartBegin => (r, [])
  | .onHeaderField d => ({ r with currentHeaderName := r.currentHeaderName ++ d }, [])
  | .onHeaderValue d => ({ r with currentHeaderValue := r.currentHeaderValue ++ d }, [])
  | .onHeaderEnd =>
    ({ r with
        currentHeaders := OrderedMap.emplaceMulti r.currentHeaders r.currentHeaderName r.currentHeaderValue
        currentHeaderName := []
        currentHeaderValue := [] }, [])
  | .onHeadersEnd => ({ r with currentHeaders := [] }, [.onPartBegin r.currentHeaders])
  | .onPartData d => (r, [.onPartData d])
  | .onPartEnd => (r, [.onPartEnd])
  | .onEnd => (r, [.onEnd])

/-- The parser's calls, one after the other. -/
def onCallbacks (r : Reader) : List Callback → Reader × List ReaderCall
  | [] => (r, [])
  | c :: cs =>
    let (r₁, out₁) := r.onCallback c
    let (r₂, out₂) := onCallbacks r₁ cs
    (r₂, out₁ ++ out₂)

end Reader

/-- How a call of the reader's `feed` ends. -/
inductive ReaderResult where
  | returned (r : Reader) (calls : List ReaderCall) (ret : Nat)
  | threw (r : Reader) (calls : List ReaderCall) (message : String)
  | running

/-- `multipart_reader::feed`. -/
def Reader.feed (r : Reader) (buffer : Bytes) : ReaderResult :=
  match Multipart.feed r.parser buffer with
  | .returned p cs ret =>
    let (r', out) := r.onCallbacks cs
    .returned { r' with parser := p } out ret
  | .threw p cs msg =>
    let (r', out) := r.onCallbacks cs
    .threw { r' with parser := p } out msg
  | .running _ _ => .running

/-- Buffers passed to `feed` one after the other, each whole. -/
def Reader.feedAll (r : Reader) : List Bytes → ReaderResult
  | [] => .returned r [] 0
  | b :: bs =>
    match r.feed b with
    | .returned r₁ out₁ ret =>
      match r₁.feedAll bs with
      | .returned r₂ out₂ ret₂ => .returned r₂ (out₁ ++ out₂) (ret + ret₂)
      | .threw r₂ out₂ msg => .threw r₂ (out₁ ++ out₂) msg
      | .running => .running
    | .threw r₁ out₁ msg => .threw r₁ out₁ msg
    | .running => .running

/-- A `feed` of the reader that returns is one of the parser that returns. -/
theorem Reader.of_feed_returned {r r' : Reader} {buffer : Bytes} {calls : List ReaderCall} {ret : Nat}
    (h : r.feed buffer = .returned r' calls ret) : ∃ p cs, Multipart.feed r.parser buffer = .returned p cs ret ∧
      r' = { (r.onCallbacks cs).1 with parser := p } ∧ calls = (r.onCallbacks cs).2 := by
  unfold Reader.feed at h
  cases hf : Multipart.feed r.parser buffer with
  | returned p cs n =>
    rw [hf] at h
    cases h
    exact ⟨p, cs, rfl, rfl, rfl⟩
  | threw p cs msg =>
    rw [hf] at h
    cases h
  | running p cs =>
    rw [hf] at h
    cases h

/-- Buffers of which each `feed` returns: the calls of the first come before those of the others. -/
theorem Reader.of_feedAll_cons_returned {r r' : Reader} {b : Bytes} {bs : List Bytes} {calls : List ReaderCall} {ret : Nat}
    (h : r.feedAll (b :: bs) = .returned r' calls ret) : ∃ r₁ out₁ n₁ out₂ n₂, r.feed b = .returned r₁ out₁ n₁ ∧
      r₁.feedAll bs = .returned r' out₂ n₂ ∧ calls = out₁ ++ out₂ := by
  unfold Reader.feedAll at h
  cases h₁ : r.feed b with
  | returned r₁ out₁ n₁ =>
    rw [h₁] at h
    cases h₂ : r₁.feedAll bs with
    | returned r₂ out₂ n₂ =>
      simp only [h₂] at h
      cases h
      exact ⟨r₁, out₁, n₁, out₂, n₂, rfl, h₂, rfl⟩
    | threw r₂ out₂ msg =>
      simp only [h₂] at h
      cases h
    | running =>
      simp only [h₂] at h
      cases h
  | threw r₁ out₁ msg =>
    rw [h₁] at h
    cases h
  | running =>
    rw [h₁] at h
    cases h

/-- One piece is one call of `feed`. -/
theorem Reader.feedAll_singleton (r : Reader) (b : Bytes) : r.feedAll [b] = r.feed b := by
  unfold Reader.feedAll
  cases r.feed b with
  | returned r₁ out₁ ret => simp [Reader.feedAll]
  | threw r₁ out₁ msg => rfl
  | running => rfl

/-- A buffer without bytes does nothing. -/
theorem Reader.feed_nil (r : Reader) : r.feed [] = .returned r [] 0 := by
  have hfeed : Multipart.feed r.parser [] = .returned r.parser [] 0 := if_pos (.inr rfl)
  rw [Reader.feed, hfeed]
  rfl

/-- Empty pieces change nothing. -/
theorem Reader.feedAll_filter (chunks : List Bytes) : ∀ r : Reader, r.feedAll (chunks.filter (· ≠ [])) = r.feedAll chunks := by
  induction chunks with
  | nil => intro r; rfl
  | cons b bs ih =>
    intro r
    by_cases hb : b = []
    · rw [List.filter_cons_of_neg (by simp [hb]), ih, hb, Reader.feedAll, Reader.feed_nil]
      simp only
      cases r.feedAll bs with
      | returned r₂ out₂ n₂ => simp
      | threw r₂ out₂ msg => rfl
      | running => rfl
    · rw [List.filter_cons_of_pos (by simp [hb]), Reader.feedAll, Reader.feedAll]
      simp only [ih]

/-- A reader that was set up is live. -/
theorem Reader.setBoundary_live (r : Reader) (boundary : Bytes) (fill : Nat → UInt8) :
    (r.setBoundary boundary fill).parser.Live := ⟨by simp [setBoundary, Parser.setBoundary], by simp [setBoundary, Parser.setBoundary]⟩

@[simp] theorem Reader.onCallbacks_nil (r : Reader) : r.onCallbacks [] = (r, []) := rfl

/-- Calls one after another are made one after another. -/
theorem Reader.onCallbacks_append (r : Reader) (cs cs' : List Callback) :
    r.onCallbacks (cs ++ cs') =
      (((r.onCallbacks cs).1.onCallbacks cs').1, (r.onCallbacks cs).2 ++ ((r.onCallbacks cs).1.onCallbacks cs').2) := by
  induction cs generalizing r with
  | nil => simp
  | cons c cs ih => simp [Reader.onCallbacks, ih]

end Multipart
end Netcore
