import Netcore.Lib.Delimiter
import Netcore.Multipart.Form

/-!
# The multipart scanner, one byte at a time

An abstract machine for the same format: it has no buffers, marks or lookbehind array, takes one byte a step, and delivers
every byte at once or holds it in `held`. `Simulation.lean` shows that the reader of `Reader.lean` computes this machine on
the concatenation of the buffers it is fed.

`step` is partial in one case of the format: a header line that a CR cuts before its colon. What the reader does with the
name read so far depends there on where the buffers were cut, so no function of the bytes describes it.
-/

namespace Netcore
namespace Multipart

open Delimiter

/-- The state of the scanner: where it is in the format, the delimiter flags, how much of the first delimiter or of a header
name it has read, the bytes it holds back, the header line and the header block under way, and what it has delivered. -/
structure Scanner where
  state : State := .start
  flags : Flags := {}
  index : Nat := 0
  held : Bytes := []
  name : Bytes := []
  value : Bytes := []
  headers : Headers := []
  delivery : Delivery := {}
  deriving DecidableEq, Repr

namespace Scanner

/-- The input is malformed. -/
def fail (s : Scanner) : Scanner := { s with state := .parseError }

/-- The first delimiter line, which lacks the leading line end. -/
def startBoundary (pat : Bytes) (s : Scanner) (c : UInt8) : Scanner :=
  if s.index + 2 = pat.length then
    if c ≠ CR then s.fail else { s with index := s.index + 1 }
  else if s.index + 1 = pat.length then
    if c ≠ LF then s.fail else { s with index := 0, state := .headerFieldStart }
  else if c ≠ pat.getD (s.index + 2) 0 then s.fail
  else { s with index := s.index + 1 }

/-- A byte of a header name, the colon after it, or the CR of the blank line. -/
def headerField (s : Scanner) (c : UInt8) : Option Scanner :=
  if c = CR then
    if s.index = 0 then some { s with state := .headersAlmostDone, held := [] } else none
  else if c = HYPHEN then some { s with index := s.index + 1, name := s.name ++ [c] }
  else if c = COLON then
    if s.index = 0 then some s.fail else some { s with state := .headerValueStart, index := s.index + 1 }
  else if lower c < 97 ∨ 122 < lower c then some s.fail
  else some { s with index := s.index + 1, name := s.name ++ [c] }

/-- A byte of a header value; the CR after it ends the header line. -/
def headerValue (s : Scanner) (c : UInt8) : Scanner :=
  if c = CR then
    { s with
      state := .headerValueAlmostDone
      headers := OrderedMap.emplaceMulti s.headers s.name s.value
      name := []
      value := [] }
  else { s with value := s.value ++ [c] }

/-- The delimiter turned out to be a false lead: what was held is data, and `c` is looked at again. -/
def restart (pat : Bytes) (s : Scanner) (c : UInt8) : Scanner :=
  if pat.head? = some c then { s with delivery := s.delivery.push s.held, held := [c] }
  else { s with delivery := s.delivery.push (s.held ++ [c]), held := [] }

/-- A byte of a part's content or of the delimiter after it. -/
def partData (pat : Bytes) (s : Scanner) (c : UInt8) : Option Scanner :=
  if s.held.length < pat.length then
    some { s with delivery := s.delivery.push (scanStep pat s.held c).1, held := (scanStep pat s.held c).2 }
  else if s.held.length = pat.length then
    if c = CR then some { s with flags := { s.flags with partBoundary := true }, held := s.held ++ [c] }
    else if c = HYPHEN then some { s with flags := { s.flags with lastBoundary := true }, held := s.held ++ [c] }
    else some (s.restart pat c)
  else if s.held.length = pat.length + 1 then
    if s.flags.partBoundary = true then
      if c = LF then
        some { s with
          flags := { s.flags with partBoundary := false }
          state := .headerFieldStart
          held := []
          delivery := s.delivery.closePart }
      else some (s.restart pat c)
    else if s.flags.lastBoundary = true then
      if c = HYPHEN then some { s with state := .ended, held := [], delivery := s.delivery.closePart.finish }
      else some (s.restart pat c)
    else some (s.restart pat c)
  else none

/-- One byte. -/
def step (pat : Bytes) (s : Scanner) (c : UInt8) : Option Scanner :=
  match s.state with
  | .parseError => some s
  | .start => some (startBoundary pat { s with index := 0, state := .startBoundary } c)
  | .startBoundary => some (startBoundary pat s c)
  | .headerFieldStart => headerField { s with index := 0, state := .headerField } c
  | .headerField => headerField s c
  | .headerValueStart => if c = SPACE then some s else some (headerValue { s with state := .headerValue } c)
  | .headerValue => some (headerValue s c)
  | .headerValueAlmostDone => if c ≠ LF then some s.fail else some { s with state := .headerFieldStart }
  | .headersAlmostDone =>
    if c ≠ LF then some s.fail
    else some { s with state := .partDataStart, headers := [], delivery := s.delivery.openPart s.headers }
  | .partDataStart => partData pat { s with state := .partData } c
  | .partData => partData pat s c
  | .ended => some s
  | .partEnd => none

/-- The bytes of a list, one after the other. -/
def run (pat : Bytes) (s : Scanner) (bs : Bytes) : Option Scanner := bs.foldlM (step pat) s

@[simp] theorem run_nil (pat : Bytes) (s : Scanner) : s.run pat [] = some s := rfl

theorem run_cons (pat : Bytes) (s : Scanner) (c : UInt8) (cs : Bytes) :
    s.run pat (c :: cs) = (s.step pat c).bind fun s' => s'.run pat cs := rfl

theorem run_append (pat : Bytes) (s : Scanner) (xs ys : Bytes) :
    s.run pat (xs ++ ys) = (s.run pat xs).bind fun s' => s'.run pat ys := by
  simp only [run, List.foldlM_append]
  rfl

/-- One byte more: the step that a run starts with. -/
theorem run_cons_of_step {pat : Bytes} {s s' : Scanner} {c : UInt8} (h : s.step pat c = some s') (cs : Bytes) :
    s.run pat (c :: cs) = s'.run pat cs := by
  rw [run_cons, h]
  rfl

theorem run_append_of_run {pat : Bytes} {s s' : Scanner} {xs : Bytes} (h : s.run pat xs = some s') (ys : Bytes) :
    s.run pat (xs ++ ys) = s'.run pat ys := by
  rw [run_append, h]
  rfl

/-- A malformed input stays malformed. -/
theorem run_parseError {pat : Bytes} {s : Scanner} (h : s.state = .parseError) (bs : Bytes) :
    s.run pat bs = some s := by
  induction bs with
  | nil => rfl
  | cons c cs ih =>
    have hs : s.step pat c = some s := by simp [step, h]
    rw [run_cons_of_step hs, ih]

/-- What follows the closing delimiter is ignored. -/
theorem run_ended {pat : Bytes} {s : Scanner} (h : s.state = .ended) (bs : Bytes) : s.run pat bs = some s := by
  induction bs with
  | nil => rfl
  | cons c cs ih =>
    have hs : s.step pat c = some s := by simp [step, h]
    rw [run_cons_of_step hs, ih]

/-- While the whole delimiter is not held, the bytes of a content go through the search of `Delimiter`. -/
theorem run_partData (pat bs : Bytes) : ∀ {s : Scanner}, s.state = .partData → Open pat s.held bs →
    s.run pat bs = some { s with
      delivery := s.delivery.push (scan pat s.held bs).1
      held := (scan pat s.held bs).2 } := by
  induction bs with
  | nil =>
    intro s _ _
    simp [scan]
  | cons c cs ih =>
    intro s hs ho
    have hstep : s.step pat c = some { s with
        delivery := s.delivery.push (scanStep pat s.held c).1
        held := (scanStep pat s.held c).2 } := by
      simp [step, hs, partData, ho.1]
    have h := ih (s := { s with
        delivery := s.delivery.push (scanStep pat s.held c).1
        held := (scanStep pat s.held c).2 }) hs ho.2
    rw [run_cons_of_step hstep, h]
    simp only [scan, Delivery.push_push]

/-- The state `PART_DATA_START` only tells a byte apart as the first one of a content. -/
theorem run_partDataStart {pat : Bytes} {s : Scanner} (h : s.state = .partDataStart) {bs : Bytes} (hb : bs ≠ []) :
    s.run pat bs = { s with state := .partData }.run pat bs := by
  cases bs with
  | nil => exact absurd rfl hb
  | cons c cs => simp [run_cons, step, h]

end Scanner

end Multipart
end Netcore
