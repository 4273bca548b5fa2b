import Netcore.Basic
import Netcore.Lib.OrderedMap

/-!
# Text: `utils.hpp`, `url_encode_decode.hpp` and the C library

The functions on byte strings that the request, the router and the connection call. Case conversion and `isspace` are those
of the C locale.
-/

namespace Netcore

/-! ## Characters -/

def toLower (c : UInt8) : UInt8 := if 65 ≤ c ∧ c ≤ 90 then c + 32 else c

def toUpper (c : UInt8) : UInt8 := if 97 ≤ c ∧ c ≤ 122 then c - 32 else c

/-- `isspace`. -/
def isSpace (c : UInt8) : Bool := decide (c = SPACE ∨ (9 ≤ c ∧ c ≤ 13))

def isDigit (c : UInt8) : Bool := decide (48 ≤ c ∧ c ≤ 57)

/-! ## Comparison and search -/

/-- `iequal`: equal up to case. -/
def iequal (s t : Bytes) : Bool := decide (s.map toLower = t.map toLower)

/-- `s.find(t) != npos`. -/
def contains (s t : Bytes) : Bool := decide (t <:+: s)

/-- `find_strIC`. -/
def findStrIC (src dest : Bytes) : Bool := contains (src.map toUpper) (dest.map toUpper)

/-- `s.find(t)`: the first position of `t` in `s`. -/
def findSub (s t : Bytes) : Option Nat :=
  match s with
  | [] => if t = [] then some 0 else none
  | c :: cs => if t <+: c :: cs then some 0 else (findSub cs t).map (· + 1)

/-- `s.find(c, pos)`. -/
def findChar (s : Bytes) (c : UInt8) (pos : Nat) : Option Nat := ((s.drop pos).idxOf? c).map (· + pos)

/-- The first occurrence of a character that does not occur before it. -/
theorem idxOf?_append_cons {s : Bytes} {c : UInt8} (h : c ∉ s) (t : Bytes) : (s ++ c :: t).idxOf? c = some s.length := by
  rw [List.idxOf?_eq_some_iff]
  refine ⟨by simp, ?_, ?_⟩
  · simp
  · intro j hj
    rw [List.getElem_append_left hj]
    intro he
    exact h (he ▸ List.getElem_mem hj)

/-- `s.rfind(c)`. -/
def rfindChar (s : Bytes) (c : UInt8) : Option Nat := (s.reverse.idxOf? c).map (s.length - 1 - ·)

/-- `trim`: without the spaces at both ends. -/
def trim (v : Bytes) : Bytes := ((v.dropWhile (· = SPACE)).reverse.dropWhile (· = SPACE)).reverse

/-- `get_extension`: from the last dot on. -/
def getExtension (name : Bytes) : Bytes :=
  match rfindChar name DOT with
  | none => []
  | some pos => name.drop pos

/-! ## Numbers -/

/-- Decimal text of a number, as `itoa_fwd` and `std::to_string` print it. -/
def decimal (n : Int) : Bytes := bytes (toString n)

/-- The digits at the front of `s`, read on from `acc`. -/
def digitsValue (acc : Nat) : Bytes → Nat
  | [] => acc
  | c :: cs => if isDigit c then digitsValue (acc * 10 + (c.toNat - 48)) cs else acc

/-- `atoll`: leading white space, an optional sign, digits; out of range values saturate. -/
def atoll (s : Bytes) : Int :=
  match s.dropWhile isSpace with
  | 45 :: ds => max (-9223372036854775808) (-(digitsValue 0 ds : Int))
  | 43 :: ds => min 9223372036854775807 (digitsValue 0 ds : Int)
  | ds => min 9223372036854775807 (digitsValue 0 ds : Int)

/-- The value is a `long long`. -/
theorem atoll_bounds (s : Bytes) : -9223372036854775808 ≤ atoll s ∧ atoll s ≤ 9223372036854775807 := by
  unfold atoll
  split <;> omega

/-! ## Percent-decoding -/

def hexVal (c : UInt8) : Option Nat :=
  if 48 ≤ c ∧ c ≤ 57 then some (c.toNat - 48)
  else if 65 ≤ c ∧ c ≤ 70 then some (c.toNat - 55)
  else if 97 ≤ c ∧ c ≤ 102 then some (c.toNat - 87)
  else none

/-- `strtol` to base 16 on a string of two characters: white space or a sign may take the place of the first digit, a
character that is no digit ends the number, and no digits at all are 0. -/
def strtolHex (a b : UInt8) : Int :=
  match hexVal a with
  | some x => match hexVal b with
    | some y => 16 * x + y
    | none => x
  | none =>
    if isSpace a ∨ a = 43 then ((hexVal b).getD 0 : Nat)
    else if a = HYPHEN then -((hexVal b).getD 0 : Nat)
    else 0

/-- `url_decode`. -/
def urlDecode : Bytes → Bytes
  | [] => []
  | 37 :: a :: b :: rest => UInt8.ofNat (strtolHex a b % 256).toNat :: urlDecode rest
  | c :: rest => (if c = 43 then SPACE else c) :: urlDecode rest

/-- `is_form_url_encode`. -/
def isFormUrlEncode (s : Bytes) : Bool := decide (37 ∈ s ∨ 43 ∈ s)

/-! ## Query strings -/

/-- The state of the loop of `parse_query`: the bytes since `pos`, the key in hand, whether a separator was seen (`pos` is
not 0), and the map. -/
structure QueryState where
  current : Bytes := []
  key : Bytes := []
  seen : Bool := false
  query : List (Bytes × Bytes) := []
  deriving DecidableEq, Repr

/-- One character of `parse_query`. -/
def QueryState.step (q : QueryState) (c : UInt8) : QueryState :=
  if c = 61 then { q with key := trim q.current, current := [], seen := true }
  else if c = 38 then { q with query := OrderedMap.emplace q.query q.key (trim q.current), current := [], seen := true }
  else { q with current := q.current ++ [c] }

/-- `parse_query`: a `std::map`, in key order; the first value of a key stays. -/
def parseQuery (s : Bytes) : List (Bytes × Bytes) :=
  let q := s.foldl QueryState.step {}
  if q.seen then OrderedMap.emplace q.query q.key (trim q.current) else []

theorem QueryState.seen_foldl (s : Bytes) (q : QueryState) :
    (s.foldl step q).seen = true ↔ q.seen = true ∨ 61 ∈ s ∨ 38 ∈ s := by
  induction s generalizing q with
  | nil => simp
  | cons c s ih =>
    rw [List.foldl_cons, ih, step]
    by_cases h1 : c = 61
    · simp [h1]
    · by_cases h2 : c = 38
      · simp [h2]
      · rw [if_neg h1, if_neg h2]
        simp [Ne.symm h1, Ne.symm h2]

/-- A text without separators has no parameters. -/
theorem parseQuery_ne_nil_iff (s : Bytes) : parseQuery s ≠ [] ↔ 61 ∈ s ∨ 38 ∈ s := by
  have hseen := QueryState.seen_foldl s {}
  simp only [Bool.false_eq_true, false_or] at hseen
  rw [← hseen]
  unfold parseQuery
  dsimp only
  split
  · rename_i h
    exact iff_of_true (OrderedMap.emplace_ne_nil _ _ _) h
  · rename_i h
    exact iff_of_false (not_not.mpr rfl) h

end Netcore
