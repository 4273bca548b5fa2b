import Mathlib.Data.List.Basic
import Mathlib.Tactic.IntervalCases

/-!
# The chunked coding

A body in the chunked coding of HTTP/1.1 is a sequence of chunks: the size of the data in hexadecimal, a line end, the data and a
line end. A chunk without data is the last one. `decode` reads such a body, without extensions and trailers; `decode_chunks` says that
it finds the data of the chunks that were written, and what follows the last one.
-/

namespace ChunkedCoding

/-- The digits of a number to base 16, as bytes. -/
def sizeText (n : Nat) : List UInt8 := (Nat.toDigits 16 n).map fun c => UInt8.ofNat c.toNat

/-- A chunk. -/
def chunk (data : List UInt8) : List UInt8 := sizeText data.length ++ 13 :: 10 :: (data ++ [13, 10])

def digitValue (c : UInt8) : Option Nat :=
  if 48 ≤ c ∧ c ≤ 57 then some (c.toNat - 48)
  else if 65 ≤ c ∧ c ≤ 70 then some (c.toNat - 55)
  else if 97 ≤ c ∧ c ≤ 102 then some (c.toNat - 87)
  else none

/-- A digit more. -/
def digitStep (n : Nat) (c : UInt8) : Option Nat := (digitValue c).map (16 * n + ·)

/-- The number that a text of at least one digit stands for. -/
def sizeValue (s : List UInt8) : Option Nat := if s = [] then none else s.foldlM digitStep 0

/-- The data of the chunk that a text begins with, and the rest of the text. -/
def readChunk (s : List UInt8) : Option (List UInt8 × List UInt8) :=
  let line := s.takeWhile (· ≠ 13)
  match sizeValue line, s.drop line.length with
  | some n, 13 :: 10 :: body =>
    match body.drop n with
    | 13 :: 10 :: rest => some (body.take n, rest)
    | _ => none
  | _, _ => none

/-- The data of the chunks before the last one, and what follows that. -/
def decode : Nat → List UInt8 → Option (List (List UInt8) × List UInt8)
  | 0, _ => none
  | fuel + 1, s =>
    match readChunk s with
    | some ([], rest) => some ([], rest)
    | some (data, rest) => (decode fuel rest).map fun r => (data :: r.1, r.2)
    | none => none

/-! ## Sizes -/

theorem digitValue_digitChar {d : Nat} (h : d < 16) : digitValue (UInt8.ofNat d.digitChar.toNat) = some d := by
  interval_cases d <;> rfl

theorem foldlM_sizeText (n : Nat) : (sizeText n).foldlM digitStep 0 = some n := by
  induction n using Nat.strongRecOn with
  | ind n ih =>
    unfold sizeText at ih ⊢
    rw [Nat.toDigits_eq_if (by decide)]
    by_cases h : n < 16
    · rw [if_pos h, List.map_singleton, List.foldlM_cons, digitStep, digitValue_digitChar h]
      simp
    · have hlt : n / 16 < n := Nat.div_lt_self (by omega) (by decide)
      rw [if_neg h, List.map_append, List.foldlM_append, ih _ hlt, List.map_singleton]
      simp only [Option.bind_eq_bind, Option.bind_some, List.foldlM_cons, digitStep,
        digitValue_digitChar (Nat.mod_lt n (by decide : 0 < 16)), Option.map_some, List.foldlM_nil, Option.pure_def]
      rw [Nat.div_add_mod]

theorem sizeText_ne_nil (n : Nat) : sizeText n ≠ [] := by simp [sizeText, Nat.toDigits_ne_nil]

theorem sizeValue_sizeText (n : Nat) : sizeValue (sizeText n) = some n := by
  rw [sizeValue, if_neg (sizeText_ne_nil n), foldlM_sizeText]

/-- A digit is no line end. -/
theorem ne_of_mem_sizeText {n : Nat} {c : UInt8} (h : c ∈ sizeText n) : c ≠ 13 := by
  induction n using Nat.strongRecOn with
  | ind n ih =>
    have hdigit : ∀ d, d < 16 → UInt8.ofNat d.digitChar.toNat ≠ 13 := by
      intro d hd
      interval_cases d <;> decide
    unfold sizeText at ih h
    rw [Nat.toDigits_eq_if (by decide)] at h
    by_cases hlt : n < 16
    · rw [if_pos hlt, List.map_singleton, List.mem_singleton] at h
      rw [h]
      exact hdigit n hlt
    · rw [if_neg hlt, List.map_append, List.mem_append, List.map_singleton, List.mem_singleton] at h
      rcases h with h | h
      · exact ih _ (Nat.div_lt_self (by omega) (by decide)) h
      · rw [h]
        exact hdigit _ (Nat.mod_lt n (by decide))

/-! ## Chunks -/

/-- A chunk is read back. -/
theorem readChunk_chunk (data rest : List UInt8) : readChunk (chunk data ++ rest) = some (data, rest) := by
  have htext : chunk data ++ rest = sizeText data.length ++ 13 :: 10 :: (data ++ 13 :: 10 :: rest) := by simp [chunk]
  have hline : (chunk data ++ rest).takeWhile (· ≠ 13) = sizeText data.length := by
    rw [htext, List.takeWhile_append_of_pos fun c hc => decide_eq_true (ne_of_mem_sizeText hc)]
    simp
  unfold readChunk
  simp only [hline, sizeValue_sizeText]
  rw [htext, List.drop_left]
  simp only [List.drop_left, List.take_left]

/-- A body of chunks with data and a last one is read back. -/
theorem decode_chunks (rest : List UInt8) : ∀ {chunks : List (List UInt8)} {fuel : Nat}, (∀ data ∈ chunks, data ≠ []) →
    chunks.length < fuel → decode fuel (chunks.flatMap chunk ++ (chunk [] ++ rest)) = some (chunks, rest) := by
  intro chunks
  induction chunks with
  | nil =>
    intro fuel _ hfuel
    obtain ⟨fuel, rfl⟩ : ∃ k, fuel = k + 1 := ⟨fuel - 1, by rw [List.length_nil] at hfuel; omega⟩
    rw [List.flatMap_nil, List.nil_append, decode, readChunk_chunk]
  | cons data chunks ih =>
    intro fuel hne hfuel
    obtain ⟨fuel, rfl⟩ : ∃ k, fuel = k + 1 := ⟨fuel - 1, by rw [List.length_cons] at hfuel; omega⟩
    obtain ⟨x, data, rfl⟩ := List.exists_cons_of_ne_nil (hne data (by simp))
    rw [List.flatMap_cons, List.append_assoc, decode, readChunk_chunk]
    simp only
    rw [ih (fun d hd => hne d (List.mem_cons_of_mem _ hd)) (by rw [List.length_cons] at hfuel; omega), Option.map_some]

/-- There are no more chunks than bytes. -/
theorem length_le_length_flatMap (chunks : List (List UInt8)) : chunks.length ≤ (chunks.flatMap chunk).length := by
  induction chunks with
  | nil => exact Nat.le_refl 0
  | cons data chunks ih =>
    rw [List.flatMap_cons, List.length_append, List.length_cons]
    have hpos : 0 < (chunk data).length := by simp [chunk]
    omega

/-- A whole body is read back with its length for fuel. -/
theorem decode_body {chunks : List (List UInt8)} (hne : ∀ data ∈ chunks, data ≠ []) :
    decode (chunks.flatMap chunk ++ chunk []).length (chunks.flatMap chunk ++ chunk []) = some (chunks, []) := by
  have hfuel : chunks.length < (chunks.flatMap chunk ++ chunk []).length := by
    have hle := length_le_length_flatMap chunks
    have hpos : 0 < (chunk []).length := by simp [chunk]
    rw [List.length_append]
    omega
  have hdecode := decode_chunks [] hne hfuel
  rwa [List.append_nil] at hdecode

end ChunkedCoding
