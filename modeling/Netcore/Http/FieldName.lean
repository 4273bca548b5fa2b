import Mathlib.Tactic.IntervalCases
import Netcore.Http.Request
import Netcore.Lib.Delimiter

/-!
# The name of a form field

`get_multipart_field_name` looks for a parameter by its bare name anywhere in the header value, and takes the text between
the next quote and the last one. On the `Content-Disposition` of a text field it finds the field's name; and no `filename`,
not even when the field's name has that word in it, though `is_multipart_file` then takes the field for a file.
-/

namespace Netcore

open Slices

/-! ## Searches -/

theorem findSub_drop {s t : Bytes} : ∀ {p : Nat}, findSub s t = some p → t <+: s.drop p := by
  induction s with
  | nil =>
    intro p h
    rw [findSub] at h
    split_ifs at h with ht
    simp [ht]
  | cons c cs ih =>
    intro p h
    rw [findSub] at h
    split_ifs at h with ht
    · cases h
      exact ht
    · obtain ⟨p', hp', rfl⟩ := Option.map_eq_some_iff.mp h
      exact ih hp'

theorem contains_iff {s t : Bytes} : contains s t = true ↔ t <:+: s := by
  simp [contains]

/-- The last occurrence of a character that ends the text. -/
theorem rfindChar_concat (s : Bytes) (c : UInt8) : rfindChar (s ++ [c]) c = some s.length := by
  simp [rfindChar, List.idxOf?_cons]

/-! ## The disposition of a field -/

/-- The `Content-Disposition` of the text field `n`. -/
def disposition (n : Bytes) : Bytes := bytes "form-data; name=\"" ++ n ++ [QUOTE]

theorem disposition_eq (n : Bytes) : disposition n = bytes "form-data; name=" ++ QUOTE :: (n ++ [QUOTE]) := by
  rw [disposition, show bytes "form-data; name=\"" = bytes "form-data; name=" ++ [QUOTE] by decide]
  simp

theorem length_disposition (n : Bytes) : (disposition n).length = n.length + 18 := by
  rw [disposition, List.length_append, List.length_append, show (bytes "form-data; name=\"").length = 17 by decide]
  simp
  omega

/-- The word `filename` is in the disposition of a field exactly when it is in its name. -/
theorem filename_mem_disposition {n : Bytes} :
    contains (disposition n) (bytes "filename") = contains n (bytes "filename") := by
  have hq : QUOTE ∉ bytes "filename" := by decide
  rw [Bool.eq_iff_iff, contains_iff, contains_iff]
  constructor
  · intro h
    rw [disposition_eq] at h
    rcases Delimiter.infix_append_cons hq h with h | h
    · exact absurd h (by decide)
    · rcases Delimiter.infix_append_cons hq h with h | h
      · exact h
      · exact absurd h (by decide)
  · intro h
    exact h.trans ⟨bytes "form-data; name=\"", [QUOTE], rfl⟩

namespace Request

variable {r : Request} {k n : Bytes}

/-- The parameter `name` of a text field. -/
theorem getMultipartFieldName_name (h : r.multipartHeaders = [(k, disposition n)]) :
    r.getMultipartFieldName (bytes "name") = n := by
  have hb : bytes "form-data; name=\"" = [102, 111, 114, 109, 45, 100, 97, 116, 97, 59, 32, 110, 97, 109, 101, 61, 34] := by
    decide
  have hfind : findSub (disposition n) (bytes "name") = some 11 := by
    rw [disposition, hb, show bytes "name" = [110, 97, 109, 101] by decide]
    simp [findSub]
  have hquote : findChar (disposition n) QUOTE 11 = some 16 := by
    rw [disposition, hb]
    simp [findChar, List.idxOf?_cons, QUOTE]
  have hlast : rfindChar (disposition n) QUOTE = some (n.length + 17) := by
    rw [disposition, rfindChar_concat, List.length_append, show (bytes "form-data; name=\"").length = 17 by decide,
      Nat.add_comm]
  unfold getMultipartFieldName
  rw [h]
  simp only [hfind, hquote, hlast]
  rw [if_neg (Nat.not_lt.mpr (Nat.le_add_left 17 n.length)), slice, disposition, hb]
  simp

/-- A text field has no parameter `filename`. -/
theorem getMultipartFieldName_filename (h : r.multipartHeaders = [(k, disposition n)]) (hn : QUOTE ∉ n) :
    r.getMultipartFieldName (bytes "filename") = [] := by
  have hb : bytes "form-data; name=\"" = [102, 111, 114, 109, 45, 100, 97, 116, 97, 59, 32, 110, 97, 109, 101, 61, 34] := by
    decide
  have hf : bytes "filename" = [102, 105, 108, 101, 110, 97, 109, 101] := by decide
  have hlast : rfindChar (disposition n) QUOTE = some (n.length + 17) := by
    rw [disposition, rfindChar_concat, List.length_append, show (bytes "form-data; name=\"").length = 17 by decide,
      Nat.add_comm]
  unfold getMultipartFieldName
  rw [h]
  dsimp only
  cases hfind : findSub (disposition n) (bytes "filename") with
  | none => rfl
  | some p =>
    -- the word lies in the name, so that the next quote is also the last one
    have hp := findSub_drop hfind
    have hge : 17 ≤ p := by
      by_contra hlt
      have hlt' : p < 17 := by omega
      rw [disposition, hb, hf] at hp
      interval_cases p <;> simp at hp
    have hle : p < n.length + 18 := by
      have := hp.length_le
      rw [List.length_drop, length_disposition, hf] at this
      simp only [List.length_cons, List.length_nil] at this
      omega
    have hdrop : (disposition n).drop p = n.drop (p - 17) ++ [QUOTE] := by
      rw [disposition, hb, List.drop_append_of_le_length (by simp; omega), List.drop_append]
      simp
      omega
    have hquote : findChar (disposition n) QUOTE p = some (n.length + 17) := by
      rw [findChar, hdrop, idxOf?_append_cons (fun hm => hn (List.mem_of_mem_drop hm)) []]
      simp only [Option.map_some, List.length_drop, Option.some.injEq]
      omega
    simp only [hquote, hlast]
    rw [if_pos (Nat.lt_succ_self _)]

end Request

end Netcore
