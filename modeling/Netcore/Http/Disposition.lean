import Netcore.Http.FieldName

/-!
# The parameters of a `Content-Disposition`

`get_multipart_field_name` on the headers of a part: the first header in name order, whatever it is; the first place where the word
occurs in its value, in a name, in a value or in a part of either; and from the next quote after that to the last quote of all.

`Reads` says what this finds in any text. On `form-data` with parameters it is the parameter asked for only when no parameter but the
last has the word in it: `disposition_fields_iff`.
-/

namespace Netcore

open Slices

/-! ## The first occurrence of a word -/

/-- Nothing is found exactly when the text is nowhere. -/
theorem findSub_eq_none {s t : Bytes} (ht : t ≠ []) : findSub s t = none ↔ ¬t <:+: s := by
  induction s with
  | nil => simp [findSub, ht]
  | cons c cs ih =>
    rw [findSub, List.infix_cons_iff]
    by_cases hp : t <+: c :: cs
    · simp [hp]
    · rw [if_neg hp, Option.map_eq_none_iff, ih]
      simp [hp]

/-- A word is found where it stands when it does not occur before its last character there. -/
theorem findSub_append {t : Bytes} (ht : t ≠ []) (b : Bytes) : ∀ {a : Bytes}, ¬t <:+: a ++ t.dropLast →
    findSub (a ++ t ++ b) t = some a.length := by
  intro a
  induction a with
  | nil =>
    intro _
    obtain ⟨x, t, rfl⟩ := List.exists_cons_of_ne_nil ht
    rw [List.nil_append, List.cons_append, findSub, if_pos ⟨b, rfl⟩]
    rfl
  | cons c a ih =>
    intro hfirst
    have hnot : ¬t <+: c :: (a ++ t ++ b) := by
      intro hp
      apply hfirst
      have hlen : t.length ≤ (c :: a ++ t.dropLast).length := by
        rw [List.length_append, List.length_dropLast, List.length_cons]
        omega
      have hsplit : c :: (a ++ t ++ b) = (c :: a ++ t.dropLast) ++ (t.getLast ht :: b) := by
        conv_lhs => rw [← List.dropLast_concat_getLast ht]
        simp
      rw [hsplit] at hp
      exact (List.prefix_of_prefix_length_le hp (List.prefix_append _ _) hlen).isInfix
    rw [List.cons_append, List.cons_append, findSub, if_neg hnot, ih fun h => hfirst (h.trans (List.suffix_cons _ _).isInfix)]
    rfl

/-- The first occurrence of a word in a text without quotes: what follows it has none either. -/
theorem exists_first_unquoted {t s : Bytes} (ht : t ≠ []) (hs : QUOTE ∉ s) (h : t <:+: s) :
    ∃ a b, s = a ++ t ++ b ∧ ¬t <:+: a ++ t.dropLast ∧ QUOTE ∉ b := by
  obtain ⟨a, b, rfl, first⟩ := Delimiter.exists_first_occurrence ht h
  exact ⟨a, b, rfl, first, fun hb => hs (List.mem_append_right _ hb)⟩

/-! ## What is read from a text -/

/-- What `get_multipart_field_name` takes from the value of a header. -/
def quotedText (field val : Bytes) : Bytes :=
  match findSub val field with
  | none => []
  | some pos =>
    let start := match findChar val QUOTE pos with
      | some i => i + 1
      | none => 0
    match rfindChar val QUOTE with
    | none => []
    | some stop => if stop < start then [] else slice val start stop

/-- The first header of the part is looked at, and no other. -/
theorem getMultipartFieldName_cons {r : Request} {k w : Bytes} {m : List (Bytes × Bytes)} (h : r.multipartHeaders = (k, w) :: m)
    (field : Bytes) : r.getMultipartFieldName field = quotedText field w := by
  unfold Request.getMultipartFieldName
  rw [h]
  rfl

/-- What a word leads to in a text: nothing when it does not occur, or when there is no quote; what is between the quotes after it;
nothing when there is one quote after it; and when there is none, what comes before the last quote of the text. -/
inductive Reads (field w : Bytes) : Bytes → Prop
  | absent (h : ¬field <:+: w) : Reads field w []
  | unquoted (h : QUOTE ∉ w) : Reads field w []
  | between {a b v c : Bytes} (first : ¬field <:+: a ++ field.dropLast) (hw : w = a ++ field ++ (b ++ QUOTE :: (v ++ QUOTE :: c)))
      (hb : QUOTE ∉ b) (hc : QUOTE ∉ c) : Reads field w v
  | single {a b c : Bytes} (first : ¬field <:+: a ++ field.dropLast) (hw : w = a ++ field ++ (b ++ QUOTE :: c)) (hb : QUOTE ∉ b)
      (hc : QUOTE ∉ c) : Reads field w []
  | before {a b v c : Bytes} (first : ¬field <:+: a ++ field.dropLast) (hw : w = a ++ field ++ b) (hb : QUOTE ∉ b)
      (ha : a = v ++ QUOTE :: c) (hc : QUOTE ∉ c) : Reads field w v

/-- The last occurrence is the one with none behind it. -/
theorem rfindChar_append_cons {t : Bytes} {c : UInt8} (h : c ∉ t) (s : Bytes) : rfindChar (s ++ c :: t) c = some s.length := by
  have hrev : (s ++ c :: t).reverse = t.reverse ++ c :: s.reverse := by simp
  rw [rfindChar, hrev, idxOf?_append_cons (by simpa using h)]
  simp only [Option.map_some, List.length_append, List.length_cons, List.length_reverse, Option.some.injEq]
  omega

/-- There is no last occurrence of what does not occur. -/
theorem rfindChar_eq_none {s : Bytes} {c : UInt8} (h : c ∉ s) : rfindChar s c = none := by
  rw [rfindChar, Option.map_eq_none_iff, List.idxOf?_eq_none_iff]
  simpa using h

/-- From a position on, the first occurrence is the one with none between. -/
theorem findChar_append (a : Bytes) {b c : Bytes} {x : UInt8} (h : x ∉ b) : findChar (a ++ (b ++ x :: c)) x a.length =
    some (a.length + b.length) := by
  rw [findChar, List.drop_left, idxOf?_append_cons h, Option.map_some, Nat.add_comm]

/-- There is no occurrence from a position on if the rest has none. -/
theorem findChar_eq_none (a : Bytes) {b : Bytes} {x : UInt8} (h : x ∉ b) : findChar (a ++ b) x a.length = none := by
  rw [findChar, List.drop_left, Option.map_eq_none_iff, List.idxOf?_eq_none_iff]
  exact h

/-- The last occurrence of a character. -/
theorem exists_last_of_mem {s : Bytes} {c : UInt8} (h : c ∈ s) : ∃ u v, s = u ++ c :: v ∧ c ∉ v := by
  obtain ⟨u, v, huv, hu⟩ := List.eq_append_cons_of_mem (List.mem_reverse.mpr h)
  refine ⟨v.reverse, u.reverse, ?_, by simpa using hu⟩
  rw [← List.reverse_reverse s, huv]
  simp

section QuotedText

variable {field : Bytes}

/-- The text is found, and read from the next quote on. -/
theorem quotedText_append (hf : field ≠ []) (hq : QUOTE ∉ field) {a b c : Bytes} (first : ¬field <:+: a ++ field.dropLast)
    (hb : QUOTE ∉ b) {stop : Nat} (hstop : rfindChar (a ++ field ++ (b ++ QUOTE :: c)) QUOTE = some stop) :
    quotedText field (a ++ field ++ (b ++ QUOTE :: c)) =
      if stop < (a ++ field ++ b).length + 1 then []
      else slice (a ++ field ++ (b ++ QUOTE :: c)) ((a ++ field ++ b).length + 1) stop := by
  have hfb : QUOTE ∉ field ++ b := by simp [hq, hb]
  have hchar : findChar (a ++ field ++ (b ++ QUOTE :: c)) QUOTE a.length = some (a ++ field ++ b).length := by
    have h := findChar_append a (c := c) hfb
    rw [List.append_assoc field] at h
    rw [List.append_assoc a, h, ← List.length_append, List.append_assoc a]
  rw [quotedText, findSub_append hf _ first]
  simp only [hchar, hstop]

/-- What reads as the value of the field is what `get_multipart_field_name` cuts out. -/
theorem quotedText_eq_of_reads (hf : field ≠ []) (hq : QUOTE ∉ field) {w v : Bytes} (h : Reads field w v) :
    quotedText field w = v := by
  cases h with
  | absent h => rw [quotedText, (findSub_eq_none hf).mpr h]
  | unquoted h =>
    rw [quotedText]
    cases findSub w field with
    | none => rfl
    | some pos => simp only [rfindChar_eq_none h]
  | @between a b v c first hw hb hc =>
    subst hw
    have hlast : a ++ field ++ (b ++ QUOTE :: (v ++ QUOTE :: c)) = (a ++ field ++ b ++ QUOTE :: v) ++ QUOTE :: c := by simp
    have hstop := congrArg (rfindChar · QUOTE) hlast
    simp only [rfindChar_append_cons hc] at hstop
    have hle : ¬(a ++ field ++ b ++ QUOTE :: v).length < (a ++ field ++ b).length + 1 := by
      simp only [List.length_append, List.length_cons]
      omega
    rw [quotedText_append hf hq first hb hstop, if_neg hle, slice]
    have htext : a ++ field ++ (b ++ QUOTE :: (v ++ QUOTE :: c)) = (a ++ field ++ b ++ [QUOTE]) ++ (v ++ QUOTE :: c) := by simp
    have hlen : (a ++ field ++ b).length + 1 = (a ++ field ++ b ++ [QUOTE]).length := by
      simp [Nat.add_assoc]
    have htake : (a ++ field ++ b ++ QUOTE :: v).length - (a ++ field ++ b ++ [QUOTE]).length = v.length := by
      simp only [List.length_append, List.length_cons, List.length_nil]
      omega
    rw [hlen, htake, htext, List.drop_left, List.take_left]
  | @single a b c first hw hb hc =>
    subst hw
    have hlast : a ++ field ++ (b ++ QUOTE :: c) = (a ++ field ++ b) ++ QUOTE :: c := by simp
    have hstop := congrArg (rfindChar · QUOTE) hlast
    simp only [rfindChar_append_cons hc] at hstop
    rw [quotedText_append hf hq first hb hstop, if_pos (Nat.lt_succ_self _)]
  | @before a b v c first hw hb ha hc =>
    have hfb : QUOTE ∉ field ++ b := by simp [hq, hb]
    have hchar : findChar w QUOTE a.length = none := by
      rw [hw, List.append_assoc]
      exact findChar_eq_none a hfb
    have hrest : QUOTE ∉ c ++ field ++ b := by simp [hc, hq, hb]
    have hlast : w = v ++ QUOTE :: (c ++ field ++ b) := by
      rw [hw, ha]
      simp
    have hfind : findSub w field = some a.length := by rw [hw, findSub_append hf _ first]
    rw [quotedText, hfind]
    simp only [hchar]
    rw [hlast, rfindChar_append_cons hrest]
    simp only [Nat.not_lt_zero, if_false]
    rw [slice_zero, List.take_left]

/-- A word leads to something in every text. -/
theorem exists_reads (hf : field ≠ []) (hq : QUOTE ∉ field) (w : Bytes) : ∃ v, Reads field w v := by
  by_cases hin : field <:+: w
  · obtain ⟨a, b, hw, first⟩ := Delimiter.exists_first_occurrence hf hin
    by_cases hb : QUOTE ∈ b
    · obtain ⟨s, t, rfl, hs⟩ := List.eq_append_cons_of_mem hb
      by_cases ht : QUOTE ∈ t
      · obtain ⟨v, c, rfl, hc⟩ := exists_last_of_mem ht
        exact ⟨v, .between first hw hs hc⟩
      · exact ⟨[], .single first hw hs ht⟩
    · by_cases hquote : QUOTE ∈ w
      · have ha : QUOTE ∈ a := by
          rw [hw, List.mem_append, List.mem_append] at hquote
          exact (hquote.resolve_right hb).resolve_right hq
        obtain ⟨v, c, hav, hc⟩ := exists_last_of_mem ha
        exact ⟨v, .before first hw hb hav hc⟩
      · exact ⟨[], .unquoted hquote⟩
  · exact ⟨[], .absent hin⟩

/-- It cuts out nothing else. -/
theorem quotedText_eq_iff (hf : field ≠ []) (hq : QUOTE ∉ field) (w v : Bytes) : quotedText field w = v ↔ Reads field w v := by
  refine ⟨?_, quotedText_eq_of_reads hf hq⟩
  rintro rfl
  obtain ⟨v, hv⟩ := exists_reads hf hq w
  rwa [quotedText_eq_of_reads hf hq hv]

end QuotedText

/-! ## Parameters -/

/-- A parameter `p="v"`, as its name and its value. -/
abbrev DispositionParam := Bytes × Bytes

/-- A parameter with the separator before it. -/
def paramText (p : DispositionParam) : Bytes := 59 :: SPACE :: (p.1 ++ 61 :: QUOTE :: (p.2 ++ [QUOTE]))

/-- `form-data` with parameters. -/
def formDisposition (ps : List DispositionParam) : Bytes := bytes "form-data" ++ ps.flatMap paramText

/-- The value of a parameter, empty when there is none of this name. -/
def paramValue (field : Bytes) (ps : List DispositionParam) : Bytes := (ps.lookup field).getD []

/-- The word is in the name of a parameter or in its value. -/
def mentions (field : Bytes) (p : DispositionParam) : Bool := contains p.1 field || contains p.2 field

/-- The search for the field, in the name of the parameter and in its value. -/
theorem mentions_iff {field : Bytes} {p : DispositionParam} : mentions field p = true ↔ field <:+: p.1 ∨ field <:+: p.2 := by
  rw [mentions, Bool.or_eq_true, contains_iff, contains_iff]

/-- No parameter but the last has the word in it; and if the name of the last one has it, that is the name asked for, or the value is
empty. -/
def OnlyLast (field : Bytes) (ps : List DispositionParam) : Prop :=
  (∀ p ∈ ps.dropLast, mentions field p = false) ∧
    ∀ p, ps.getLast? = some p → field <:+: p.1 → p.1 = field ∨ p.2 = []

/-- A word that has none of the characters that stand around names and values, and is not in `form-data`. -/
structure IsField (field : Bytes) : Prop where
  ne_nil : field ≠ []
  quote : QUOTE ∉ field
  separators : 59 ∉ field ∧ SPACE ∉ field ∧ 61 ∉ field
  formData : ¬field <:+: bytes "form-data"

section Params

variable {field : Bytes} (hf : IsField field)

include hf

/-- A word in a text and parameters is in the text, in a name or in a value. -/
theorem IsField.infix_params {s : Bytes} : ∀ {ps : List DispositionParam}, field <:+: s ++ ps.flatMap paramText →
    field <:+: s ∨ ∃ p ∈ ps, mentions field p = true := by
  intro ps
  induction ps generalizing s with
  | nil =>
    intro h
    rw [List.flatMap_nil, List.append_nil] at h
    exact .inl h
  | cons p ps ih =>
    intro h
    obtain ⟨hsemi, hspace, heq⟩ := hf.separators
    have htext : s ++ (p :: ps).flatMap paramText =
        s ++ 59 :: SPACE :: (p.1 ++ 61 :: QUOTE :: (p.2 ++ QUOTE :: ([] ++ ps.flatMap paramText))) := by
      simp [paramText]
    rw [htext] at h
    rcases Delimiter.infix_append_cons hsemi h with h | h
    · exact .inl h
    right
    rcases Delimiter.infix_append_cons heq (Delimiter.infix_of_cons hspace hf.ne_nil h) with h | h
    · exact ⟨p, by simp, mentions_iff.mpr (.inl h)⟩
    rcases Delimiter.infix_append_cons hf.quote (Delimiter.infix_of_cons hf.quote hf.ne_nil h) with h | h
    · exact ⟨p, by simp, mentions_iff.mpr (.inr h)⟩
    obtain ⟨q, hq, hm⟩ := (ih h).resolve_left fun hnil => hf.ne_nil (List.infix_nil.mp hnil)
    exact ⟨q, List.mem_cons_of_mem p hq, hm⟩

/-- Before a parameter whose predecessors do not have the word, the word does not occur. -/
theorem IsField.not_infix {xs : List DispositionParam} (hxs : ∀ p ∈ xs, mentions field p = false) :
    ¬field <:+: formDisposition xs := by
  intro h
  rcases hf.infix_params h with h | ⟨p, hp, hm⟩
  · exact hf.formData h
  · rw [hxs p hp] at hm
    cases hm

/-- The text before a word in a name. -/
theorem IsField.first_in_name {xs : List DispositionParam} (hxs : ∀ p ∈ xs, mentions field p = false) {a : Bytes}
    (first : ¬field <:+: a ++ field.dropLast) : ¬field <:+: formDisposition xs ++ 59 :: SPACE :: a ++ field.dropLast := by
  intro h
  have htext : formDisposition xs ++ 59 :: SPACE :: a ++ field.dropLast =
      formDisposition xs ++ 59 :: SPACE :: (a ++ field.dropLast) := by simp
  rw [htext] at h
  rcases Delimiter.infix_append_cons hf.separators.1 h with h | h
  · exact hf.not_infix hxs h
  · exact first (Delimiter.infix_of_cons hf.separators.2.1 hf.ne_nil h)

/-- The text before a word in a value. -/
theorem IsField.first_in_value {xs : List DispositionParam} (hxs : ∀ p ∈ xs, mentions field p = false) {n a : Bytes}
    (hn : ¬field <:+: n) (first : ¬field <:+: a ++ field.dropLast) :
    ¬field <:+: formDisposition xs ++ 59 :: SPACE :: (n ++ 61 :: QUOTE :: a) ++ field.dropLast := by
  intro h
  have htext : formDisposition xs ++ 59 :: SPACE :: (n ++ 61 :: QUOTE :: a) ++ field.dropLast =
      formDisposition xs ++ 59 :: SPACE :: (n ++ 61 :: QUOTE :: (a ++ field.dropLast)) := by simp
  rw [htext] at h
  rcases Delimiter.infix_append_cons hf.separators.1 h with h | h
  · exact hf.not_infix hxs h
  rcases Delimiter.infix_append_cons hf.separators.2.2 (Delimiter.infix_of_cons hf.separators.2.1 hf.ne_nil h) with h | h
  · exact hn h
  · exact first (Delimiter.infix_of_cons hf.quote hf.ne_nil h)

omit hf in
/-- A disposition with one of its parameters named. -/
theorem formDisposition_append_cons (xs ys : List DispositionParam) (p : DispositionParam) :
    formDisposition (xs ++ p :: ys) = formDisposition xs ++ (paramText p ++ ys.flatMap paramText) := by
  simp [formDisposition]

omit hf in
/-- The text of some parameters ends with a quote, and has another one. -/
theorem flatMap_paramText_concat (p : DispositionParam) (ps : List DispositionParam) :
    ∃ u, (p :: ps).flatMap paramText = u ++ [QUOTE] ∧ QUOTE ∈ u := by
  induction ps generalizing p with
  | nil => exact ⟨59 :: SPACE :: (p.1 ++ 61 :: QUOTE :: p.2), by simp [paramText], by simp⟩
  | cons q ps ih =>
    obtain ⟨u, hu, hquote⟩ := ih q
    exact ⟨paramText p ++ u, by rw [List.flatMap_cons, hu, List.append_assoc], by simp [hquote]⟩

/-- With the word in the last parameter only: the value of that parameter when the word is in its name, and nothing when it is in its
value. -/
theorem IsField.reads_last {xs : List DispositionParam} (hxs : ∀ p ∈ xs, mentions field p = false) {p : DispositionParam}
    (hp : QUOTE ∉ p.1 ∧ QUOTE ∉ p.2) (hm : mentions field p = true) :
    Reads field (formDisposition (xs ++ [p])) (if field <:+: p.1 then p.2 else []) := by
  rw [formDisposition_append_cons, List.flatMap_nil, List.append_nil]
  by_cases hname : field <:+: p.1
  · rw [if_pos hname]
    obtain ⟨a, b, hab, first, hb⟩ := exists_first_unquoted hf.ne_nil hp.1 hname
    have heq : QUOTE ∉ b ++ [61] := by simpa [QUOTE] using hb
    refine .between (hf.first_in_name hxs first) (b := b ++ [61]) (c := []) ?_ heq List.not_mem_nil
    simp [paramText, hab]
  · rw [if_neg hname]
    obtain ⟨a, b, hab, first, hb⟩ := exists_first_unquoted hf.ne_nil hp.2 ((mentions_iff.mp hm).resolve_left hname)
    refine .single (hf.first_in_value hxs hname first) (b := b) (c := []) ?_ hb List.not_mem_nil
    simp [paramText, hab]

/-- With the word in an earlier parameter, what is read has a quote in it. -/
theorem IsField.reads_earlier {xs : List DispositionParam} (hxs : ∀ p ∈ xs, mentions field p = false) {p q : DispositionParam}
    {ys : List DispositionParam} (hp : QUOTE ∉ p.1 ∧ QUOTE ∉ p.2) (hm : mentions field p = true) :
    ∃ v, Reads field (formDisposition (xs ++ p :: q :: ys)) v ∧ QUOTE ∈ v := by
  rw [formDisposition_append_cons]
  obtain ⟨u, hu, hquote⟩ := flatMap_paramText_concat q ys
  rw [hu]
  by_cases hname : field <:+: p.1
  · obtain ⟨a, b, hab, first, hb⟩ := exists_first_unquoted hf.ne_nil hp.1 hname
    have heq : QUOTE ∉ b ++ [61] := by simpa [QUOTE] using hb
    refine ⟨p.2 ++ QUOTE :: u, .between (hf.first_in_name hxs first) (b := b ++ [61]) (c := []) ?_ heq List.not_mem_nil, by simp⟩
    simp [paramText, hab]
  · obtain ⟨a, b, hab, first, hb⟩ := exists_first_unquoted hf.ne_nil hp.2 ((mentions_iff.mp hm).resolve_left hname)
    refine ⟨u, .between (hf.first_in_value hxs hname first) (b := b) (c := []) ?_ hb List.not_mem_nil, hquote⟩
    simp [paramText, hab]

end Params

/-! ## The fields of a part -/

/-- No value has a quote, and the empty one of a parameter that is missing has none. -/
theorem lookup_quote {ps : List DispositionParam} (hps : ∀ p ∈ ps, QUOTE ∉ p.1 ∧ QUOTE ∉ p.2) (field : Bytes) :
    QUOTE ∉ paramValue field ps := by
  unfold paramValue
  cases h : ps.lookup field with
  | none => simp
  | some v =>
    obtain ⟨l₁, l₂, rfl, -⟩ := List.lookup_eq_some_iff.mp h
    exact (hps (field, v) (by simp)).2

/-- A parameter that is not mentioned before the last one. -/
theorem paramValue_concat {field : Bytes} {xs : List DispositionParam} (hxs : ∀ p ∈ xs, mentions field p = false)
    (p : DispositionParam) : paramValue field (xs ++ [p]) = if p.1 = field then p.2 else [] := by
  have hnone : xs.lookup field = none := by
    rw [List.lookup_eq_none_iff]
    intro q hq
    have hq' := hxs q hq
    rw [Bool.eq_false_iff, ne_eq, mentions_iff] at hq'
    rw [bne_iff_ne]
    rintro rfl
    exact hq' (.inl (List.infix_refl _))
  rw [paramValue, List.lookup_append, hnone, Option.none_or]
  by_cases hp : p.1 = field
  · rw [if_pos hp, ← hp, List.lookup_cons_self, Option.getD_some]
  · rw [if_neg hp, List.lookup_cons, beq_false_of_ne (Ne.symm hp)]
    rfl

/-- On `form-data` with parameters a word leads to the parameter of that name exactly when only the last parameter mentions it. -/
theorem reads_formDisposition_iff {field : Bytes} (hf : IsField field) {ps : List DispositionParam}
    (hps : ∀ p ∈ ps, QUOTE ∉ p.1 ∧ QUOTE ∉ p.2) :
    Reads field (formDisposition ps) (paramValue field ps) ↔ OnlyLast field ps := by
  have hunique : ∀ {v}, Reads field (formDisposition ps) v → (Reads field (formDisposition ps) (paramValue field ps) ↔
      v = paramValue field ps) := by
    intro v hv
    rw [← quotedText_eq_iff hf.ne_nil hf.quote, quotedText_eq_of_reads hf.ne_nil hf.quote hv]
  rcases List.eq_nil_or_concat ps with rfl | ⟨xs, p, rfl⟩
  · refine iff_of_true (.absent fun h => ?_) ⟨fun p hp => absurd hp (by simp), fun p hp => absurd hp (by simp)⟩
    exact hf.formData (by simpa [formDisposition] using h)
  rw [OnlyLast, List.concat_eq_append, List.dropLast_concat, List.getLast?_concat]
  rw [List.concat_eq_append] at hunique hps
  cases hearly : xs.find? (mentions field) with
  | some q =>
    -- the first parameter that mentions the word has another one behind it
    obtain ⟨hm, as, bs, rfl, has⟩ := List.find?_eq_some_iff_append.mp hearly
    have has' : ∀ x ∈ as, mentions field x = false := fun x hx => by simpa using has x hx
    obtain ⟨v, hv, hquote⟩ : ∃ v, Reads field (formDisposition ((as ++ q :: bs) ++ [p])) v ∧ QUOTE ∈ v := by
      have hq := hps q (by simp)
      rw [List.append_assoc, List.cons_append]
      cases bs with
      | nil => exact hf.reads_earlier has' hq hm
      | cons b bs => exact hf.reads_earlier has' hq hm
    rw [hunique hv]
    refine iff_of_false ?_ fun h => ?_
    · rintro rfl
      exact lookup_quote hps field hquote
    · rw [h.1 q (by simp)] at hm
      cases hm
  | none =>
    have hxs : ∀ x ∈ xs, mentions field x = false := fun x hx => by simpa using List.find?_eq_none.mp hearly x hx
    rw [paramValue_concat hxs] at hunique ⊢
    cases hm : mentions field p with
    | false =>
      have hnot : ¬field <:+: p.1 := fun h => by
        rw [mentions_iff.mpr (.inl h)] at hm
        cases hm
      have hne : p.1 ≠ field := fun h => hnot (h ▸ List.infix_refl _)
      rw [if_neg hne]
      refine iff_of_true (.absent fun h => ?_) ⟨hxs, fun q hq hname => ?_⟩
      · refine hf.not_infix (fun x hx => ?_) h
        rcases List.mem_append.mp hx with hx | hx
        · exact hxs x hx
        · rw [List.mem_singleton.mp hx, hm]
      · cases hq
        exact absurd hname hnot
    | true =>
      rw [hunique (hf.reads_last hxs (hps p (by simp)) hm)]
      by_cases hname : field <:+: p.1
      · rw [if_pos hname]
        by_cases hp : p.1 = field
        · rw [if_pos hp]
          exact iff_of_true rfl ⟨hxs, fun q hq _ => .inl (by cases hq; exact hp)⟩
        · rw [if_neg hp]
          refine ⟨fun h => ⟨hxs, fun q hq _ => .inr (by cases hq; exact h)⟩, fun h => ?_⟩
          exact (h.2 p rfl hname).resolve_left hp
      · have hne : p.1 ≠ field := fun h => hname (h ▸ List.infix_refl _)
        rw [if_neg hname, if_neg hne]
        refine iff_of_true rfl ⟨hxs, fun q hq h => ?_⟩
        cases hq
        exact absurd h hname

/-- `name` is a field that is looked for. -/
theorem isField_name : IsField (bytes "name") := ⟨by decide, by decide, by decide, by decide⟩

/-- `filename` is a field that is looked for. -/
theorem isField_filename : IsField (bytes "filename") := ⟨by decide, by decide, by decide, by decide⟩

/-- The last of some headers with a name gives its value. -/
theorem find_setMultipartHeaders (r : Request) {k v : Bytes} {headers post : Multipart.Headers}
    (hk : k ∉ post.map Prod.fst) :
    OrderedMap.find (r.setMultipartHeaders (headers ++ (k, v) :: post)).multipartHeaders k = some v := by
  have hpost : ∀ (l m : List (Bytes × Bytes)), k ∉ l.map Prod.fst →
      OrderedMap.find (l.foldl (fun m e => OrderedMap.insertOrAssign m e.1 e.2) m) k = OrderedMap.find m k := by
    intro l
    induction l with
    | nil => exact fun _ _ => rfl
    | cons e l ih =>
      intro m hl
      rw [List.map_cons, List.mem_cons, not_or] at hl
      rw [List.foldl_cons, ih _ hl.2, OrderedMap.find_insertOrAssign, if_neg (Ne.symm hl.1)]
  rw [Request.setMultipartHeaders, List.foldl_append, List.foldl_cons, hpost _ _ hk, OrderedMap.find_insertOrAssign, if_pos rfl]

/-- What the parameters asked for need in the headers of a part: that the first header is the one with the parameters, and only the
last of these mentions the name; or that the name leads to the same value in the header that comes first instead. -/
def Extractable (headers : List (Bytes × Bytes)) (k : Bytes) (ps : List DispositionParam) (field : Bytes) : Prop :=
  ∀ first w rest, headers = (first, w) :: rest →
    if first = k then OnlyLast field ps else Reads field w (paramValue field ps)

/-- For the headers of a part: the value comes out exactly when it can be extracted. -/
theorem fieldName_iff {r : Request} {k : Bytes} {ps : List DispositionParam} {field : Bytes} (hf : IsField field)
    (hps : ∀ p ∈ ps, QUOTE ∉ p.1 ∧ QUOTE ∉ p.2) (h : OrderedMap.find r.multipartHeaders k = some (formDisposition ps)) :
    r.getMultipartFieldName field = paramValue field ps ↔ Extractable r.multipartHeaders k ps field := by
  cases hheaders : r.multipartHeaders with
  | nil =>
    rw [hheaders] at h
    cases h
  | cons e m =>
    obtain ⟨first, w⟩ := e
    rw [getMultipartFieldName_cons hheaders, quotedText_eq_iff hf.ne_nil hf.quote]
    have hiff : Extractable ((first, w) :: m) k ps field ↔
        if first = k then OnlyLast field ps else Reads field w (paramValue field ps) := by
      refine ⟨fun h => h first w m rfl, fun h first' w' rest heq => ?_⟩
      obtain ⟨he, -⟩ := List.cons.inj heq
      obtain ⟨rfl, rfl⟩ := Prod.mk.inj he
      exact h
    rw [hiff]
    by_cases hk : first = k
    · have hw : w = formDisposition ps := by
        rw [hheaders, OrderedMap.find_cons, if_pos hk] at h
        exact Option.some.inj h
      rw [if_pos hk, hw, reads_formDisposition_iff hf hps]
    · rw [if_neg hk]

/-- **The parameters of a disposition**: of the headers of a part, the last one named `k` being `form-data` with parameters, both
`name` and `filename` are read as they stand there exactly when each is extractable. -/
theorem disposition_fields_iff {r : Request} {k : Bytes} {pre post : Multipart.Headers} {ps : List DispositionParam}
    (hps : ∀ p ∈ ps, QUOTE ∉ p.1 ∧ QUOTE ∉ p.2) (hk : k ∉ post.map Prod.fst) :
    (∀ field ∈ [bytes "name", bytes "filename"],
        (r.setMultipartHeaders (pre ++ (k, formDisposition ps) :: post)).getMultipartFieldName field = paramValue field ps) ↔
      ∀ field ∈ [bytes "name", bytes "filename"],
        Extractable (r.setMultipartHeaders (pre ++ (k, formDisposition ps) :: post)).multipartHeaders k ps field := by
  refine forall₂_congr fun field hmem => fieldName_iff ?_ hps (find_setMultipartHeaders r hk)
  rcases List.mem_cons.mp hmem with rfl | hmem
  · exact isField_name
  · rw [List.mem_singleton.mp hmem]
    exact isField_filename

/-- A text field with a `Content-Type`. -/
theorem disposition_fields_iff_text :
    (∀ field ∈ [bytes "name", bytes "filename"], (({ buf := [] } : Request).setMultipartHeaders ([] ++
        (bytes "Content-Disposition", formDisposition [(bytes "name", bytes "a")]) ::
          [(bytes "Content-Type", bytes "text/plain")])).getMultipartFieldName field =
            paramValue field [(bytes "name", bytes "a")]) ↔
      ∀ field ∈ [bytes "name", bytes "filename"], Extractable (({ buf := [] } : Request).setMultipartHeaders ([] ++
        (bytes "Content-Disposition", formDisposition [(bytes "name", bytes "a")]) ::
          [(bytes "Content-Type", bytes "text/plain")])).multipartHeaders (bytes "Content-Disposition") [(bytes "name", bytes "a")]
            field :=
  disposition_fields_iff (by decide) (by decide)

/-- The name of a field with a file takes in the parameter that follows. -/
theorem not_disposition_fields : ¬∀ (r : Request) (k : Bytes) (pre post : Multipart.Headers) (ps : List DispositionParam),
    (∀ p ∈ ps, QUOTE ∉ p.1 ∧ QUOTE ∉ p.2) → k ∉ post.map Prod.fst →
      (r.setMultipartHeaders (pre ++ (k, formDisposition ps) :: post)).getMultipartFieldName (bytes "name") =
        paramValue (bytes "name") ps := by
  intro h
  have hname := h { buf := [] } (bytes "Content-Disposition") [] []
    [(bytes "name", bytes "file"), (bytes "filename", bytes "a.txt")] (by decide) (by decide)
  exact absurd hname (by decide)

end Netcore
