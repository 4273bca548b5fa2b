import Mathlib.Data.List.Infix

/-!
# Looking for a delimiter one item at a time

A scanner that looks for `pat` in a stream holds back the items that match the beginning of `pat`, and gives them up when
the match breaks. `scanStep` does this the simple way: on a mismatch it gives up everything it holds and looks at the
current item again, as the first one of a new match. For a pattern whose first item does not occur again in it
(`pat = a :: t` with `a ∉ t`) the simple way misses nothing: `scan_delimited` says that a text without `pat`, followed by
`pat`, comes out whole and leaves exactly `pat` held.

`block` is a block of lines closed by an empty one; `block_append_inj` says that it can be read back in one way only.

For such a pattern the occurrences in a text do not overlap (`occurrence_cases`), so a text in which it occurs can be taken apart
at the first one (`exists_first`).

`scan_skip` is the step of a search that jumps: when the last of `pat.length` items does not occur in `pat` at all, they come
out whole and nothing is held.
-/

namespace Delimiter

variable {α : Type*} [DecidableEq α]

/-- One item: what comes out, and what is held afterwards. -/
def scanStep (pat held : List α) (c : α) : List α × List α :=
  if pat[held.length]? = some c then ([], held ++ [c])
  else if pat.head? = some c then (held, [c])
  else (held ++ [c], [])

/-- The items of a list, one after the other. -/
def scan (pat : List α) : List α → List α → List α × List α
  | held, [] => ([], held)
  | held, c :: cs =>
    ((scanStep pat held c).1 ++ (scan pat (scanStep pat held c).2 cs).1, (scan pat (scanStep pat held c).2 cs).2)

/-- The scanner never holds the whole pattern before an item of the list. -/
def Open (pat : List α) : List α → List α → Prop
  | _, [] => True
  | held, c :: cs => held.length < pat.length ∧ Open pat (scanStep pat held c).2 cs

theorem scan_append (pat held xs ys : List α) :
    scan pat held (xs ++ ys) =
      ((scan pat held xs).1 ++ (scan pat (scan pat held xs).2 ys).1, (scan pat (scan pat held xs).2 ys).2) := by
  induction xs generalizing held with
  | nil => simp [scan]
  | cons c cs ih => simp [scan, ih]

theorem open_append {pat : List α} {xs ys : List α} : ∀ {held : List α}, Open pat held xs →
    Open pat (scan pat held xs).2 ys → Open pat held (xs ++ ys) := by
  induction xs with
  | nil => intro held _ h; exact h
  | cons c cs ih =>
    intro held h h'
    exact ⟨h.1, ih h.2 h'⟩

/-- What comes out and what is held afterwards is what was held and the item. -/
theorem scanStep_out (pat held : List α) (c : α) :
    (scanStep pat held c).1 ++ (scanStep pat held c).2 = held ++ [c] := by
  unfold scanStep
  split
  · simp
  · split <;> simp

theorem scan_out (pat held xs : List α) : (scan pat held xs).1 ++ (scan pat held xs).2 = held ++ xs := by
  induction xs generalizing held with
  | nil => simp [scan]
  | cons c cs ih =>
    have h1 := scanStep_out pat held c
    have h2 := ih (scanStep pat held c).2
    simp only [scan, List.append_assoc, h2]
    rw [← List.append_assoc, h1, List.append_assoc]
    rfl

/-- What is held is a beginning of the pattern. -/
theorem scanStep_isPrefix {pat held : List α} (h : held <+: pat) (c : α) : (scanStep pat held c).2 <+: pat := by
  unfold scanStep
  split
  · rename_i hc
    obtain ⟨t, rfl⟩ := h
    rw [List.getElem?_append_right (Nat.le_refl _), Nat.sub_self] at hc
    cases t with
    | nil => simp at hc
    | cons a t =>
      simp only [List.getElem?_cons_zero, Option.some.injEq] at hc
      subst hc
      exact ⟨t, by simp⟩
  · split
    · rename_i hc
      cases pat with
      | nil => simp at hc
      | cons a t =>
        simp only [List.head?_cons, Option.some.injEq] at hc
        subst hc
        exact ⟨t, rfl⟩
    · exact List.nil_prefix

theorem scanStep_isSuffix (pat held : List α) (c : α) : (scanStep pat held c).2 <:+ held ++ [c] := by
  unfold scanStep
  split
  · exact List.suffix_refl _
  · split
    · exact List.suffix_append _ _
    · exact List.nil_suffix

/-- A text in which the pattern does not occur is read without ever holding the whole pattern. -/
theorem open_of_not_infix (pat text : List α) : ∀ held : List α, held <+: pat →
    held.length < pat.length → ¬ pat <:+: held ++ text →
    Open pat held text ∧ (scan pat held text).2 <+: pat ∧ (scan pat held text).2.length < pat.length := by
  induction text with
  | nil => intro held hp hl _; exact ⟨trivial, hp, hl⟩
  | cons c cs ih =>
    intro held hp hl hn
    have hp' := scanStep_isPrefix hp c
    -- what is held after `c` ends the text read so far, so a full pattern there would be an occurrence
    have hsuf : (scanStep pat held c).2 ++ cs <:+ held ++ c :: cs := by
      obtain ⟨u, hu⟩ := scanStep_isSuffix pat held c
      refine ⟨u, ?_⟩
      rw [← List.append_assoc, hu]
      simp
    have hn' : ¬ pat <:+: (scanStep pat held c).2 ++ cs := fun h => hn (h.trans hsuf.isInfix)
    have hl' : (scanStep pat held c).2.length < pat.length := by
      rcases Nat.lt_or_ge (scanStep pat held c).2.length pat.length with h | h
      · exact h
      · have he : (scanStep pat held c).2 = pat := hp'.eq_of_length_le h
        exact absurd (List.IsPrefix.isInfix ⟨cs, rfl⟩) (he ▸ hn')
    obtain ⟨h1, h2, h3⟩ := ih _ hp' hl' hn'
    exact ⟨⟨hl, h1⟩, h2, h3⟩

/-- Once it holds a beginning of the pattern, the scanner takes the rest of it. -/
theorem scan_rest (pat rest : List α) : ∀ held : List α, held ++ rest = pat →
    Open pat held rest ∧ scan pat held rest = ([], pat) := by
  induction rest with
  | nil => intro held h; exact ⟨trivial, by simpa [scan] using h⟩
  | cons c cs ih =>
    intro held h
    have hc : pat[held.length]? = some c := by
      rw [← h, List.getElem?_append_right (Nat.le_refl _), Nat.sub_self]
      rfl
    have hs : scanStep pat held c = ([], held ++ [c]) := by
      unfold scanStep
      rw [if_pos hc]
    obtain ⟨h1, h2⟩ := ih (held ++ [c]) (by simpa using h)
    refine ⟨⟨?_, by rw [hs]; exact h1⟩, ?_⟩
    · rw [← h, List.length_append, List.length_cons]
      omega
    · simp only [scan, hs, h2, List.nil_append]

/-- The first item of the pattern, which occurs nowhere else in it, starts a new match whatever is held. -/
theorem scanStep_head {a : α} {t held : List α} (ha : a ∉ t) (hl : held.length < (a :: t).length) :
    scanStep (a :: t) held a = (held, [a]) := by
  unfold scanStep
  cases held with
  | nil => simp
  | cons b held =>
    rw [if_neg, if_pos (by rfl)]
    intro h
    rw [List.length_cons, List.getElem?_cons_succ] at h
    exact ha (List.mem_of_getElem? h)

/-- A text without the pattern, followed by the pattern: the text comes out, the pattern is held. -/
theorem scan_delimited {a : α} {t : List α} (ha : a ∉ t) (text : List α) (hn : ¬ a :: t <:+: text) :
    Open (a :: t) [] (text ++ a :: t) ∧ scan (a :: t) [] (text ++ a :: t) = (text, a :: t) := by
  obtain ⟨ho, -, hl⟩ := open_of_not_infix (a :: t) text [] List.nil_prefix (by simp) (by simpa using hn)
  have hout := scan_out (a :: t) [] text
  have hs := scanStep_head ha hl
  obtain ⟨h1, h2⟩ := scan_rest (a :: t) t [a] rfl
  refine ⟨open_append ho ⟨hl, by rw [hs]; exact h1⟩, ?_⟩
  rw [scan_append]
  simp only [scan, hs, h2, List.append_nil]
  rw [hout, List.nil_append]

/-- An item that does not occur in the pattern breaks every match. -/
theorem scanStep_of_not_mem {pat held : List α} {c : α} (hc : c ∉ pat) : scanStep pat held c = (held ++ [c], []) := by
  unfold scanStep
  rw [if_neg (fun h => hc (List.mem_of_getElem? h)), if_neg (fun h => hc (List.mem_of_head? h))]

theorem scanStep_length_le (pat held : List α) (c : α) : (scanStep pat held c).2.length ≤ held.length + 1 := by
  have := (scanStep_isSuffix pat held c).length_le
  simpa using this

/-- Fewer items than the pattern has, from nothing held: the pattern cannot be complete before any of them. -/
theorem open_of_length (pat xs : List α) : ∀ held : List α, held.length + xs.length ≤ pat.length →
    Open pat held xs ∧ (scan pat held xs).2.length ≤ held.length + xs.length := by
  induction xs with
  | nil => intro held _; exact ⟨trivial, Nat.le_refl _⟩
  | cons c cs ih =>
    intro held h
    have hs := scanStep_length_le pat held c
    rw [List.length_cons] at h
    obtain ⟨h1, h2⟩ := ih (scanStep pat held c).2 (by omega)
    refine ⟨⟨by omega, h1⟩, ?_⟩
    simp only [scan, List.length_cons]
    omega

/-- The jump: as many items as the pattern has, the last of which does not occur in it, come out whole. -/
theorem scan_skip (pat xs : List α) {c : α} (hl : xs.length + 1 = pat.length) (hc : c ∉ pat) :
    Open pat [] (xs ++ [c]) ∧ scan pat [] (xs ++ [c]) = (xs ++ [c], []) := by
  obtain ⟨ho, hlen⟩ := open_of_length pat xs [] (by simp; omega)
  have hout := scan_out pat [] xs
  simp only [List.length_nil, Nat.zero_add] at hlen
  refine ⟨open_append ho ⟨by omega, trivial⟩, ?_⟩
  rw [scan_append]
  simp only [scan, scanStep_of_not_mem hc, List.append_nil, Prod.mk.injEq, and_true]
  rw [← List.append_assoc, hout, List.nil_append]

omit [DecidableEq α] in
/-- A text without the separator `q` lies on one side of it. -/
theorem infix_append_cons {q : α} {t xs ys : List α} (hq : q ∉ t) (h : t <:+: xs ++ q :: ys) : t <:+: xs ∨ t <:+: ys := by
  obtain ⟨a, b, hab⟩ := h
  rcases List.append_eq_append_iff.mp hab with ⟨c, hxs, hb⟩ | ⟨c, hat, hc⟩
  · exact .inl ⟨a, c, hxs.symm⟩
  · cases c with
    | nil => exact .inl ⟨a, [], by simpa using hat⟩
    | cons d c =>
      obtain ⟨rfl, rfl⟩ : q = d ∧ ys = c ++ b := by simpa using hc
      -- the text would end after `q`: it begins after it as well, or has it
      rcases List.append_eq_append_iff.mp hat with ⟨e, hxs, ht⟩ | ⟨e, -, he⟩
      · exact absurd (ht ▸ by simp) hq
      · cases e with
        | nil => exact absurd ((show t = q :: c by simpa using he.symm) ▸ by simp) hq
        | cons d' e =>
          obtain ⟨-, rfl⟩ : q = d' ∧ c = e ++ t := by simpa using he
          exact .inr ⟨e, b, rfl⟩

omit [DecidableEq α] in
/-- A text without the separator `q` that is found after it is not at its front. -/
theorem infix_of_cons {q : α} {t ys : List α} (hq : q ∉ t) (ht : t ≠ []) (h : t <:+: q :: ys) : t <:+: ys := by
  have h' : t <:+: [] ++ q :: ys := h
  exact (infix_append_cons hq h').resolve_left fun hnil => ht (List.infix_nil.mp hnil)

/-! ## Blocks of lines -/

/-- Lines, each with the line end after it, and an empty line. -/
def block (eol : List α) (lines : List (List α)) : List α := lines.flatMap (· ++ eol) ++ eol

omit [DecidableEq α] in
/-- What precedes the first `a` of a list. -/
theorem append_cons_inj {a : α} {xs ys rest rest' : List α} (hx : a ∉ xs) (hy : a ∉ ys)
    (h : xs ++ a :: rest = ys ++ a :: rest') : xs = ys ∧ rest = rest' := by
  rcases List.append_eq_append_iff.mp h with ⟨c, rfl, hc⟩ | ⟨c, rfl, hc⟩
  · cases c with
    | nil => exact ⟨(List.append_nil xs).symm, by simpa using hc⟩
    | cons b c =>
      obtain ⟨rfl, -⟩ : a = b ∧ _ := by simpa using hc
      exact absurd (by simp) hy
  · cases c with
    | nil => exact ⟨List.append_nil ys, by simpa using hc.symm⟩
    | cons b c =>
      obtain ⟨rfl, -⟩ : a = b ∧ _ := by simpa using hc
      exact absurd (by simp) hx

omit [DecidableEq α] in
/-- When no line is empty or has the first item of the line end in it, a block followed by anything is read back in one
way. -/
theorem block_append_inj {e : α} {f body : List α} {ls : List (List α)} (h : ∀ l ∈ ls, l ≠ [] ∧ e ∉ l) :
    ∀ {ls' : List (List α)} {body' : List α}, (∀ l ∈ ls', l ≠ [] ∧ e ∉ l) →
      block (e :: f) ls ++ body = block (e :: f) ls' ++ body' → ls = ls' ∧ body = body' := by
  -- a line is not taken for the empty one
  have hline : ∀ {l xs ys : List α}, l ≠ [] ∧ e ∉ l → e :: xs ≠ l ++ ys := by
    intro l xs ys hl heq
    cases l with
    | nil => exact hl.1 rfl
    | cons b l =>
      obtain ⟨rfl, -⟩ : e = b ∧ _ := by simpa using heq
      exact hl.2 (by simp)
  induction ls with
  | nil =>
    intro ls' body' h' heq
    cases ls' with
    | nil => exact ⟨rfl, by simpa [block] using heq⟩
    | cons l ls' =>
      simp only [block, List.flatMap_nil, List.nil_append, List.flatMap_cons, List.cons_append, List.append_assoc] at heq
      exact absurd heq (hline (h' l (by simp)))
  | cons l ls ih =>
    intro ls' body' h' heq
    cases ls' with
    | nil =>
      simp only [block, List.flatMap_nil, List.nil_append, List.flatMap_cons, List.cons_append, List.append_assoc] at heq
      exact absurd heq.symm (hline (h l (by simp)))
    | cons l' ls' =>
      simp only [block, List.flatMap_cons, List.cons_append, List.append_assoc] at heq
      obtain ⟨rfl, hrest⟩ := append_cons_inj (h l (by simp)).2 (h' l' (by simp)).2 heq
      have hrest' : block (e :: f) ls ++ body = block (e :: f) ls' ++ body' := by
        simpa [block] using hrest
      obtain ⟨rfl, hbody⟩ := ih (fun x hx => h x (List.mem_cons_of_mem l hx)) (fun x hx => h' x (List.mem_cons_of_mem l hx)) hrest'
      exact ⟨rfl, hbody⟩

omit [DecidableEq α] in
/-- An item that a list does not have comes after the list. -/
theorem append_eq_append_cons {a : α} {t y c rest : List α} (ha : a ∉ t) (h : t ++ y = c ++ a :: rest) :
    ∃ e, c = t ++ e ∧ y = e ++ a :: rest := by
  rcases List.append_eq_append_iff.mp h with ⟨e, hc, hy⟩ | ⟨e, ht, hrest⟩
  · exact ⟨e, hc, hy⟩
  · cases e with
    | nil => exact ⟨[], by simpa using ht.symm, by simpa using hrest.symm⟩
    | cons d e =>
      obtain ⟨rfl, -⟩ : a = d ∧ _ := by simpa using hrest
      exact absurd (ht ▸ by simp) ha

omit [DecidableEq α] in
/-- The empty line that ends a block is the first one in it, when no line is empty or has the first item of the line end in it. -/
theorem block_ends_once {e f : α} (hef : e ≠ f) {ls : List (List α)} (h : ∀ l ∈ ls, l ≠ [] ∧ e ∉ l) : ∀ {p q : List α},
    p ++ ([e, f, e, f] ++ q) = [e, f] ++ block [e, f] ls → q = [] := by
  induction ls with
  | nil =>
    intro p q heq
    have hlen := congrArg List.length heq
    simp only [block, List.flatMap_nil, List.nil_append, List.length_append, List.length_cons, List.length_nil] at hlen
    exact List.length_eq_zero_iff.mp (by omega)
  | cons l ls ih =>
    intro p q heq
    obtain ⟨hne, he⟩ := h l (List.mem_cons_self ..)
    have hblock : block [e, f] (l :: ls) = l ++ ([e, f] ++ block [e, f] ls) := by simp [block]
    rw [hblock] at heq
    match p, heq with
    | [], heq =>
      -- a line would have to be empty
      obtain ⟨b, t, rfl⟩ := List.exists_cons_of_ne_nil hne
      simp only [List.nil_append, List.cons_append, List.cons.injEq, true_and] at heq
      exact absurd (heq.1 ▸ List.mem_cons_self ..) he
    | [c], heq =>
      simp only [List.nil_append, List.cons_append, List.cons.injEq] at heq
      exact absurd heq.2.1 hef
    | c :: d :: p, heq =>
      simp only [List.nil_append, List.cons_append, List.cons.injEq] at heq
      have hrest : l ++ (e :: f :: block [e, f] ls) = p ++ e :: (f :: e :: f :: q) := heq.2.2.symm
      obtain ⟨p', rfl, hp⟩ := append_eq_append_cons he hrest
      exact ih (fun x hx => h x (List.mem_cons_of_mem l hx)) hp.symm

omit [DecidableEq α] in
/-- A pattern that occurs has a first occurrence: none ends before it. -/
theorem exists_first_occurrence {t : List α} (ht : t ≠ []) : ∀ {s : List α}, t <:+: s →
    ∃ a b, s = a ++ t ++ b ∧ ¬t <:+: a ++ t.dropLast := by
  intro s
  induction s with
  | nil => exact fun h => absurd (List.infix_nil.mp h) ht
  | cons c s ih =>
    intro h
    by_cases hp : t <+: c :: s
    · obtain ⟨b, hb⟩ := hp
      refine ⟨[], b, hb.symm, fun hin => ?_⟩
      have hlen := hin.length_le
      have hpos := List.length_pos_iff.mpr ht
      rw [List.nil_append, List.length_dropLast] at hlen
      omega
    · have hs : t <:+: s := (List.infix_cons_iff.mp h).resolve_left hp
      obtain ⟨a, b, rfl, hfirst⟩ := ih hs
      refine ⟨c :: a, b, rfl, fun hin => ?_⟩
      rcases List.infix_cons_iff.mp hin with hpre | hrest
      · apply hp
        refine hpre.trans ⟨t.getLast ht :: b, ?_⟩
        conv_rhs => rw [← List.dropLast_concat_getLast ht]
        simp
      · exact hfirst hrest

omit [DecidableEq α] in
/-- What comes before the first occurrence of a pattern does not have it. -/
theorem exists_first {a : α} {t xs : List α} (h : a :: t <:+: xs) :
    ∃ x y, xs = x ++ a :: t ++ y ∧ ¬ a :: t <:+: x := by
  obtain ⟨x, y, hxs, hfirst⟩ := exists_first_occurrence (List.cons_ne_nil a t) h
  exact ⟨x, y, hxs, fun hin => hfirst (hin.trans (List.prefix_append _ _).isInfix)⟩

omit [DecidableEq α] in
/-- When the first item of a pattern does not occur in it again, occurrences do not overlap: any but the first comes after
it. -/
theorem occurrence_cases {a : α} {t x y u z : List α} (ha : a ∉ t) (hx : ¬ a :: t <:+: x)
    (h : x ++ a :: t ++ y = u ++ a :: t ++ z) : (u = x ∧ z = y) ∨ ∃ v, u = x ++ a :: t ++ v ∧ y = v ++ a :: t ++ z := by
  rw [List.append_assoc, List.append_assoc] at h
  rcases List.append_eq_append_iff.mp h with ⟨c, rfl, hc⟩ | ⟨c, rfl, hc⟩
  · cases c with
    | nil => exact .inl ⟨by simp, by simpa using hc.symm⟩
    | cons d c =>
      obtain ⟨rfl, hty⟩ : a = d ∧ t ++ y = c ++ a :: (t ++ z) := by simpa using hc
      obtain ⟨e, rfl, rfl⟩ := append_eq_append_cons ha hty
      exact .inr ⟨e, by simp, by simp⟩
  · cases c with
    | nil => exact .inl ⟨by simp, by simpa using hc⟩
    | cons d c =>
      obtain ⟨rfl, htz⟩ : a = d ∧ t ++ z = c ++ a :: (t ++ y) := by simpa using hc
      obtain ⟨e, rfl, -⟩ := append_eq_append_cons ha htz
      exact absurd ⟨u, e, by simp⟩ hx

end Delimiter
