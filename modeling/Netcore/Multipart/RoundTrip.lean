import Mathlib.Data.List.GetD
import Netcore.Multipart.Simulation

/-!
# Multipart round trip

A body that `serialize` writes is read back as the parts it was written from, however it is cut into buffers. The scanner is
run over the serialization piece by piece: the first delimiter line, a header line, the blank line, a content with the
delimiter after it, and the two ways a delimiter line ends. `feedAll_sim` carries the result over to the reader, and
`calls_of_run` turns the delivery back into the calls that made it.
-/

namespace Netcore
namespace Multipart

open Delimiter

namespace Scanner

variable {pat : Bytes} {s : Scanner}

/-! ## The pieces of a body -/

/-- The rest of the first delimiter line. -/
theorem run_startBoundary (pat rest : Bytes) : ∀ {s : Scanner}, s.state = .startBoundary → pat.drop (s.index + 2) = rest →
    s.index + 2 ≤ pat.length →
    s.run pat (rest ++ CRLF) = some { s with index := 0, state := .headerFieldStart } := by
  induction rest with
  | nil =>
    intro s hs hrest hle
    have hlen : s.index + 2 = pat.length := by
      have := List.drop_eq_nil_iff.mp hrest
      omega
    have h1 : s.step pat CR = some { s with index := s.index + 1 } := by
      simp [step, hs, startBoundary, hlen]
    have h2 : { s with index := s.index + 1 }.step pat LF = some { s with index := 0, state := .headerFieldStart } := by
      simp only [step, hs, startBoundary]
      rw [if_neg (by omega), if_pos (by omega), if_neg (by decide)]
    rw [List.nil_append, CRLF, run_cons_of_step h1, run_cons_of_step h2, run_nil]
  | cons c cs ih =>
    intro s hs hrest hle
    have hlt : s.index + 2 < pat.length := by
      have := congrArg List.length hrest
      rw [List.length_drop, List.length_cons] at this
      omega
    have hc : pat.getD (s.index + 2) 0 = c := by
      rw [List.drop_eq_getElem_cons hlt, List.cons.injEq] at hrest
      rw [List.getD_eq_getElem?_getD, List.getElem?_eq_getElem hlt, ← hrest.1]
      rfl
    have h1 : s.step pat c = some { s with index := s.index + 1 } := by
      simp only [step, hs, startBoundary]
      rw [if_neg (by omega), if_neg (by omega), hc, if_neg (fun h => h rfl)]
    have hdrop : pat.drop (s.index + 1 + 2) = cs := by
      rw [List.drop_eq_getElem_cons hlt, List.cons.injEq] at hrest
      exact hrest.2
    rw [List.cons_append, run_cons_of_step h1]
    exact ih (s := { s with index := s.index + 1 }) hs hdrop (by simp only; omega)

/-- The first delimiter line. -/
theorem run_first (hp : 2 ≤ pat.length) (hs : s.state = .start) :
    s.run pat (pat.drop 2 ++ CRLF) = some { s with index := 0, state := .headerFieldStart } := by
  have h := run_startBoundary pat (pat.drop 2) (s := { s with index := 0, state := .startBoundary }) rfl rfl hp
  rw [← h]
  cases hb : pat.drop 2 ++ CRLF with
  | nil => simp [CRLF] at hb
  | cons c cs => simp [run_cons, step, hs]

/-- A first line that is not the delimiter line is refused: the two differ before the line ends, or where one of them ends. -/
theorem run_startBoundary_wrong (pat line rest : Bytes) (hline : CR ∉ line) : ∀ {s : Scanner}, s.state = .startBoundary →
    s.index + 2 ≤ pat.length → CR ∉ pat.drop (s.index + 2) → line ≠ pat.drop (s.index + 2) →
    ∃ s', s.run pat (line ++ CR :: rest) = some s' ∧ s'.state = .parseError := by
  have hfail : ∀ {s : Scanner} {c : UInt8} (cs : Bytes), s.step pat c = some s.fail →
      ∃ s', s.run pat (c :: cs) = some s' ∧ s'.state = .parseError := by
    intro s c cs h
    exact ⟨s.fail, by rw [run_cons_of_step h, run_parseError rfl], rfl⟩
  induction line with
  | nil =>
    intro s hs hle hfree hne
    have hlt : s.index + 2 < pat.length := by
      by_contra hge
      exact hne (List.drop_of_length_le (Nat.not_lt.mp hge)).symm
    rw [List.drop_eq_getElem_cons hlt, List.mem_cons, not_or] at hfree
    apply hfail
    simp only [step, hs, startBoundary]
    rw [if_neg (by omega), if_neg (by omega), List.getD_eq_getElem _ _ hlt, if_pos hfree.1]
  | cons c cs ih =>
    intro s hs hle hfree hne
    rw [List.mem_cons, not_or] at hline
    by_cases hend : s.index + 2 = pat.length
    · apply hfail
      simp only [step, hs, startBoundary]
      rw [if_pos hend, if_pos (Ne.symm hline.1)]
    · have hlt : s.index + 2 < pat.length := by omega
      rw [List.drop_eq_getElem_cons hlt] at hfree hne
      rw [List.mem_cons, not_or] at hfree
      by_cases hc : c = pat[s.index + 2]
      · have hstep : s.step pat c = some { s with index := s.index + 1 } := by
          simp only [step, hs, startBoundary]
          rw [if_neg hend, if_neg (by omega), List.getD_eq_getElem _ _ hlt, if_neg (not_not.mpr hc)]
        rw [List.cons_append, run_cons_of_step hstep]
        refine ih hline.2 hs (by simp only; omega) hfree.2 ?_
        intro heq
        exact hne (by rw [hc, heq])
      · apply hfail
        simp only [step, hs, startBoundary]
        rw [if_neg hend, if_neg (by omega), List.getD_eq_getElem _ _ hlt, if_pos hc]

/-- A form under another boundary is refused. -/
theorem run_wrong_boundary {p b : Bytes} (hp : CR ∉ p) (hb : CR ∉ b) (hne : p ≠ b) (rest : Bytes) :
    ∃ s', ({} : Scanner).run (delimiter p) ([HYPHEN, HYPHEN] ++ b ++ CRLF ++ rest) = some s' ∧ s'.state = .parseError := by
  have hfree : ∀ x : Bytes, CR ∉ x → CR ∉ [HYPHEN, HYPHEN] ++ x := by
    intro x hx
    simp [hx]
  have hdrop : (delimiter p).drop 2 = [HYPHEN, HYPHEN] ++ p := rfl
  have hrun := run_startBoundary_wrong (delimiter p) ([HYPHEN, HYPHEN] ++ b) (LF :: rest) (hfree b hb)
    (s := { state := .startBoundary }) rfl (by simp [delimiter, CRLF]) (by rw [hdrop]; exact hfree p hp)
    (by rw [hdrop]; simpa using Ne.symm hne)
  rw [show [HYPHEN, HYPHEN] ++ b ++ CRLF ++ rest = [HYPHEN, HYPHEN] ++ b ++ CR :: LF :: rest by simp [CRLF]]
  exact hrun

/-- A character of a name is no CR and no colon, and passes the check of `HEADER_FIELD`. -/
theorem isNameChar_ok {c : UInt8} (h : isNameChar c = true) :
    c ≠ CR ∧ c ≠ COLON ∧ (c ≠ HYPHEN → ¬(lower c < 97 ∨ 122 < lower c)) := by
  have hall : ∀ c : UInt8, isNameChar c = true → c ≠ CR ∧ c ≠ COLON ∧ (c ≠ HYPHEN → ¬(lower c < 97 ∨ 122 < lower c)) :=
    forall_byte (by decide +kernel)
  exact hall c h

/-- The bytes of a header name. -/
theorem run_name (pat name : Bytes) : ∀ {s : Scanner}, s.state = .headerField → (∀ c ∈ name, isNameChar c = true) →
    s.run pat name = some { s with index := s.index + name.length, name := s.name ++ name } := by
  induction name with
  | nil =>
    intro s _ _
    simp
  | cons c cs ih =>
    intro s hs hok
    obtain ⟨h1, h2, h3⟩ := isNameChar_ok (hok c (by simp))
    have hstep : s.step pat c = some { s with index := s.index + 1, name := s.name ++ [c] } := by
      simp only [step, hs, headerField]
      rw [if_neg h1]
      by_cases hh : c = HYPHEN
      · rw [if_pos hh]
      · rw [if_neg hh, if_neg h2, if_neg (h3 hh)]
    have hrest := ih (s := { s with index := s.index + 1, name := s.name ++ [c] }) hs
      (fun x hx => hok x (List.mem_cons_of_mem c hx))
    rw [run_cons_of_step hstep, hrest]
    simp only [List.length_cons, List.append_assoc, List.singleton_append, Option.some.injEq, mk.injEq, and_true, true_and]
    omega

/-- The bytes of a header value. -/
theorem run_value (pat value : Bytes) : ∀ {s : Scanner}, s.state = .headerValue → CR ∉ value →
    s.run pat value = some { s with value := s.value ++ value } := by
  induction value with
  | nil =>
    intro s _ _
    simp
  | cons c cs ih =>
    intro s hs hcr
    rw [List.mem_cons, not_or] at hcr
    have hstep : s.step pat c = some { s with value := s.value ++ [c] } := by
      simp only [step, hs, headerValue]
      rw [if_neg (fun h => hcr.1 h.symm)]
    rw [run_cons_of_step hstep, ih (s := { s with value := s.value ++ [c] }) hs hcr.2]
    simp

/-- The value of a header line, after the colon and the space, and the line end. -/
theorem run_valueLine {value : Bytes} (hs : s.state = .headerValueStart) (hcr : CR ∉ value)
    (hsp : value.head? ≠ some SPACE) : s.run pat (value ++ CRLF) = some { s with
      state := .headerFieldStart
      headers := OrderedMap.emplaceMulti s.headers s.name (s.value ++ value)
      name := []
      value := [] } := by
  have hstart : s.run pat (value ++ CRLF) = { s with state := .headerValue }.run pat (value ++ CRLF) := by
    cases value with
    | nil => simp [CRLF, run_cons, step, hs]
    | cons c cs =>
      have hc : c ≠ SPACE := fun h => hsp (by rw [h]; rfl)
      simp [run_cons, step, hs, hc]
  have hv := run_value pat value (s := { s with state := .headerValue }) rfl hcr
  rw [hstart, run_append_of_run hv]
  simp [CRLF, run_cons, step, headerValue]

/-- A header line: the reader files its name and value. -/
theorem run_headerLine (pat : Bytes) {h : Bytes × Bytes} (hok : HeaderOk h) (hs : s.state = .headerFieldStart) (hn : s.name = [])
    (hv : s.value = []) : s.run pat (headerLine h) = some { s with
      index := h.1.length + 1
      headers := OrderedMap.emplaceMulti s.headers h.1 h.2 } := by
  have hstart : ∀ rest, s.run pat (h.1 ++ rest) = { s with index := 0, state := .headerField }.run pat (h.1 ++ rest) := by
    intro rest
    cases hname : h.1 with
    | nil => exact absurd hname hok.name_ne
    | cons c cs => simp [run_cons, step, hs]
  have hname : { s with index := 0, state := .headerField }.run pat h.1 =
      some { s with index := h.1.length, state := .headerField, name := h.1 } := by
    rw [run_name pat h.1 rfl hok.name_chars]
    simp [hn]
  have hpos : h.1.length ≠ 0 := fun h0 => hok.name_ne (List.eq_nil_of_length_eq_zero h0)
  -- the colon and the space
  have hsep : ∀ rest, { s with index := h.1.length, state := .headerField, name := h.1 }.run pat (COLON :: SPACE :: rest) =
      { s with index := h.1.length + 1, state := .headerValueStart, name := h.1 }.run pat rest := by
    intro rest
    have h1 : { s with index := h.1.length, state := .headerField, name := h.1 }.step pat COLON =
        some { s with index := h.1.length + 1, state := .headerValueStart, name := h.1 } := by
      simp only [step, headerField]
      rw [if_neg COLON_ne_CR, if_neg COLON_ne_HYPHEN, if_pos trivial, if_neg hpos]
    have h2 : { s with index := h.1.length + 1, state := .headerValueStart, name := h.1 }.step pat SPACE =
        some { s with index := h.1.length + 1, state := .headerValueStart, name := h.1 } := by
      simp [step]
    rw [run_cons_of_step h1, run_cons_of_step h2]
  have hline : headerLine h = h.1 ++ (COLON :: SPACE :: (h.2 ++ CRLF)) := by
    simp [headerLine]
  rw [hline, hstart, run_append_of_run hname, hsep, run_valueLine rfl hok.value_cr hok.value_space]
  simp [hs, hn, hv]

/-- The header lines of a part, filed in order. -/
theorem run_headerLines (pat : Bytes) (hs : List (Bytes × Bytes)) : ∀ {s : Scanner}, s.state = .headerFieldStart → s.name = [] →
    s.value = [] → (∀ h ∈ hs, HeaderOk h) → ∃ n, s.run pat (hs.flatMap headerLine) = some { s with
      index := n
      headers := hs.foldl (fun m e => OrderedMap.emplaceMulti m e.1 e.2) s.headers } := by
  induction hs with
  | nil =>
    intro s _ _ _ _
    exact ⟨s.index, rfl⟩
  | cons h hs ih =>
    intro s hst hn hv hok
    have hline := run_headerLine pat (hok h (by simp)) hst hn hv
    obtain ⟨n, hrest⟩ := ih (s := { s with
      index := h.1.length + 1
      headers := OrderedMap.emplaceMulti s.headers h.1 h.2 }) hst hn hv (fun x hx => hok x (List.mem_cons_of_mem h hx))
    refine ⟨n, ?_⟩
    rw [List.flatMap_cons, run_append_of_run hline, hrest]
    rfl

/-- The blank line: the part begins. -/
theorem run_blank (pat : Bytes) (hs : s.state = .headerFieldStart) : s.run pat CRLF = some { s with
      index := 0
      state := .partDataStart
      held := []
      headers := []
      delivery := s.delivery.openPart s.headers } := by
  simp [CRLF, run_cons, step, hs, headerField]

/-- A text without the delimiter, and the delimiter: the text is delivered, the delimiter held. -/
theorem run_search {t : Bytes} (ht : CR ∉ t) (text : Bytes) (hfree : ¬ CR :: t <:+: text) (hs : s.state = .partData)
    (hheld : s.held = []) : s.run (CR :: t) (text ++ CR :: t) = some { s with
      delivery := s.delivery.push text
      held := CR :: t } := by
  obtain ⟨hopen, hscan⟩ := scan_delimited ht text hfree
  have hrun := run_partData (CR :: t) (text ++ CR :: t) hs (by rw [hheld]; exact hopen)
  simp only [hheld, hscan] at hrun
  exact hrun

/-- The content of a part and the delimiter after it. -/
theorem run_content {t : Bytes} (ht : CR ∉ t) (content : Bytes) (hfree : ¬ CR :: t <:+: content)
    (hs : s.state = .partDataStart) (hheld : s.held = []) : s.run (CR :: t) (content ++ CR :: t) = some { s with
      state := .partData
      delivery := s.delivery.push content
      held := CR :: t } := by
  rw [run_partDataStart hs (by simp)]
  exact run_search (s := { s with state := .partData }) ht content hfree rfl hheld

/-- A CR after the delimiter sets its flag. -/
theorem step_cr (hs : s.state = .partData) (hheld : s.held = pat) : s.step pat CR = some { s with
      flags := { s.flags with partBoundary := true }
      held := pat ++ [CR] } := by
  simp [step, hs, partData, hheld]

/-- A hyphen after the delimiter sets the other flag. -/
theorem step_hyphen (hs : s.state = .partData) (hheld : s.held = pat) : s.step pat HYPHEN = some { s with
      flags := { s.flags with lastBoundary := true }
      held := pat ++ [HYPHEN] } := by
  simp [step, hs, partData, hheld]

/-- A delimiter line that separates two parts takes back the flag that its CR has set. -/
theorem run_separator (hs : s.state = .partData) (hheld : s.held = pat) : s.run pat CRLF = some { s with
      flags := { s.flags with partBoundary := false }
      state := .headerFieldStart
      held := []
      delivery := s.delivery.closePart } := by
  have h1 := step_cr hs hheld
  have h2 : { s with flags := { s.flags with partBoundary := true }, held := pat ++ [CR] }.step pat LF =
      some { s with
        flags := { s.flags with partBoundary := false }
        state := .headerFieldStart
        held := []
        delivery := s.delivery.closePart } := by
    simp [step, hs, partData]
  rw [CRLF, run_cons_of_step h1, run_cons_of_step h2, run_nil]

/-- The delimiter line that closes the form. -/
theorem run_closing (hs : s.state = .partData) (hheld : s.held = pat) (hf : s.flags.partBoundary = false) :
    s.run pat [HYPHEN, HYPHEN] = some { s with
      flags := { s.flags with lastBoundary := true }
      state := .ended
      held := []
      delivery := s.delivery.closePart.finish } := by
  have h1 := step_hyphen hs hheld
  have h2 : { s with flags := { s.flags with lastBoundary := true }, held := pat ++ [HYPHEN] }.step pat HYPHEN =
      some { s with
        flags := { s.flags with lastBoundary := true }
        state := .ended
        held := []
        delivery := s.delivery.closePart.finish } := by
    simp [step, hs, partData, hf]
  rw [run_cons_of_step h1, run_cons_of_step h2, run_nil]

/-! ## The parts of a body -/

/-- The scanner before the header lines of a part, with the parts `qs` delivered. -/
def between (n : Nat) (qs : List Part) : Scanner :=
  { state := .headerFieldStart, index := n, delivery := { parts := qs } }

/-- The scanner after the delimiter that follows the part `p`. -/
def atDelimiter (b : Bytes) (qs : List Part) (p : Part) : Scanner :=
  { state := .partData, held := delimiter b, delivery := { parts := qs, current := some p.delivered } }

/-- The header lines of a part and the blank line: the part begins. -/
theorem run_partHeaders (pat : Bytes) {headers : List (Bytes × Bytes)} (hok : ∀ h ∈ headers, HeaderOk h)
    (hs : s.state = .headerFieldStart) (hn : s.name = []) (hv : s.value = []) (hh : s.headers = []) :
    s.run pat (headers.flatMap headerLine ++ CRLF) = some { s with
      index := 0
      state := .partDataStart
      held := []
      delivery := s.delivery.openPart (OrderedMap.multimapOf headers) } := by
  obtain ⟨m, hlines⟩ := run_headerLines pat headers hs hn hv hok
  have hblank := run_blank pat (s := { s with
    index := m
    headers := headers.foldl (fun m e => OrderedMap.emplaceMulti m e.1 e.2) s.headers }) hs
  rw [run_append_of_run hlines, hblank, hh]
  rfl

/-- A part and the delimiter after it. -/
theorem run_part {b : Bytes} (hb : CR ∉ b) {p : Part} (hok : PartOk b p) (n : Nat) (qs : List Part) :
    (between n qs).run (delimiter b) (serializePart p ++ delimiter b) = some (atDelimiter b qs p) := by
  have hd := delimiter_eq b
  have hheaders := run_partHeaders (delimiter b) (s := between n qs) hok.headers_ok rfl rfl rfl rfl
  have hfree := hok.content_free
  rw [hd] at hfree hheaders ⊢
  have hcontent := run_content (cr_not_mem_tail hb) p.content hfree (s := { between n qs with
    index := 0
    state := .partDataStart
    held := []
    delivery := (between n qs).delivery.openPart (OrderedMap.multimapOf p.headers) }) rfl rfl
  rw [serializePart, List.append_assoc, run_append_of_run hheaders]
  refine hcontent.trans ?_
  simp [between, atDelimiter, hd, Delivery.openPart, Delivery.push, Part.delivered]

/-- The parts of a body, from the first header line to the closing delimiter. -/
theorem run_parts {b : Bytes} (hb : CR ∉ b) (ps : List Part) : ∀ (n : Nat) (qs : List Part), ps ≠ [] →
    (∀ p ∈ ps, PartOk b p) → (between n qs).run (delimiter b) (serializeParts b ps) = some
      { state := .ended
        flags := { lastBoundary := true }
        delivery := { parts := qs ++ ps.map Part.delivered, finished := true } } := by
  induction ps with
  | nil => intro n qs hne _; exact absurd rfl hne
  | cons p ps ih =>
    intro n qs _ hok
    have hpart := run_part hb (hok p (by simp)) n qs
    cases ps with
    | nil =>
      have hclose := run_closing (s := atDelimiter b qs p) rfl rfl rfl
      rw [serializeParts, run_append_of_run hpart]
      refine hclose.trans ?_
      simp [atDelimiter, Delivery.closePart, Delivery.finish]
    | cons p' ps =>
      have hrest := ih 0 (qs ++ [p.delivered]) (by simp) (fun q hq => hok q (List.mem_cons_of_mem p hq))
      have hsep : (atDelimiter b qs p).run (delimiter b) CRLF = some (between 0 (qs ++ [p.delivered])) :=
        run_separator rfl rfl
      rw [serializeParts, List.append_assoc, run_append_of_run hpart, run_append_of_run hsep, hrest]
      · simp
      · simp

/-- The scanner reads a serialized form. -/
theorem run_serialize {b : Bytes} (hb : CR ∉ b) {ps : List Part} (hne : ps ≠ []) (hok : ∀ p ∈ ps, PartOk b p) :
    ({} : Scanner).run (delimiter b) (serialize b ps) = some
      { state := .ended
        flags := { lastBoundary := true }
        delivery := { parts := ps.map Part.delivered, finished := true } } := by
  have hfirst : ({} : Scanner).run (delimiter b) ([HYPHEN, HYPHEN] ++ b ++ CRLF) = some (between 0 []) :=
    run_first (by simp [delimiter, CRLF]) rfl
  have hparts := run_parts hb ps 0 [] hne hok
  rw [serialize, run_append_of_run hfirst, hparts]
  simp

end Scanner

/-! ## The round trip -/

/-- A reader that has ended with the scanner has delivered what the scanner has delivered, and has succeeded. -/
theorem Matches.ended {pat : Bytes} {r : Reader} {d : Delivery} {s : Scanner} (h : Matches pat r d s)
    (hs : s.state = .ended) : r.succeeded = true ∧ d = s.delivery := by
  rcases h with h | ⟨-, hp, -⟩
  · have h0 := h []
    obtain ⟨-, -, -, -, -, hd⟩ := h0.unmarked (by simp [Unmarked, hs])
    refine ⟨?_, hd⟩
    simp [Reader.succeeded, Parser.succeeded, h0.state, hs]
  · rw [hs] at hp
    cases hp

/-- A reader of which the scanner has been refused has been refused too. -/
theorem Matches.refused {pat : Bytes} {r : Reader} {d : Delivery} {s : Scanner} (h : Matches pat r d s)
    (hs : s.state = .parseError) : r.hasError = true := by
  rcases h with h | ⟨hp, -, -⟩
  · exact absurd hs (h []).alive
  · simp [Reader.hasError, Parser.hasError, hp]

/-- A form of one part that is cut before its closing delimiter is complete has not been read to its end. -/
theorem feedAll_unclosed {b : Bytes} {p : Part} {chunks : List Bytes} (hb : CR ∉ b) (hok : PartOk b p) (fill : Nat → UInt8)
    (hne : ∀ c ∈ chunks, c ≠ [])
    (hcut : chunks.flatten <+: [HYPHEN, HYPHEN] ++ b ++ CRLF ++ (serializePart p ++ delimiter b)) :
    ∃ r calls ret, (({} : Reader).setBoundary (delimiter b) fill).feedAll chunks = .returned r calls ret ∧ r.succeeded = false := by
  have hfirst : ({} : Scanner).run (delimiter b) ([HYPHEN, HYPHEN] ++ b ++ CRLF) = some (Scanner.between 0 []) :=
    Scanner.run_first (by simp [delimiter, CRLF]) rfl
  have hall := (Scanner.run_append_of_run hfirst (serializePart p ++ delimiter b)).trans (Scanner.run_part hb hok 0 [])
  obtain ⟨rest, hrest⟩ := hcut
  rw [← hrest, Scanner.run_append] at hall
  obtain ⟨s, hs, hgo⟩ := Option.bind_eq_some_iff.mp hall
  -- a scanner that has ended stays so, but the delimiter has only just been read
  have hopen : s.state ≠ .ended := by
    intro hend
    rw [Scanner.run_ended hend, Option.some.injEq] at hgo
    rw [hgo] at hend
    cases hend
  obtain ⟨r, calls, ret, d, hfeed, -, hm⟩ := feedAll_sim (delimiter_ne_nil b) chunks hne
    (matches_setBoundary fill) hs
  refine ⟨r, calls, ret, hfeed, decide_eq_false ?_⟩
  rcases hm with hm | ⟨hp, -, -⟩
  · rw [(hm []).state]
    exact hopen
  · rw [hp]
    nofun

/-- A form under another boundary, in one buffer. -/
theorem feedAll_wrong_boundary {p b : Bytes} (hp : CR ∉ p) (hb : CR ∉ b) (hne : p ≠ b) (rest : Bytes) (fill : Nat → UInt8) :
    ∃ r calls ret, (({} : Reader).setBoundary (delimiter p) fill).feedAll [[HYPHEN, HYPHEN] ++ b ++ CRLF ++ rest] =
      .returned r calls ret ∧ r.hasError = true := by
  obtain ⟨s, hrun, hs⟩ := Scanner.run_wrong_boundary hp hb hne rest
  obtain ⟨r, calls, ret, d, hfeed, -, hm⟩ := feedAll_sim (delimiter_ne_nil p)
    [[HYPHEN, HYPHEN] ++ b ++ CRLF ++ rest] (by simp) (matches_setBoundary fill) (by simpa using hrun)
  exact ⟨r, calls, ret, hfeed, hm.refused hs⟩

/-- An input at the end of which the scanner has ended, cut in any way: the delivery. -/
theorem feedAll_ended {b : Bytes} {chunks : List Bytes} {s : Scanner} (fill : Nat → UInt8) (hne : ∀ c ∈ chunks, c ≠ [])
    (hrun : ({} : Scanner).run (delimiter b) chunks.flatten = some s) (hs : s.state = .ended) :
    ∃ r calls ret, (({} : Reader).setBoundary (delimiter b) fill).feedAll chunks = .returned r calls ret ∧
      ({} : Delivery).run calls = some s.delivery ∧ r.succeeded = true := by
  obtain ⟨r, calls, ret, d, hfeed, hd, hm⟩ :=
    feedAll_sim (delimiter_ne_nil b) chunks hne (matches_setBoundary fill) hrun
  obtain ⟨hsucc, rfl⟩ := hm.ended hs
  exact ⟨r, calls, ret, hfeed, hd, hsucc⟩

/-- The calls that deliver a form, in slices. -/
theorem Delivery.slices_of_run {calls : List ReaderCall} {ps : List Part}
    (h : ({} : Delivery).run calls = some { parts := ps.map Part.delivered, finished := true }) :
    ∃ sl : List (Headers × List Bytes), calls = callsOf sl ∧
      sl.map (fun x => (x.1, x.2.flatten)) = ps.map (fun p => (OrderedMap.multimapOf p.headers, p.content)) := by
  obtain ⟨sl, hcalls, hparts⟩ := (calls_of_run calls h rfl rfl rfl).1 rfl
  have hmap := congrArg (List.map fun q : Part => (q.headers, q.content)) hparts
  exact ⟨sl, hcalls, by simpa [Part.delivered, Function.comp_def] using hmap.symm⟩

/-- A form and whatever follows its closing delimiter, cut in any way: the delivery. -/
theorem feedAll_delivery (b : Bytes) (ps : List Part) (epilogue : Bytes) (chunks : List Bytes) (fill : Nat → UInt8) (hb : CR ∉ b)
    (hps : ps ≠ []) (hok : ∀ p ∈ ps, PartOk b p) (hne : ∀ c ∈ chunks, c ≠ [])
    (hcut : chunks.flatten = serialize b ps ++ epilogue) :
    ∃ r calls ret, (({} : Reader).setBoundary (delimiter b) fill).feedAll chunks = .returned r calls ret ∧
      ({} : Delivery).run calls = some { parts := ps.map Part.delivered, finished := true } ∧ r.succeeded = true := by
  have hrun := (Scanner.run_append_of_run (Scanner.run_serialize hb hps hok) epilogue).trans (Scanner.run_ended rfl epilogue)
  rw [← hcut] at hrun
  exact feedAll_ended fill hne hrun rfl

/-- A form and whatever follows its closing delimiter, cut in any way: the calls. -/
theorem feedAll_form (b : Bytes) (ps : List Part) (epilogue : Bytes) (chunks : List Bytes) (fill : Nat → UInt8) (hb : CR ∉ b)
    (hps : ps ≠ []) (hok : ∀ p ∈ ps, PartOk b p) (hne : ∀ c ∈ chunks, c ≠ [])
    (hcut : chunks.flatten = serialize b ps ++ epilogue) :
    ∃ (r : Reader) (sl : List (Headers × List Bytes)) (ret : Nat),
      (({} : Reader).setBoundary (delimiter b) fill).feedAll chunks = .returned r (Delivery.callsOf sl) ret ∧
      sl.map (fun x => (x.1, x.2.flatten)) = ps.map (fun p => (OrderedMap.multimapOf p.headers, p.content)) ∧
      r.succeeded = true := by
  obtain ⟨r, calls, ret, hfeed, hd, hsucc⟩ := feedAll_delivery b ps epilogue chunks fill hb hps hok hne hcut
  obtain ⟨sl, rfl, hsl⟩ := Delivery.slices_of_run hd
  exact ⟨r, sl, ret, hfeed, hsl, hsucc⟩

/-- **Multipart round trip.** For a boundary token without CR, a non-empty list of parts that can be carried under it, and
every way to cut their serialization into non-empty buffers, the reader calls, in order: for each part `on_part_begin` with
the part's headers (as a multimap), `on_part_data` with slices that join to the part's content, `on_part_end`; and at the end
`on_end`, once. It has then succeeded. -/
theorem feedAll_serialize (b : Bytes) (ps : List Part) (chunks : List Bytes) (fill : Nat → UInt8) (hb : CR ∉ b)
    (hps : ps ≠ []) (hok : ∀ p ∈ ps, PartOk b p) (hne : ∀ c ∈ chunks, c ≠ []) (hcut : chunks.flatten = serialize b ps) :
    ∃ (r : Reader) (sl : List (Headers × List Bytes)) (ret : Nat),
      (({} : Reader).setBoundary (delimiter b) fill).feedAll chunks = .returned r (Delivery.callsOf sl) ret ∧
      sl.map (fun x => (x.1, x.2.flatten)) = ps.map (fun p => (OrderedMap.multimapOf p.headers, p.content)) ∧
      r.succeeded = true :=
  feedAll_form b ps [] chunks fill hb hps hok hne (by rw [hcut, List.append_nil])

/-- A form of two parts under the boundary `x`, cut inside the first delimiter, a header line and the closing delimiter. -/
theorem feedAll_serialize_two_parts :
    ∃ (r : Reader) (sl : List (Headers × List Bytes)) (ret : Nat),
      (({} : Reader).setBoundary (delimiter (bytes "x")) (fun _ => 0)).feedAll
          [bytes "-", bytes "-x\r\nA: b\r\nA:", bytes " \r\n\r\nhi\r\n--\r\n-", bytes "-x\r\n\r\n\r\n--x-", bytes "-"] =
        .returned r (Delivery.callsOf sl) ret ∧
      sl.map (fun x => (x.1, x.2.flatten)) =
        [([(bytes "A", bytes "b"), (bytes "A", [])], bytes "hi\r\n--"), ([], [])] ∧
      r.succeeded = true :=
  feedAll_serialize (bytes "x")
    [⟨[(bytes "A", bytes "b"), (bytes "A", [])], bytes "hi\r\n--"⟩, ⟨[], []⟩] _ (fun _ => 0) (by decide) (by decide)
    (by
      intro p hp
      simp only [List.mem_cons, List.not_mem_nil, or_false] at hp
      rcases hp with rfl | rfl
      · refine ⟨?_, by decide⟩
        intro h hh
        simp only [List.mem_cons, List.not_mem_nil, or_false] at hh
        rcases hh with rfl | rfl
        · exact ⟨by decide, List.all_eq_true.mp (by decide), by decide, by decide⟩
        · exact ⟨by decide, List.all_eq_true.mp (by decide), by decide, by decide⟩
      · exact ⟨by simp, by decide⟩)
    (by decide) (by decide)

end Multipart
end Netcore
