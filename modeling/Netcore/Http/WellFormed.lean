import Netcore.Http.Header

/-!
# Heads that are well formed

The head of a request as it is meant to be written: the request line, the header lines and a blank line. A `RequestHead` has only
characters that belong in it, and then `phr_parse_request` takes what `write` writes as a whole (`len_write`), and finds the
value of each header (`value_write`).
-/

namespace Netcore

open Slices Incremental

/-- A character of a method or a target. -/
def isUrlChar (c : UInt8) : Bool := decide (¬(c = SPACE ∨ c < 32 ∨ c = 127))

/-- A character that may stand in a header value. -/
def isTextChar (c : UInt8) : Bool := decide (¬((c < 32 ∧ c ≠ 9) ∨ c = 127))

/-- A blank, which is no part of a value that it comes before. -/
def isBlank (c : UInt8) : Bool := decide (c = SPACE ∨ c = 9)

/-- A header line: its name, and the text after the colon. -/
structure HeaderLine where
  name : Bytes
  text : Bytes
  name_ne : name ≠ []
  name_chars : ∀ c ∈ name, isTokenChar c = true
  text_chars : ∀ c ∈ text, isTextChar c = true

namespace HeaderLine

def write (l : HeaderLine) : Bytes := l.name ++ COLON :: (l.text ++ CRLF)

/-- A line whose name has been checked. -/
def named (name text : Bytes) (hname : (!name.isEmpty && name.all isTokenChar) = true) (htext : ∀ c ∈ text, isTextChar c = true) :
    HeaderLine where
  name
  text
  name_ne := by
    rintro rfl
    exact Bool.false_ne_true hname
  name_chars := List.all_eq_true.mp (Bool.and_eq_true_iff.mp hname).2
  text_chars := htext

@[simp] theorem name_named {name text : Bytes} (hname : (!name.isEmpty && name.all isTokenChar) = true)
    (htext : ∀ c ∈ text, isTextChar c = true) : (named name text hname htext).name = name := rfl

@[simp] theorem text_named {name text : Bytes} (hname : (!name.isEmpty && name.all isTokenChar) = true)
    (htext : ∀ c ∈ text, isTextChar c = true) : (named name text hname htext).text = text := rfl

/-- The value of a header. -/
def value (l : HeaderLine) : Bytes := l.text.dropWhile isBlank

/-- The entry of a header line that begins at `pos`. -/
def entry (l : HeaderLine) (pos : Nat) : PhrHeader where
  name := ⟨pos, l.name.length⟩
  value := ⟨pos + (l.name.length + 1 + (l.text.takeWhile isBlank).length), l.value.length⟩

theorem length_write (l : HeaderLine) : l.write.length = l.name.length + 1 + l.text.length + 2 := by
  simp only [write, List.length_append, List.length_cons, CRLF, List.length_nil]
  omega

/-- The tokens of an entry are the name and the value. -/
theorem entry_read (l : HeaderLine) {data rest : Bytes} {pos : Nat} (hd : data.drop pos = l.write ++ rest) :
    (l.entry pos).name.read data = l.name ∧ (l.entry pos).value.read data = l.value := by
  have hread : ∀ s t u : Bytes, l.write = s ++ t ++ u → Slice.read ⟨pos + s.length, t.length⟩ data = t := by
    intro s t u hw
    rw [Slice.read, slice, Nat.add_sub_cancel_left, ← List.drop_drop, hd, hw]
    simp
  have hvalue : l.write = l.name ++ COLON :: l.text.takeWhile isBlank ++ l.value ++ CRLF := by
    rw [write, value]
    conv_lhs => rw [← List.takeWhile_append_dropWhile (p := isBlank) (l := l.text)]
    simp
  refine ⟨hread [] l.name (COLON :: (l.text ++ CRLF)) (by simp [write]), ?_⟩
  have h := hread _ _ _ hvalue
  rwa [show (l.name ++ COLON :: l.text.takeWhile isBlank).length = l.name.length + 1 + (l.text.takeWhile isBlank).length by
    simp; omega] at h

end HeaderLine

/-- The head of a request, with no more headers than there is room for. -/
structure RequestHead where
  method : Bytes
  target : Bytes
  lines : List HeaderLine
  method_ne : method ≠ []
  method_chars : ∀ c ∈ method, isUrlChar c = true
  target_chars : ∀ c ∈ target, isUrlChar c = true
  lines_le : lines.length ≤ 32

/-- A head whose method and target have been checked. -/
def RequestHead.checked (method target : Bytes) (lines : List HeaderLine)
    (h : (!method.isEmpty && method.all isUrlChar && target.all isUrlChar && decide (lines.length ≤ 32)) = true) : RequestHead where
  method
  target
  lines
  method_ne := by
    rintro rfl
    exact Bool.false_ne_true h
  method_chars := List.all_eq_true.mp (Bool.and_eq_true_iff.mp (Bool.and_eq_true_iff.mp (Bool.and_eq_true_iff.mp h).1).1).2
  target_chars := List.all_eq_true.mp (Bool.and_eq_true_iff.mp (Bool.and_eq_true_iff.mp h).1).2
  lines_le := of_decide_eq_true (Bool.and_eq_true_iff.mp h).2

/-- The text of a head. -/
def RequestHead.write (h : RequestHead) : Bytes :=
  h.method ++ SPACE :: (h.target ++ SPACE :: (bytes "HTTP/1.1" ++ CRLF ++ (h.lines.flatMap HeaderLine.write ++ CRLF)))

namespace Pico

/-! ## The pieces -/

theorem advanceToken_write {s : Bytes} (h : ∀ c ∈ s, isUrlChar c = true) (rest : Bytes) :
    advanceToken (s ++ SPACE :: rest) = .ok s.length rest := by
  induction s with
  | nil => rfl
  | cons c cs ih =>
    have hc : ¬(c = SPACE ∨ c < 32 ∨ c = 127) := by simpa [isUrlChar] using h c (by simp)
    rw [List.cons_append, advanceToken_go c _ hc, ih fun x hx => h x (List.mem_cons_of_mem c hx)]
    rfl

theorem headerName_write {s : Bytes} (h : ∀ c ∈ s, isTokenChar c = true) (rest : Bytes) :
    headerName (s ++ COLON :: rest) = .ok s.length rest := by
  induction s with
  | nil => rfl
  | cons c cs ih =>
    have hc := h c (by simp)
    have hcolon : c ≠ COLON := by
      rintro rfl
      exact absurd hc (by decide)
    rw [List.cons_append, headerName_go c _ (by simp [hcolon, hc]), ih fun x hx => h x (List.mem_cons_of_mem c hx)]
    rfl

/-- The blanks before a value, in front of a line end. -/
theorem skipBlanks_write (s rest : Bytes) :
    skipBlanks (s ++ CR :: rest) = .ok (s.takeWhile isBlank).length (s.dropWhile isBlank ++ CR :: rest) := by
  induction s with
  | nil => rfl
  | cons c cs ih =>
    by_cases hc : c = SPACE ∨ c = 9
    · have hb : isBlank c = true := decide_eq_true hc
      rw [List.cons_append, skipBlanks_go c _ (not_not.mpr hc), ih, List.takeWhile_cons_of_pos hb, List.dropWhile_cons_of_pos hb]
      rfl
    · have hb : ¬isBlank c = true := by simpa [isBlank] using hc
      rw [List.cons_append, skipBlanks_halt c _ hc, List.takeWhile_cons_of_neg hb, List.dropWhile_cons_of_neg hb]
      rfl

theorem getTokenToEol_write {s : Bytes} (h : ∀ c ∈ s, isTextChar c = true) (rest : Bytes) :
    getTokenToEol (s ++ CR :: LF :: rest) = .ok (s.length, 2) rest := by
  induction s with
  | nil => rfl
  | cons c cs ih =>
    have hc : ¬((c < 32 ∧ c ≠ 9) ∨ c = 127) := of_decide_eq_true (h c (by simp))
    rw [List.cons_append, getTokenToEol_go c _ hc, ih fun x hx => h x (List.mem_cons_of_mem c hx)]
    rfl

/-- A header line that has been written is an entry. -/
theorem headerEntry_write (l : HeaderLine) (first : Bool) (pos : Nat) (rest : Bytes) :
    headerEntry first pos (l.write ++ rest) = .ok (l.entry pos, l.write.length) rest := by
  have hne := l.name_ne
  have hentry : headerEntry first pos (l.write ++ rest) = namedEntry pos (l.write ++ rest) := by
    cases hn : l.name with
    | nil => exact absurd hn hne
    | cons c cs =>
      have hc := l.name_chars c (by simp [hn])
      have hblank : ¬(first = false ∧ (c = SPACE ∨ c = 9)) := by
        rintro ⟨-, rfl | rfl⟩
        · exact absurd hc (by decide)
        · exact absurd hc (by decide)
      simp only [HeaderLine.write, hn, List.cons_append, headerEntry]
      rw [if_neg hblank]
  have htext : ∀ c ∈ l.value, isTextChar c = true := fun c hc => l.text_chars c ((List.dropWhile_suffix _).mem hc)
  have hlen := congrArg List.length (List.takeWhile_append_dropWhile (p := isBlank) (l := l.text))
  rw [List.length_append] at hlen
  have hwrite : l.write ++ rest = l.name ++ COLON :: (l.text ++ CR :: (LF :: rest)) := by simp [HeaderLine.write, CRLF]
  rw [hentry, namedEntry, hwrite, headerName_write l.name_chars, Scan.bind_ok, if_neg (by simpa using hne), skipBlanks_write,
    Scan.bind_ok, ← HeaderLine.value, getTokenToEol_write htext, Scan.bind_ok, HeaderLine.length_write]
  unfold HeaderLine.value HeaderLine.entry HeaderLine.value
  simp only [Scan.ok.injEq, Prod.mk.injEq, PhrHeader.mk.injEq, Slice.mk.injEq, and_true, true_and]
  exact ⟨by omega, by omega⟩

/-- Header lines that have been written, and the blank line after them. -/
theorem parseHeaders_write (data : Bytes) (lines : List HeaderLine) : ∀ (room : Nat) (first : Bool) (pos : Nat),
    lines.length ≤ room → data.drop pos = lines.flatMap HeaderLine.write ++ CRLF →
    ∃ hs, parseHeaders room first pos (lines.flatMap HeaderLine.write ++ CRLF) = ((data.length : Int), hs) ∧
      hs.map (fun h => (h.name.read data, h.value.read data)) = lines.map fun l => (l.name, l.value) := by
  induction lines with
  | nil =>
    intro room first pos _ hd
    have hlen := congrArg List.length hd
    rw [List.length_drop] at hlen
    refine ⟨[], ?_, rfl⟩
    rw [List.flatMap_nil, List.nil_append, CRLF, parseHeaders_blank (.inl rfl)]
    simp only [lineEnd, if_true, Prod.mk.injEq, and_true, Int.natCast_inj]
    simp only [List.flatMap_nil, List.nil_append, CRLF, List.length_cons, List.length_nil] at hlen
    omega
  | cons l lines ih =>
    intro room first pos hroom hd
    rw [List.flatMap_cons, List.append_assoc] at hd ⊢
    obtain ⟨room, rfl⟩ : ∃ n, room = n + 1 := ⟨room - 1, by rw [List.length_cons] at hroom; omega⟩
    have hnext : data.drop (pos + l.write.length) = lines.flatMap HeaderLine.write ++ CRLF := by
      rw [← List.drop_drop, hd, List.drop_left]
    obtain ⟨hs, hrest, hmap⟩ := ih room false (pos + l.write.length) (by simpa using hroom) hnext
    obtain ⟨hname, hvalue⟩ := l.entry_read hd
    refine ⟨l.entry pos :: hs, ?_, ?_⟩
    · cases hn : l.name with
      | nil => exact absurd hn l.name_ne
      | cons c cs =>
        have hc := l.name_chars c (by simp [hn])
        have hline : ¬(c = CR ∨ c = LF) := by
          rintro (rfl | rfl)
          · exact absurd hc (by decide)
          · exact absurd hc (by decide)
        obtain ⟨ds, hw⟩ : ∃ ds, l.write ++ (lines.flatMap HeaderLine.write ++ CRLF) = c :: ds := by
          rw [HeaderLine.write, hn]
          exact ⟨_, rfl⟩
        have hentry := headerEntry_write l first pos (lines.flatMap HeaderLine.write ++ CRLF)
        rw [hw] at hentry ⊢
        rw [parseHeaders_entry hline, hentry]
        simp only [hrest]
    · rw [List.map_cons, List.map_cons, hmap, hname, hvalue]

end Pico

open Pico

namespace RequestHead

variable (h : RequestHead)

/-- What is found in a head that has been written. -/
theorem parse_write : ∃ hs, phrParseRequest h.write = {
      ret := h.write.length
      method := ⟨0, h.method.length⟩
      path := ⟨0 + h.method.length + 1, h.target.length⟩
      minorVersion := (1 : Nat)
      headers := hs } ∧
    hs.map (fun x => (x.name.read h.write, x.value.read h.write)) = h.lines.map fun l => (l.name, l.value) := by
  have hskip : skipEmptyLine h.write = .ok 0 h.write := by
    cases hc : h.method with
    | nil => exact absurd hc h.method_ne
    | cons c cs =>
      have hchar := h.method_chars c (by simp [hc])
      have hline : ¬(c = CR ∨ c = LF) := by
        rintro (rfl | rfl)
        · exact absurd hchar (by decide)
        · exact absurd hchar (by decide)
      simp only [write, hc, List.cons_append, skipEmptyLine, hline, if_false]
  have hversion : ∀ rest, parseHttpVersion (bytes "HTTP/1.1" ++ CRLF ++ rest) = .ok 1 (CR :: LF :: rest) := by
    intro rest
    rfl
  have hdrop : h.write.drop (0 + h.method.length + 1 + h.target.length + 1 + 8 + 2) =
      h.lines.flatMap HeaderLine.write ++ CRLF := by
    have hsplit : h.write = (h.method ++ SPACE :: (h.target ++ SPACE :: (bytes "HTTP/1.1" ++ CRLF))) ++
        (h.lines.flatMap HeaderLine.write ++ CRLF) := by simp [write]
    rw [hsplit]
    refine List.drop_left' ?_
    rw [List.length_append, List.length_cons, List.length_append, List.length_cons, show (bytes "HTTP/1.1" ++ CRLF).length = 10 by decide]
    omega
  obtain ⟨hs, hparse, hmap⟩ := parseHeaders_write h.write h.lines 32 true _ h.lines_le hdrop
  refine ⟨hs, ?_, hmap⟩
  have hmethod := advanceToken_write h.method_chars
    (h.target ++ SPACE :: (bytes "HTTP/1.1" ++ CRLF ++ (h.lines.flatMap HeaderLine.write ++ CRLF)))
  rw [← write] at hmethod
  unfold phrParseRequest
  rw [hskip]
  simp only [hmethod, advanceToken_write h.target_chars, hversion, lineEnd, if_true, hparse]

/-- A head that has been written is complete. -/
theorem len_write : Head.len h.write = (h.write.length : Int) := by
  obtain ⟨hs, heq, -⟩ := h.parse_write
  rw [Head.len, heq]

/-- The token of the target is the target. -/
theorem target_write : (phrParseRequest h.write).path.read h.write = h.target := by
  obtain ⟨hs, heq, -⟩ := h.parse_write
  rw [heq, Slice.read, slice, Nat.zero_add, Nat.add_sub_cancel_left, write]
  show ((h.method ++ _).drop (h.method.length + 1)).take h.target.length = h.target
  rw [← List.drop_drop, List.drop_left, List.drop_one, List.tail_cons, List.take_left]

/-- The header values of a head that has been written. -/
theorem value_write (key : Bytes) :
    Head.value h.write key = ((h.lines.find? fun l => iequal l.name key).map HeaderLine.value).getD [] := by
  obtain ⟨hs, heq, hmap⟩ := h.parse_write
  have hheaders : (phrParseRequest h.write).headers = hs := by rw [heq]
  rw [← hheaders] at hmap
  have hfind := congrArg (List.find? fun e : Bytes × Bytes => iequal e.1 key) hmap
  rw [List.find?_map, List.find?_map] at hfind
  have hvalue := congrArg (fun o : Option (Bytes × Bytes) => (o.map Prod.snd).getD []) hfind
  simp only [Option.map_map] at hvalue
  refine Eq.trans ?_ hvalue
  unfold Head.value
  cases hf : (phrParseRequest h.write).headers.find? (fun x => iequal (x.name.read h.write) key) with
  | none => simp [Function.comp_def, hf]
  | some x => simp [Function.comp_def, hf]

end RequestHead

end Netcore
