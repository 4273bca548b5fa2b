import Netcore.Client
import Netcore.Http.PercentEncoding

/-!
# `uri_t::parse_from`

A URI as the client takes it apart. `parse_from` sets the members of its object one after the other and stops at the first character
that it does not let through, so an object that has failed keeps what was found before. A text ends at its first NUL, which is not part
of the lists here. (`is_ssl` is never read.)

`parseFrom_iff` says which texts are let through: a `UriText` is a URI by its parts, with the conditions under which the parts are found
again.
-/

namespace Netcore

/-- `isalpha`. -/
def isAlpha (c : UInt8) : Bool := decide ((65 ≤ c ∧ c ≤ 90) ∨ (97 ≤ c ∧ c ≤ 122))

/-- `is_scheme_character`. -/
def isSchemeCharacter (c : UInt8) : Bool := isAlpha c || isDigit c || decide (c ∈ bytes "+-.")

/-- `is_user_info_character`. -/
def isUserInfoCharacter (c : UInt8) : Bool := isUnreserved c || isSubDelim c || decide (c ∈ bytes "%:")

/-- `is_fragment_character`. -/
def isFragmentCharacter (c : UInt8) : Bool := isQueryCharacter c

/-- `uri_t`. -/
structure UriT where
  schema : Bytes := []
  uinfo : Bytes := []
  host : Bytes := []
  port : Bytes := []
  path : Bytes := []
  query : Bytes := []
  fragment : Bytes := []
  deriving DecidableEq, Repr

/-- The characters up to one of `stop`, when all of them are `ok`. -/
def scanToken (ok : UInt8 → Bool) (stop s : Bytes) : Option (Bytes × Bytes) :=
  let token := s.takeWhile (· ∉ stop)
  if token.all ok then some (token, s.dropWhile (· ∉ stop)) else none

namespace UriT

/-- The scheme, when there is a colon before the first slash. -/
def parseSchema (u : UriT) (encoded : Bytes) : Except UriT (UriT × Bytes) :=
  if COLON ∈ encoded.takeWhile (· ≠ SLASH) then
    match encoded with
    | [] => .error u
    | c :: p =>
      if isAlpha c = false then .error u
      else
        match scanToken isSchemeCharacter [COLON] p with
        | none => .error u
        | some (name, p) => .ok ({ u with schema := c :: name }, p.tail)
  else .ok (u, encoded)

/-- The port: the digits at the end of an authority, behind a colon. -/
def setPort (u : UriT) (authority : Bytes) : UriT × Bytes :=
  match authority.reverse.span isDigit with
  | (digits, c :: host) => if c = COLON then ({ u with port := digits.reverse }, host.reverse) else (u, authority)
  | (_, []) => (u, authority)

/-- The user info and the host. -/
def setHost (u : UriT) (host : Bytes) : UriT :=
  match host.span isUserInfoCharacter with
  | (uinfo, c :: rest) => if c = 64 then { u with uinfo := uinfo, host := rest } else { u with host := host }
  | (_, []) => { u with host := host }

/-- The authority, behind two slashes. -/
def parseAuthority (u : UriT) (p : Bytes) : Except UriT (UriT × Bytes) :=
  match p with
  | a :: b :: p' =>
    if a = SLASH ∧ b = SLASH then
      match scanToken isAuthorityCharacter (bytes "/?#") p' with
      | none => .error u
      | some (authority, p) => .ok (if authority = [] then u else (u.setPort authority).1.setHost (u.setPort authority).2, p)
    else .ok (u, p)
  | p => .ok (u, p)

/-- The path. -/
def parsePath (u : UriT) (p : Bytes) : Except UriT (UriT × Bytes) :=
  match p with
  | [] => .ok (u, [])
  | c :: p' =>
    if c = SLASH ∨ isPathCharacter c then
      match scanToken isPathCharacter (bytes "?#") (c :: p') with
      | none => .error u
      | some (path, p) => .ok ({ u with path := path }, p)
    else .ok (u, c :: p')

/-- A member behind a mark. -/
def parseMarked (mark : UInt8) (ok : UInt8 → Bool) (stop : Bytes) (set : UriT → Bytes → UriT) (u : UriT) (p : Bytes) :
    Except UriT (UriT × Bytes) :=
  match p with
  | [] => .ok (u, [])
  | c :: p' =>
    if c = mark then
      match scanToken ok stop p' with
      | none => .error u
      | some (token, p) => .ok (set u token, p)
    else .ok (u, c :: p')

/-- The query. -/
def parseQuery : UriT → Bytes → Except UriT (UriT × Bytes) :=
  parseMarked 63 isQueryCharacter (bytes "#") fun u query => { u with query := query }

/-- The fragment, up to the end of the text. -/
def parseFragment : UriT → Bytes → Except UriT (UriT × Bytes) :=
  parseMarked 35 isFragmentCharacter [] fun u fragment => { u with fragment := fragment }

/-- What comes after the scheme. -/
def parseRest (u : UriT) (p : Bytes) : Except UriT (UriT × Bytes) := do
  let r ← u.parseAuthority p
  let r ← r.1.parsePath r.2
  let r ← r.1.parseQuery r.2
  r.1.parseFragment r.2

/-- `parse_from`: whether the text was let through, and the object after it. -/
def parseFrom (u : UriT) (encoded : Bytes) : Bool × UriT :=
  match u.parseSchema encoded with
  | .error u => (false, u)
  | .ok (u, p) =>
    if u.schema = [] then (false, u)
    else
      match u.parseRest p with
      | .error u => (false, u)
      | .ok (u, _) => (true, u)

/-- `get_path`. -/
def getPath (u : UriT) : Bytes := if u.path = [] then bytes "/" else u.path

end UriT

/-! ## URIs by their parts -/

/-- An authority. Without a port it does not end like one that has a port, and the same holds of the user info at its beginning. -/
structure Authority where
  uinfo : Option Bytes
  host : Bytes
  port : Option Bytes
  uinfo_chars : ∀ i ∈ uinfo, ∀ c ∈ i, isUserInfoCharacter c = true
  host_chars : ∀ c ∈ host, isAuthorityCharacter c = true
  port_chars : ∀ d ∈ port, ∀ c ∈ d, isDigit c = true
  uinfo_none : uinfo = none → ∀ i h, host = i ++ 64 :: h → ∃ c ∈ i, isUserInfoCharacter c = false
  port_none : port = none → ∀ h d, host = h ++ COLON :: d → ∃ c ∈ d, isDigit c = false

namespace Authority

/-- The user info and the host. -/
def front (a : Authority) : Bytes := (match a.uinfo with
  | some i => i ++ [64]
  | none => []) ++ a.host

/-- The text of an authority. -/
def write (a : Authority) : Bytes := a.front ++ match a.port with
  | some d => COLON :: d
  | none => []

/-- A host without port does not end like one that has a port. -/
theorem port_none_front {a : Authority} (hport : a.port = none) {h d : Bytes} (hd : ∀ c ∈ d, isDigit c = true)
    (heq : a.front = h ++ COLON :: d) : False := by
  have hhost : ∀ h', a.host = h' ++ COLON :: d → False := by
    intro h' heq'
    obtain ⟨c, hc, hcd⟩ := a.port_none hport h' d heq'
    rw [hd c hc] at hcd
    nomatch hcd
  unfold front at heq
  cases hu : a.uinfo with
  | none =>
    rw [hu] at heq
    exact hhost h heq
  | some i =>
    rw [hu] at heq
    dsimp only at heq
    rcases List.append_eq_append_iff.mp heq with ⟨x, -, hx⟩ | ⟨x, hi, hx⟩
    · exact hhost x hx
    · -- the colon would come before the `@`
      rcases List.eq_nil_or_concat x with rfl | ⟨y, c, rfl⟩
      · exact hhost [] hx.symm
      · rw [List.concat_eq_append, ← List.append_assoc] at hi
        have h64 : (64 : UInt8) = c := by simpa using (List.append_inj' hi rfl).2
        have hmem : c ∈ COLON :: d := by
          rw [hx]
          simp
        rcases List.mem_cons.mp hmem with hc | hc
        · exact absurd (h64.trans hc) (by decide)
        · exact absurd (h64 ▸ hd c hc) (by decide)

/-- The port is found. -/
theorem setPort_write (a : Authority) (u : UriT) (hu : u.port = []) : u.setPort a.write = ({ u with port := a.port.getD [] }, a.front) := by
  unfold UriT.setPort
  rw [List.span_eq_takeWhile_dropWhile]
  cases hp : a.port with
  | some d =>
    have hd : ∀ c ∈ d.reverse, isDigit c = true := fun c hc => a.port_chars d hp c (List.mem_reverse.mp hc)
    have hwrite : a.write.reverse = d.reverse ++ COLON :: a.front.reverse := by simp [write, hp]
    rw [hwrite, List.takeWhile_append_of_pos hd, List.dropWhile_append_of_pos hd, List.takeWhile_cons_of_neg (by decide),
      List.dropWhile_cons_of_neg (by decide)]
    simp
  | none =>
    have hwrite : a.write = a.front := by simp [write, hp]
    have hsplit := List.takeWhile_append_dropWhile (p := isDigit) (l := a.front.reverse)
    have hsame : u = { u with port := (none : Option Bytes).getD [] } := by
      cases u
      exact congrArg (fun p => UriT.mk _ _ _ p _ _ _) hu
    rw [hwrite, ← hsame]
    cases hrest : a.front.reverse.dropWhile isDigit with
    | nil => rfl
    | cons c h =>
      simp only
      by_cases hc : c = COLON
      · refine (port_none_front hp (h := h.reverse) (d := (a.front.reverse.takeWhile isDigit).reverse) ?_ ?_).elim
        · exact fun x hx => List.all_eq_true.mp List.all_takeWhile x (List.mem_reverse.mp hx)
        · rw [hrest, hc] at hsplit
          have hrev := congrArg List.reverse hsplit
          rw [List.reverse_reverse] at hrev
          simpa using hrev.symm
      · rw [if_neg hc]

/-- The user info and the host are found. -/
theorem setHost_front (a : Authority) (u : UriT) (hu : u.uinfo = []) :
    u.setHost a.front = { u with uinfo := a.uinfo.getD [], host := a.host } := by
  unfold UriT.setHost
  rw [List.span_eq_takeWhile_dropWhile]
  cases hi : a.uinfo with
  | some i =>
    have hic : ∀ c ∈ i, isUserInfoCharacter c = true := a.uinfo_chars i hi
    have hfront : a.front = i ++ 64 :: a.host := by simp [front, hi]
    rw [hfront, List.takeWhile_append_of_pos hic, List.dropWhile_append_of_pos hic, List.takeWhile_cons_of_neg (by decide),
      List.dropWhile_cons_of_neg (by decide)]
    simp
  | none =>
    have hfront : a.front = a.host := by simp [front, hi]
    have hsplit := List.takeWhile_append_dropWhile (p := isUserInfoCharacter) (l := a.host)
    have hsame : ({ u with host := a.host } : UriT) = { u with uinfo := (none : Option Bytes).getD [], host := a.host } := by
      cases u
      exact congrArg (fun i => UriT.mk _ i _ _ _ _ _) hu
    rw [hfront, ← hsame]
    cases hrest : a.host.dropWhile isUserInfoCharacter with
    | nil => rfl
    | cons c h =>
      simp only
      by_cases hc : c = 64
      · rw [hrest, hc] at hsplit
        obtain ⟨x, hx, hxi⟩ := a.uinfo_none hi _ h hsplit.symm
        rw [List.all_eq_true.mp List.all_takeWhile x hx] at hxi
        nomatch hxi
      · rw [if_neg hc]

/-- What user info may have, an authority may have. -/
theorem isAuthorityCharacter_userInfo {c : UInt8} (h : isUserInfoCharacter c = true) : isAuthorityCharacter c = true := by
  unfold isUserInfoCharacter at h
  unfold isAuthorityCharacter
  rcases Bool.or_eq_true_iff.mp h with h | h
  · rw [h, Bool.true_or]
  · rw [Bool.or_eq_true_iff]
    refine .inr (decide_eq_true ?_)
    rcases (by simpa [bytes] using of_decide_eq_true h : c = 37 ∨ c = 58) with rfl | rfl
    · decide
    · decide

/-- The digits of a port belong to the authority. -/
theorem isAuthorityCharacter_digit {c : UInt8} (h : isDigit c = true) : isAuthorityCharacter c = true := by
  have hun : isUnreserved c = true := decide_eq_true (.inl h)
  rw [isAuthorityCharacter, hun, Bool.true_or, Bool.true_or]

/-- The characters of an authority. -/
theorem write_chars (a : Authority) : ∀ c ∈ a.write, isAuthorityCharacter c = true := by
  have hfront : ∀ c ∈ a.front, isAuthorityCharacter c = true := by
    intro c hc
    unfold front at hc
    rcases List.mem_append.mp hc with hc | hc
    · cases hi : a.uinfo with
      | none =>
        rw [hi] at hc
        nomatch hc
      | some i =>
        rw [hi] at hc
        rcases List.mem_append.mp hc with hc | hc
        · exact isAuthorityCharacter_userInfo (a.uinfo_chars i hi c hc)
        · rw [List.mem_singleton.mp hc]
          decide
    · exact a.host_chars c hc
  intro c hc
  unfold write at hc
  rcases List.mem_append.mp hc with hc | hc
  · exact hfront c hc
  · cases hp : a.port with
    | none =>
      rw [hp] at hc
      nomatch hc
    | some d =>
      rw [hp] at hc
      rcases List.mem_cons.mp hc with rfl | hc
      · decide
      · exact isAuthorityCharacter_digit (a.port_chars d hp c hc)

/-- Every text of such characters is an authority. -/
theorem exists_write {text : Bytes} (h : ∀ c ∈ text, isAuthorityCharacter c = true) : ∃ a : Authority, a.write = text := by
  -- the port first, and then the user info of what is before it
  have hfront : ∀ (front : Bytes) (port : Option Bytes), (∀ c ∈ front, isAuthorityCharacter c = true) →
      (∀ d ∈ port, ∀ c ∈ d, isDigit c = true) → (port = none → ∀ h d, front = h ++ COLON :: d → ∃ c ∈ d, isDigit c = false) →
        ∃ a : Authority, a.front = front ∧ a.port = port := by
    intro front port hchars hport hnone
    by_cases huser : ∃ i h, front = i ++ 64 :: h ∧ ∀ c ∈ i, isUserInfoCharacter c = true
    · obtain ⟨i, h, rfl, hi⟩ := huser
      refine ⟨⟨some i, h, port, ?_, fun c hc => hchars c (by simp [hc]), hport, ?_, fun hp h' d heq => ?_⟩, ?_, rfl⟩
      · rintro _ ⟨⟩
        exact hi
      · rintro ⟨⟩
      · exact hnone hp (i ++ 64 :: h') d (by rw [heq]; simp)
      · simp [Authority.front]
    · refine ⟨⟨none, front, port, ?_, hchars, hport, fun _ i h heq => ?_, hnone⟩, rfl, rfl⟩
      · rintro _ ⟨⟩
      · by_contra hcon
        exact huser ⟨i, h, heq, fun c hc => Bool.of_not_eq_false fun hf => hcon ⟨c, hc, hf⟩⟩
  by_cases hport : ∃ h d, text = h ++ COLON :: d ∧ ∀ c ∈ d, isDigit c = true
  · obtain ⟨front, d, rfl, hd⟩ := hport
    obtain ⟨a, ha, hp⟩ := hfront front (some d) (fun c hc => h c (by simp [hc])) (by rintro _ ⟨⟩; exact hd) (by rintro ⟨⟩)
    exact ⟨a, by simp [write, ha, hp]⟩
  · obtain ⟨a, ha, hp⟩ := hfront text none h (by rintro _ ⟨⟩) fun _ h' d heq => by
      by_contra hcon
      exact hport ⟨h', d, heq, fun c hc => Bool.of_not_eq_false fun hf => hcon ⟨c, hc, hf⟩⟩
    exact ⟨a, by simp [write, ha, hp]⟩

end Authority

/-- The text of an authority, if there is one. -/
def authorityText : Option Authority → Bytes
  | some a => SLASH :: SLASH :: a.write
  | none => []

/-- The text of a member behind its mark, if it is there. -/
def markedText (mark : UInt8) : Option Bytes → Bytes
  | some token => mark :: token
  | none => []

/-- A URI by its parts. A path begins with a slash behind an authority, and not with two of them where there is none. Right behind the
colon of the scheme, a character that can begin nothing hides the rest. -/
structure UriText where
  schema : Bytes
  authority : Option Authority
  path : Bytes
  query : Option Bytes
  fragment : Option Bytes
  hidden : Bytes
  schema_first : ∃ c t, schema = c :: t ∧ isAlpha c = true ∧ ∀ x ∈ t, isSchemeCharacter x = true
  path_chars : ∀ c ∈ path, isPathCharacter c = true
  query_chars : ∀ q ∈ query, ∀ c ∈ q, isQueryCharacter c = true
  fragment_chars : ∀ f ∈ fragment, ∀ c ∈ f, isFragmentCharacter c = true
  path_first : authority ≠ none → path = [] ∨ path.head? = some SLASH
  path_relative : authority = none → path.take 2 ≠ [SLASH, SLASH]
  hidden_alone : hidden ≠ [] → authority = none ∧ path = [] ∧ query = none ∧ fragment = none
  hidden_first : ∀ c ∈ hidden.head?, isPathCharacter c = false ∧ c ≠ 63 ∧ c ≠ 35

namespace UriText

variable (w : UriText)

/-- The text of a URI. -/
def write : Bytes :=
  w.schema ++ COLON :: (authorityText w.authority ++ (w.path ++ (markedText 63 w.query ++ (markedText 35 w.fragment ++ w.hidden))))

/-- The parts as `uri_t` has them. -/
def fields : UriT where
  schema := w.schema
  uinfo := (w.authority.bind Authority.uinfo).getD []
  host := (w.authority.map Authority.host).getD []
  port := (w.authority.bind Authority.port).getD []
  path := w.path
  query := w.query.getD []
  fragment := w.fragment.getD []

end UriText

/-! ## What one step does -/

/-- A scan takes the characters up to the first stop, all of which have to be right. -/
theorem scanToken_eq_some {ok : UInt8 → Bool} {stop s a b : Bytes} : scanToken ok stop s = some (a, b) ↔
    s = a ++ b ∧ (∀ c ∈ a, ok c = true ∧ c ∉ stop) ∧ ∀ c ∈ b.head?, c ∈ stop := by
  unfold scanToken
  constructor
  · intro h
    by_cases hall : (s.takeWhile (· ∉ stop)).all ok = true
    · rw [if_pos hall] at h
      simp only [Option.some.injEq, Prod.mk.injEq] at h
      obtain ⟨rfl, rfl⟩ := h
      refine ⟨List.takeWhile_append_dropWhile.symm, fun c hc => ⟨List.all_eq_true.mp hall c hc, ?_⟩, fun c hc => ?_⟩
      · exact of_decide_eq_true (List.all_eq_true.mp List.all_takeWhile c hc)
      · have hnot := List.head?_dropWhile_not (fun c => decide (c ∉ stop)) s
        rw [hc] at hnot
        simpa using hnot
    · rw [if_neg hall] at h
      nomatch h
  · rintro ⟨rfl, ha, hb⟩
    have hin : ∀ c ∈ a, decide (c ∉ stop) = true := fun c hc => decide_eq_true (ha c hc).2
    have hout : ∀ l : Bytes, (∀ c ∈ l.head?, c ∈ stop) → l.takeWhile (· ∉ stop) = [] ∧ l.dropWhile (· ∉ stop) = l := by
      intro l hl
      cases l with
      | nil => exact ⟨rfl, rfl⟩
      | cons c l =>
        have hc : ¬decide (c ∉ stop) = true := by simpa using hl c rfl
        exact ⟨List.takeWhile_cons_of_neg hc, List.dropWhile_cons_of_neg hc⟩
    rw [List.takeWhile_append_of_pos hin, List.dropWhile_append_of_pos hin, (hout b hb).1, (hout b hb).2, List.append_nil]
    exact if_pos (List.all_eq_true.mpr fun c hc => (ha c hc).1)

namespace UriT

/-- A step and what follows it succeed if both do. -/
theorem bind_eq_ok {ε α β : Type} {x : Except ε α} {f : α → Except ε β} {b : β} :
    (x >>= f) = .ok b ↔ ∃ a, x = .ok a ∧ f a = .ok b := by
  cases x with
  | error e => exact ⟨fun h => (nomatch h), fun ⟨_, h, _⟩ => (nomatch h)⟩
  | ok a => exact ⟨fun h => ⟨a, rfl, h⟩, fun ⟨_, h, hf⟩ => Except.ok.inj h ▸ hf⟩

/-- The scheme of an absolute URI. -/
theorem parseSchema_eq_ok {t : Bytes} {u : UriT} {p : Bytes} : (parseSchema {} t = .ok (u, p) ∧ u.schema ≠ []) ↔
    ∃ c name, isAlpha c = true ∧ (∀ x ∈ name, isSchemeCharacter x = true) ∧ t = c :: name ++ COLON :: p ∧ u = { schema := c :: name } := by
  unfold parseSchema
  constructor
  · rintro ⟨h, hne⟩
    by_cases hcolon : COLON ∈ t.takeWhile (· ≠ SLASH)
    · rw [if_pos hcolon] at h
      cases t with
      | nil => nomatch h
      | cons c s =>
        simp only at h
        by_cases halpha : isAlpha c = false
        · rw [if_pos halpha] at h
          nomatch h
        · rw [if_neg halpha] at h
          cases hscan : scanToken isSchemeCharacter [COLON] s with
          | none =>
            rw [hscan] at h
            nomatch h
          | some r =>
            obtain ⟨name, rest⟩ := r
            rw [hscan] at h
            simp only [Except.ok.injEq, Prod.mk.injEq] at h
            obtain ⟨rfl, rfl⟩ := h
            obtain ⟨rfl, hname, hrest⟩ := scanToken_eq_some.mp hscan
            refine ⟨c, name, Bool.of_not_eq_false halpha, fun x hx => (hname x hx).1, ?_, rfl⟩
            cases rest with
            | nil =>
              -- there is a colon behind the first character
              rw [List.append_nil] at hcolon
              rcases List.mem_cons.mp ((List.takeWhile_prefix _).mem hcolon) with hc | hc
              · exact absurd (hc ▸ Bool.of_not_eq_false halpha) (by decide)
              · exact absurd (List.mem_singleton_self COLON) (hname COLON hc).2
            | cons d rest =>
              rw [List.mem_singleton.mp (hrest d rfl)]
              rfl
    · rw [if_neg hcolon] at h
      simp only [Except.ok.injEq, Prod.mk.injEq] at h
      exact absurd (h.1 ▸ rfl) hne
  · rintro ⟨c, name, hc, hname, rfl, rfl⟩
    have hslash : ∀ x, isAlpha x = true ∨ isSchemeCharacter x = true → x ≠ SLASH ∧ x ∉ [COLON] := by
      rintro x hx
      refine ⟨?_, ?_⟩
      · rintro rfl
        exact absurd hx (by decide)
      · rw [List.mem_singleton]
        rintro rfl
        exact absurd hx (by decide)
    have hin : ∀ x ∈ c :: name, decide (x ≠ SLASH) = true := by
      intro x hx
      rcases List.mem_cons.mp hx with rfl | hx
      · exact decide_eq_true (hslash x (.inl hc)).1
      · exact decide_eq_true (hslash x (.inr (hname x hx))).1
    have hcolon : COLON ∈ (c :: name ++ COLON :: p).takeWhile (· ≠ SLASH) := by
      rw [List.takeWhile_append_of_pos hin, List.takeWhile_cons_of_pos (by decide)]
      simp
    have hscan : scanToken isSchemeCharacter [COLON] (name ++ COLON :: p) = some (name, COLON :: p) :=
      scanToken_eq_some.mpr ⟨rfl, fun x hx => ⟨hname x hx, (hslash x (.inr (hname x hx))).2⟩, by
        rintro _ ⟨⟩
        exact List.mem_singleton_self _⟩
    refine ⟨?_, List.cons_ne_nil _ _⟩
    rw [if_pos hcolon]
    simp only [List.cons_append]
    rw [if_neg (by rw [hc]; decide), hscan]
    rfl

/-- The characters that end an authority. -/
theorem mem_authority_stop {c : UInt8} : c ∈ bytes "/?#" ↔ c = SLASH ∨ c = 63 ∨ c = 35 := by
  have hbytes : bytes "/?#" = [SLASH, 63, 35] := by decide
  simp [hbytes]

/-- The characters that end a path. -/
theorem mem_path_stop {c : UInt8} : c ∈ bytes "?#" ↔ c = 63 ∨ c = 35 := by
  have hbytes : bytes "?#" = [63, 35] := by decide
  simp [hbytes]

/-- The character that ends a query. -/
theorem mem_query_stop {c : UInt8} : c ∈ bytes "#" ↔ c = 35 := by
  have hbytes : bytes "#" = [35] := by decide
  simp [hbytes]

/-- No character of an authority ends it. -/
theorem authority_not_stop {c : UInt8} (h : isAuthorityCharacter c = true) : c ∉ bytes "/?#" := by
  rw [mem_authority_stop]
  rintro (rfl | rfl | rfl)
  · exact absurd h (by decide)
  · exact absurd h (by decide)
  · exact absurd h (by decide)

/-- The object after an authority, if there was one. -/
def withAuthority (u : UriT) : Option Authority → UriT
  | some a => { u with uinfo := a.uinfo.getD [], host := a.host, port := a.port.getD [] }
  | none => u

/-- An object that has a scheme only takes over an authority. -/
theorem set_authority (schema : Bytes) (a : Authority) :
    (if a.write = [] then { schema := schema } else
      ((UriT.setPort { schema := schema } a.write).1.setHost (UriT.setPort { schema := schema } a.write).2)) =
        withAuthority { schema := schema } (some a) := by
  have hset : ((UriT.setPort { schema := schema } a.write).1.setHost (UriT.setPort { schema := schema } a.write).2) =
      withAuthority { schema := schema } (some a) := by
    rw [a.setPort_write _ rfl, a.setHost_front _ rfl]
    rfl
  by_cases hnil : a.write = []
  · rw [if_pos hnil, ← hset, hnil]
    rfl
  · rw [if_neg hnil, hset]

/-- What `parse_authority` takes: after `//`, the characters up to `/`, `?` or `#`. -/
theorem parseAuthority_eq_ok {schema p p' : Bytes} {u : UriT} : parseAuthority { schema := schema } p = .ok (u, p') ↔
    ∃ a : Option Authority, p = authorityText a ++ p' ∧ (a ≠ none → ∀ c ∈ p'.head?, c ∈ bytes "/?#") ∧
      (a = none → p'.take 2 ≠ [SLASH, SLASH]) ∧ u = withAuthority { schema := schema } a := by
  constructor
  · intro h
    have hrelative : ∀ p, p.take 2 ≠ [SLASH, SLASH] → (Except.ok ({ schema := schema }, p) : Except UriT _) = .ok (u, p') →
        ∃ a : Option Authority, p = authorityText a ++ p' ∧ (a ≠ none → ∀ c ∈ p'.head?, c ∈ bytes "/?#") ∧
          (a = none → p'.take 2 ≠ [SLASH, SLASH]) ∧ u = withAuthority { schema := schema } a := by
      intro p hp heq
      simp only [Except.ok.injEq, Prod.mk.injEq] at heq
      obtain ⟨rfl, rfl⟩ := heq
      exact ⟨none, rfl, fun hne => absurd rfl hne, fun _ => hp, rfl⟩
    match p, h with
    | [], h => exact hrelative [] (by simp) h
    | [c], h => exact hrelative [c] (by simp) h
    | a :: b :: q, h =>
      unfold parseAuthority at h
      simp only at h
      by_cases hab : a = SLASH ∧ b = SLASH
      · rw [if_pos hab] at h
        cases hscan : scanToken isAuthorityCharacter (bytes "/?#") q with
        | none =>
          rw [hscan] at h
          nomatch h
        | some r =>
          obtain ⟨text, rest⟩ := r
          obtain ⟨rfl, htext, hrest⟩ := scanToken_eq_some.mp hscan
          obtain ⟨au, rfl⟩ := Authority.exists_write fun c hc => (htext c hc).1
          rw [hscan] at h
          simp only [set_authority, Except.ok.injEq, Prod.mk.injEq] at h
          obtain ⟨rfl, rfl⟩ := h
          refine ⟨some au, ?_, fun _ => hrest, by rintro ⟨⟩, rfl⟩
          rw [hab.1, hab.2]
          rfl
      · rw [if_neg hab] at h
        refine hrelative _ ?_ h
        simp only [List.take_succ_cons, List.take_zero, ne_eq, List.cons.injEq, and_true]
        exact hab
  · rintro ⟨a, rfl, hstop, hnone, rfl⟩
    cases a with
    | none =>
      have htake := hnone rfl
      simp only [authorityText, List.nil_append]
      match p', htake with
      | [], _ => rfl
      | [c], _ => rfl
      | c :: d :: q, htake =>
        unfold parseAuthority
        simp only
        rw [if_neg]
        · rfl
        · rintro ⟨rfl, rfl⟩
          exact htake rfl
    | some au =>
      have hscan : scanToken isAuthorityCharacter (bytes "/?#") (au.write ++ p') = some (au.write, p') :=
        scanToken_eq_some.mpr ⟨rfl, fun c hc => ⟨au.write_chars c hc, authority_not_stop (au.write_chars c hc)⟩, hstop (by simp)⟩
      unfold parseAuthority
      simp only [authorityText, List.cons_append]
      rw [if_pos (by simp), hscan]
      simp only [set_authority]

/-- No character of a path ends it. -/
theorem path_not_stop {c : UInt8} (h : isPathCharacter c = true) : c ∉ bytes "?#" := by
  rw [mem_path_stop]
  rintro (rfl | rfl)
  · exact absurd h (by decide)
  · exact absurd h (by decide)

/-- No character of a query ends it. -/
theorem query_not_stop {c : UInt8} (h : isQueryCharacter c = true) : c ∉ bytes "#" := by
  rw [mem_query_stop]
  rintro rfl
  exact absurd h (by decide)

/-- What `parse_path` takes: one character at least, up to `?` or `#`. -/
theorem parsePath_eq_ok {u u' : UriT} {p p' : Bytes} : u.parsePath p = .ok (u', p') ↔
    (∃ path, p = path ++ p' ∧ path ≠ [] ∧ (∀ c ∈ path, isPathCharacter c = true) ∧ (∀ c ∈ p'.head?, c ∈ bytes "?#") ∧
      u' = { u with path := path }) ∨ (p' = p ∧ (∀ c ∈ p.head?, isPathCharacter c = false) ∧ u' = u) := by
  have hslash : isPathCharacter SLASH = true := by decide
  cases p with
  | nil =>
    constructor
    · intro h
      simp only [parsePath, Except.ok.injEq, Prod.mk.injEq] at h
      exact .inr ⟨h.2.symm, by simp, h.1.symm⟩
    · rintro (⟨path, heq, hne, -⟩ | ⟨rfl, -, rfl⟩)
      · exact absurd (List.append_eq_nil_iff.mp heq.symm).1 hne
      · rfl
  | cons c q =>
    unfold parsePath
    simp only
    by_cases hc : c = SLASH ∨ isPathCharacter c = true
    · have hc' : isPathCharacter c = true := by
        rcases hc with rfl | hc
        · exact hslash
        · exact hc
      rw [if_pos hc]
      constructor
      · intro h
        cases hscan : scanToken isPathCharacter (bytes "?#") (c :: q) with
        | none =>
          rw [hscan] at h
          nomatch h
        | some r =>
          obtain ⟨path, rest⟩ := r
          rw [hscan] at h
          simp only [Except.ok.injEq, Prod.mk.injEq] at h
          obtain ⟨rfl, rfl⟩ := h
          obtain ⟨heq, hpath, hrest⟩ := scanToken_eq_some.mp hscan
          refine .inl ⟨path, heq, ?_, fun x hx => (hpath x hx).1, hrest, rfl⟩
          rintro rfl
          exact path_not_stop hc' (hrest c (by rw [← List.nil_append rest, ← heq]; rfl))
      · rintro (⟨path, heq, -, hpath, hstop, rfl⟩ | ⟨-, hnot, -⟩)
        · rw [scanToken_eq_some.mpr ⟨heq, fun x hx => ⟨hpath x hx, path_not_stop (hpath x hx)⟩, hstop⟩]
        · rw [hnot c rfl] at hc'
          nomatch hc'
    · obtain ⟨hcs, hcp⟩ := not_or.mp hc
      rw [if_neg hc]
      constructor
      · intro h
        simp only [Except.ok.injEq, Prod.mk.injEq] at h
        refine .inr ⟨h.2.symm, ?_, h.1.symm⟩
        rintro _ ⟨⟩
        exact Bool.of_not_eq_true hcp
      · rintro (⟨path, heq, hne, hpath, -⟩ | ⟨rfl, -, rfl⟩)
        · obtain ⟨d, t, rfl⟩ := List.exists_cons_of_ne_nil hne
          exact absurd ((List.cons.inj heq).1 ▸ hpath d (List.mem_cons_self ..)) hcp
        · rfl

/-- A member behind its mark. -/
theorem parseMarked_eq_ok {mark : UInt8} {ok : UInt8 → Bool} {stop : Bytes} (hok : ∀ c, ok c = true → c ∉ stop)
    {set : UriT → Bytes → UriT} {u u' : UriT} (hset : set u [] = u) {p p' : Bytes} : parseMarked mark ok stop set u p = .ok (u', p') ↔
      ∃ m : Option Bytes, p = markedText mark m ++ p' ∧ (∀ t ∈ m, ∀ c ∈ t, ok c = true) ∧ (m ≠ none → ∀ c ∈ p'.head?, c ∈ stop) ∧
        (m = none → ∀ c ∈ p'.head?, c ≠ mark) ∧ u' = set u (m.getD []) := by
  cases p with
  | nil =>
    constructor
    · intro h
      simp only [parseMarked, Except.ok.injEq, Prod.mk.injEq] at h
      obtain ⟨rfl, rfl⟩ := h
      exact ⟨none, rfl, by simp, by simp, by simp, hset.symm⟩
    · rintro ⟨m, heq, -, -, -, rfl⟩
      cases m with
      | none =>
        obtain rfl : p' = [] := heq.symm
        simp only [parseMarked, Option.getD_none, hset]
      | some t => exact absurd heq (by simp [markedText])
  | cons c q =>
    unfold parseMarked
    simp only
    by_cases hc : c = mark
    · subst hc
      rw [if_pos rfl]
      constructor
      · intro h
        cases hscan : scanToken ok stop q with
        | none =>
          rw [hscan] at h
          nomatch h
        | some r =>
          obtain ⟨token, rest⟩ := r
          rw [hscan] at h
          simp only [Except.ok.injEq, Prod.mk.injEq] at h
          obtain ⟨rfl, rfl⟩ := h
          obtain ⟨rfl, htoken, hrest⟩ := scanToken_eq_some.mp hscan
          refine ⟨some token, rfl, ?_, fun _ => hrest, by rintro ⟨⟩, rfl⟩
          rintro _ ⟨⟩
          exact fun x hx => (htoken x hx).1
      · rintro ⟨m, heq, hm, hstop, hnone, rfl⟩
        cases m with
        | none =>
          obtain rfl : p' = c :: q := heq.symm
          exact absurd rfl (hnone rfl c rfl)
        | some t =>
          obtain rfl : q = t ++ p' := (List.cons.inj heq).2
          rw [scanToken_eq_some.mpr ⟨rfl, fun x hx => ⟨hm t rfl x hx, hok x (hm t rfl x hx)⟩, hstop (by simp)⟩]
          rfl
    · rw [if_neg hc]
      constructor
      · intro h
        simp only [Except.ok.injEq, Prod.mk.injEq] at h
        obtain ⟨rfl, rfl⟩ := h
        refine ⟨none, rfl, by simp, by simp, fun _ => ?_, hset.symm⟩
        rintro _ ⟨⟩
        exact hc
      · rintro ⟨m, heq, -, -, -, rfl⟩
        cases m with
        | none =>
          obtain rfl : p' = c :: q := heq.symm
          rw [Option.getD_none, hset]
        | some t => exact absurd (List.cons.inj heq).1 hc

/-- The parser accepts a text that has a schema, and behind it the rest of a URI. -/
theorem parseFrom_eq_true {t : Bytes} {u : UriT} : parseFrom {} t = (true, u) ↔
    ∃ u₁ p p', (parseSchema {} t = .ok (u₁, p) ∧ u₁.schema ≠ []) ∧ u₁.parseRest p = .ok (u, p') := by
  unfold parseFrom
  constructor
  · intro h
    cases hs : parseSchema {} t with
    | error e =>
      rw [hs] at h
      exact Bool.noConfusion (congrArg Prod.fst h)
    | ok r =>
      obtain ⟨u₁, p⟩ := r
      rw [hs] at h
      simp only at h
      by_cases hnil : u₁.schema = []
      · rw [if_pos hnil] at h
        exact Bool.noConfusion (congrArg Prod.fst h)
      · rw [if_neg hnil] at h
        cases hr : u₁.parseRest p with
        | error e =>
          rw [hr] at h
          exact Bool.noConfusion (congrArg Prod.fst h)
        | ok r =>
          obtain ⟨u₂, p'⟩ := r
          rw [hr] at h
          obtain rfl : u₂ = u := congrArg Prod.snd h
          exact ⟨u₁, p, p', ⟨rfl, hnil⟩, hr⟩
  · rintro ⟨u₁, p, p', ⟨hs, hne⟩, hr⟩
    rw [hs]
    simp only
    rw [if_neg hne, hr]

/-- The parts behind the scheme. -/
theorem parseRest_eq_ok {schema p p' : Bytes} {u : UriT} : parseRest { schema := schema } p = .ok (u, p') ↔
    ∃ (a : Option Authority) (u₂ : UriT) (p₁ p₂ p₃ : Bytes) (q f : Option Bytes), p = authorityText a ++ p₁ ∧
      ((a ≠ none → ∀ c ∈ p₁.head?, c ∈ bytes "/?#") ∧ (a = none → p₁.take 2 ≠ [SLASH, SLASH])) ∧
      (withAuthority { schema := schema } a).parsePath p₁ = .ok (u₂, p₂) ∧
      (p₂ = markedText 63 q ++ p₃ ∧ (∀ t ∈ q, ∀ c ∈ t, isQueryCharacter c = true) ∧ (q ≠ none → ∀ c ∈ p₃.head?, c ∈ bytes "#") ∧
        (q = none → ∀ c ∈ p₃.head?, c ≠ 63)) ∧
      (p₃ = markedText 35 f ++ p' ∧ (∀ t ∈ f, ∀ c ∈ t, isFragmentCharacter c = true) ∧ (f ≠ none → ∀ c ∈ p'.head?, c ∈ ([] : Bytes)) ∧
        (f = none → ∀ c ∈ p'.head?, c ≠ 35)) ∧ u = { u₂ with query := q.getD [], fragment := f.getD [] } := by
  have hpath : ∀ {a : Option Authority} {u₂ : UriT} {p₁ p₂ : Bytes},
      (withAuthority { schema := schema } a).parsePath p₁ = .ok (u₂, p₂) → u₂.query = [] ∧ u₂.fragment = [] := by
    intro a u₂ p₁ p₂ h
    rcases parsePath_eq_ok.mp h with ⟨path, -, -, -, -, rfl⟩ | ⟨-, -, rfl⟩ <;> cases a <;> exact ⟨rfl, rfl⟩
  have hq : ∀ {u₂ : UriT}, u₂.query = [] → { u₂ with query := [] } = u₂ := by
    rintro ⟨⟩ rfl
    rfl
  have hf : ∀ {u₂ : UriT}, u₂.fragment = [] → { u₂ with fragment := [] } = u₂ := by
    rintro ⟨⟩ rfl
    rfl
  unfold parseRest
  constructor
  · intro h
    obtain ⟨⟨u₁, p₁⟩, h1, h⟩ := bind_eq_ok.mp h
    obtain ⟨⟨u₂, p₂⟩, h2, h⟩ := bind_eq_ok.mp h
    obtain ⟨⟨u₃, p₃⟩, h3, h4⟩ := bind_eq_ok.mp h
    obtain ⟨a, rfl, hstop, hnone, rfl⟩ := parseAuthority_eq_ok.mp h1
    obtain ⟨hquery, hfragment⟩ := hpath h2
    obtain ⟨q, rfl, hq1, hq2, hq3, rfl⟩ := (parseMarked_eq_ok (fun _ => query_not_stop) (hq hquery)).mp h3
    obtain ⟨f, rfl, hf1, hf2, hf3, rfl⟩ := (parseMarked_eq_ok (fun _ _ => List.not_mem_nil) (by exact hf hfragment)).mp h4
    exact ⟨a, u₂, p₁, _, _, q, f, rfl, ⟨hstop, hnone⟩, h2, ⟨rfl, hq1, hq2, hq3⟩, ⟨rfl, hf1, hf2, hf3⟩, rfl⟩
  · rintro ⟨a, u₂, p₁, p₂, p₃, q, f, rfl, ⟨hstop, hnone⟩, h2, ⟨rfl, hq1, hq2, hq3⟩, ⟨rfl, hf1, hf2, hf3⟩, rfl⟩
    obtain ⟨hquery, hfragment⟩ := hpath h2
    refine bind_eq_ok.mpr ⟨_, parseAuthority_eq_ok.mpr ⟨a, rfl, hstop, hnone, rfl⟩, bind_eq_ok.mpr ⟨_, h2,
      bind_eq_ok.mpr ⟨({ u₂ with query := q.getD [] }, markedText 35 f ++ p'), ?_, ?_⟩⟩⟩
    · exact (parseMarked_eq_ok (fun _ => query_not_stop) (hq hquery)).mpr ⟨q, rfl, hq1, hq2, hq3, rfl⟩
    · exact (parseMarked_eq_ok (fun _ _ => List.not_mem_nil) (by exact hf hfragment)).mpr ⟨f, rfl, hf1, hf2, hf3, rfl⟩

end UriT

/-- A query or a fragment begins with its mark; without it the text that follows comes next. -/
theorem mem_head?_marked {mark c : UInt8} {m : Option Bytes} {p : Bytes} (h : c ∈ (markedText mark m ++ p).head?) :
    c = mark ∨ c ∈ p.head? := by
  cases m with
  | none => exact .inr h
  | some t => exact .inl (Option.some.inj h).symm

namespace UriText

variable (w : UriText)

/-- What is hidden stands alone behind the scheme. -/
theorem hidden_cases {c : UInt8} (h : c ∈ w.hidden.head?) : (w.authority = none ∧ w.path = [] ∧ w.query = none ∧ w.fragment = none) ∧
    isPathCharacter c = false ∧ c ≠ 63 ∧ c ≠ 35 := by
  refine ⟨w.hidden_alone ?_, w.hidden_first c h⟩
  intro hnil
  rw [hnil] at h
  nomatch h

/-- The text behind the path. -/
def afterPath : Bytes := markedText 63 w.query ++ (markedText 35 w.fragment ++ w.hidden)

/-- A query, a fragment, or the hidden rest comes after the path. -/
theorem afterPath_head {c : UInt8} (h : c ∈ w.afterPath.head?) : c = 63 ∨ c = 35 ∨ c ∈ w.hidden.head? :=
  (mem_head?_marked h).imp_right mem_head?_marked

/-- What comes after the path is no character of it. -/
theorem isPathCharacter_afterPath {c : UInt8} (h : c ∈ w.afterPath.head?) : isPathCharacter c = false := by
  rcases w.afterPath_head h with rfl | rfl | h
  · decide
  · decide
  · exact (w.hidden_cases h).2.1

/-- Behind an authority there is one of the characters that end it. -/
theorem path_head (ha : w.authority ≠ none) {c : UInt8} (h : c ∈ (w.path ++ w.afterPath).head?) : c ∈ bytes "/?#" := by
  rw [UriT.mem_authority_stop]
  cases hpath : w.path with
  | nil =>
    rw [hpath, List.nil_append] at h
    rcases w.afterPath_head h with h63 | h35 | h
    · exact .inr (.inl h63)
    · exact .inr (.inr h35)
    · exact absurd (w.hidden_cases h).1.1 ha
  | cons d t =>
    rcases w.path_first ha with hnil | hslash
    · rw [hnil] at hpath
      nomatch hpath
    · rw [hpath] at h hslash
      exact .inl ((Option.some.inj h).symm.trans (Option.some.inj hslash))

/-- Without an authority there are no two slashes. -/
theorem path_relative' (ha : w.authority = none) : (w.path ++ w.afterPath).take 2 ≠ [SLASH, SLASH] := by
  have hafter : w.afterPath.head? ≠ some SLASH := by
    intro h
    exact absurd (w.isPathCharacter_afterPath h) (by decide)
  have hpath := w.path_relative ha
  intro htake
  match hp : w.path with
  | [] =>
    rw [hp, List.nil_append] at htake
    cases hl : w.afterPath with
    | nil =>
      rw [hl] at htake
      nomatch htake
    | cons c t =>
      rw [hl] at htake hafter
      rw [List.take_succ_cons] at htake
      exact hafter (congrArg some (List.cons.inj htake).1)
  | [c] =>
    rw [hp] at htake
    cases hl : w.afterPath with
    | nil =>
      rw [hl] at htake
      nomatch htake
    | cons d t =>
      rw [hl] at htake hafter
      simp only [List.cons_append, List.nil_append, List.take_succ_cons, List.take_zero, List.cons.injEq, and_true] at htake
      exact hafter (congrArg some htake.2)
  | c :: d :: t =>
    rw [hp] at htake hpath
    exact hpath htake

/-- The parser finds the parts of a text. -/
theorem parseFrom_write : UriT.parseFrom {} w.write = (true, w.fields) := by
  obtain ⟨c, name, hschema, hc, hname⟩ := w.schema_first
  have hpath : (UriT.withAuthority { schema := c :: name } w.authority).parsePath (w.path ++ w.afterPath) =
      .ok ({ UriT.withAuthority { schema := c :: name } w.authority with path := w.path }, w.afterPath) := by
    refine UriT.parsePath_eq_ok.mpr ?_
    by_cases hnil : w.path = []
    · refine .inr ⟨by rw [hnil, List.nil_append], fun x hx => w.isPathCharacter_afterPath ?_, ?_⟩
      · rwa [hnil] at hx
      · rw [hnil]
        cases w.authority <;> rfl
    · refine .inl ⟨w.path, rfl, hnil, w.path_chars, fun x hx => ?_, rfl⟩
      rw [UriT.mem_path_stop]
      rcases w.afterPath_head hx with h63 | h35 | hx
      · exact .inl h63
      · exact .inr h35
      · exact absurd (w.hidden_cases hx).1.2.1 hnil
  refine UriT.parseFrom_eq_true.mpr ⟨_, _, w.hidden, UriT.parseSchema_eq_ok.mpr ⟨c, name, hc, hname, by rw [← hschema]; rfl, rfl⟩, ?_⟩
  refine UriT.parseRest_eq_ok.mpr ⟨w.authority, _, _, _, markedText 35 w.fragment ++ w.hidden, w.query, w.fragment, rfl,
    ⟨fun ha x hx => w.path_head ha hx, w.path_relative'⟩, hpath, ⟨rfl, w.query_chars, ?_, ?_⟩, ⟨rfl, w.fragment_chars, ?_, ?_⟩, ?_⟩
  · intro hq x hx
    rcases mem_head?_marked hx with rfl | hx
    · decide
    · exact absurd (w.hidden_cases hx).1.2.2.1 hq
  · intro _ x hx
    rcases mem_head?_marked hx with rfl | hx
    · decide
    · exact (w.hidden_cases hx).2.2.1
  · intro hf x hx
    exact absurd (w.hidden_cases hx).1.2.2.2 hf
  · intro _ x hx
    exact (w.hidden_cases hx).2.2.2
  · rw [fields, hschema]
    cases w.authority <;> rfl

end UriText

/-- The path of a URI that was let through, as it stands in the text. -/
theorem exists_path {u u₂ : UriT} (hu : u.path = []) {p₁ p₂ : Bytes} (h : u.parsePath p₁ = .ok (u₂, p₂)) :
    ∃ path, p₁ = path ++ p₂ ∧ (∀ c ∈ path, isPathCharacter c = true) ∧ (path ≠ [] → ∀ c ∈ p₂.head?, c ∈ bytes "?#") ∧
      (path = [] → ∀ c ∈ p₂.head?, isPathCharacter c = false) ∧ u₂ = { u with path := path } := by
  rcases UriT.parsePath_eq_ok.mp h with ⟨path, heq, hne, hchars, hstop, rfl⟩ | ⟨rfl, hnot, rfl⟩
  · exact ⟨path, heq, hchars, fun _ => hstop, fun hnil => absurd hnil hne, rfl⟩
  · refine ⟨[], rfl, by simp, fun hne => absurd rfl hne, fun _ => hnot, ?_⟩
    cases u₂
    exact congrArg (fun p => UriT.mk _ _ _ _ p _ _) hu

/-- A text that `parse_from` lets through is a URI with the parts that it finds. -/
theorem exists_uriText {t : Bytes} {u : UriT} (h : UriT.parseFrom {} t = (true, u)) : ∃ w : UriText, w.write = t ∧ w.fields = u := by
  obtain ⟨u₁, p, hidden, hschema, hrest⟩ := UriT.parseFrom_eq_true.mp h
  obtain ⟨c, name, hc, hname, rfl, rfl⟩ := UriT.parseSchema_eq_ok.mp hschema
  obtain ⟨a, u₂, p₁, p₂, p₃, q, f, rfl, ⟨hstop, hnone⟩, hpath, ⟨rfl, hq1, hq2, hq3⟩, ⟨rfl, hf1, hf2, hf3⟩, rfl⟩ :=
    UriT.parseRest_eq_ok.mp hrest
  obtain ⟨path, rfl, hchars, hp1, hp2, rfl⟩ := exists_path (by cases a <;> rfl) hpath
  -- a character that nothing has taken stands right behind the scheme
  have hhidden : ∀ x ∈ hidden.head?, (a = none ∧ path = [] ∧ q = none ∧ f = none) ∧ isPathCharacter x = false ∧ x ≠ 63 ∧ x ≠ 35 := by
    intro x hx
    have hf : f = none := by
      by_contra hne
      exact absurd (hf2 hne x hx) List.not_mem_nil
    have h35 := hf3 hf x hx
    rw [hf] at hq2 hq3 hp1 hp2 hstop
    have hq : q = none := by
      by_contra hne
      exact h35 (UriT.mem_query_stop.mp (hq2 hne x hx))
    have h63 := hq3 hq x hx
    rw [hq] at hp1 hp2 hstop
    have hnil : path = [] := by
      by_contra hne
      rcases UriT.mem_path_stop.mp (hp1 hne x hx) with hx' | hx'
      · exact h63 hx'
      · exact h35 hx'
    have hx' := hp2 hnil x hx
    rw [hnil] at hstop
    refine ⟨⟨?_, hnil, hq, hf⟩, hx', h63, h35⟩
    by_contra hne
    rcases UriT.mem_authority_stop.mp (hstop hne x hx) with rfl | hx'' | hx''
    · exact absurd hx' (by decide)
    · exact h63 hx''
    · exact h35 hx''
  refine ⟨⟨c :: name, a, path, q, f, hidden, ⟨c, name, rfl, hc, hname⟩, hchars, hq1, hf1, fun ha => ?_, fun ha htake => ?_, fun hne => ?_,
    fun x hx => (hhidden x hx).2⟩, rfl, ?_⟩
  · cases path with
    | nil => exact .inl rfl
    | cons d t =>
      have hd := hchars d (List.mem_cons_self ..)
      rcases UriT.mem_authority_stop.mp (hstop ha d rfl) with rfl | rfl | rfl
      · exact .inr rfl
      · exact absurd hd (by decide)
      · exact absurd hd (by decide)
  · refine hnone ha ?_
    rw [List.take_append_of_le_length, htake]
    have hlen := congrArg List.length htake
    simp only [List.length_take, List.length_cons, List.length_nil] at hlen
    omega
  · obtain ⟨x, t, rfl⟩ := List.exists_cons_of_ne_nil hne
    exact (hhidden x rfl).1
  · cases a <;> rfl

/-- **The texts that `parse_from` lets through** are the URIs, and it finds their parts. -/
theorem parseFrom_iff (t : Bytes) (u : UriT) : UriT.parseFrom {} t = (true, u) ↔ ∃ w : UriText, w.write = t ∧ w.fields = u := by
  refine ⟨exists_uriText, ?_⟩
  rintro ⟨w, rfl, rfl⟩
  exact w.parseFrom_write

/-! ## The second attempt of `get_uri` -/

/-- `sprintf("%X", c)`: a `char` from 128 on is negative, and is printed as an `int`. -/
def charHex (c : UInt8) : Bytes :=
  let digits (n : UInt8) : Bytes := if n < 16 then [hexChars n] else [hexChars (n >>> 4), hexChars (n &&& 15)]
  if c < 128 then digits c else bytes "FFFFFF" ++ digits c

/-- What `url_encode` of `uri.hpp` writes for a character. -/
def encodeChar (c : UInt8) : Bytes :=
  if isUnreserved c then [c] else (if c < 16 ∨ 128 ≤ c then bytes "%0" else bytes "%") ++ charHex c

/-- `url_encode` of `uri.hpp`, of a text without a NUL: the source stops at the first. -/
def UriT.urlEncode (str : Bytes) : Bytes := str.flatMap encodeChar

/-- What `get_uri` comes to. After the second attempt the path is a view of a string that is gone when `get_uri` returns. -/
inductive UriResult where
  | invalid
  | parsed (u : UriT)
  | encoded (u : UriT)
  /-- `assert(false)`, which ends the program. -/
  | aborted
  deriving DecidableEq, Repr

/-- The scheme that `get_uri` asserts not to see. -/
def httpsSchema : Bytes := bytes "https"

/-- `get_uri`, of a text without a NUL. -/
def getUri (uri : Bytes) : UriResult :=
  match UriT.parseFrom {} uri with
  | (true, u) => if u.schema = httpsSchema then .aborted else .parsed u
  | (false, u) =>
    if u.schema = [] then .invalid
    else
      match u.parseFrom (UriT.urlEncode uri) with
      | (true, u) => if u.schema = httpsSchema then .aborted else .encoded u
      | (false, _) => .invalid

/-- The digits that `url_encode` writes are unreserved. -/
theorem isUnreserved_hexChars {n : UInt8} (h : n.toNat < 16) : isUnreserved (hexChars n) = true := by
  have hlt : n.toNat < (bytes "0123456789ABCDEF").length := h
  have hall : (bytes "0123456789ABCDEF").all isUnreserved = true := by decide
  rw [hexChars, List.getElem?_eq_getElem hlt, Option.getD_some]
  exact List.all_eq_true.mp hall _ (List.getElem_mem hlt)

/-- A byte in hexadecimal, a negative one with the six letters of its sign. -/
theorem isUnreserved_charHex (c : UInt8) : ∀ x ∈ charHex c, isUnreserved x = true := by
  have hhigh : (c >>> 4).toNat < 16 := by
    have hc : c.toNat < 256 := c.toNat_lt
    rw [UInt8.toNat_shiftRight, Nat.shiftRight_eq_div_pow]
    exact Nat.div_lt_of_lt_mul hc
  have hlow : (c &&& 15).toNat < 16 := by
    rw [UInt8.toNat_and]
    exact Nat.lt_succ_of_le Nat.and_le_right
  have hdigits : ∀ x ∈ (if c < 16 then [hexChars c] else [hexChars (c >>> 4), hexChars (c &&& 15)]), isUnreserved x = true := by
    intro x hx
    by_cases hc : c < 16
    · rw [if_pos hc, List.mem_singleton] at hx
      exact hx ▸ isUnreserved_hexChars (UInt8.lt_iff_toNat_lt.mp hc)
    · rw [if_neg hc, List.mem_cons, List.mem_singleton] at hx
      rcases hx with rfl | rfl
      · exact isUnreserved_hexChars hhigh
      · exact isUnreserved_hexChars hlow
  intro x hx
  unfold charHex at hx
  simp only at hx
  by_cases hc : c < 128
  · rw [if_pos hc] at hx
    exact hdigits x hx
  · rw [if_neg hc] at hx
    rcases List.mem_append.mp hx with hx | hx
    · have hall : (bytes "FFFFFF").all isUnreserved = true := by decide
      exact List.all_eq_true.mp hall x hx
    · exact hdigits x hx

/-- An unreserved character may stand in a path, and is neither a colon nor a slash. -/
theorem isPathCharacter_of_isUnreserved {x : UInt8} (hx : isUnreserved x = true) : isPathCharacter x = true ∧ x ≠ COLON ∧ x ≠ SLASH := by
  refine ⟨by rw [isPathCharacter, hx, Bool.true_or, Bool.true_or], ?_, ?_⟩
  · rintro rfl
    exact absurd hx (by decide)
  · rintro rfl
    exact absurd hx (by decide)

/-- What is written is a path. -/
theorem isPathCharacter_encodeChar (c : UInt8) : ∀ x ∈ encodeChar c, isPathCharacter x = true ∧ x ≠ COLON ∧ x ≠ SLASH := by
  have hpercent : isPathCharacter 37 = true ∧ (37 : UInt8) ≠ COLON ∧ (37 : UInt8) ≠ SLASH := by decide
  intro x hx
  unfold encodeChar at hx
  by_cases hc : isUnreserved c = true
  · rw [if_pos hc, List.mem_singleton] at hx
    exact hx ▸ isPathCharacter_of_isUnreserved hc
  · rw [if_neg hc] at hx
    rcases List.mem_append.mp hx with hx | hx
    · have hmem : x = 37 ∨ x = 48 := by
        by_cases hlead : c < 16 ∨ 128 ≤ c
        · rw [if_pos hlead] at hx
          simpa [bytes] using hx
        · rw [if_neg hlead] at hx
          exact .inl (by simpa [bytes] using hx)
      rcases hmem with rfl | rfl
      · exact hpercent
      · exact isPathCharacter_of_isUnreserved (by decide)
    · exact isPathCharacter_of_isUnreserved (isUnreserved_charHex c x hx)

/-- The second attempt finds one long path, and leaves the other members as they are. -/
theorem parseFrom_urlEncode {u : UriT} (hu : u.schema ≠ []) {uri : Bytes} (hne : uri ≠ []) :
    u.parseFrom (UriT.urlEncode uri) = (true, { u with path := UriT.urlEncode uri }) := by
  have hchars : ∀ x ∈ UriT.urlEncode uri, isPathCharacter x = true ∧ x ≠ COLON ∧ x ≠ SLASH := by
    intro x hx
    obtain ⟨c, -, hxc⟩ := List.mem_flatMap.mp hx
    exact isPathCharacter_encodeChar c x hxc
  have hsome : ∃ c t, UriT.urlEncode uri = c :: t := by
    obtain ⟨c, t, rfl⟩ := List.exists_cons_of_ne_nil hne
    have hc : encodeChar c ≠ [] := by
      unfold encodeChar
      by_cases hc : isUnreserved c = true
      · rw [if_pos hc]
        exact List.cons_ne_nil _ _
      · rw [if_neg hc]
        refine List.append_ne_nil_of_left_ne_nil ?_ _
        split <;> decide
    exact List.exists_cons_of_ne_nil (by rw [UriT.urlEncode, List.flatMap_cons]; exact List.append_ne_nil_of_left_ne_nil hc _)
  obtain ⟨c, t, htext⟩ := hsome
  rw [htext] at hchars ⊢
  obtain ⟨hc, -, hslash⟩ := hchars c (List.mem_cons_self ..)
  have hrelative : COLON ∉ (c :: t).takeWhile (· ≠ SLASH) := fun hmem => (hchars _ ((List.takeWhile_prefix _).mem hmem)).2.1 rfl
  have hauthority : u.parseAuthority (c :: t) = .ok (u, c :: t) := by
    cases t with
    | nil => rfl
    | cons d t =>
      unfold UriT.parseAuthority
      simp only
      rw [if_neg fun h => hslash h.1]
  have hpath : u.parsePath (c :: t) = .ok ({ u with path := c :: t }, []) :=
    UriT.parsePath_eq_ok.mpr (.inl ⟨c :: t, (List.append_nil _).symm, List.cons_ne_nil _ _, fun x hx => (hchars x hx).1, by simp, rfl⟩)
  have hrest : u.parseRest (c :: t) = .ok ({ u with path := c :: t }, []) := by
    refine UriT.bind_eq_ok.mpr ⟨_, hauthority, UriT.bind_eq_ok.mpr ⟨_, hpath, UriT.bind_eq_ok.mpr ⟨_, rfl, rfl⟩⟩⟩
  rw [UriT.parseFrom, UriT.parseSchema, if_neg hrelative]
  simp only
  rw [if_neg hu, hrest]

/-- A URI that was parsed has a schema. -/
theorem schema_of_parsed {uri : Bytes} {u : UriT} (h : UriT.parseFrom {} uri = (true, u)) : u.schema ≠ [] := by
  obtain ⟨w, -, rfl⟩ := exists_uriText h
  obtain ⟨c, t, hschema, -⟩ := w.schema_first
  rw [UriText.fields, hschema]
  exact List.cons_ne_nil _ _

/-- An escape of two digits. -/
theorem charHex_eq : ∀ c : UInt8, c < 128 → (if c < 16 ∨ 128 ≤ c then bytes "%0" else bytes "%") ++ charHex c =
    [37, hexChars (c >>> 4), hexChars (c &&& 15)] :=
  forall_byte (by decide +kernel)

/-- What a character that is not ASCII is written as: the hexadecimal digits of a negative number. -/
theorem encodeChar_high : ∀ c : UInt8, 128 ≤ c →
    encodeChar c = [37, 48, 70, 70, 70, 70, 70, 70, hexChars (c >>> 4), hexChars (c &&& 15)] ∧
      (hexChars (c >>> 4) ≠ 37 ∧ hexChars (c >>> 4) ≠ 43) ∧ hexChars (c &&& 15) ≠ 37 ∧ hexChars (c &&& 15) ≠ 43 :=
  forall_byte (by decide +kernel)

/-- It stands for eight characters. -/
theorem urlDecode_encodeChar_high {c : UInt8} (h : 128 ≤ c) (rest : Bytes) :
    urlDecode (encodeChar c ++ rest) = [15, 70, 70, 70, 70, 70, hexChars (c >>> 4), hexChars (c &&& 15)] ++ urlDecode rest := by
  obtain ⟨hwrite, ⟨ha, ha'⟩, hb, hb'⟩ := encodeChar_high c h
  have hfirst : ∀ rest, urlDecode (37 :: 48 :: 70 :: rest) = 15 :: urlDecode rest := decodes_escape 15
  have hsingle : ∀ {d : UInt8}, d ≠ 37 → d ≠ 43 → ∀ rest, urlDecode (d :: rest) = d :: urlDecode rest :=
    fun h37 h43 => decodes_singleton h37 h43
  have hF := @hsingle 70 (by decide) (by decide)
  rw [hwrite]
  simp only [List.cons_append, List.nil_append]
  rw [hfirst, hF, hF, hF, hF, hF, hsingle ha ha', hsingle hb hb']

/-- A character below 128 is decoded to itself, whether it was encoded or not. -/
theorem decodes_encodeChar {c : UInt8} (h : c < 128) : Decodes (encodeChar c) c := by
  unfold encodeChar
  by_cases hun : isUnreserved c = true
  · rw [if_pos hun]
    exact decodes_singleton (ne_of_class hun (by decide)) (ne_of_class hun (by decide))
  · rw [if_neg hun, charHex_eq c h]
    exact decodes_escape c

/-- What is decoded is never shorter, and it is longer when there is a character that is not ASCII. -/
theorem length_urlDecode_urlEncode (uri : Bytes) :
    (urlDecode (UriT.urlEncode uri)).length = uri.length + 7 * uri.countP fun c => decide (128 ≤ c) := by
  induction uri with
  | nil => rfl
  | cons c uri ih =>
    rw [UriT.urlEncode] at ih ⊢
    rw [List.flatMap_cons, List.countP_cons, List.length_cons]
    by_cases hc : c < 128
    · have hlow : decide (128 ≤ c) = false := decide_eq_false (UInt8.not_le.mpr hc)
      rw [decodes_encodeChar hc, List.length_cons, ih, hlow]
      simp only [Bool.false_eq_true, if_false]
      omega
    · have hhigh : 128 ≤ c := UInt8.not_lt.mp hc
      rw [urlDecode_encodeChar_high hhigh, List.length_append, ih, decide_eq_true hhigh]
      simp only [List.length_cons, List.length_nil, if_true]
      omega

/-- **The second attempt** is undone by `url_decode` exactly when the text is ASCII: any other byte is read as eight. -/
theorem urlDecode_urlEncode_iff (uri : Bytes) :
    (urlDecode (UriT.urlEncode uri) = uri ↔ ∀ c ∈ uri, c < 128) ∧
      ∀ c, 128 ≤ c → ∀ rest, urlDecode (UriT.urlEncode (c :: rest)) =
        [15, 70, 70, 70, 70, 70, hexChars (c >>> 4), hexChars (c &&& 15)] ++ urlDecode (UriT.urlEncode rest) := by
  refine ⟨⟨fun h => ?_, fun h => urlDecode_flatMap fun c hc => decodes_encodeChar (h c hc)⟩, fun c hc rest => ?_⟩
  · have hlen := length_urlDecode_urlEncode uri
    rw [h] at hlen
    have hcount : uri.countP (fun c => decide (128 ≤ c)) = 0 := by omega
    intro c hc
    have hlow := List.countP_eq_zero.mp hcount c hc
    exact UInt8.not_le.mp fun hle => hlow (decide_eq_true hle)
  · rw [UriT.urlEncode, List.flatMap_cons]
    exact urlDecode_encodeChar_high hc _

/-- **`get_uri` refuses a text only when it finds no scheme in it**, and gives up the program when the scheme is `https`. What
`parse_from` does not let through becomes, with all of its text percent-encoded, the path of a request to the host that was found
before. -/
theorem getUri_eq (uri : Bytes) : getUri uri =
    if (UriT.parseFrom {} uri).2.schema = [] then .invalid
    else if (UriT.parseFrom {} uri).2.schema = httpsSchema then .aborted
    else if (UriT.parseFrom {} uri).1 = true then .parsed (UriT.parseFrom {} uri).2
    else .encoded { (UriT.parseFrom {} uri).2 with path := UriT.urlEncode uri } := by
  unfold getUri
  cases hparse : UriT.parseFrom {} uri with
  | mk ok u =>
    cases ok with
    | true =>
      rw [if_neg (schema_of_parsed hparse)]
      simp only [if_true]
    | false =>
      by_cases hu : u.schema = []
      · rw [if_pos hu]
        exact if_pos hu
      · have hne : uri ≠ [] := by
          rintro rfl
          exact hu (congrArg (fun r => r.2.schema) hparse).symm
        rw [if_neg hu]
        simp only
        rw [if_neg hu, parseFrom_urlEncode hu hne]
        simp only [Bool.false_eq_true, if_false]

/-- A URI that the grammar has is taken as it is written, unless its scheme is `https`. -/
theorem getUri_write {w : UriText} (hw : w.schema ≠ httpsSchema) : getUri w.write = .parsed w.fields := by
  rw [getUri_eq, w.parseFrom_write]
  obtain ⟨c, t, hschema, -⟩ := w.schema_first
  have hfields : w.fields.schema = w.schema := rfl
  rw [hfields, if_neg (by rw [hschema]; exact List.cons_ne_nil _ _), if_neg hw, if_pos rfl]

end Netcore
