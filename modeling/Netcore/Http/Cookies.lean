import Mathlib.Data.List.TakeWhile
import Netcore.Http.FieldName
import Netcore.Http.Request

/-!
# Cookies

`get_cookie_value` looks for the session cookie in the text of the `Cookie` header, and `get_cookies` takes the text apart. The one
searches for the name with its equals sign, wherever it stands; the other splits at every `;`, every space and every equals sign, and
keeps what is in two pieces.

`cookies_iff` says for which lists of pairs, joined by `; `, both give what the pairs say.
-/

namespace Netcore

def SEMICOLON : UInt8 := 59
def EQUALS : UInt8 := 61

/-- `CSESSIONID`. -/
def cSessionId : Bytes := bytes "CSESSIONID"

/-- `CSESSIONIDWithEQU`. -/
def cSessionIdWithEqu : Bytes := bytes "CSESSIONID="

/-- `s.find_first_of(delimiter)`. -/
def findFirstOf (s delimiter : Bytes) : Option Nat := s.findIdx? (· ∈ delimiter)

/-- The loop of `split`. -/
def splitLoop (delimiter : Bytes) : Nat → Bytes → List Bytes
  | 0, _ => []
  | fuel + 1, s =>
    match findFirstOf s delimiter with
    | none => [s]
    | some e => s.take e :: splitLoop delimiter fuel (s.drop (e + 1))

/-- `split`: the pieces between any two of the characters in `delimiter`. -/
def split (s delimiter : Bytes) : List Bytes := splitLoop delimiter (s.length + 1) s

/-- One round of `get_cookies_map`. -/
def addCookie (cookies : List (Bytes × Bytes)) (token : Bytes) : List (Bytes × Bytes) :=
  match split token [EQUALS] with
  | [key, value] => OrderedMap.insertOrAssign cookies key value
  | _ => cookies

/-- `get_cookies_map`. -/
def getCookiesMap (cookiesStr : Bytes) : List (Bytes × Bytes) := (split cookiesStr (bytes "; ")).foldl addCookie []

namespace Request

/-- `get_cookies`. -/
def getCookies (r : Request) : List (Bytes × Bytes) := getCookiesMap r.cookieStr

/-- `get_cookie_value`. -/
def getCookieValue (r : Request) : Bytes :=
  match findSub r.cookieStr cSessionIdWithEqu with
  | none => []
  | some pos => (r.cookieStr.drop (pos + cSessionIdWithEqu.length)).takeWhile (· ≠ SEMICOLON)

end Request

/-! ## What the header says -/

/-- A pair of a `Cookie` header. -/
def cookiePair (e : Bytes × Bytes) : Bytes := e.1 ++ EQUALS :: e.2

/-- The text of a list of pairs. -/
def cookieText : List (Bytes × Bytes) → Bytes
  | [] => []
  | [e] => cookiePair e
  | e :: es => cookiePair e ++ SEMICOLON :: SPACE :: cookieText es

/-- A pair whose name and value have neither a semicolon nor a space. -/
structure CookieOk (e : Bytes × Bytes) : Prop where
  semicolon : SEMICOLON ∉ cookiePair e
  space : SPACE ∉ cookiePair e

/-- The value of the first pair with the name of the session cookie, and nothing without one. -/
def sessionValue (pairs : List (Bytes × Bytes)) : Bytes := (OrderedMap.find pairs cSessionId).getD []

/-- Both lookups give what the pairs say. -/
structure CookiesRead (r : Request) (pairs : List (Bytes × Bytes)) : Prop where
  session : r.getCookieValue = sessionValue pairs
  cookies : ∀ e ∈ pairs, (pairs.map Prod.fst).count e.1 = 1 → OrderedMap.find r.getCookies e.1 = some e.2

/-- The condition for it. The first pair that has `CSESSIONID=` in it is one with that name, or what follows happens to be what is
asked for; and a name that occurs once has no equals sign, and neither has its value. -/
structure CookiesClear (pairs : List (Bytes × Bytes)) : Prop where
  session : ∀ e, pairs.find? (fun e => (findSub (cookiePair e) cSessionIdWithEqu).isSome) = some e → e.1 = cSessionId ∨
    ∀ pos, findSub (cookiePair e) cSessionIdWithEqu = some pos →
      (cookiePair e).drop (pos + cSessionIdWithEqu.length) = sessionValue pairs
  cookies : ∀ e ∈ pairs, (pairs.map Prod.fst).count e.1 = 1 → EQUALS ∉ e.1 ∧ EQUALS ∉ e.2

/-! ## The session cookie -/

/-- A text is not found across a character that it does not have. -/
theorem isPrefix_append_cons {t : Bytes} {c : UInt8} (hc : c ∉ t) {s rest : Bytes} (h : t <+: s ++ c :: rest) : t <+: s := by
  have hs : s ++ [c] <+: s ++ c :: rest := ⟨rest, by simp⟩
  rcases List.prefix_or_prefix_of_prefix h hs with hpre | hpre
  · rcases List.prefix_concat_iff.mp hpre with heq | hpre'
    · exact absurd (heq ▸ List.mem_append_right s (List.mem_singleton_self c)) hc
    · exact hpre'
  · exact absurd (hpre.subset (List.mem_append_right s (List.mem_singleton_self c))) hc

/-- The first occurrence in front of a character that the text does not have, and else behind it. -/
theorem findSub_append_cons {t : Bytes} {c : UInt8} (hc : c ∉ t) (ht : t ≠ []) (s rest : Bytes) :
    findSub (s ++ c :: rest) t = (findSub s t).or ((findSub rest t).map (· + (s.length + 1))) := by
  induction s with
  | nil =>
    have hno : ¬ t <+: c :: rest := fun h => ht (List.prefix_nil.mp (isPrefix_append_cons hc (s := []) h))
    have hnil : findSub [] t = none := if_neg ht
    rw [List.nil_append, hnil, findSub, if_neg hno, Option.none_or]
    rfl
  | cons d s ih =>
    rw [List.cons_append, findSub, findSub]
    by_cases hpre : t <+: d :: s
    · have hlong : t <+: d :: (s ++ c :: rest) := hpre.trans (List.prefix_append (d :: s) (c :: rest))
      rw [if_pos hpre, if_pos hlong, Option.some_or]
    · have hlong : ¬ t <+: d :: (s ++ c :: rest) := fun h => hpre (isPrefix_append_cons hc (s := d :: s) h)
      rw [if_neg hpre, if_neg hlong, ih]
      cases findSub s t with
      | some p => rfl
      | none => cases findSub rest t <;> simp [Nat.add_assoc]

/-- What a text has behind the first `CSESSIONID=`, up to a semicolon. -/
def sessionIn (s : Bytes) : Bytes :=
  ((findSub s cSessionIdWithEqu).map fun pos => (s.drop (pos + cSessionIdWithEqu.length)).takeWhile (· ≠ SEMICOLON)).getD []

/-- The session is read from the cookie line alone. -/
theorem getCookieValue_eq (r : Request) : r.getCookieValue = sessionIn r.cookieStr := by
  rw [Request.getCookieValue, sessionIn]
  cases findSub r.cookieStr cSessionIdWithEqu <;> rfl

/-- A cookie without the name of the session is passed over. -/
theorem sessionIn_skip {c : UInt8} (hc : c ∉ cSessionIdWithEqu) {s : Bytes} (hs : findSub s cSessionIdWithEqu = none) (rest : Bytes) :
    sessionIn (s ++ c :: rest) = sessionIn rest := by
  rw [sessionIn, sessionIn, findSub_append_cons hc (by decide), hs, Option.none_or]
  cases findSub rest cSessionIdWithEqu with
  | none => rfl
  | some pos =>
    have hdrop : (s ++ c :: rest).drop (pos + (s.length + 1) + cSessionIdWithEqu.length) =
        rest.drop (pos + cSessionIdWithEqu.length) := by
      rw [List.drop_append, List.drop_eq_nil_of_le (by omega), List.nil_append]
      rw [show pos + (s.length + 1) + cSessionIdWithEqu.length - s.length = pos + cSessionIdWithEqu.length + 1 by omega,
        List.drop_succ_cons]
    simp only [Option.map_some, Option.getD_some, hdrop]

/-- A value goes up to the next semicolon. -/
theorem takeWhile_semicolon {s : Bytes} (hs : SEMICOLON ∉ s) (rest : Bytes) :
    s.takeWhile (· ≠ SEMICOLON) = s ∧ (s ++ SEMICOLON :: rest).takeWhile (· ≠ SEMICOLON) = s := by
  have hall := ne_of_notMem hs
  refine ⟨?_, ?_⟩
  · exact List.takeWhile_eq_self_iff.mpr hall
  · rw [List.takeWhile_append_of_pos hall, List.takeWhile_cons, if_neg (by simp), List.append_nil]

/-- In the cookie with the name of the session, its value is what stands behind the name. -/
theorem sessionIn_here {s : Bytes} (hs : SEMICOLON ∉ s) {pos : Nat} (hpos : findSub s cSessionIdWithEqu = some pos) :
    sessionIn s = s.drop (pos + cSessionIdWithEqu.length) ∧
      ∀ rest, sessionIn (s ++ SEMICOLON :: rest) = s.drop (pos + cSessionIdWithEqu.length) := by
  have hdrop : SEMICOLON ∉ s.drop (pos + cSessionIdWithEqu.length) := fun h => hs (List.mem_of_mem_drop h)
  refine ⟨?_, fun rest => ?_⟩
  · rw [sessionIn, hpos, Option.map_some, Option.getD_some, (takeWhile_semicolon hdrop []).1]
  · have hlen : pos + cSessionIdWithEqu.length ≤ s.length := by
      have hle := (findSub_drop hpos).length_le
      have hpositive : 0 < cSessionIdWithEqu.length := by decide
      rw [List.length_drop] at hle
      omega
    rw [sessionIn, findSub_append_cons (by decide) (by decide), hpos, Option.some_or, Option.map_some, Option.getD_some,
      List.drop_append_of_le_length hlen, (takeWhile_semicolon hdrop rest).2]

/-- What the text of a pair has behind `CSESSIONID=`, when it has it. -/
def behindName (e : Bytes × Bytes) : Option Bytes :=
  (findSub (cookiePair e) cSessionIdWithEqu).map fun pos => (cookiePair e).drop (pos + cSessionIdWithEqu.length)

/-- The first pair with `CSESSIONID=` decides. -/
theorem sessionIn_cookieText (pairs : List (Bytes × Bytes)) : (∀ e ∈ pairs, CookieOk e) →
    sessionIn (cookieText pairs) = (pairs.findSome? behindName).getD [] := by
  have hnil : ∀ {e}, findSub (cookiePair e) cSessionIdWithEqu = none → sessionIn (cookiePair e) = [] := fun he => by
    rw [sessionIn, he]
    rfl
  induction pairs with
  | nil => exact fun _ => rfl
  | cons e es ih =>
    intro hok
    obtain ⟨he, hes⟩ := List.forall_mem_cons.mp hok
    cases hpos : findSub (cookiePair e) cSessionIdWithEqu with
    | none =>
      have hbehind : behindName e = none := by rw [behindName, hpos, Option.map_none]
      simp only [List.findSome?_cons, hbehind]
      cases es with
      | nil => exact hnil hpos
      | cons e' es =>
        have hspace := sessionIn_skip (c := SPACE) (by decide) (show findSub [] cSessionIdWithEqu = none by decide)
          (cookieText (e' :: es))
        rw [cookieText, sessionIn_skip (by decide) hpos]
        · exact hspace.trans (ih hes)
        · exact List.cons_ne_nil _ _
    | some pos =>
      have hbehind : behindName e = some ((cookiePair e).drop (pos + cSessionIdWithEqu.length)) := by
        rw [behindName, hpos, Option.map_some]
      simp only [List.findSome?_cons, hbehind, Option.getD_some]
      obtain ⟨hend, hmore⟩ := sessionIn_here he.semicolon hpos
      cases es with
      | nil => exact hend
      | cons e' es =>
        rw [cookieText]
        · exact hmore _
        · exact List.cons_ne_nil _ _

/-- A pair with the name of the session cookie. -/
theorem behindName_session (value : Bytes) : behindName (cSessionId, value) = some value := by
  have hpair : cookiePair (cSessionId, value) = cSessionIdWithEqu ++ value := by
    rw [cookiePair, show cSessionIdWithEqu = cSessionId ++ [EQUALS] by decide, List.append_assoc]
    rfl
  have hpos : findSub (cSessionIdWithEqu ++ value) cSessionIdWithEqu = some 0 := by
    have hpre : cSessionIdWithEqu <+: cSessionIdWithEqu ++ value := List.prefix_append _ _
    generalize hs : cSessionIdWithEqu ++ value = s at hpre ⊢
    cases s with
    | nil => exact absurd hs (by simp [show cSessionIdWithEqu ≠ [] by decide])
    | cons c s => rw [findSub, if_pos hpre]
  rw [behindName, hpair, hpos, Option.map_some, Nat.zero_add, List.drop_left]

/-- The session is the right one exactly if the first cookie that has its name somewhere has it in front. -/
theorem session_iff {pairs : List (Bytes × Bytes)} :
    (pairs.findSome? behindName).getD [] = sessionValue pairs ↔
      ∀ e, pairs.find? (fun e => (findSub (cookiePair e) cSessionIdWithEqu).isSome) = some e → e.1 = cSessionId ∨
        ∀ pos, findSub (cookiePair e) cSessionIdWithEqu = some pos →
          (cookiePair e).drop (pos + cSessionIdWithEqu.length) = sessionValue pairs := by
  have hisSome : ∀ e, (behindName e).isSome = (findSub (cookiePair e) cSessionIdWithEqu).isSome := fun e => by
    rw [behindName, Option.isSome_map]
  have hnamed : ∀ e : Bytes × Bytes, e.1 = cSessionId → behindName e = some e.2 := by
    rintro ⟨name, value⟩ rfl
    exact behindName_session value
  cases hfind : pairs.find? (fun e => (findSub (cookiePair e) cSessionIdWithEqu).isSome) with
  | none =>
    have hnone : ∀ e ∈ pairs, behindName e = none := by
      intro e he
      have := List.find?_eq_none.mp hfind e he
      rwa [← hisSome, Option.not_isSome_iff_eq_none] at this
    have hsession : OrderedMap.find pairs cSessionId = none := by
      refine OrderedMap.find_eq_none fun hmem => ?_
      obtain ⟨e, he, hname⟩ := List.mem_map.mp hmem
      exact absurd ((hnamed e hname).symm.trans (hnone e he)) (by simp)
    rw [List.findSome?_eq_none_iff.mpr hnone, sessionValue, hsession]
    exact iff_of_true rfl (by simp)
  | some e =>
    obtain ⟨hsome, l₁, l₂, rfl, hbefore⟩ := List.find?_eq_some_iff_append.mp hfind
    obtain ⟨pos, hpos⟩ := Option.isSome_iff_exists.mp hsome
    have hbehind : behindName e = some ((cookiePair e).drop (pos + cSessionIdWithEqu.length)) := by
      rw [behindName, hpos, Option.map_some]
    have hnone : ∀ a ∈ l₁, behindName a = none := by
      intro a ha
      have := hbefore a ha
      rwa [← hisSome, Bool.not_eq_true', Option.isSome_eq_false_iff, Option.isNone_iff_eq_none] at this
    have hfirst : (l₁ ++ e :: l₂).findSome? behindName = some ((cookiePair e).drop (pos + cSessionIdWithEqu.length)) := by
      rw [List.findSome?_append, List.findSome?_eq_none_iff.mpr hnone, Option.none_or]
      simp only [List.findSome?_cons, hbehind]
    rw [hfirst, Option.getD_some]
    constructor
    · rintro h e' he'
      obtain rfl := Option.some.inj he'
      refine .inr fun pos' hpos' => ?_
      obtain rfl := Option.some.inj (hpos.symm.trans hpos')
      exact h
    · intro h
      rcases h e rfl with hname | hdrop
      · -- no pair before it has the name
        have hl₁ : ∀ a ∈ l₁, a.1 ≠ cSessionId := fun a ha hname' =>
          absurd ((hnamed a hname').symm.trans (hnone a ha)) (by simp)
        have hvalue : OrderedMap.find (l₁ ++ e :: l₂) cSessionId = some e.2 := by
          rw [OrderedMap.find, List.find?_append, List.find?_eq_none.mpr (by simpa using hl₁), Option.none_or,
            List.find?_cons_of_pos (by simpa using hname), Option.map_some]
        rw [sessionValue, hvalue, Option.getD_some]
        exact Option.some.inj (hbehind.symm.trans (hnamed e hname))
      · exact hdrop pos hpos

/-! ## The pieces of the text -/

/-- The first delimiter is the one with none before it. -/
theorem findFirstOf_append_cons {s delimiter : Bytes} {c : UInt8} (hs : ∀ d ∈ s, d ∉ delimiter) (hc : c ∈ delimiter) (rest : Bytes) :
    findFirstOf (s ++ c :: rest) delimiter = some s.length := by
  have hnone : s.findIdx? (fun d => decide (d ∈ delimiter)) = none := by
    rw [List.findIdx?_eq_none_iff]
    exact fun d hd => decide_eq_false (hs d hd)
  rw [findFirstOf, List.findIdx?_append, hnone, Option.none_or, List.findIdx?_cons, if_pos (decide_eq_true hc)]
  simp

/-- A text without the characters, or what is in front of the first of them and behind it. -/
theorem delimited_cases (s delimiter : Bytes) : (∀ d ∈ s, d ∉ delimiter) ∨
    ∃ x c y, s = x ++ c :: y ∧ (∀ d ∈ x, d ∉ delimiter) ∧ c ∈ delimiter := by
  induction s with
  | nil => exact .inl (by simp)
  | cons d s ih =>
    by_cases hd : d ∈ delimiter
    · exact .inr ⟨[], d, s, rfl, by simp, hd⟩
    · rcases ih with hall | ⟨x, c, y, rfl, hx, hc⟩
      · exact .inl (List.forall_mem_cons.mpr ⟨hd, hall⟩)
      · exact .inr ⟨d :: x, c, y, rfl, List.forall_mem_cons.mpr ⟨hd, hx⟩, hc⟩

/-- `split` is `splitOnP`. -/
theorem split_eq (s delimiter : Bytes) : split s delimiter = s.splitOnP (fun c => decide (c ∈ delimiter)) := by
  have hloop : ∀ fuel (s : Bytes), s.length < fuel →
      splitLoop delimiter fuel s = s.splitOnP (fun c => decide (c ∈ delimiter)) := by
    intro fuel
    induction fuel with
    | zero => exact fun s hs => absurd hs (Nat.not_lt_zero _)
    | succ fuel ih =>
      intro s hs
      rcases delimited_cases s delimiter with hall | ⟨x, c, y, rfl, hx, hc⟩
      · have hnone : findFirstOf s delimiter = none := by
          rw [findFirstOf, List.findIdx?_eq_none_iff]
          exact fun d hd => decide_eq_false (hall d hd)
        simp only [splitLoop, hnone]
        rw [List.splitOnP_eq_singleton fun d hd => decide_eq_false (hall d hd)]
      · have hdrop : (x ++ c :: y).drop (x.length + 1) = y := by
          rw [List.drop_append, List.drop_eq_nil_of_le (Nat.le_succ _), List.nil_append, Nat.add_sub_cancel_left]
          rfl
        simp only [splitLoop, findFirstOf_append_cons hx hc, List.take_left, hdrop]
        rw [List.splitOnP_append_cons x y (decide_eq_true hc), List.splitOnP_eq_singleton fun d hd => decide_eq_false (hx d hd)]
        rw [List.length_append, List.length_cons] at hs
        rw [ih y (by omega)]
        rfl
  exact hloop _ s (Nat.lt_succ_self _)

/-- A text without delimiters is one piece. -/
theorem split_of_free {s delimiter : Bytes} (h : ∀ c ∈ s, c ∉ delimiter) : split s delimiter = [s] := by
  rw [split_eq, List.splitOnP_eq_singleton fun c hc => decide_eq_false (h c hc)]

/-- A text without `=` is one piece. -/
theorem split_of_notMem {s : Bytes} (h : EQUALS ∉ s) : split s [EQUALS] = [s] :=
  split_of_free fun _ hc hmem => h (List.mem_singleton.mp hmem ▸ hc)

/-- A text stays whole exactly when there is no separator. -/
theorem length_split_eq_one (s : Bytes) : (split s [EQUALS]).length = 1 ↔ EQUALS ∉ s := by
  constructor
  · intro h hmem
    obtain ⟨x, y, rfl⟩ := List.append_of_mem hmem
    rw [split_eq, List.splitOnP_append_cons x y (by simp), List.length_append] at h
    have hx := List.length_pos_of_ne_nil (List.splitOnP_ne_nil (fun c => decide (c ∈ [EQUALS])) x)
    have hy := List.length_pos_of_ne_nil (List.splitOnP_ne_nil (fun c => decide (c ∈ [EQUALS])) y)
    omega
  · intro h
    rw [split_of_notMem h]
    rfl

/-- A cookie is split at each `=`, those of its name and its value too. -/
theorem split_cookiePair (e : Bytes × Bytes) : split (cookiePair e) [EQUALS] = split e.1 [EQUALS] ++ split e.2 [EQUALS] := by
  rw [split_eq, split_eq, split_eq, cookiePair, List.splitOnP_append_cons _ _ (by simp)]

/-- A pair is kept when the sign between its name and its value is the only one. -/
theorem addCookie_pair (cookies : List (Bytes × Bytes)) (e : Bytes × Bytes) : addCookie cookies (cookiePair e) =
    if EQUALS ∉ e.1 ∧ EQUALS ∉ e.2 then OrderedMap.insertOrAssign cookies e.1 e.2 else cookies := by
  have hsplit := split_cookiePair e
  split_ifs with h
  · rw [split_of_notMem h.1, split_of_notMem h.2] at hsplit
    simp only [addCookie, hsplit, List.singleton_append]
  · have hlen : (split (cookiePair e) [EQUALS]).length ≠ 2 := by
      intro h2
      rw [hsplit, List.length_append] at h2
      have h1 : ∀ s, 0 < (split s [EQUALS]).length := fun s => by
        rw [split_eq]
        exact List.length_pos_of_ne_nil (List.splitOnP_ne_nil _ _)
      have hname := h1 e.1
      have hvalue := h1 e.2
      exact h ⟨(length_split_eq_one e.1).mp (by omega), (length_split_eq_one e.2).mp (by omega)⟩
    rw [addCookie]
    split
    · rename_i heq
      rw [heq] at hlen
      exact absurd rfl hlen
    · rfl

/-- By induction over the cookies: each is added as if it came alone. -/
theorem foldl_cookieText (pairs : List (Bytes × Bytes)) : (∀ e ∈ pairs, CookieOk e) → ∀ cookies : List (Bytes × Bytes),
    (split (cookieText pairs) (bytes "; ")).foldl addCookie cookies =
      pairs.foldl (fun cookies e => addCookie cookies (cookiePair e)) cookies := by
  have hdelim : bytes "; " = [SEMICOLON, SPACE] := by decide
  have hone : ∀ {e}, CookieOk e → split (cookiePair e) [SEMICOLON, SPACE] = [cookiePair e] := by
    intro e he
    refine split_of_free fun c hc hmem => ?_
    rcases List.mem_pair.mp hmem with rfl | rfl
    · exact he.semicolon hc
    · exact he.space hc
  rw [hdelim]
  induction pairs with
  | nil => exact fun _ _ => rfl
  | cons e es ih =>
    intro hok cookies
    obtain ⟨he, hes⟩ := List.forall_mem_cons.mp hok
    cases es with
    | nil =>
      rw [cookieText, hone he]
      rfl
    | cons e' es =>
      have hsplit : split (cookieText (e :: e' :: es)) [SEMICOLON, SPACE] =
          cookiePair e :: [] :: split (cookieText (e' :: es)) [SEMICOLON, SPACE] := by
        rw [cookieText]
        · have hpair := hone he
          rw [split_eq] at hpair
          rw [split_eq, split_eq, List.splitOnP_append_cons _ _ (by simp), hpair]
          exact congrArg (cookiePair e :: ·) (List.splitOnP_append_cons [] _ (by simp))
        · exact List.cons_ne_nil _ _
      have hnil : ∀ m, addCookie m [] = m := fun _ => rfl
      rw [hsplit, List.foldl_cons, List.foldl_cons, hnil, ih hes]
      rfl

/-- Pairs with other names do not count. -/
theorem find_foldl_cookies {name : Bytes} (pairs : List (Bytes × Bytes)) (h : name ∉ pairs.map Prod.fst) :
    ∀ cookies : List (Bytes × Bytes),
      OrderedMap.find (pairs.foldl (fun cookies e => addCookie cookies (cookiePair e)) cookies) name = OrderedMap.find cookies name := by
  induction pairs with
  | nil => exact fun _ => rfl
  | cons e es ih =>
    intro cookies
    rw [List.map_cons, List.mem_cons, not_or] at h
    rw [List.foldl_cons, ih h.2, addCookie_pair]
    split_ifs
    · rw [OrderedMap.find_insertOrAssign, if_neg (Ne.symm h.1)]
    · rfl

/-- A cookie that comes once is found with its value exactly if neither has `=`. -/
theorem cookies_once_iff {pairs : List (Bytes × Bytes)} (h : ∀ e ∈ pairs, CookieOk e) {e : Bytes × Bytes} (he : e ∈ pairs)
    (hcount : (pairs.map Prod.fst).count e.1 = 1) :
    OrderedMap.find (getCookiesMap (cookieText pairs)) e.1 = some e.2 ↔ EQUALS ∉ e.1 ∧ EQUALS ∉ e.2 := by
  rw [getCookiesMap, foldl_cookieText pairs h]
  obtain ⟨l₁, l₂, rfl⟩ := List.append_of_mem he
  rw [List.map_append, List.map_cons, List.count_append, List.count_cons_self] at hcount
  have h₁ : e.1 ∉ l₁.map Prod.fst := List.count_eq_zero.mp (by omega)
  have h₂ : e.1 ∉ l₂.map Prod.fst := List.count_eq_zero.mp (by omega)
  rw [List.foldl_append, List.foldl_cons, find_foldl_cookies l₂ h₂, addCookie_pair]
  split_ifs with hfree
  · rw [OrderedMap.find_insertOrAssign, if_pos rfl]
    exact iff_of_true rfl hfree
  · rw [find_foldl_cookies l₁ h₁]
    exact iff_of_false (by simp) hfree

/-- **The lookups of cookies** give what a header of pairs says, exactly when nothing else in the header looks like the session
cookie, and no name or value that is looked up has an equals sign. -/
theorem cookies_iff (r : Request) {pairs : List (Bytes × Bytes)} (h : ∀ e ∈ pairs, CookieOk e) :
    CookiesRead { r with cookieStr := cookieText pairs } pairs ↔ CookiesClear pairs := by
  have hvalue : ({ r with cookieStr := cookieText pairs } : Request).getCookieValue = (pairs.findSome? behindName).getD [] :=
    (getCookieValue_eq _).trans (sessionIn_cookieText pairs h)
  have hcookies : (∀ e ∈ pairs, (pairs.map Prod.fst).count e.1 = 1 →
        OrderedMap.find (getCookiesMap (cookieText pairs)) e.1 = some e.2) ↔
      ∀ e ∈ pairs, (pairs.map Prod.fst).count e.1 = 1 → EQUALS ∉ e.1 ∧ EQUALS ∉ e.2 :=
    forall_congr' fun e => forall_congr' fun he => forall_congr' fun hcount => cookies_once_iff h he hcount
  constructor
  · intro hr
    exact ⟨session_iff.mp (hvalue.symm.trans hr.session), hcookies.mp hr.cookies⟩
  · intro hc
    exact ⟨hvalue.trans (session_iff.mpr hc.session), hcookies.mpr hc.cookies⟩

/-- A header with two cookies. -/
theorem cookies_iff_two :
    CookiesRead { buf := [], cookieStr := cookieText [(bytes "A", bytes "b"), (bytes "CSESSIONID", bytes "1")] }
      [(bytes "A", bytes "b"), (bytes "CSESSIONID", bytes "1")] ↔
    CookiesClear [(bytes "A", bytes "b"), (bytes "CSESSIONID", bytes "1")] :=
  cookies_iff { buf := [] } (List.forall_mem_cons.mpr ⟨⟨by decide, by decide⟩, List.forall_mem_singleton.mpr ⟨by decide, by decide⟩⟩)

/-- A cookie whose name ends like the session cookie is taken for it. -/
theorem not_cookies : ¬ ∀ (r : Request) (pairs : List (Bytes × Bytes)), (∀ e ∈ pairs, CookieOk e) →
    CookiesRead { r with cookieStr := cookieText pairs } pairs := by
  intro h
  have hread := h { buf := [] } [(bytes "XCSESSIONID", bytes "evil"), (bytes "CSESSIONID", bytes "1")]
    (List.forall_mem_cons.mpr ⟨⟨by decide, by decide⟩, List.forall_mem_singleton.mpr ⟨by decide, by decide⟩⟩)
  exact absurd hread.session (by decide)

end Netcore
