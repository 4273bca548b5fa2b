import Netcore.Lib.Delimiter
import Netcore.Http.FieldName
import Netcore.Http.WellFormed
import Netcore.Server.Runs

/-!
# The boundary of a form

`get_content_type` takes for the boundary all that follows the first `=` of the header value, whatever parameter that belongs to.
`FormType` is a value `multipart/form-data` with any parameters, and `boundary_iff` says when the parser gets the boundary that it
names: when the boundary is the only parameter.
-/

namespace Netcore

/-- A parameter with the semicolon before it. Its value stands between quotes, or has no characters that would end it. -/
structure TypeParam where
  before : Bytes
  after : Bytes
  name : Bytes
  value : Bytes
  quoted : Bool
  blank_before : ∀ c ∈ before, isBlank c = true
  blank_after : ∀ c ∈ after, isBlank c = true
  name_eq : 61 ∉ name
  value_quote : QUOTE ∉ value
  value_bare : quoted = false → ∀ c ∈ value, c ≠ 59 ∧ isBlank c = false

namespace TypeParam

def valueText (p : TypeParam) : Bytes := if p.quoted then QUOTE :: (p.value ++ [QUOTE]) else p.value

def text (p : TypeParam) : Bytes := p.before ++ 59 :: (p.after ++ p.name ++ 61 :: p.valueText)

end TypeParam

/-- A value `multipart/form-data`, with parameters and white space at the end. -/
structure FormType where
  params : List TypeParam
  trailing : Bytes
  blank_trailing : ∀ c ∈ trailing, isBlank c = true

namespace FormType

def text (t : FormType) : Bytes := bytes "multipart/form-data" ++ (t.params.flatMap TypeParam.text ++ t.trailing)

/-- The boundary: the value of the first parameter of this name, empty when there is none. -/
def boundary (t : FormType) : Bytes := ((t.params.find? fun p => iequal p.name (bytes "boundary")).map TypeParam.value).getD []

end FormType

/-- The types of body that `handle_request` answers with an error, without a look at the body. -/
def refuses : ContentType → Bool
  | .chunked => true
  | _ => false

namespace Connection

/-- The parser gets the boundary of the form; and a form that has none is not read. -/
def TakesBoundary (env : Env) (c : Connection) (t : FormType) : Prop :=
  if t.boundary = [] then refuses (getContentType env c).2 = true
  else
    getContentType env c =
      ({ c with reader := c.reader.setBoundary (CRLF ++ [HYPHEN, HYPHEN] ++ t.boundary) env.fill }, .multipart)

/-- The boundary is the only parameter, nothing follows it, and the request is taken for a form with it; a request without a boundary
is refused only for being chunked. -/
def BoundaryAlone (c : Connection) (t : FormType) : Prop :=
  if t.boundary = [] then c.req.isChunked = true
  else c.req.isChunked = false ∧ t.params.length = 1 ∧ t.trailing = [] ∧
    contains t.boundary (bytes "application/x-www-form-urlencoded") = false

theorem handleRequest_of_refuses {env : Env} {c : Connection} (hbody : c.req.hasBody = true)
    (h : refuses (getContentType env c).2 = true) :
    (handleRequest env c).2 = .state .needWrite ∧ (handleRequest env c).1.res.status = .internalServerError := by
  have htype : (getContentType env c).2 = .chunked := by
    revert h
    cases (getContentType env c).2 <;> simp [refuses]
  rw [handleRequest, if_pos hbody]
  cases hg : getContentType env c with
  | mk c' type =>
    obtain rfl : type = .chunked := by rwa [hg] at htype
    exact ⟨rfl, rfl⟩

/-! ## What follows the first `=` -/

/-- A text without the quotes around it. -/
def unquote (bd : Bytes) : Bytes :=
  if bd.head? = some QUOTE ∧ bd.getLast? = some QUOTE then (bd.drop 1).take (bd.length - 2) else bd

theorem formBoundary_append {a : Bytes} (ha : 61 ∉ a) (bd : Bytes) : formBoundary (a ++ 61 :: bd) = unquote bd := by
  have hdrop : (a ++ 61 :: bd).drop (a.length + 1) = bd := by
    rw [List.append_cons, show a.length + 1 = (a ++ [61]).length by simp, List.drop_left]
  rw [formBoundary, idxOf?_append_cons ha]
  simp only [hdrop]
  rfl

theorem blank_ne {c : UInt8} (h : isBlank c = true) : c ≠ 61 ∧ c ≠ 59 ∧ c ≠ QUOTE :=
  ⟨ne_of_class h (by decide), ne_of_class h (by decide), ne_of_class h (by decide)⟩

/-- What stands before the first `=`. -/
theorem not_mem_before_value (p : TypeParam) :
    61 ∉ bytes "multipart/form-data" ++ (p.before ++ 59 :: (p.after ++ p.name)) := by
  have hbefore : 61 ∉ p.before := fun h => (blank_ne (p.blank_before 61 h)).1 rfl
  have hafter : 61 ∉ p.after := fun h => (blank_ne (p.blank_after 61 h)).1 rfl
  have htype : 61 ∉ bytes "multipart/form-data" := by decide
  simp only [List.mem_append, List.mem_cons, not_or]
  exact ⟨htype, hbefore, by decide, hafter, p.name_eq⟩

/-- The parser gets what follows the first `=`, unquoted. -/
theorem formBoundary_text {t : FormType} {p : TypeParam} {ps : List TypeParam} (h : t.params = p :: ps) :
    formBoundary t.text = unquote (p.valueText ++ (ps.flatMap TypeParam.text ++ t.trailing)) := by
  have htext : t.text = bytes "multipart/form-data" ++ (p.before ++ 59 :: (p.after ++ p.name)) ++
      61 :: (p.valueText ++ (ps.flatMap TypeParam.text ++ t.trailing)) := by
    rw [FormType.text, h, List.flatMap_cons, TypeParam.text]
    simp
  rw [htext, formBoundary_append (not_mem_before_value p)]

/-- A value that nothing follows. -/
theorem unquote_valueText (p : TypeParam) : unquote p.valueText = p.value := by
  unfold TypeParam.valueText
  cases p.quoted with
  | true =>
    have hlast : (QUOTE :: (p.value ++ [QUOTE])).getLast? = some QUOTE := by
      rw [← List.cons_append, List.getLast?_concat]
    rw [if_pos rfl, unquote, if_pos ⟨rfl, hlast⟩]
    simp
  | false =>
    have hhead : p.value.head? ≠ some QUOTE := fun h => p.value_quote (List.mem_of_head? h)
    rw [if_neg (by simp), unquote, if_neg fun h => hhead h.1]

/-- Of what follows a value the first character is a semicolon or white space. -/
theorem exists_cons_of_rest {t : FormType} {ps : List TypeParam} (h : ps.flatMap TypeParam.text ++ t.trailing ≠ []) :
    ∃ c r, ps.flatMap TypeParam.text ++ t.trailing = c :: r ∧ (c = 59 ∨ isBlank c = true) := by
  cases ps with
  | nil =>
    obtain ⟨c, r, hr⟩ := List.exists_cons_of_ne_nil h
    refine ⟨c, r, hr, .inr (t.blank_trailing c ?_)⟩
    rw [List.flatMap_nil, List.nil_append] at hr
    rw [hr]
    exact List.mem_cons_self ..
  | cons p ps =>
    rw [List.flatMap_cons, TypeParam.text]
    cases hb : p.before with
    | nil => exact ⟨59, _, rfl, .inl rfl⟩
    | cons c r =>
      refine ⟨c, _, rfl, .inr (p.blank_before c ?_)⟩
      rw [hb]
      exact List.mem_cons_self ..

theorem valueText_quoted {p : TypeParam} (h : p.quoted = true) : p.valueText = QUOTE :: (p.value ++ [QUOTE]) := by
  rw [TypeParam.valueText, if_pos h]

theorem valueText_bare {p : TypeParam} (h : p.quoted = false) : p.valueText = p.value := by
  rw [TypeParam.valueText, h]
  rfl

/-- A value that something follows is not taken for the value of any parameter. -/
theorem unquote_ne {t : FormType} {p q : TypeParam} {ps : List TypeParam} (hq : q ∈ p :: ps)
    (hrest : ps.flatMap TypeParam.text ++ t.trailing ≠ []) :
    unquote (p.valueText ++ (ps.flatMap TypeParam.text ++ t.trailing)) ≠ q.value := by
  obtain ⟨c, r, hcr, hc⟩ := exists_cons_of_rest hrest
  have hcq : c ≠ QUOTE := by
    rcases hc with rfl | hc
    · decide
    · exact (blank_ne hc).2.2
  intro heq
  unfold unquote at heq
  by_cases hquotes : (p.valueText ++ (ps.flatMap TypeParam.text ++ t.trailing)).head? = some QUOTE ∧
      (p.valueText ++ (ps.flatMap TypeParam.text ++ t.trailing)).getLast? = some QUOTE
  · -- the first value is quoted, and its closing quote stays
    rw [if_pos hquotes, hcr] at heq
    rw [hcr] at hquotes
    cases hp : p.quoted with
    | false =>
      rw [valueText_bare hp] at hquotes
      cases hv : p.value with
      | nil =>
        rw [hv] at hquotes
        exact hcq (Option.some.inj hquotes.1)
      | cons d v =>
        rw [hv] at hquotes
        have hd := Option.some.inj hquotes.1
        exact p.value_quote (by rw [hv, ← hd]; exact List.mem_cons_self ..)
    | true =>
      rw [valueText_quoted hp] at heq
      have hmem : QUOTE ∈ q.value := by
        rw [← heq]
        simp only [List.cons_append, List.append_assoc, List.drop_succ_cons, List.drop_zero, List.nil_append, List.length_cons,
          List.length_append]
        rw [List.mem_take_iff_getElem]
        refine ⟨p.value.length, by simp, ?_⟩
        simp
      exact q.value_quote hmem
  · rw [if_neg hquotes] at heq
    cases hqq : q.quoted with
    | true =>
      have hmem : QUOTE ∈ p.valueText ++ (ps.flatMap TypeParam.text ++ t.trailing) := by
        rcases List.mem_cons.mp hq with rfl | hq
        · rw [valueText_quoted hqq]
          simp
        · refine List.mem_append_right _ (List.mem_append_left _ (List.mem_flatMap.mpr ⟨q, hq, ?_⟩))
          rw [TypeParam.text, valueText_quoted hqq]
          simp
      rw [heq] at hmem
      exact q.value_quote hmem
    | false =>
      have hmem : c ∈ q.value := by
        rw [← heq, hcr]
        simp
      have hbare := q.value_bare hqq c hmem
      rcases hc with hc | hc
      · exact hbare.1 hc
      · exact Bool.false_ne_true (hbare.2.symm.trans hc)

/-! ## The word for forms that are no multipart forms -/

/-- A word without white space is not in white space. -/
theorem infix_blank_append {w : Bytes} (hw : w ≠ []) (hblank : ∀ c ∈ w, isBlank c = false) {s : Bytes} : ∀ {l : Bytes},
    (∀ c ∈ l, isBlank c = true) → w <:+: l ++ s → w <:+: s := by
  intro l
  induction l with
  | nil => exact fun _ h => h
  | cons c l ih =>
    intro hl h
    have hc : c ∉ w := fun hm => Bool.false_ne_true ((hblank c hm).symm.trans (hl c (List.mem_cons_self ..)))
    exact ih (fun d hd => hl d (List.mem_cons_of_mem c hd)) (Delimiter.infix_of_cons hc hw h)

theorem infix_append_blank {w : Bytes} (hw : w ≠ []) (hblank : ∀ c ∈ w, isBlank c = false) {s l : Bytes} (hl : ∀ c ∈ l, isBlank c = true)
    (h : w <:+: s ++ l) : w <:+: s := by
  cases l with
  | nil => rwa [List.append_nil] at h
  | cons c l =>
    have hc : c ∉ w := fun hm => Bool.false_ne_true ((hblank c hm).symm.trans (hl c (List.mem_cons_self ..)))
    rcases Delimiter.infix_append_cons hc h with h | h
    · exact h
    · have hnil : w <:+: l ++ [] := by rwa [List.append_nil]
      exact absurd (List.infix_nil.mp (infix_blank_append hw hblank (fun d hd => hl d (List.mem_cons_of_mem c hd)) hnil)) hw

/-- In a type with the boundary as its only parameter the word `application/x-www-form-urlencoded` can be in the boundary only. -/
theorem contains_text_alone {t : FormType} {p : TypeParam} (hp : t.params = [p]) (ht : t.trailing = [])
    (hname : iequal p.name (bytes "boundary") = true) :
    contains t.text (bytes "application/x-www-form-urlencoded") = contains p.value (bytes "application/x-www-form-urlencoded") := by
  have hne : bytes "application/x-www-form-urlencoded" ≠ [] := by decide
  have hblank : ∀ c ∈ bytes "application/x-www-form-urlencoded", isBlank c = false := by
    have hall : (bytes "application/x-www-form-urlencoded").all (fun c => !isBlank c) = true := by decide
    exact fun c hc => by simpa using List.all_eq_true.mp hall c hc
  have hsemi : 59 ∉ bytes "application/x-www-form-urlencoded" := by decide
  have heq : 61 ∉ bytes "application/x-www-form-urlencoded" := by decide
  have hquote : QUOTE ∉ bytes "application/x-www-form-urlencoded" := by decide
  have htext : t.text = (bytes "multipart/form-data" ++ p.before) ++ 59 :: ((p.after ++ p.name) ++ 61 :: p.valueText) := by
    rw [FormType.text, hp, ht, List.flatMap_cons, List.flatMap_nil, TypeParam.text]
    simp
  rw [Bool.eq_iff_iff, contains_iff, contains_iff, htext]
  constructor
  · intro h
    rcases Delimiter.infix_append_cons hsemi h with h | h
    · exact absurd (infix_append_blank hne hblank p.blank_before h) (by decide)
    rcases Delimiter.infix_append_cons heq h with h | h
    · -- the name is too short
      have hlen : p.name.length = 8 := by
        have hmap := congrArg List.length (of_decide_eq_true hname)
        rwa [List.length_map, List.length_map, show (bytes "boundary").length = 8 by decide] at hmap
      have hle := (infix_blank_append hne hblank p.blank_after h).length_le
      rw [hlen, show (bytes "application/x-www-form-urlencoded").length = 33 by decide] at hle
      omega
    · cases hq : p.quoted with
      | false => rwa [valueText_bare hq] at h
      | true =>
        rw [valueText_quoted hq] at h
        rcases Delimiter.infix_append_cons hquote (Delimiter.infix_of_cons hquote hne h) with h | h
        · exact h
        · exact absurd (List.infix_nil.mp h) hne
  · intro h
    have hvalue : p.value <:+: p.valueText := by
      cases hq : p.quoted with
      | false => rw [valueText_bare hq]
      | true =>
        rw [valueText_quoted hq]
        exact ⟨[QUOTE], [QUOTE], rfl⟩
    exact (h.trans hvalue).trans ⟨bytes "multipart/form-data" ++ p.before ++ 59 :: (p.after ++ p.name ++ [61]), [], by simp⟩

/-! ## `get_content_type` -/

section GetContentType

variable {env : Env} {c : Connection} {t : FormType}

theorem getContentType_form (hvalue : c.req.getHeaderValue (bytes "content-type") = t.text) :
    getContentType env c =
      if c.req.isChunked then (c, .chunked)
      else if contains t.text (bytes "application/x-www-form-urlencoded") then (c, .urlencoded)
      else ({ c with reader := c.reader.setBoundary (CRLF ++ [HYPHEN, HYPHEN] ++ formBoundary t.text) env.fill }, .multipart) := by
  have hform : contains t.text (bytes "multipart/form-data") = true :=
    contains_iff.mpr (List.prefix_append _ _).isInfix
  have hne : t.text ≠ [] := by
    intro h
    rw [h] at hform
    exact absurd hform (by decide)
  unfold getContentType
  rw [hvalue]
  simp only [hne, hform, if_true, if_false]

/-- A type with a boundary has a parameter with this value. -/
theorem exists_boundary (h : t.boundary ≠ []) :
    ∃ q ∈ t.params, t.boundary = q.value ∧ iequal q.name (bytes "boundary") = true := by
  unfold FormType.boundary at h ⊢
  cases hfind : t.params.find? fun p => iequal p.name (bytes "boundary") with
  | none =>
    rw [hfind] at h
    exact absurd rfl h
  | some q => exact ⟨q, List.mem_of_find?_eq_some hfind, rfl, by simpa using List.find?_some hfind⟩

/-- Two boundaries that leave the same parser are equal. -/
theorem setBoundary_inj {r : Multipart.Reader} {b b' : Bytes} {fill : Nat → UInt8}
    (h : r.setBoundary (CRLF ++ [HYPHEN, HYPHEN] ++ b) fill = r.setBoundary (CRLF ++ [HYPHEN, HYPHEN] ++ b') fill) : b = b' :=
  List.append_cancel_left (congrArg (fun r => r.parser.boundary) h)

/-- **The boundary of a form** reaches the parser exactly when it is the only parameter of the type, with nothing after it, and the
request is neither chunked nor taken for an urlencoded form. A type without a boundary is refused when the request is chunked. -/
theorem boundary_iff (hvalue : c.req.getHeaderValue (bytes "content-type") = t.text) :
    TakesBoundary env c t ↔ BoundaryAlone c t := by
  unfold TakesBoundary BoundaryAlone
  rw [getContentType_form hvalue]
  by_cases hempty : t.boundary = []
  · rw [if_pos hempty, if_pos hempty]
    cases c.req.isChunked with
    | true => exact iff_of_true rfl rfl
    | false =>
      refine iff_of_false ?_ (by simp)
      cases contains t.text (bytes "application/x-www-form-urlencoded") <;> simp [refuses]
  · rw [if_neg hempty, if_neg hempty]
    obtain ⟨q, hq, hb, hname⟩ := exists_boundary hempty
    constructor
    · intro h
      cases hch : c.req.isChunked with
      | true => simp [hch] at h
      | false =>
        cases hurl : contains t.text (bytes "application/x-www-form-urlencoded") with
        | true => simp [hch, hurl] at h
        | false =>
          simp only [hch, hurl, Bool.false_eq_true, if_false, Prod.mk.injEq, and_true] at h
          have hbd := setBoundary_inj (congrArg Connection.reader h)
          cases hps : t.params with
          | nil =>
            rw [hps] at hq
            exact absurd hq (by simp)
          | cons p ps =>
            rw [hps] at hq
            rw [formBoundary_text hps, hb] at hbd
            have hrest : ps.flatMap TypeParam.text ++ t.trailing = [] := by
              by_contra hrest
              exact unquote_ne hq hrest hbd
            obtain ⟨hflat, htrailing⟩ := List.append_eq_nil_iff.mp hrest
            have hnil : ps = [] := by
              cases ps with
              | nil => rfl
              | cons p' ps =>
                rw [List.flatMap_cons, TypeParam.text] at hflat
                simp at hflat
            subst hnil
            obtain rfl := List.mem_singleton.mp hq
            rw [hb, ← contains_text_alone hps htrailing hname]
            exact ⟨rfl, rfl, htrailing, hurl⟩
    · rintro ⟨hch, hlen, htrailing, hurl⟩
      obtain ⟨p, hps⟩ := List.length_eq_one_iff.mp hlen
      obtain rfl : q = p := by
        rw [hps] at hq
        exact List.mem_singleton.mp hq
      rw [hb, ← contains_text_alone hps htrailing hname] at hurl
      have hbd : formBoundary t.text = t.boundary := by
        rw [formBoundary_text hps, htrailing, List.flatMap_nil, List.append_nil, List.append_nil, unquote_valueText, hb]
      simp only [hch, hurl, Bool.false_eq_true, if_false, hbd]

end GetContentType

/-- A parameter as most clients write it: a space after the semicolon, and no quotes. -/
def bareParam (name value : Bytes) (hname : 61 ∉ name) (hquote : QUOTE ∉ value) (hbare : (value.all fun c => decide (c ≠ 59) && !isBlank c) = true) :
    TypeParam where
  before := []
  after := [SPACE]
  name := name
  value := value
  quoted := false
  blank_before := List.forall_mem_nil _
  blank_after := List.forall_mem_singleton.mpr rfl
  name_eq := hname
  value_quote := hquote
  value_bare := fun _ c hc => by simpa using List.all_eq_true.mp hbare c hc

/-- The type of a form as browsers send it, with the boundary `x`. -/
def browserForm : FormType where
  params := [bareParam (bytes "boundary") (bytes "x") (by decide) (by decide) (by decide)]
  trailing := []
  blank_trailing := List.forall_mem_nil _

/-- A type that names its character set before its boundary. -/
def charsetForm : FormType where
  params := [bareParam (bytes "charset") (bytes "utf-8") (by decide) (by decide) (by decide),
    bareParam (bytes "boundary") (bytes "x") (by decide) (by decide) (by decide)]
  trailing := []
  blank_trailing := List.forall_mem_nil _

/-- A connection with a request that has this type. -/
def withType (t : FormType) : Connection :=
  { req := { buf := [], copyHeaders := [(bytes "Content-Type", t.text)] }, res := { resType := .string } }

theorem boundary_iff_browser :
    TakesBoundary (.bare []) (withType browserForm) browserForm ↔ BoundaryAlone (withType browserForm) browserForm :=
  boundary_iff (by decide)

/-- With another parameter before it the boundary is lost. -/
theorem not_takesBoundary : ¬∀ (env : Env) (c : Connection) (t : FormType),
    c.req.getHeaderValue (bytes "content-type") = t.text → TakesBoundary env c t := by
  intro h
  have htakes := h (.bare []) (withType charsetForm) charsetForm (by decide)
  have hne : ¬charsetForm.boundary = [] := by decide
  rw [TakesBoundary, if_neg hne] at htakes
  have hboundary := congrArg (fun r => r.1.reader.parser.boundary) htakes
  exact absurd hboundary (by decide)

end Connection

end Netcore
