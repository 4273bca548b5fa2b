import Netcore.Http.PercentEncoding
import Netcore.Http.WellFormed

/-!
# Query parameters

`get_query_value` looks a key up among the queries of the URL and then among the form values. An encoded value is decoded, and the
text is kept in `utf8_character_params_` under the URL followed by the key, where a later lookup finds it again.

A URL whose query has been put together with `url_encode` (`queryText`) is read back: whatever the keys and however often they are
looked up, the values are those that were encoded (`lookups_write`).
-/

namespace Netcore

open Slices

/-! ## The lookup -/

namespace Request

/-- `map_key` of `get_query_value`: the URL, without a slash at its end, and the key. -/
def mapKey (r : Request) (key : Bytes) : Bytes :=
  (if 1 < r.getUrl.length ∧ r.getUrl.getLast? = some SLASH then r.getUrl.dropLast else r.getUrl) ++ key

/-- What `get_query_value` does with the value that it has found: the new `utf8_character_params_`, and its answer. -/
def decodedValue (params : List (Bytes × Bytes)) (mapKey value : Bytes) : List (Bytes × Bytes) × Bytes :=
  if isUrlEncode value then
    let params := OrderedMap.emplace params mapKey (urlDecode value)
    (params, (OrderedMap.find params mapKey).getD [])
  else (params, value)

/-- `get_query_value`, with `utf8_character_params_` as it was and as it is afterwards. -/
def getQueryValue (r : Request) (params : List (Bytes × Bytes)) (key : Bytes) : List (Bytes × Bytes) × Bytes :=
  match OrderedMap.find r.queries key with
  | some value => decodedValue params (r.mapKey key) value
  | none =>
    match OrderedMap.find r.formUrlMap key with
    | some value => decodedValue params (r.mapKey key) value
    | none => (params, [])

/-- The answers to lookups one after the other. -/
def lookups (r : Request) (params : List (Bytes × Bytes)) : List Bytes → List Bytes
  | [] => []
  | key :: keys => (r.getQueryValue params key).2 :: r.lookups (r.getQueryValue params key).1 keys

theorem mapKey_inj {r : Request} {key key' : Bytes} (h : r.mapKey key = r.mapKey key') : key = key' := List.append_cancel_left h

end Request

/-! ## The text of a query -/

/-- A parameter in a query. -/
def queryPair (e : Bytes × Bytes) : Bytes := e.1 ++ 61 :: urlEncode e.2

/-- The query with the parameters `pairs`. -/
def queryText : List (Bytes × Bytes) → Bytes
  | [] => []
  | e :: pairs => queryPair e ++ pairs.flatMap fun x => 38 :: queryPair x

theorem isUrlSafe_ne {c : UInt8} (h : isUrlSafe c = true) : c ≠ 61 ∧ c ≠ 38 ∧ c ≠ SPACE :=
  ⟨ne_of_class h (by decide), ne_of_class h (by decide), ne_of_class h (by decide)⟩

/-- No separator and no space is left in what has been encoded. -/
theorem urlEncode_ne {v : Bytes} {c : UInt8} (h : c ∈ urlEncode v) : c ≠ 61 ∧ c ≠ 38 ∧ c ≠ SPACE := by
  have hall : ∀ d : UInt8, 61 ∉ urlEncodeChar d ∧ 38 ∉ urlEncodeChar d ∧ SPACE ∉ urlEncodeChar d :=
    forall_byte (by decide +kernel)
  obtain ⟨d, -, hc⟩ := List.mem_flatMap.mp h
  obtain ⟨heq, hamp, hspace⟩ := hall d
  exact ⟨ne_of_mem_of_not_mem hc heq, ne_of_mem_of_not_mem hc hamp, ne_of_mem_of_not_mem hc hspace⟩

theorem trim_of_notMem {v : Bytes} (h : SPACE ∉ v) : trim v = v := by
  have hdrop : ∀ w : Bytes, SPACE ∉ w → w.dropWhile (· = SPACE) = w := by
    intro w hw
    cases w with
    | nil => rfl
    | cons c cs =>
      have hc : ¬c = SPACE := by
        rintro rfl
        exact hw List.mem_cons_self
      rw [List.dropWhile_cons_of_neg (by simpa using hc)]
  rw [trim, hdrop v h, hdrop v.reverse (by simpa using h), List.reverse_reverse]

/-- A text without percent and plus signs stands for itself. -/
theorem urlDecode_of_isUrlEncode {v : Bytes} (h : ¬isUrlEncode v = true) : urlDecode v = v := by
  have hne : ∀ c ∈ v, c ≠ 37 ∧ c ≠ 43 := by
    intro c hc
    refine ⟨?_, ?_⟩
    · rintro rfl
      exact h (decide_eq_true (.inl hc))
    · rintro rfl
      exact h (decide_eq_true (.inr hc))
  have hself := urlDecode_flatMap (f := fun c => [c]) fun c hc => decodes_singleton (hne c hc).1 (hne c hc).2
  rwa [List.flatMap_singleton'] at hself

/-! ## `parse_query` reads it -/

namespace QueryState

/-- Bytes that are no separators are taken as they are. -/
theorem foldl_plain {s : Bytes} (h : ∀ c ∈ s, c ≠ 61 ∧ c ≠ 38) (q : QueryState) :
    s.foldl step q = { q with current := q.current ++ s } := by
  induction s generalizing q with
  | nil => simp
  | cons c s ih =>
    obtain ⟨h1, h2⟩ := h c List.mem_cons_self
    rw [List.foldl_cons, step, if_neg h1, if_neg h2, ih fun x hx => h x (List.mem_cons_of_mem c hx)]
    simp

/-- A parameter, from the beginning of its key on. -/
theorem foldl_queryPair {e : Bytes × Bytes} (h : ∀ c ∈ e.1, isUrlSafe c = true) {q : QueryState} (hq : q.current = []) :
    (queryPair e).foldl step q = { q with key := e.1, current := urlEncode e.2, seen := true } := by
  have hkey : SPACE ∉ e.1 := fun hs => (isUrlSafe_ne (h SPACE hs)).2.2 rfl
  rw [queryPair, List.foldl_append, foldl_plain fun c hc => ⟨(isUrlSafe_ne (h c hc)).1, (isUrlSafe_ne (h c hc)).2.1⟩,
    List.foldl_cons, hq, List.nil_append, step, if_pos rfl,
    foldl_plain fun c hc => ⟨(urlEncode_ne hc).1, (urlEncode_ne hc).2.1⟩]
  simp [trim_of_notMem hkey]

/-- The parameter in hand goes to the others at the end. -/
def close (q : QueryState) : List (Bytes × Bytes) := OrderedMap.emplace q.query q.key (trim q.current)

/-- Parameters after a first one. -/
theorem close_foldl_pairs {pairs : List (Bytes × Bytes)} (h : ∀ e ∈ pairs, ∀ c ∈ e.1, isUrlSafe c = true) (q : QueryState)
    (hq : q.seen = true) :
    ((pairs.flatMap fun x => 38 :: queryPair x).foldl step q).seen = true ∧
      ((pairs.flatMap fun x => 38 :: queryPair x).foldl step q).close =
        pairs.foldl (fun m e => OrderedMap.emplace m e.1 (urlEncode e.2)) q.close := by
  induction pairs generalizing q with
  | nil => exact ⟨hq, rfl⟩
  | cons e pairs ih =>
    have hamp : step q 38 = { q with query := q.close, current := [], seen := true } := rfl
    have hval : SPACE ∉ urlEncode e.2 := fun hs => (urlEncode_ne hs).2.2 rfl
    obtain ⟨hseen, hclose⟩ := ih (fun x hx => h x (List.mem_cons_of_mem e hx))
      { q with query := q.close, key := e.1, current := urlEncode e.2, seen := true } rfl
    rw [List.flatMap_cons, List.foldl_append, List.foldl_cons, hamp, foldl_queryPair (h e List.mem_cons_self) rfl, List.foldl_cons]
    refine ⟨hseen, hclose.trans ?_⟩
    conv_lhs => rw [close]
    simp only [trim_of_notMem hval]

end QueryState

/-- The map that `parse_query` makes of a query. -/
theorem parseQuery_queryText {pairs : List (Bytes × Bytes)} (hne : pairs ≠ [])
    (h : ∀ e ∈ pairs, ∀ c ∈ e.1, isUrlSafe c = true) :
    parseQuery (queryText pairs) = pairs.foldl (fun m e => OrderedMap.emplace m e.1 (urlEncode e.2)) [] := by
  cases pairs with
  | nil => exact absurd rfl hne
  | cons e pairs =>
    have hval : SPACE ∉ urlEncode e.2 := fun hs => (urlEncode_ne hs).2.2 rfl
    obtain ⟨hseen, hclose⟩ := QueryState.close_foldl_pairs (fun x hx => h x (List.mem_cons_of_mem e hx))
      { key := e.1, current := urlEncode e.2, seen := true } rfl
    unfold parseQuery queryText
    rw [List.foldl_append, QueryState.foldl_queryPair (h e List.mem_cons_self) rfl]
    refine (if_pos hseen).trans (hclose.trans ?_)
    rw [QueryState.close, trim_of_notMem hval, List.foldl_cons]

/-- The value that is found is the encoded value of the key. -/
theorem find_parseQuery {pairs : List (Bytes × Bytes)} (hne : pairs ≠ []) (h : ∀ e ∈ pairs, ∀ c ∈ e.1, isUrlSafe c = true)
    (key : Bytes) : OrderedMap.find (parseQuery (queryText pairs)) key = (OrderedMap.find pairs key).map urlEncode := by
  have hfold := OrderedMap.find_foldl_emplace (pairs.map fun e => (e.1, urlEncode e.2)) [] key
  rw [List.foldl_map, OrderedMap.find_nil, Option.none_or, OrderedMap.find_map_snd] at hfold
  rw [parseQuery_queryText hne h, hfold]

/-! ## Lookups -/

namespace Request

/-- The parameters of `r` are `pairs`, each with its value encoded. -/
structure Encodes (r : Request) (pairs : List (Bytes × Bytes)) : Prop where
  queries : ∀ key, OrderedMap.find r.queries key = (OrderedMap.find pairs key).map urlEncode
  formUrlMap : r.formUrlMap = []

/-- What `utf8_character_params_` has been given under a key is the value of the key. -/
def Cached (r : Request) (pairs params : List (Bytes × Bytes)) : Prop :=
  ∀ key value, OrderedMap.find params (r.mapKey key) = some value → OrderedMap.find pairs key = some value

variable {r : Request} {pairs : List (Bytes × Bytes)}

/-- A lookup answers with the value that was encoded, or with nothing, and what it keeps is the value of its key. -/
theorem Encodes.getQueryValue (h : r.Encodes pairs) {params : List (Bytes × Bytes)} (hp : r.Cached pairs params) (key : Bytes) :
    (r.getQueryValue params key).2 = (OrderedMap.find pairs key).getD [] ∧ r.Cached pairs (r.getQueryValue params key).1 := by
  unfold Request.getQueryValue
  rw [h.queries]
  cases hv : OrderedMap.find pairs key with
  | none =>
    rw [h.formUrlMap]
    exact ⟨rfl, hp⟩
  | some value =>
    simp only [Option.map_some, decodedValue]
    split
    · rename_i henc
      have hfind : ∀ k w, OrderedMap.find (OrderedMap.emplace params (r.mapKey key) (urlDecode (urlEncode value))) (r.mapKey k) =
          some w → OrderedMap.find pairs k = some w := by
        intro k w hw
        rw [OrderedMap.find_emplace] at hw
        split at hw
        · rename_i hnew
          rw [← mapKey_inj hnew.1, hv, ← hw, urlDecode_urlEncode]
        · exact hp k w hw
      refine ⟨?_, hfind⟩
      cases hold : OrderedMap.find params (r.mapKey key) with
      | none => rw [OrderedMap.find_emplace, if_pos ⟨rfl, hold⟩, urlDecode_urlEncode]
      | some w =>
        rw [OrderedMap.find_emplace, if_neg (by simp [hold]), hold, ← hv, hp key w hold]
    · rename_i henc
      exact ⟨by rw [← urlDecode_of_isUrlEncode henc, urlDecode_urlEncode, Option.getD_some], hp⟩

/-- Any number of lookups, in any order. -/
theorem Encodes.lookups (h : r.Encodes pairs) (keys : List Bytes) (params : List (Bytes × Bytes)) (hp : r.Cached pairs params) :
    r.lookups params keys = keys.map fun key => (OrderedMap.find pairs key).getD [] := by
  induction keys generalizing params with
  | nil => rfl
  | cons key keys ih =>
    obtain ⟨hval, hnext⟩ := h.getQueryValue hp key
    rw [Request.lookups, hval, ih _ hnext, List.map_cons]

end Request

/-! ## A request with parameters -/

/-- A request whose URL is a path with a query of encoded parameters is parsed, and then every lookup answers with the value of its
key, whatever bytes that is; a key that is no parameter has no value. -/
theorem lookups_write (h : RequestHead) {path : Bytes} {pairs : List (Bytes × Bytes)} (hne : pairs ≠ [])
    (hdistinct : (pairs.map Prod.fst).Nodup) (hkeys : ∀ e ∈ pairs, ∀ c ∈ e.1, isUrlSafe c = true) (hslash : SLASH ∈ path)
    (hquery : 63 ∉ path) (htarget : h.target = path ++ 63 :: queryText pairs) {r : Request}
    {check : Option (Request → Bool)} (hr : r.received = h.write) (hs : r.curSize ≤ r.buf.length)
    (hm : r.curSize ≤ r.maxHeaderLen) (ha : check.map (· r.parseTokens) ≠ some false) (hf : r.formUrlMap = []) :
    ∃ q, r.parseHeader check = (q, (h.write.length : Int)) ∧ ∀ keys, List.Forall₂ (fun key value =>
      (∀ v, (key, v) ∈ pairs → value = v) ∧ (key ∉ pairs.map Prod.fst → value = [])) keys (q.lookups [] keys) := by
  have hlen : 0 ≤ Head.len r.received := by
    rw [hr, h.len_write]
    exact Int.natCast_nonneg _
  have hread : (phrParseRequest r.received).path.read r.received = h.target := by rw [hr, h.target_write]
  have hcomplete : Head.Complete r.received := ⟨hlen, by rw [hread, htarget]; exact List.mem_append_left _ hslash⟩
  obtain ⟨q, hq, hp, hurl⟩ := Request.parseHeader_accepted hcomplete hs hm ha
  obtain ⟨hform, hqueries⟩ := Request.parseFields_queries hurl
  have htoken : r.parseTokens.url.read r.buf = h.target := by
    rw [← hread]
    exact (congrArg _ hp.buf).symm.trans (hp.read (Head.within hlen).path)
  have hparse : q.queries = parseQuery (queryText pairs) := by
    have hpos := idxOf?_append_cons hquery (queryText pairs)
    rw [← htarget, ← htoken] at hpos
    rw [hqueries _ hpos, htoken, htarget, ← List.drop_drop, List.drop_left, List.drop_one, List.tail_cons]
  have henc : q.Encodes pairs := ⟨fun key => by rw [hparse, find_parseQuery hne hkeys], hform.trans hf⟩
  refine ⟨q, by rw [hq, hr, h.len_write], fun keys => ?_⟩
  have hnew : q.Cached pairs [] := by
    intro key value hv
    rw [OrderedMap.find_nil] at hv
    cases hv
  rw [henc.lookups keys [] hnew, List.forall₂_map_right_iff, List.forall₂_same]
  intro key _
  refine ⟨fun v hv => ?_, fun hkey => ?_⟩
  · rw [OrderedMap.find_of_mem hdistinct hv, Option.getD_some]
  · rw [OrderedMap.find_eq_none hkey, Option.getD_none]

/-- The head of a request with the parameters `a`, whose value is a percent sign and a space, and `b`, whose value is empty. -/
def parametersHead : RequestHead where
  method := bytes "GET"
  target := bytes "/q" ++ 63 :: queryText [(bytes "a", bytes "% "), (bytes "b", [])]
  lines := []
  method_ne := by decide
  method_chars := List.all_eq_true.mp (by decide)
  target_chars := List.all_eq_true.mp (by decide)
  lines_le := by decide

theorem lookups_parametersHead : ∃ q, Request.parseHeader { buf := parametersHead.write, curSize := parametersHead.write.length }
      none = (q, (parametersHead.write.length : Int)) ∧
    ∀ keys, List.Forall₂ (fun key value =>
      (∀ v, (key, v) ∈ [(bytes "a", bytes "% "), (bytes "b", [])] → value = v) ∧
        (key ∉ [(bytes "a", bytes "% "), (bytes "b", [])].map Prod.fst → value = [])) keys (q.lookups [] keys) :=
  lookups_write parametersHead (by decide) (by decide)
    (by
      intro e he
      simp only [List.mem_cons, List.not_mem_nil, or_false] at he
      rcases he with rfl | rfl
      · exact List.all_eq_true.mp (by decide)
      · exact List.all_eq_true.mp (by decide))
    (by decide) (by decide) rfl
    (r := { buf := parametersHead.write, curSize := parametersHead.write.length }) List.take_length (le_refl _) (by decide)
    (by simp) rfl

end Netcore
