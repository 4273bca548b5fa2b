import Netcore.Connection.Trace
import Netcore.Http.FieldName
import Netcore.Multipart.Form

/-!
# The text fields of a form

What the callbacks of a connection make of the parts of a form whose only header is a `Content-Disposition` with a name. A
field whose name is not empty and does not have the word `filename` in it is collected whole in `multipart_form_map_`. No
other field is: one without a name is not saved, and one with that word is taken for a file, which puts the request into the
state `data_error`.
-/

namespace Netcore

open Multipart (ReaderCall Delivery)

/-- The headers of the text field `n`. -/
def fieldHeaders (n : Bytes) : Multipart.Headers := [(bytes "Content-Disposition", disposition n)]

/-- A name that the callbacks can handle. -/
structure GoodName (n : Bytes) : Prop where
  nonempty : n ≠ []
  noFilename : contains n (bytes "filename") = false

instance (n : Bytes) : Decidable (GoodName n) :=
  decidable_of_iff (n ≠ [] ∧ contains n (bytes "filename") = false) ⟨fun h => ⟨h.1, h.2⟩, fun h => ⟨h.1, h.2⟩⟩

namespace Connection

variable {env : Env} {c : Connection} {n : Bytes}

/-- The headers of the last part are those of a text field, if any. -/
def OneHeader (r : Request) : Prop := r.multipartHeaders = [] ∨ ∃ v, r.multipartHeaders = [(bytes "Content-Disposition", v)]

/-- The headers of a field replace those of the part before. -/
theorem setMultipartHeaders_field {r : Request} (h : OneHeader r) (n : Bytes) :
    (r.setMultipartHeaders (fieldHeaders n)).multipartHeaders = fieldHeaders n := by
  rcases h with h | ⟨v, h⟩
  · simp [Request.setMultipartHeaders, fieldHeaders, h, OrderedMap.insertOrAssign, OrderedMap.emplaceMulti]
  · simp [Request.setMultipartHeaders, fieldHeaders, h, OrderedMap.insertOrAssign, OrderedMap.find_cons]

/-- A field is taken for a file if its name has the word `filename`. -/
theorem isMultipartFile_field {r : Request} (h : r.multipartHeaders = fieldHeaders n) :
    r.isMultipartFile = contains n (bytes "filename") := by
  rw [← filename_mem_disposition]
  simp [Request.isMultipartFile, h, fieldHeaders, OrderedMap.find_cons]

/-- The beginning of a text field. -/
theorem onPartBegin_field (h : OneHeader c.req) (hn : QUOTE ∉ n) :
    onPartBegin env c (fieldHeaders n) =
      if contains n (bytes "filename") then
        { c with
          req := { c.req.setMultipartHeaders (fieldHeaders n) with state := .dataError }
          isMultiPartFile := true
          res := c.res.setStatusAndContent .badRequest (bytes "mutipart error") }
      else
        { c with
          req := (c.req.setMultipartHeaders (fieldHeaders n)).saveMultipartKeyValue n []
          isMultiPartFile := false } := by
  have hs := setMultipartHeaders_field h n
  have hname := Request.getMultipartFieldName_name hs
  have hfile := Request.getMultipartFieldName_filename hs hn
  have hmp := isMultipartFile_field hs
  unfold onPartBegin
  simp only [hfile, hmp, hname]
  cases contains n (bytes "filename") <;> simp

/-! ## Fields that are not collected -/

/-- A call of the reader that delivers a form of text fields. -/
def FieldCall : ReaderCall → Prop
  | .onPartBegin h => ∃ n, QUOTE ∉ n ∧ h = fieldHeaders n
  | _ => True

/-- Saving adds no entry under another name, and none under an empty one. -/
theorem find_saveMultipartKeyValue (r : Request) (k v n : Bytes) :
    OrderedMap.find (r.saveMultipartKeyValue k v).multipartFormMap n =
      if k ≠ [] ∧ k = n ∧ OrderedMap.find r.multipartFormMap k = none then some v
      else OrderedMap.find r.multipartFormMap n := by
  unfold Request.saveMultipartKeyValue
  by_cases hk : k = []
  · simp [hk]
  · simp [hk, OrderedMap.find_emplace]

/-- An update adds data to an entry that is there. -/
theorem find_updateMultipartValue (r : Request) (k x n : Bytes) :
    OrderedMap.find (r.updateMultipartValue k x).multipartFormMap n =
      if n = (if k = [] then r.lastMultpartKey else k) then (OrderedMap.find r.multipartFormMap n).map (· ++ x)
      else OrderedMap.find r.multipartFormMap n := by
  unfold Request.updateMultipartValue
  by_cases hk : k = []
  · simp only [hk, if_true]
    cases hf : OrderedMap.find r.multipartFormMap r.lastMultpartKey with
    | none =>
      by_cases hn : n = r.lastMultpartKey
      · simp [hn, hf]
      · simp [hn]
    | some v =>
      by_cases hn : n = r.lastMultpartKey
      · simp [hn, hf, OrderedMap.find_insertOrAssign]
      · simp [hn, Ne.symm hn, OrderedMap.find_insertOrAssign]
  · simp only [hk, if_false]
    cases hf : OrderedMap.find r.multipartFormMap k with
    | none =>
      by_cases hn : n = k
      · simp [hn, hf]
      · simp [hn]
    | some v =>
      by_cases hn : n = k
      · simp [hn, hf, OrderedMap.find_insertOrAssign]
      · simp [hn, Ne.symm hn, OrderedMap.find_insertOrAssign]

/-- The map has no entry for `n`. -/
def Lacks (n : Bytes) (c : Connection) : Prop :=
  OrderedMap.find c.req.multipartFormMap n = none ∧ OneHeader c.req

/-- No call of the reader adds an entry for a name that the callbacks cannot handle. -/
theorem onReaderCall_lacks {call : ReaderCall} (hn : ¬GoodName n) (hcall : FieldCall call) (h : Lacks n c) :
    Lacks n (onReaderCall env c call) := by
  obtain ⟨hf, hh⟩ := h
  cases call with
  | onPartBegin headers =>
    obtain ⟨m, hq, rfl⟩ := hcall
    have hs := setMultipartHeaders_field hh m
    rw [onReaderCall, onPartBegin_field hh hq]
    split_ifs with hfile
    · exact ⟨hf, .inr ⟨_, hs⟩⟩
    · refine ⟨?_, ?_⟩
      · rw [find_saveMultipartKeyValue, if_neg]
        · exact hf
        · rintro ⟨hne, rfl, -⟩
          exact hn ⟨hne, by simpa using hfile⟩
      · right
        refine ⟨disposition m, ?_⟩
        unfold Request.saveMultipartKeyValue
        split <;> exact hs
  | onPartData data =>
    unfold onReaderCall onPartData
    dsimp only
    split_ifs
    · exact ⟨hf, hh⟩
    · exact ⟨hf, hh⟩
    · unfold Request.writeUploadData
      split <;> exact ⟨hf, hh⟩
    · refine ⟨?_, ?_⟩
      · rw [find_updateMultipartValue, hf]
        simp
      · unfold Request.updateMultipartValue
        dsimp only
        split <;> split <;> exact hh
  | onPartEnd =>
    have hclose : OrderedMap.find c.req.closeUploadFile.multipartFormMap n = none ∧ OneHeader c.req.closeUploadFile := by
      unfold Request.closeUploadFile
      split <;> exact ⟨hf, hh⟩
    unfold onReaderCall onPartEnd
    dsimp only
    split_ifs
    · exact ⟨hf, hh⟩
    · split
      · exact hclose
      · split
        · exact hclose
        · exact hclose
    · exact ⟨hf, hh⟩
  | onEnd =>
    unfold onReaderCall onEnd
    dsimp only
    split <;> exact ⟨hf, hh⟩

/-- Calls about fields leave a name that the callbacks cannot handle without an entry. -/
theorem foldl_lacks {calls : List ReaderCall} (hn : ¬GoodName n) : ∀ {c : Connection}, (∀ call ∈ calls, FieldCall call) →
    Lacks n c → Lacks n (calls.foldl (onReaderCall env) c) := by
  induction calls with
  | nil => exact fun _ h => h
  | cons call calls ih =>
    intro c hcalls h
    exact ih (fun x hx => hcalls x (List.mem_cons_of_mem call hx)) (onReaderCall_lacks hn (hcalls call (by simp)) h)

/-! ## Fields that are collected -/

/-- A connection that collects fields: no part was refused. -/
structure Collecting (c : Connection) : Prop where
  oneHeader : OneHeader c.req
  state : c.req.state ≠ .dataError

/-- The same, inside the field `n`, of which `v` has arrived. -/
structure InField (n v : Bytes) (c : Connection) : Prop where
  headers : c.req.multipartHeaders = fieldHeaders n
  state : c.req.state ≠ .dataError
  text : c.isMultiPartFile = false
  value : OrderedMap.find c.req.multipartFormMap n = some v

/-- A field begins with an empty value, and the other fields stay. -/
theorem onPartBegin_collects (h : Collecting c) (hn : GoodName n) (hq : QUOTE ∉ n)
    (hnew : OrderedMap.find c.req.multipartFormMap n = none) :
    InField n [] (onReaderCall env c (.onPartBegin (fieldHeaders n))) ∧ ∀ k, k ≠ n →
      OrderedMap.find (onReaderCall env c (.onPartBegin (fieldHeaders n))).req.multipartFormMap k =
        OrderedMap.find c.req.multipartFormMap k := by
  have hs := setMultipartHeaders_field h.oneHeader n
  have hfind := find_saveMultipartKeyValue (c.req.setMultipartHeaders (fieldHeaders n)) n []
  have hnew' : OrderedMap.find (c.req.setMultipartHeaders (fieldHeaders n)).multipartFormMap n = none := hnew
  rw [onReaderCall, onPartBegin_field h.oneHeader hq, if_neg (by simp [hn.noFilename])]
  refine ⟨⟨?_, ?_, rfl, ?_⟩, ?_⟩
  · show (Request.saveMultipartKeyValue _ _ _).multipartHeaders = _
    rw [Request.saveMultipartKeyValue, if_neg hn.nonempty]
    exact hs
  · show (Request.saveMultipartKeyValue _ _ _).state ≠ _
    rw [Request.saveMultipartKeyValue, if_neg hn.nonempty]
    exact h.state
  · exact (hfind n).trans (if_pos ⟨hn.nonempty, rfl, hnew'⟩)
  · intro k hk
    exact (hfind k).trans (if_neg fun hc => hk hc.2.1.symm)

/-- Part data is added to the field under way, and the other fields stay. -/
theorem onPartData_collects {v : Bytes} (h : InField n v c) (hn : GoodName n) (x : Bytes) :
    InField n (v ++ x) (onReaderCall env c (.onPartData x)) ∧ ∀ k, k ≠ n →
      OrderedMap.find (onReaderCall env c (.onPartData x)).req.multipartFormMap k =
        OrderedMap.find c.req.multipartFormMap k := by
  have hname := Request.getMultipartFieldName_name h.headers
  have hfind := find_updateMultipartValue c.req n x
  simp only [if_neg hn.nonempty] at hfind
  have heq : onReaderCall env c (.onPartData x) = { c with req := c.req.updateMultipartValue n x } := by
    rw [onReaderCall, onPartData, if_neg h.state, if_neg (by simp [h.text]), hname]
  have hmem : (c.req.updateMultipartValue n x).multipartHeaders = c.req.multipartHeaders ∧
      (c.req.updateMultipartValue n x).state = c.req.state := by
    unfold Request.updateMultipartValue
    dsimp only
    split <;> split <;> exact ⟨rfl, rfl⟩
  rw [heq]
  refine ⟨⟨hmem.1.trans h.headers, by rw [hmem.2]; exact h.state, h.text, ?_⟩, ?_⟩
  · rw [hfind, if_pos rfl, h.value]
    rfl
  · intro k hk
    rw [hfind, if_neg hk]

/-- Data in pieces is added as a whole. -/
theorem foldl_data {ss : List Bytes} (hn : GoodName n) : ∀ {v : Bytes} {c : Connection}, InField n v c →
    InField n (v ++ ss.flatten) ((ss.map .onPartData).foldl (onReaderCall env) c) ∧ ∀ k, k ≠ n →
      OrderedMap.find ((ss.map .onPartData).foldl (onReaderCall env) c).req.multipartFormMap k =
        OrderedMap.find c.req.multipartFormMap k := by
  induction ss with
  | nil =>
    intro v c h
    simpa using h
  | cons x ss ih =>
    intro v c h
    obtain ⟨h1, h2⟩ := onPartData_collects h hn x
    obtain ⟨h3, h4⟩ := ih h1
    rw [List.map_cons, List.foldl_cons, List.flatten_cons, ← List.append_assoc]
    exact ⟨h3, fun k hk => (h4 k hk).trans (h2 k hk)⟩

/-- The end of a field does nothing. -/
theorem onPartEnd_collects {v : Bytes} (h : InField n v c) : onReaderCall env c .onPartEnd = c := by
  rw [onReaderCall, onPartEnd, if_neg h.state, if_neg (by simp [h.text])]

/-- The end of the form leaves the fields as they are. -/
theorem onEnd_map (c : Connection) : (onReaderCall env c .onEnd).req.multipartFormMap = c.req.multipartFormMap := by
  unfold onReaderCall onEnd
  dsimp only
  split <;> rfl

/-- A form of fields with good names that are not there yet: all of them are collected, and nothing else changes. -/
theorem foldl_callsOf {sl : List (Multipart.Headers × List Bytes)} : ∀ {fields : List (Bytes × Bytes)} {c : Connection},
    sl.map (fun x => (x.1, x.2.flatten)) = fields.map (fun f => (fieldHeaders f.1, f.2)) → Collecting c →
    (∀ f ∈ fields, GoodName f.1 ∧ QUOTE ∉ f.1 ∧ OrderedMap.find c.req.multipartFormMap f.1 = none) →
    (fields.map Prod.fst).Nodup →
    (∀ f ∈ fields, OrderedMap.find ((Delivery.callsOf sl).foldl (onReaderCall env) c).req.multipartFormMap f.1 = some f.2) ∧
    ∀ k, k ∉ fields.map Prod.fst → OrderedMap.find ((Delivery.callsOf sl).foldl (onReaderCall env) c).req.multipartFormMap k =
      OrderedMap.find c.req.multipartFormMap k := by
  induction sl with
  | nil =>
    intro fields c hsl _ _ _
    obtain rfl : fields = [] := by simpa using hsl.symm
    refine ⟨by simp, fun k _ => ?_⟩
    rw [Delivery.callsOf, List.foldl_cons, List.foldl_nil, onEnd_map]
  | cons x sl ih =>
    intro fields c hsl hc hgood hnodup
    cases fields with
    | nil => simp at hsl
    | cons f fields =>
      obtain ⟨headers, ss⟩ := x
      simp only [List.map_cons, List.cons.injEq, Prod.mk.injEq] at hsl
      obtain ⟨⟨rfl, hss⟩, hrest⟩ := hsl
      rw [List.map_cons, List.nodup_cons] at hnodup
      obtain ⟨hg, hq, hnew⟩ := hgood f (by simp)
      obtain ⟨b1, b2⟩ := onPartBegin_collects hc hg hq hnew
      obtain ⟨d1, d2⟩ := foldl_data hg b1
      rw [Delivery.callsOf, List.foldl_cons, List.foldl_append, List.foldl_cons, onPartEnd_collects d1]
      generalize (ss.map .onPartData).foldl (onReaderCall env) (onReaderCall env c (.onPartBegin (fieldHeaders f.1))) = c₂ at d1 d2
      -- after the first field: the others are still new
      have hold : ∀ k, k ≠ f.1 → OrderedMap.find c₂.req.multipartFormMap k = OrderedMap.find c.req.multipartFormMap k :=
        fun k hk => (d2 k hk).trans (b2 k hk)
      have hgood' : ∀ g ∈ fields, GoodName g.1 ∧ QUOTE ∉ g.1 ∧ OrderedMap.find c₂.req.multipartFormMap g.1 = none := by
        intro g hg'
        obtain ⟨g1, g2, g3⟩ := hgood g (List.mem_cons_of_mem f hg')
        refine ⟨g1, g2, (hold g.1 ?_).trans g3⟩
        intro he
        exact hnodup.1 (he ▸ List.mem_map_of_mem hg')
      obtain ⟨i1, i2⟩ := ih hrest ⟨.inr ⟨_, d1.headers⟩, d1.state⟩ hgood' hnodup.2
      refine ⟨?_, ?_⟩
      · intro g hg'
        rcases List.mem_cons.mp hg' with rfl | hg'
        · rw [i2 g.1 hnodup.1, d1.value, ← hss]
          rfl
        · exact i1 g hg'
      · intro k hk
        simp only [List.map_cons, List.mem_cons, not_or] at hk
        rw [i2 k hk.2, hold k hk.1]

/-- The calls that deliver a form of text fields. -/
theorem fieldCall_of_mem {sl : List (Multipart.Headers × List Bytes)} (h : ∀ x ∈ sl, ∃ n, QUOTE ∉ n ∧ x.1 = fieldHeaders n) :
    ∀ call ∈ Delivery.callsOf sl, FieldCall call := by
  induction sl with
  | nil =>
    intro call hcall
    rw [Delivery.callsOf, List.mem_singleton] at hcall
    rw [hcall]
    trivial
  | cons x sl ih =>
    intro call hcall
    obtain ⟨headers, ss⟩ := x
    rw [Delivery.callsOf, List.mem_cons, List.mem_append, List.mem_cons] at hcall
    rcases hcall with rfl | hcall | rfl | hcall
    · exact h (headers, ss) (by simp)
    · obtain ⟨x, -, rfl⟩ := List.mem_map.mp hcall
      trivial
    · trivial
    · exact ih (fun y hy => h y (List.mem_cons_of_mem _ hy)) call hcall

end Connection

end Netcore
