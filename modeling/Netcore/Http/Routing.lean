import Netcore.Http.Router
import Netcore.Lib.OrderedMap

/-!
# Registrations and what `route` invokes

A router is filled by registrations, each with its methods and its handler. A name that ends with `*` is a wildcard; the wildcards
are in an `unordered_map`, which is iterated in an order of its own, and a regular expression goes behind those that were there.

`methods_iff` says when the handler that is invoked was registered for the method of the request: of the methods only the first
letters are kept, and for a wildcard they are not looked at. `route_perm` says which of the registrations have to agree for `route`
not to depend on the order in which they were made.
-/

namespace Netcore

/-- The character that ends the name of a wildcard. -/
def ASTERISK : UInt8 := 42

/-- A call of `register_handler` or of `register_handler_for_regex`. -/
inductive Registration where
  | named (name : Bytes) (invoker : Invoker)
  | regex (pattern : Bytes → Bool) (invoker : Invoker)

namespace Registration

/-- An entry for `map_invokers_`. -/
def mapEntry : Registration → Option (Bytes × Invoker)
  | named name invoker => if name.getLast? = some ASTERISK then none else some (name, invoker)
  | regex _ _ => none

/-- An entry for `wildcard_invokers_`. -/
def wildcardEntry : Registration → Option (Bytes × Invoker)
  | named name invoker => if name.getLast? = some ASTERISK then some (name.dropLast, invoker) else none
  | regex _ _ => none

/-- An entry for `regex_invokers_`. -/
def regexEntry : Registration → Option ((Bytes → Bool) × Invoker)
  | named _ _ => none
  | regex p invoker => some (p, invoker)

/-- The name that is registered; a regular expression has none. -/
def name? : Registration → Option Bytes
  | named name _ => some name
  | regex _ _ => none

end Registration

namespace Router

/-- `register_nonmember_func`, `register_handler_for_regex`. -/
def register (r : Router) : Registration → Router
  | .named name invoker =>
    if name.getLast? = some ASTERISK then
      { r with wildcardInvokers := OrderedMap.insertOrAssign r.wildcardInvokers name.dropLast invoker }
    else { r with mapInvokers := OrderedMap.insertOrAssign r.mapInvokers name invoker }
  | .regex p invoker => { r with regexInvokers := r.regexInvokers ++ [(p, invoker)] }

/-- The router after some registrations. -/
def registered (regs : List Registration) : Router := regs.foldl register {}

/-- The wildcards in the order in which they are iterated. -/
def iterated (r : Router) (order : List (Bytes × Invoker) → List (Bytes × Invoker)) : Router :=
  { r with wildcardInvokers := order r.wildcardInvokers }

/-- What `route` goes on with after a URL that has no route of its own: a file is looked up under the name of static resources. -/
def fallback (url : Bytes) : Bytes := if DOT ∈ url then staticResource else url

/-- The regular expression or the exact name that is invoked for a URL. -/
def invokedExact (r : Router) (url : Bytes) : Option Invoker := (r.exact url).or (r.exact (fallback url))

/-- The wildcard that is invoked for a URL. -/
def invokedWildcard (r : Router) (url : Bytes) : Option Invoker :=
  (r.wildcardInvokers.find? fun e => contains (fallback url) e.1).map Prod.snd

/-- The letter of the method is marked. -/
def admitted (i : Invoker) (method : Bytes) : Bool :=
  let letter := method.headD 0
  if letter < 65 ∨ 90 < letter then false else i.admits letter

/-- The route that `route` invokes the handler of. -/
def invoked (r : Router) (method url : Bytes) : Option Invoker :=
  match r.invokedExact url with
  | some i => if admitted i method then some i else none
  | none => r.invokedWildcard url

theorem invoke_eq (i : Invoker) (method : Bytes) : invoke i method = if admitted i method then some i.target else none := by
  rw [invoke, admitted]
  by_cases hletter : method.headD 0 < 65 ∨ 90 < method.headD 0
  · rw [if_pos hletter, if_pos hletter]
    rfl
  · rw [if_neg hletter, if_neg hletter]

/-- `route` invokes the handler of that route. -/
theorem route_eq (r : Router) (method url : Bytes) : r.route method url = (r.invoked method url).map Invoker.target := by
  have hone : ∀ i, invoke i method = (if admitted i method then some i else none).map Invoker.target := by
    intro i
    rw [invoke_eq]
    split_ifs <;> rfl
  have hwild : ∀ key, r.getWildcardFunction key =
      ((r.wildcardInvokers.find? fun e => contains key e.1).map Prod.snd).map Invoker.target := by
    intro key
    rw [getWildcardFunction, Option.map_map]
    rfl
  rw [route, invoked, invokedExact, invokedWildcard, fallback]
  cases hexact : r.exact url with
  | some i => exact hone i
  | none =>
    rw [Option.none_or]
    split_ifs with hdot
    · cases r.exact staticResource with
      | some i => exact hone i
      | none => exact hwild staticResource
    · rw [hexact]
      exact hwild url

/-! ## Methods -/

/-- The method is one of those that the route was registered for. -/
def RegisteredFor (i : Invoker) (method : Bytes) : Prop := ∃ m ∈ i.methods, m.name = method

/-- The condition for a handler to be invoked only for its methods. A route with a name or a regular expression has no method that
begins with the same letter as the method of the request, or has that method; and a wildcard has it. -/
structure MethodsApart (r : Router) (method url : Bytes) : Prop where
  exact : ∀ i, r.invokedExact url = some i → (∃ m ∈ i.methods, m.name.head? = method.head?) → RegisteredFor i method
  wildcard : r.invokedExact url = none → ∀ i, r.invokedWildcard url = some i → RegisteredFor i method

/-- The names of the methods begin with capital letters. -/
theorem name_head (m : HttpMethod) : ∃ letter rest, m.name = letter :: rest ∧ 65 ≤ letter ∧ letter ≤ 90 := by
  cases m <;> exact ⟨_, _, rfl, by decide, by decide⟩

theorem admitted_iff (i : Invoker) (method : Bytes) :
    admitted i method = true ↔ ∃ m ∈ i.methods, m.name.head? = method.head? := by
  rw [admitted]
  cases method with
  | nil =>
    rw [if_pos (show ([] : Bytes).headD 0 < 65 ∨ 90 < ([] : Bytes).headD 0 by decide)]
    refine iff_of_false Bool.false_ne_true ?_
    rintro ⟨m, -, hm⟩
    obtain ⟨letter, rest, hname, -⟩ := name_head m
    rw [hname] at hm
    exact absurd hm (by simp)
  | cons c method =>
    rw [List.headD_cons, List.head?_cons]
    split_ifs with hc
    · refine iff_of_false (by decide) ?_
      rintro ⟨m, -, hm⟩
      obtain ⟨letter, rest, hname, hlo, hhi⟩ := name_head m
      rw [hname, List.head?_cons] at hm
      obtain rfl := Option.some.inj hm
      rcases hc with hc | hc
      · exact absurd hlo (UInt8.not_le.mpr hc)
      · exact absurd hhi (UInt8.not_le.mpr hc)
    · simp [Invoker.admits]

/-- **The methods of a route**: for every list of registrations and every order in which the wildcards are iterated, the handler that
is invoked was registered for the method of the request exactly when the route that is found keeps the methods apart. -/
theorem methods_iff (regs : List Registration) (order : List (Bytes × Invoker) → List (Bytes × Invoker)) (method url : Bytes) :
    (∀ i, ((registered regs).iterated order).invoked method url = some i → RegisteredFor i method) ↔
      ((registered regs).iterated order).MethodsApart method url := by
  generalize (registered regs).iterated order = r
  rw [invoked]
  cases hexact : r.invokedExact url with
  | some i =>
    constructor
    · intro h
      refine ⟨fun i' hi' hletter => ?_, fun hnone => absurd (hexact.symm.trans hnone) (by simp)⟩
      obtain rfl := Option.some.inj (hexact.symm.trans hi')
      exact h i (if_pos ((admitted_iff i method).mpr hletter))
    · intro h i' hi'
      simp only at hi'
      split_ifs at hi' with hadmitted
      obtain rfl := Option.some.inj hi'
      exact h.exact i hexact ((admitted_iff i method).mp hadmitted)
  | none =>
    constructor
    · intro h
      exact ⟨fun i hi => absurd (hexact.symm.trans hi) (by simp), fun _ => h⟩
    · exact fun h => h.wildcard hexact

/-- A route for `POST`. -/
def postRoute : Registration := .named (bytes "/login") ⟨[.post], .user 0⟩

/-- A `PUT` is taken for it. -/
theorem not_methods : ¬ ∀ (regs : List Registration) (order : List (Bytes × Invoker) → List (Bytes × Invoker)) (method url : Bytes),
    ∀ i, ((registered regs).iterated order).invoked method url = some i → RegisteredFor i method := by
  intro h
  obtain ⟨m, hm, hname⟩ := h [postRoute] id (bytes "PUT") (bytes "/login") ⟨[.post], .user 0⟩ (by decide)
  rw [List.mem_singleton.mp hm] at hname
  exact absurd hname (by decide)

/-! ## The order of the registrations -/

/-- The registrations have different names. -/
def Distinct (regs : List Registration) : Prop := (regs.filterMap Registration.name?).Nodup

theorem insertOrAssign_perm {m : List (Bytes × Invoker)} {name : Bytes} (h : name ∉ m.map Prod.fst) (i : Invoker) :
    (OrderedMap.insertOrAssign m name i).Perm ((name, i) :: m) := by
  rw [OrderedMap.insertOrAssign, OrderedMap.find_eq_none h, if_neg (by simp)]
  exact List.perm_orderedInsert _ _ _

theorem mapEntry_fst {reg : Registration} {e : Bytes × Invoker} (h : reg.mapEntry = some e) :
    reg.name? = some e.1 ∧ e.1.getLast? ≠ some ASTERISK := by
  cases reg with
  | regex p i => exact absurd h (by simp [Registration.mapEntry])
  | named name i =>
    rw [Registration.mapEntry] at h
    split_ifs at h with hstar
    rw [← Option.some.inj h]
    exact ⟨rfl, hstar⟩

theorem wildcardEntry_fst {reg : Registration} {e : Bytes × Invoker} (h : reg.wildcardEntry = some e) :
    reg.name? = some (e.1 ++ [ASTERISK]) := by
  cases reg with
  | regex p i => exact absurd h (by simp [Registration.wildcardEntry])
  | named name i =>
    rw [Registration.wildcardEntry] at h
    split_ifs at h with hstar
    rw [← Option.some.inj h]
    exact congrArg some (List.dropLast_append_getLast? _ hstar).symm

/-- A new name comes behind those that were there. -/
theorem insertOrAssign_perm_append {m entries : List (Bytes × Invoker)} {name : Bytes} (h : name ∉ m.map Prod.fst) (hm : m.Perm entries)
    (i : Invoker) : (OrderedMap.insertOrAssign m name i).Perm (entries ++ [(name, i)]) :=
  (insertOrAssign_perm h i).trans ((hm.cons _).trans (List.perm_append_singleton _ _).symm)

/-- The three containers, of registrations with different names. -/
theorem registered_perm {regs : List Registration} (h : Distinct regs) :
    (registered regs).regexInvokers = regs.filterMap Registration.regexEntry ∧
      (registered regs).mapInvokers.Perm (regs.filterMap Registration.mapEntry) ∧
      (registered regs).wildcardInvokers.Perm (regs.filterMap Registration.wildcardEntry) := by
  induction regs using List.reverseRecOn with
  | nil => exact ⟨rfl, List.Perm.refl _, List.Perm.refl _⟩
  | append_singleton regs reg ih =>
    rw [Distinct, List.filterMap_append] at h
    obtain ⟨hregs, -, hnew⟩ := List.nodup_append.mp h
    obtain ⟨hregex, hmap, hwild⟩ := ih hregs
    have hstep : registered (regs ++ [reg]) = (registered regs).register reg := by
      rw [registered, List.foldl_append]
      rfl
    rw [hstep, List.filterMap_append, List.filterMap_append, List.filterMap_append]
    cases reg with
    | regex p i =>
      refine ⟨?_, ?_, ?_⟩
      · rw [register, hregex]
        rfl
      · rw [show [Registration.regex p i].filterMap Registration.mapEntry = [] from rfl, List.append_nil]
        exact hmap
      · rw [show [Registration.regex p i].filterMap Registration.wildcardEntry = [] from rfl, List.append_nil]
        exact hwild
    | named name i =>
      have hfresh : name ∉ regs.filterMap Registration.name? := fun hmem => hnew name hmem name (List.mem_singleton_self name) rfl
      by_cases hstar : name.getLast? = some ASTERISK
      · have hkey : name.dropLast ∉ (registered regs).wildcardInvokers.map Prod.fst := by
          intro hmem
          obtain ⟨e, he, hfst⟩ := List.mem_map.mp hmem
          obtain ⟨reg, hreg, hentry⟩ := List.mem_filterMap.mp (hwild.mem_iff.mp he)
          refine hfresh (List.mem_filterMap.mpr ⟨reg, hreg, ?_⟩)
          rw [wildcardEntry_fst hentry, hfst, List.dropLast_append_getLast? _ hstar]
        refine ⟨?_, ?_, ?_⟩
        · rw [register, if_pos hstar, hregex]
          exact (List.append_nil _).symm
        · rw [register, if_pos hstar]
          simpa [Registration.mapEntry, hstar] using hmap
        · rw [register, if_pos hstar]
          have hentry : [Registration.named name i].filterMap Registration.wildcardEntry = [(name.dropLast, i)] := by
            simp [Registration.wildcardEntry, hstar]
          rw [hentry]
          exact insertOrAssign_perm_append hkey hwild i
      · have hkey : name ∉ (registered regs).mapInvokers.map Prod.fst := by
          intro hmem
          obtain ⟨e, he, rfl⟩ := List.mem_map.mp hmem
          obtain ⟨reg, hreg, hentry⟩ := List.mem_filterMap.mp (hmap.mem_iff.mp he)
          exact hfresh (List.mem_filterMap.mpr ⟨reg, hreg, (mapEntry_fst hentry).1⟩)
        refine ⟨?_, ?_, ?_⟩
        · rw [register, if_neg hstar, hregex]
          exact (List.append_nil _).symm
        · rw [register, if_neg hstar]
          have hentry : [Registration.named name i].filterMap Registration.mapEntry = [(name, i)] := by
            simp [Registration.mapEntry, hstar]
          rw [hentry]
          exact insertOrAssign_perm_append hkey hmap i
        · rw [register, if_neg hstar]
          simpa [Registration.wildcardEntry, hstar] using hwild

theorem keys_nodup {regs : List Registration} (h : Distinct regs) : ((registered regs).mapInvokers.map Prod.fst).Nodup := by
  have hsub : List.Sublist ((regs.filterMap Registration.mapEntry).map Prod.fst) (regs.filterMap Registration.name?) := by
    clear h
    induction regs with
    | nil => exact List.Sublist.refl _
    | cons reg regs ih =>
      cases reg with
      | regex p i => exact ih
      | named name i =>
        have hname : (Registration.named name i :: regs).filterMap Registration.name? = name :: regs.filterMap Registration.name? := rfl
        rw [hname, List.filterMap_cons, Registration.mapEntry]
        split_ifs
        · exact ih.trans (List.sublist_cons_self _ _)
        · exact ih.cons_cons name
  exact ((registered_perm h).2.1.map Prod.fst).nodup_iff.mpr (h.sublist hsub)

/-- `route`, by what each stage gives for the method. -/
theorem route_eq_getD (r : Router) (method url : Bytes) : r.route method url =
    ((r.exact url).map (invoke · method)).getD
      (((r.exact (fallback url)).map (invoke · method)).getD ((r.invokedWildcard url).map Invoker.target)) := by
  rw [route_eq, invoked, invokedExact]
  have hone : ∀ i, (if admitted i method then some i else none).map Invoker.target = invoke i method := by
    intro i
    rw [invoke_eq]
    split_ifs <;> rfl
  cases r.exact url with
  | some i => exact hone i
  | none =>
    rw [Option.none_or, Option.map_none, Option.getD_none]
    cases r.exact (fallback url) with
    | some i => exact hone i
    | none => rfl

/-- The condition for the order not to matter. The regular expressions are in the same order, or those that match agree; and when
nothing but wildcards is left, those that are found have the same handler. -/
structure Uncontested (regs regs' : List Registration) (method url : Bytes) : Prop where
  regex : regs.filterMap Registration.regexEntry = regs'.filterMap Registration.regexEntry ∨
    ∀ u, (u = url ∨ (registered regs).exact url = none ∧ u = fallback url) →
      ∀ e ∈ regs.filterMap Registration.regexEntry, ∀ e' ∈ regs.filterMap Registration.regexEntry, e.1 u = true → e'.1 u = true →
        invoke e.2 method = invoke e'.2 method
  wildcard : (registered regs).invokedExact url = none → ∀ e ∈ regs.filterMap Registration.wildcardEntry,
    ∀ e' ∈ regs.filterMap Registration.wildcardEntry, contains (fallback url) e.1 = true → contains (fallback url) e'.1 = true →
      e.2.target = e'.2.target

theorem exact_eq_or (r : Router) (url : Bytes) :
    r.exact url = ((r.regexInvokers.find? fun e => e.1 url).map Prod.snd).or (OrderedMap.find r.mapInvokers url) := by
  rw [exact]
  cases r.regexInvokers.find? fun e => e.1 url <;> rfl

/-- What the regular expressions and the exact names give, in two orders. -/
theorem exact_perm {regs regs' : List Registration} (hperm : regs.Perm regs') (h : Distinct regs) {method url : Bytes}
    (hregex : regs.filterMap Registration.regexEntry = regs'.filterMap Registration.regexEntry ∨
      ∀ e ∈ regs.filterMap Registration.regexEntry, ∀ e' ∈ regs.filterMap Registration.regexEntry, e.1 url = true → e'.1 url = true →
        invoke e.2 method = invoke e'.2 method) :
    ((registered regs).exact url).map (invoke · method) = ((registered regs').exact url).map (invoke · method) := by
  have h' : Distinct regs' := (hperm.filterMap _).nodup_iff.mp h
  obtain ⟨hr, hm, -⟩ := registered_perm h
  obtain ⟨hr', hm', -⟩ := registered_perm h'
  have hfind : OrderedMap.find (registered regs).mapInvokers url = OrderedMap.find (registered regs').mapInvokers url :=
    OrderedMap.find_perm (hm.trans ((hperm.filterMap _).trans hm'.symm)) (keys_nodup h) url
  have hstage : ((regs.filterMap Registration.regexEntry).find? fun e => e.1 url).map (fun e => invoke e.2 method) =
      ((regs'.filterMap Registration.regexEntry).find? fun e => e.1 url).map fun e => invoke e.2 method := by
    rcases hregex with hsame | hagree
    · rw [hsame]
    · exact OrderedMap.find?_map_perm (hperm.filterMap _) hagree
  have hor : ∀ (a : Option ((Bytes → Bool) × Invoker)) (b : Option Invoker), ((a.map Prod.snd).or b).map (invoke · method) =
      (a.map fun e => invoke e.2 method).or (b.map (invoke · method)) := by
    intro a b
    cases a <;> rfl
  rw [exact_eq_or, exact_eq_or, hor, hor, hr, hr', hstage, hfind]

/-- **The order of the registrations**: two orders, and any two orders in which the wildcards are iterated, give the same handler or
none for a method and a URL for which the routes that compete agree. -/
theorem route_perm {regs regs' : List Registration} (hperm : regs.Perm regs') (h : Distinct regs)
    {order order' : List (Bytes × Invoker) → List (Bytes × Invoker)} (ho : ∀ l, (order l).Perm l) (ho' : ∀ l, (order' l).Perm l)
    {method url : Bytes} (hun : Uncontested regs regs' method url) :
    ((registered regs).iterated order).route method url = ((registered regs').iterated order').route method url := by
  have h' : Distinct regs' := (hperm.filterMap _).nodup_iff.mp h
  have hexact : ∀ u, (u = url ∨ (registered regs).exact url = none ∧ u = fallback url) →
      ((registered regs).exact u).map (invoke · method) = ((registered regs').exact u).map (invoke · method) := by
    intro u hu
    exact exact_perm hperm h (hun.regex.imp id fun hagree => hagree u hu)
  have hkeep : ∀ (r : Router) order u, (r.iterated order).exact u = r.exact u := fun _ _ _ => rfl
  rw [route_eq_getD, route_eq_getD, hkeep, hkeep, hkeep, hkeep, hexact url (.inl rfl)]
  cases hurl : (registered regs).exact url with
  | some i =>
    rw [← hexact url (.inl rfl), hurl]
    rfl
  | none =>
    rw [hexact (fallback url) (.inr ⟨hurl, rfl⟩)]
    cases hfall : (registered regs).exact (fallback url) with
    | some i =>
      rw [← hexact (fallback url) (.inr ⟨hurl, rfl⟩), hfall]
      rfl
    | none =>
      have hnone : (registered regs).invokedExact url = none := by rw [invokedExact, hurl, hfall, Option.or_none]
      have hwild : (((registered regs).iterated order).invokedWildcard url).map Invoker.target =
          (((registered regs').iterated order').invokedWildcard url).map Invoker.target := by
        have hp := (ho (registered regs).wildcardInvokers).trans (registered_perm h).2.2
        have hp' := (ho' (registered regs').wildcardInvokers).trans (registered_perm h').2.2
        rw [invokedWildcard, invokedWildcard, Option.map_map, Option.map_map]
        refine OrderedMap.find?_map_perm (hp.trans ((hperm.filterMap _).trans hp'.symm)) fun a ha b hb hpa hpb => ?_
        exact hun.wildcard hnone a (hp.mem_iff.mp ha) b (hp.mem_iff.mp hb) hpa hpb
      rw [hwild]

/-- Two wildcards with one handler, where the second is within the first, and a name that the first one matches too. -/
def helloRoutes : List Registration :=
  [.named (bytes "/hello/*") ⟨[.get], .user 1⟩, .named (bytes "/hello/x/*") ⟨[.get], .user 1⟩, .named (bytes "/hello/x") ⟨[.get], .user 2⟩]

/-- The wildcards agree, and the name comes before them, in both orders. -/
theorem route_perm_hello :
    ((registered helloRoutes).iterated id).route (bytes "GET") (bytes "/hello/x/y") =
        ((registered helloRoutes.reverse).iterated List.reverse).route (bytes "GET") (bytes "/hello/x/y") ∧
      ((registered helloRoutes).iterated id).route (bytes "GET") (bytes "/hello/x") =
        ((registered helloRoutes.reverse).iterated List.reverse).route (bytes "GET") (bytes "/hello/x") := by
  have hdistinct : Distinct helloRoutes := by
    unfold Distinct
    decide
  have hsame : ∀ e ∈ helloRoutes.filterMap Registration.wildcardEntry, e.2.target = .user 1 := by decide
  have hregex : helloRoutes.filterMap Registration.regexEntry = [] ∧ helloRoutes.reverse.filterMap Registration.regexEntry = [] := ⟨rfl, rfl⟩
  have hun : ∀ url, Uncontested helloRoutes helloRoutes.reverse (bytes "GET") url := fun url =>
    ⟨.inl (hregex.1.trans hregex.2.symm), fun _ e he e' he' _ _ => (hsame e he).trans (hsame e' he').symm⟩
  have hboth := fun url => route_perm (List.reverse_perm helloRoutes).symm hdistinct (fun l => List.Perm.refl l)
    (fun l => List.reverse_perm l) (hun url)
  exact ⟨hboth _, hboth _⟩

/-- Two regular expressions that match a URL: the first one that was registered wins. -/
theorem not_route_perm : ¬ ∀ regs regs' : List Registration, regs.Perm regs' → Distinct regs →
    ∀ order order' : List (Bytes × Invoker) → List (Bytes × Invoker), (∀ l, (order l).Perm l) → (∀ l, (order' l).Perm l) →
      ∀ method url, ((registered regs).iterated order).route method url = ((registered regs').iterated order').route method url := by
  intro h
  have hroute := h [.regex (fun _ => true) ⟨[.get], .user 0⟩, .regex (fun u => u = bytes "/a") ⟨[.get], .user 1⟩]
    [.regex (fun u => u = bytes "/a") ⟨[.get], .user 1⟩, .regex (fun _ => true) ⟨[.get], .user 0⟩] (List.Perm.swap _ _ _)
    List.nodup_nil id id (fun l => List.Perm.refl l) (fun l => List.Perm.refl l) (bytes "GET") (bytes "/a")
  exact absurd hroute (by decide)

end Router

end Netcore
