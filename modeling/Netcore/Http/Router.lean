import Netcore.Http.Text

/-!
# `http_router`

Routes are looked up in three containers: the regular expressions in order of registration, the exact names, the wildcards.
A route is registered for methods, but what is kept of them is their first letters. A regular expression is the predicate
of the URLs it matches, and a handler is the name it is known by to the application.
-/

namespace Netcore

/-- `http_method`, without `UNKNOW`, which has no name. -/
inductive HttpMethod where
  | del
  | get
  | head
  | post
  | put
  | connect
  | options
  | trace
  deriving DecidableEq, Repr

/-- `type_to_name`. -/
def HttpMethod.name : HttpMethod → Bytes
  | .del => bytes "DELETE"
  | .get => bytes "GET"
  | .head => bytes "HEAD"
  | .post => bytes "POST"
  | .put => bytes "PUT"
  | .connect => bytes "CONNECT"
  | .options => bytes "OPTIONS"
  | .trace => bytes "TRACE"

/-- `STATIC_RESOURCE`. -/
def staticResource : Bytes := bytes "netcore_static_resource"

/-- What a route leads to: the handler of `set_static_res_handler`, or one that the application registered. -/
inductive Target where
  | staticRes
  | user (id : Nat)
  deriving DecidableEq, Repr

/-- `invoker_function`: the methods of a route and its handler. -/
structure Invoker where
  methods : List HttpMethod
  target : Target
  deriving DecidableEq, Repr

/-- `get_method_arr` and the test of it in `route`: a letter is marked when it begins the name of one of the methods. -/
def Invoker.admits (i : Invoker) (letter : UInt8) : Bool := i.methods.any fun m => decide (m.name.head? = some letter)

/-- The three containers of `http_router`. -/
structure Router where
  regexInvokers : List ((Bytes → Bool) × Invoker) := []
  mapInvokers : List (Bytes × Invoker) := []
  wildcardInvokers : List (Bytes × Invoker) := []

namespace Router

/-- The test of the method: its first character (the terminator of an empty string is 0). -/
def invoke (i : Invoker) (method : Bytes) : Option Target :=
  let letter := method.headD 0
  if letter < 65 ∨ 90 < letter then none else if i.admits letter then some i.target else none

/-- The route that a regular expression or an exact name gives for the URL, if one of them does. -/
def exact (r : Router) (url : Bytes) : Option Invoker :=
  match r.regexInvokers.find? (fun e => e.1 url) with
  | some e => some e.2
  | none => OrderedMap.find r.mapInvokers url

/-- `get_wildcard_function`: the first key that the URL contains. Methods are not looked at. -/
def getWildcardFunction (r : Router) (url : Bytes) : Option Target :=
  (r.wildcardInvokers.find? (fun e => contains url e.1)).map fun e => e.2.target

/-- `route`: the handler found for a method and a URL. A URL with a dot that has no route of its own is a static file. -/
def route (r : Router) (method url : Bytes) : Option Target :=
  match r.exact url with
  | some i => invoke i method
  | none =>
    if DOT ∈ url then
      match r.exact staticResource with
      | some i => invoke i method
      | none => r.getWildcardFunction staticResource
    else r.getWildcardFunction url

end Router

end Netcore
