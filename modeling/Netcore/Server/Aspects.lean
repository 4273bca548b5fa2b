import Netcore.Client.SessionCookies

/-!
# Routes with aspects

A handler can be registered with aspects, objects with a `before`, an `after` or both. `invoke` of `http_router` is what the route then
leads to. `serve_invoke` says which of their functions run for a request, and in which order.
-/

namespace Netcore

/-! ## The model -/

/-- A call that an invocation makes, with what the aspect has answered. The aspects are numbered from the left. -/
inductive AspectCall where
  | before (i : Nat) (ok : Bool)
  | business
  | after (i : Nat) (ok : Bool)
  deriving DecidableEq, Repr

/-- A function of an aspect: it may change the members of its object, the request and the response. -/
abbrev AspectFn (κ : Type) := κ → Request → Response → κ × Request × Response × Bool

/-- An aspect: the object that is copied for every invocation, and the functions that it has. `after` is the one for a handler without
a result, `afterResult` the one for a result. -/
structure Aspect (κ ρ : Type) where
  object : κ
  before : Option (AspectFn κ)
  after : Option (AspectFn κ)
  afterResult : Option (ρ → AspectFn κ)

/-- A handler, with or without a result. -/
inductive Business (ρ : Type) where
  | void (f : Request → Response → Request × Response)
  | value (f : Request → Response → (Request × Response) × ρ)

/-- An invocation under way: the tuple of the copies, the flag `r` of the loop over it, and the calls that have been made. -/
structure Invocation (κ : Type) where
  tuple : List κ
  r : Bool := true
  req : Request
  res : Response
  calls : List AspectCall := []

variable {κ ρ : Type}

namespace Invocation

/-- An item of the tuple: nothing is done after a refusal, or where the aspect lacks the function. -/
def item (call : Nat → Bool → AspectCall) (p : Invocation κ) (a : Option (AspectFn κ) × Nat) : Invocation κ :=
  if !p.r then p
  else
    match a.1, p.tuple[a.2]? with
    | some f, some object =>
      let x := f object p.req p.res
      { tuple := p.tuple.set a.2 x.1, req := x.2.1, res := x.2.2.1, r := x.2.2.2, calls := p.calls ++ [call a.2 x.2.2.2] }
    | _, _ => p

end Invocation

/-- `do_ap_before`, from the left. -/
def doApBefore (aps : List (Aspect κ ρ)) (p : Invocation κ) : Invocation κ :=
  ((aps.map Aspect.before).zipIdx).foldl (Invocation.item .before) { p with r := true }

/-- `do_void_after`, from the right. -/
def doVoidAfter (aps : List (Aspect κ ρ)) (p : Invocation κ) : Invocation κ :=
  ((aps.map Aspect.after).zipIdx.reverse).foldl (Invocation.item .after) { p with r := true }

/-- `do_after`, from the right; every aspect is given the result. -/
def doAfter (result : ρ) (aps : List (Aspect κ ρ)) (p : Invocation κ) : Invocation κ :=
  ((aps.map fun a => a.afterResult.map fun f => f result).zipIdx.reverse).foldl (Invocation.item .after) { p with r := true }

/-- `invoke`, and `invoke_mem`, which differs in how the handler is called. -/
def invoke (aps : List (Aspect κ ρ)) (f : Business ρ) (req : Request) (res : Response) : Invocation κ :=
  let p := doApBefore aps { tuple := aps.map Aspect.object, req := req, res := res }
  if !p.r then p
  else
    match f with
    | .void f =>
      let x := f p.req p.res
      doVoidAfter aps { p with req := x.1, res := x.2, calls := p.calls ++ [.business] }
    | .value f =>
      let x := f p.req p.res
      doAfter x.2 aps { p with req := x.1.1, res := x.1.2, calls := p.calls ++ [.business] }

/-! ## The calls of an invocation -/

namespace Invocation

variable (call : Nat → Bool → AspectCall)

end Invocation

section Loops

variable {aps : List (Aspect κ ρ)} {p : Invocation κ} (hlen : p.tuple.length = aps.length)

include hlen

end Loops

end Netcore
