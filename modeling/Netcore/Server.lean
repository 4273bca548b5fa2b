import Netcore.Connection

/-!
# `Server::handle`

The loop that reads from a socket, lets the connection process what has arrived and writes its response. A client is the list
of its arrivals: the bytes that are there when the coroutine is resumed, which `netcore::recv` reads until the socket would
block. `serve` gives the steps of the loop in order, one for each arrival that it gets to, when every response before it has been sent.
-/

namespace Netcore

open Slices

/-- `netcore::recv` into a buffer of `size` bytes, with `arrival` waiting: the number of bytes read; 0 when there is no room
at all (`::recv` with a length of 0); `none` for the `RecvError` of a buffer that has become full. -/
def recv (arrival : Bytes) (size : Nat) : Option Nat :=
  if size = 0 ∨ arrival = [] then some 0 else if size ≤ arrival.length then none else some arrival.length

/-- One step of the loop of `Server::handle`. -/
inductive Step where
  /-- `RecvError`: the connection is dropped. -/
  | recvError
  /-- The loop ends without a response: nothing was read, or the request has overflowed `MaxSize`. -/
  | ended
  /-- `process` was called. Unless it asked to read on, the response is given to `async_send`. -/
  | processed (c : Connection) (answer : Answer)
  deriving DecidableEq, Repr

namespace Server

/-- The buffer after a read: the bytes are written at `buffer()` and counted by `update_size`. -/
def receive (r : Request) (arrival : Bytes) : Request :=
  { r with buf := overwrite r.buf r.curSize arrival, curSize := r.curSize + arrival.length }

/-- One read and the call of `process` after it. -/
def step (env : Env) (c : Connection) (arrival : Bytes) : Step :=
  match recv arrival c.req.leftSize with
  | none => .recvError
  | some 0 => .ended
  | some _ =>
    let c := { c with req := receive c.req arrival }
    if maxSize < c.req.curSize then .ended
    else .processed (c.process env).1 (c.process env).2

/-- `Server::handle`: it goes on reading after `need_read` and after the write of `need_write_then_read`. -/
def serve (env : Env) (c : Connection) : List Bytes → List Step
  | [] => []
  | a :: as =>
    match step env c a with
    | .processed c' (.state .needRead) => .processed c' (.state .needRead) :: serve env c' as
    | .processed c' (.state .needWriteThenRead) => .processed c' (.state .needWriteThenRead) :: serve env c' as
    | s => [s]

/-- A connection that has just been made: `buf_` has 1024 bytes. -/
def fresh (resType : ReqContentType) : Connection :=
  { req := { buf := List.replicate 1024 0 }, res := { resType := resType } }

end Server

/-- The response that a step gives to `async_send`, when the connection asked to write it. How much of it the socket takes is in
`Netcore.Server.Delivery`. -/
def Step.response : Step → Bytes
  | .processed c (.state .needWrite) => c.res.repStr
  | .processed c (.state .needWriteThenRead) => c.res.repStr
  | _ => []

/-- What the connection has done by the end of a step. -/
def Step.trace : Step → List Act
  | .processed c _ => c.trace
  | _ => []

end Netcore
