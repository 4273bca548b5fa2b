import Netcore.Client.SessionCookies
import Netcore.Server.Downloads

/-!
# A download and what the client gets

`get` of a new client for a file in the static directory of the server. Files of at most 5242880 bytes are sent as the content of one
response, and the client reports them as they are. Of a larger file the server sends only the head, with the length of the file, and
closes the connection (see `Netcore.Server.Downloads`); the client takes the status from that head and reports an empty body, as if the
file were empty.
-/

namespace Netcore

open Slices Delimiter

/-! ## The two responses -/

end Netcore
