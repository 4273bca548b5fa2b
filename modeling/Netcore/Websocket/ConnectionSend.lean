import Netcore.Socket.Writen
import Netcore.Websocket.Codec

/-!
# Messages of a connection

`connection::send_ws_msg` puts a header before the message and gives both to `WS_manager::send_ws_string`, which takes them for a
text and puts another header before them. So what goes out is a text frame that holds a frame (`sendWsMsg_eq`). The length in its
header is that of the inner frame, and not that of the message: no part of it is one frame with the message (`not_oneFrame`).
-/

namespace Netcore

namespace Connection

/-- `send_msg`: the task that is committed. -/
def sendMsg (fd : Nat) (header data : Bytes) : PushTask := Netcore.sendWsString fd (header ++ data) false

/-- `connection::send_ws_msg`. -/
def sendWsMsg (fd : Nat) (msg : Bytes) (op : Opcode) : PushTask := sendMsg fd (formatHeader msg.length op) msg

/-- `connection::send_ws_string`. -/
def sendWsString (fd : Nat) (msg : Bytes) : PushTask := sendWsMsg fd msg Opcode.text

/-- `connection::send_ws_binary`. -/
def sendWsBinary (fd : Nat) (msg : Bytes) : PushTask := sendWsMsg fd msg Opcode.binary

end Connection

/-- The message is framed twice. -/
theorem sendWsMsg_eq (fd : Nat) (msg : Bytes) (op : Opcode) :
    (Connection.sendWsMsg fd msg op).sendMsg = formatMessage (formatMessage msg op) Opcode.text := rfl

/-- No part of a text that frames the message twice is one frame with the message. -/
theorem not_oneFrame_of_part {data msg : Bytes} {op : Opcode}
    (h : data <+: formatMessage (formatMessage msg op) Opcode.text) : ¬OneFrame data op msg := by
  rintro ⟨f, -, rfl, rfl⟩
  obtain ⟨h2, h10⟩ := length_formatHeader f.payload.length op
  have hlen := f.length_of_part h
  have hlt : f.payload.length < 2 ^ 64 := by
    rw [hlen]
    exact Nat.mod_lt _ (by decide)
  rw [formatMessage, List.length_append] at hlen
  omega

/-- Whatever the message and the opcode, what `send_ws_msg` hands to the socket is not one frame with this opcode and message, nor is
what the socket takes of it; and the same for `send_ws_string` and `send_ws_binary`. -/
theorem not_oneFrame (fd : Nat) (msg : Bytes) (op : Opcode) (outs : List SendOutcome) :
    (¬OneFrame (Connection.sendWsMsg fd msg op).sendMsg op msg ∧
      ¬OneFrame (Message.mk (Connection.sendWsMsg fd msg op).sendMsg outs).accepted op msg) ∧
    (¬OneFrame (Connection.sendWsString fd msg).sendMsg Opcode.text msg ∧
      ¬OneFrame (Message.mk (Connection.sendWsString fd msg).sendMsg outs).accepted Opcode.text msg) ∧
    (¬OneFrame (Connection.sendWsBinary fd msg).sendMsg Opcode.binary msg ∧
      ¬OneFrame (Message.mk (Connection.sendWsBinary fd msg).sendMsg outs).accepted Opcode.binary msg) := by
  have hboth : ∀ op, ¬OneFrame (Connection.sendWsMsg fd msg op).sendMsg op msg ∧
      ¬OneFrame (Message.mk (Connection.sendWsMsg fd msg op).sendMsg outs).accepted op msg := by
    intro op
    refine ⟨not_oneFrame_of_part (List.prefix_refl _), not_oneFrame_of_part ?_⟩
    rw [accepted_eq]
    exact List.take_prefix _ _
  exact ⟨hboth op, hboth Opcode.text, hboth Opcode.binary⟩

/-- The text `hi` goes out as a text frame of four bytes, the two bytes of a header and the two letters. -/
theorem not_oneFrame_hi : (Connection.sendWsString 5 (bytes "hi")).sendMsg = [0x81, 4, 0x81, 2] ++ bytes "hi" ∧
    ¬∀ (fd : Nat) (msg : Bytes) (op : Opcode), OneFrame (Connection.sendWsMsg fd msg op).sendMsg op msg := by
  refine ⟨by decide, fun h => ?_⟩
  exact not_oneFrame_of_part (List.prefix_refl _) (h 5 (bytes "hi") Opcode.text)

end Netcore
