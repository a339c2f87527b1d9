import Tent.Pieces.PieceHandler

/-!
# Messages on the wire

What `msg_factory` writes and what the receiving side makes of it.

A connection starts with a handshake, whose length follows from its first byte, and goes on with
messages that start with a 32-bit length.  `getMsgLen` computes the length of whatever stands at
the front of the receive buffer; its arithmetic is that of a `uint32_t`, so a prefix of `2 ^ 32 - 4`
or more wraps around.  A message of length zero is a keep-alive, every other one carries an id byte
and a payload (`Message.ofSlice`).

Buffers are read at fixed offsets without looking at their size.  Reads behind the end give the
bytes of the oracle of `Tent.Foundation.Bytes`.
-/

set_option autoImplicit false

namespace Tent

open Bytes

/-! ### Message ids -/

/-- `message::id`, with the bytes that are none of them. -/
inductive MessageId where
  /-- `KEEP_ALIVE`. -/
  | keepAlive
  /-- `CHOKE`. -/
  | choke
  /-- `UNCHOKE`. -/
  | unchoke
  /-- `INTERESTED`. -/
  | interested
  /-- `NOT_INTERESTED`. -/
  | notInterested
  /-- `HAVE`. -/
  | haveIndex
  /-- `BITFIELD`. -/
  | bitfield
  /-- `REQUEST`. -/
  | request
  /-- `PIECE`. -/
  | piece
  /-- `CANCEL`. -/
  | cancel
  /-- `PORT`. -/
  | port
  /-- A byte that is no id. -/
  | unknown (byte : UInt8)
deriving DecidableEq, Repr

namespace MessageId

/-- `static_cast<id>`. -/
def ofByte (byte : UInt8) : MessageId :=
  if byte = 0 then .choke
  else if byte = 1 then .unchoke
  else if byte = 2 then .interested
  else if byte = 3 then .notInterested
  else if byte = 4 then .haveIndex
  else if byte = 5 then .bitfield
  else if byte = 6 then .request
  else if byte = 7 then .piece
  else if byte = 8 then .cancel
  else if byte = 9 then .port
  else .unknown byte

/-- The value of an id as it is written to a buffer; `KEEP_ALIVE` is `-1` and never written. -/
def toByte : MessageId → UInt8
  | .keepAlive => 255
  | .choke => 0
  | .unchoke => 1
  | .interested => 2
  | .notInterested => 3
  | .haveIndex => 4
  | .bitfield => 5
  | .request => 6
  | .piece => 7
  | .cancel => 8
  | .port => 9
  | .unknown byte => byte

/-- Every byte is the value of the id that it is cast to. -/
lemma toByte_ofByte (byte : UInt8) : (ofByte byte).toByte = byte := by
  unfold ofByte
  -- one step for each of the ten ids
  iterate 10
    refine (apply_ite toByte _ _ _).trans (ite_eq_iff'.mpr ⟨fun h => h.symm, fun _ => ?_⟩)
  rfl

end MessageId

/-! ### `msg_factory` -/

/-- `protocol::V1`, the string `BitTorrent protocol`. -/
def protocolV1 : ByteString :=
  [66, 105, 116, 84, 111, 114, 114, 101, 110, 116, 32, 112, 114, 111, 116, 111, 99, 111, 108]

/-- `char_to_int`: the value of a hexadecimal digit, zero for everything else. -/
def charToInt (input : UInt8) : ℕ :=
  if 48 ≤ input ∧ input ≤ 57 then input.toNat - 48
  else if 65 ≤ input ∧ input ≤ 70 then input.toNat - 65 + 10
  else if 97 ≤ input ∧ input ≤ 102 then input.toNat - 97 + 10
  else 0

/-- `hex_str_to_byte_buff`: one byte for every two digits. -/
def hexStrToByteBuff : ByteString → ByteString
  | hi :: lo :: hex => UInt8.ofNat (16 * charToInt hi + charToInt lo) :: hexStrToByteBuff hex
  | _ => []

namespace MsgFactory

/-- `msg_factory::handshake`. -/
def handshake (oob : Oob) (peerId infoHash : ByteString) : ByteString :=
  UInt8.ofNat protocolV1.length :: protocolV1 ++ toBE 8 0 ++
    window oob (hexStrToByteBuff infoHash) 0 20 ++ window oob peerId 0 20

/-- `msg_factory::keep_alive`. -/
def keepAlive : ByteString := toBE 4 0

/-- A message that consists of its id. -/
def idOnly (id : MessageId) : ByteString := toBE 4 1 ++ [id.toByte]

/-- `msg_factory::choke`. -/
def choke : ByteString := idOnly .choke

/-- `msg_factory::unchoke`. -/
def unchoke : ByteString := idOnly .unchoke

/-- `msg_factory::interested`. -/
def interested : ByteString := idOnly .interested

/-- `msg_factory::not_interested`. -/
def notInterested : ByteString := idOnly .notInterested

/-- `msg_factory::request`. -/
def request (req : Request) : ByteString :=
  toBE 4 13 ++ [MessageId.request.toByte] ++ toBE 4 req.index ++ toBE 4 req.begin ++
    toBE 4 req.length

/-- `msg_factory::piece`. -/
def piece (index begin : ℕ) (block : ByteString) : ByteString :=
  toBE 4 (9 + block.length) ++ [MessageId.piece.toByte] ++ toBE 4 index ++ toBE 4 begin ++ block

end MsgFactory

/-! ### Parsing -/

/-- `message`. -/
structure Message where
  /-- `id_`. -/
  id : MessageId
  /-- `payload_`. -/
  payload : ByteString
deriving DecidableEq, Repr

/-- `peek_32`. -/
def peek32 (oob : Oob) (buffer : ByteString) : ℕ := ofBE (window oob buffer 0 4)

/-- The constructor `message::message`. -/
def Message.ofSlice (oob : Oob) (buffer : ByteString) : Message :=
  if peek32 oob buffer = 0 then ⟨.keepAlive, []⟩
  else ⟨.ofByte (byteAt oob buffer 4), window oob buffer 5 (peek32 oob buffer - 1)⟩

/-- `get_msg_len`. -/
def getMsgLen (oob : Oob) (buffer : ByteString) (handshakeReceived : Bool) : ℕ :=
  if !handshakeReceived then (byteAt oob buffer 0).toNat + 49
  else (peek32 oob buffer + 4) % uint32Range

/-- The peer id that `set_peer_id_and_validate_handshake` reads. -/
def handshakePeerId (oob : Oob) (msg : ByteString) : PeerId := window oob msg 48 20

/-- What `set_peer_id_and_validate_handshake` returns. -/
def validateHandshake (oob : Oob) (msg : ByteString) : Bool :=
  let protoStrLen := (byteAt oob msg 0).toNat
  msg.length == protoStrLen + 49 && window oob msg 1 protoStrLen == protocolV1

/-- What `set_peer_id_and_validate_handshake` leaves in `peer_info::id_`: an id that is known
already is replaced, an empty one stays empty. -/
def setPeerId (oob : Oob) (msg : ByteString) (id : PeerId) : PeerId :=
  if id ≠ [] then handshakePeerId oob msg else id

/-! ### The handshake is read as it was written -/

/-- A handshake has 68 bytes. -/
@[simp] lemma length_handshake (oob : Oob) (peerId infoHash : ByteString) :
    (MsgFactory.handshake oob peerId infoHash).length = 68 := by
  simp [MsgFactory.handshake, protocolV1]

/-- The length of a handshake is read off its first byte. -/
lemma getMsgLen_handshake (oob oob' : Oob) (peerId infoHash : ByteString) :
    getMsgLen oob (MsgFactory.handshake oob' peerId infoHash) false = 68 := by
  rfl

/-- A handshake is accepted. -/
lemma validateHandshake_handshake (oob oob' : Oob) (peerId infoHash : ByteString) :
    validateHandshake oob (MsgFactory.handshake oob' peerId infoHash) = true := by
  have hlen : (byteAt oob (MsgFactory.handshake oob' peerId infoHash) 0).toNat = 19 := rfl
  have hproto : window oob (MsgFactory.handshake oob' peerId infoHash) 1 19 = protocolV1 := by
    unfold MsgFactory.handshake
    rw [List.append_assoc, List.append_assoc]
    exact window_append_right (a := [UInt8.ofNat protocolV1.length]) oob rfl (by simp)
  rw [validateHandshake, hlen, hproto, length_handshake]
  simp

/-! ### Messages are read as they were written -/

/-- A message that consists of a length, an id byte and a payload. -/
def frameBytes (id : MessageId) (payload : ByteString) : ByteString :=
  toBE 4 (payload.length + 1) ++ [id.toByte] ++ payload

/-- The length word at the front of a buffer. -/
lemma peek32_toBE (oob : Oob) {n : ℕ} (hn : n < uint32Range) (rest : ByteString) :
    peek32 oob (toBE 4 n ++ rest) = n := by
  rw [peek32, window_zero_eq_take oob (by simp), List.take_append_of_le_length (by simp),
    List.take_of_length_le (by simp), ofBE_toBE_of_lt hn]

/-- A complete frame is parsed into its id and its payload. -/
lemma ofSlice_frameBytes (oob : Oob) {id : MessageId} (hid : MessageId.ofByte id.toByte = id)
    {payload : ByteString} (hlen : payload.length + 1 < uint32Range) :
    Message.ofSlice oob (frameBytes id payload) = ⟨id, payload⟩ := by
  have hpeek : peek32 oob (frameBytes id payload) = payload.length + 1 := by
    unfold frameBytes
    rw [List.append_assoc, peek32_toBE oob hlen]
  have hid4 : byteAt oob (frameBytes id payload) 4 = id.toByte := rfl
  have hpay : window oob (frameBytes id payload) 5 payload.length = payload := by
    unfold frameBytes
    rw [window_append_right oob (by simp) (Nat.le_refl _), List.take_length]
  unfold Message.ofSlice
  rw [hpeek, if_neg (Nat.succ_ne_zero _), hid4, hid, Nat.add_sub_cancel, hpay]

/-- A keep-alive is parsed into itself. -/
lemma ofSlice_keepAlive (oob : Oob) :
    Message.ofSlice oob MsgFactory.keepAlive = ⟨.keepAlive, []⟩ := by
  have hpeek := peek32_toBE oob (show 0 < uint32Range by decide) []
  rw [List.append_nil] at hpeek
  unfold Message.ofSlice MsgFactory.keepAlive
  rw [if_pos hpeek]

end Tent
