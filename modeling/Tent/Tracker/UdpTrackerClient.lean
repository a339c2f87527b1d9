import Tent.Foundation.Transition
import Tent.Tracker.Endpoint
import Tent.Wire.Message

/-!
# The UDP tracker client

`udp_tracker_client` asks a tracker for peers in two phases: a connect request, which the tracker
answers with a connection id, and an announce request, which it answers with peers.  The client
keeps one transaction id, that of its last request, and takes whatever datagram carries it for the
answer; which answer it is follows from the action in the datagram.

`announce` runs through the addresses that the host of the tracker resolves to.  For each of them it
sends a connect request and then reads datagrams until none arrives for a while.  The same as
single steps is `step`, over labels for the requests and for the datagrams; `announce_eq_run` says
that they agree.

What the system calls return is part of the input: the addresses, whether a request could be sent,
the bytes that `recvfrom` stored, and the numbers that were drawn.  Every client carries the list of
what it did (`UdpEvent`), which no function reads.
-/

set_option autoImplicit false

namespace Tent

open Bytes Transition

/-! ### `msg_factory` -/

/-- `msg_factory::connect`. -/
def MsgFactory.connect (transactionId : ℕ) : ByteString :=
  toBE 8 0x41727101980 ++ toBE 4 0 ++ toBE 4 transactionId

/-- `msg_factory::announce`. -/
def MsgFactory.announce (oob : Oob) (connectionId transactionId : ℕ) (infoHash peerId : ByteString)
    (left key port : ℕ) : ByteString :=
  toBE 8 connectionId ++ toBE 4 1 ++ toBE 4 transactionId ++
    window oob (hexStrToByteBuff infoHash) 0 20 ++ window oob peerId 0 20 ++ toBE 8 0 ++
    toBE 8 left ++ toBE 8 0 ++ toBE 4 0 ++ toBE 4 0 ++ toBE 4 key ++ toBE 4 (uint32Range - 1) ++
    toBE 2 port

/-! ### The state of the client -/

/-- What a client is given and does not change. -/
structure UdpEnv where
  /-- The bytes behind the end of a buffer. -/
  oob : Oob
  /-- `peer_id_`. -/
  peerId : ByteString
  /-- `info_hash_`, in hexadecimal digits. -/
  infoHash : ByteString
  /-- `info_.total_size()`. -/
  totalSize : ℕ
  /-- `local_port_`. -/
  localPort : ℕ

/-- The first two words of a datagram. -/
structure UdpHeader where
  /-- The action. -/
  action : ℕ
  /-- The transaction id. -/
  transactionId : ℕ
deriving DecidableEq, Repr

/-- What a client does. -/
inductive UdpEvent where
  /-- The host was given to `getaddrinfo`. -/
  | resolved (host : ByteString)
  /-- A transaction id was drawn. -/
  | drew (transactionId : ℕ)
  /-- A connect request was sent. -/
  | connectSent (ep : Endpoint) (transactionId : ℕ) (bytes : ByteString)
  /-- An announce request was sent in answer to a datagram with the given header. -/
  | announceSent (ep : Endpoint) (transactionId : ℕ) (bytes : ByteString) (header : UdpHeader)
  /-- A datagram with the given header made `received_peers` grow. -/
  | appended (header : UdpHeader)
deriving DecidableEq, Repr

/-- The state of a `udp_tracker_client`. -/
structure UdpTracker where
  /-- `received_peers_`. -/
  receivedPeers : List PeerInfo
  /-- `current_tracker_ep_`. -/
  currentTrackerEp : Endpoint
  /-- `current_transaction_id_`. -/
  currentTransactionId : ℕ
  /-- Whether the client polls for datagrams. -/
  polling : Bool
  /-- What the client did so far. -/
  trace : List UdpEvent
deriving DecidableEq, Repr

/-- What `recvfrom` stored, nothing if it failed, and what happens while the datagram is handled:
the numbers that are drawn if it is taken for a connect response, and whether the announce request
can be sent. -/
structure Datagram where
  /-- The bytes of the datagram. -/
  bytes : ByteString
  /-- The key that is drawn. -/
  key : ℕ
  /-- The transaction id that is drawn. -/
  transactionId : ℕ
  /-- Whether `sendto` succeeds. -/
  sent : Bool
deriving DecidableEq, Repr

/-- The word of the given width at an offset of a datagram. -/
def word (oob : Oob) (bytes : ByteString) (offset width : ℕ) : ℕ :=
  ofBE (window oob bytes offset width)

/-- The header of a datagram. -/
def Datagram.header (oob : Oob) (d : Datagram) : UdpHeader :=
  ⟨word oob d.bytes 0 4, word oob d.bytes 4 4⟩

/-- Push a peer unless one is found that is the same. -/
def addPeer (same : PeerInfo → Bool) (id ip : ByteString) (port : ℕ) (peers : List PeerInfo) :
    Except TrackerError (List PeerInfo) :=
  if peers.any same then .ok peers
  else (PeerInfo.create id ip port).map fun peer => peers ++ [peer]

/-- The comparison of `udp_tracker_client::read`. -/
def sameUdpPeer (peerIp : ByteString) (peerPort : ℕ) (peer : PeerInfo) : Bool :=
  saddrToStr (ntohl peer.endpoint.sinAddr.sAddr) == peerIp &&
    ntohs peer.endpoint.sinPort == peerPort

/-- The loop of `udp_tracker_client::read` over the peers of an announce response. -/
def readPeers : ByteString → List PeerInfo → Except TrackerError (List PeerInfo)
  | a :: b :: c :: d :: e :: f :: rest, peers =>
    let peerIp := saddrToStr (ofBE [a, b, c, d])
    let peerPort := ofBE [e, f]
    (addPeer (sameUdpPeer peerIp peerPort) [] peerIp peerPort peers).bind (readPeers rest)
  | _, peers => .ok peers

namespace UdpTracker

variable (env : UdpEnv)

/-- A client before its first request. -/
def initial (receivedPeers : List PeerInfo) (ep : Endpoint) : UdpTracker :=
  ⟨receivedPeers, ep, 0, false, []⟩

/-- The host is given to `getaddrinfo`. -/
def resolve (host : ByteString) (u : UdpTracker) : UdpTracker :=
  { u with trace := u.trace ++ [.resolved host] }

/-- Send a connect request and start to poll if it was sent. -/
def connect (ep : Endpoint) (transactionId : ℕ) (sent : Bool) (u : UdpTracker) : UdpTracker :=
  { u with
    currentTrackerEp := ep
    currentTransactionId := transactionId
    polling := sent
    trace := u.trace ++ .drew transactionId ::
      if sent then [.connectSent ep transactionId (MsgFactory.connect transactionId)] else [] }

/-- The answer to a connect response. -/
def announceTo (d : Datagram) (u : UdpTracker) : UdpTracker :=
  { u with
    currentTransactionId := d.transactionId
    trace := u.trace ++ .drew d.transactionId ::
      if d.sent then
        [.announceSent u.currentTrackerEp d.transactionId
          (MsgFactory.announce env.oob (word env.oob d.bytes 8 8) d.transactionId env.infoHash
            env.peerId env.totalSize d.key env.localPort) (d.header env.oob)]
      else [] }

/-- Take over the peers of an announce response. -/
def setPeers (header : UdpHeader) (peers : List PeerInfo) (u : UdpTracker) : UdpTracker :=
  { u with
    receivedPeers := peers
    trace := u.trace ++ if u.receivedPeers.length < peers.length then [.appended header] else [] }

/-- The datagram carries the transaction id of the last request and the given action. -/
def answers (action : ℕ) (d : Datagram) (u : UdpTracker) : Bool :=
  !d.bytes.isEmpty && (d.header env.oob).transactionId == u.currentTransactionId &&
    (d.header env.oob).action == action

/-- `udp_tracker_client::read`. -/
def read (d : Datagram) (u : UdpTracker) : Except TrackerError UdpTracker :=
  if u.answers env 0 d then .ok (u.announceTo env d)
  else if u.answers env 1 d then
    (readPeers (d.bytes.drop 20) u.receivedPeers).map fun peers =>
      u.setPeers (d.header env.oob) peers
  else .ok u

end UdpTracker

/-! ### Steps -/

/-- What can happen to a client. -/
inductive UdpLabel where
  /-- A host is given to `getaddrinfo`. -/
  | resolve (host : ByteString)
  /-- A connect request, with the transaction id that is drawn and whether `sendto` succeeds. -/
  | connect (ep : Endpoint) (transactionId : ℕ) (sent : Bool)
  /-- A datagram is read. -/
  | datagram (d : Datagram)
deriving DecidableEq, Repr

/-- One step of a client.  Datagrams are read only while the client polls. -/
def UdpTracker.step (env : UdpEnv) (u : UdpTracker) : UdpLabel → UdpTracker
  | .resolve host => u.resolve host
  | .connect ep transactionId sent => u.connect ep transactionId sent
  | .datagram d => if u.polling then (u.read env d).toOption.getD u else u

/-! ### Announcing to a tracker -/

/-- `std::string::find`: the first offset at which the text stands. -/
def findText (text s : ByteString) : Option ℕ :=
  (List.range (s.length + 1)).find? fun i => text.isPrefixOf (s.drop i)

/-- `isspace`. -/
def isSpace (x : UInt8) : Bool := x == 32 || (decide (9 ≤ x) && decide (x ≤ 13))

/-- `isdigit`. -/
def isDigit (x : UInt8) : Bool := decide (48 ≤ x) && decide (x ≤ 57)

/-- `std::stoi`: white space, a sign and digits, whatever follows them. -/
def stoi (s : ByteString) : Except TrackerError ℤ :=
  let s := s.dropWhile isSpace
  let signed := s.head? == some 45 || s.head? == some 43
  let digits := (if signed then s.tail else s).takeWhile isDigit
  let value : ℤ := if s.head? == some 45 then -digitsValue digits else digitsValue digits
  if digits.isEmpty then .error .invalidArgument
  else if value < -2 ^ 31 ∨ 2 ^ 31 ≤ value then .error .outOfRange
  else .ok value

/-- The conversion of an integer to `uint16_t`. -/
def toUInt16 (n : ℤ) : ℕ := (n % 65536).toNat

/-- A tracker URL as `udp_tracker_client::announce` takes it apart. -/
structure UdpUrl where
  /-- `peername`. -/
  peername : ByteString
  /-- `peer_port`. -/
  peerPort : ByteString
deriving DecidableEq, Repr

/-- The URL, if it has the marks that are looked for.  The length of the port is a difference of
offsets as a `size_t`, so it wraps around if the slash stands before the colon. -/
def UdpUrl.parse (url : ByteString) : Option UdpUrl :=
  (findText (ascii ['u', 'd', 'p', ':', '/', '/']) url).bind fun it =>
    let rest := url.drop (it + 6)
    (findText (ascii [':']) rest).bind fun peernameDelim =>
      (findText (ascii ['/']) rest).map fun portDelim =>
        ⟨rest.take peernameDelim,
          (rest.drop (peernameDelim + 1)).take
            ((portDelim + 2 ^ 64 - peernameDelim - 1) % 2 ^ 64)⟩

/-- What comes of a connect request to one address: the transaction id that is drawn, whether
`sendto` succeeds, and the datagrams that are read until none arrives. -/
structure Attempt where
  /-- The transaction id that is drawn. -/
  transactionId : ℕ
  /-- Whether `sendto` succeeds. -/
  sent : Bool
  /-- The datagrams. -/
  datagrams : List Datagram
deriving DecidableEq, Repr

/-- An entry of what `getaddrinfo` returns: its address, none if it is not of the family `AF_INET`,
and what comes of the request to it. -/
structure AddrInfo where
  /-- `ai_addr`. -/
  addr : Option InAddr
  /-- What comes of the request. -/
  attempt : Attempt
deriving DecidableEq, Repr

namespace UdpTracker

variable (env : UdpEnv)

/-- The body of the loop over the addresses. -/
def announceAt (peerPort : ByteString) (u : UdpTracker) (info : AddrInfo) :
    Except TrackerError UdpTracker :=
  match info.addr with
  | none => .ok u
  | some addr =>
    (stoi peerPort).bind fun port =>
      let u := u.connect ⟨ntohs (toUInt16 port), addr⟩ info.attempt.transactionId
        info.attempt.sent
      if info.attempt.sent then info.attempt.datagrams.foldlM (fun u d => u.read env d) u
      else .ok u

/-- `udp_tracker_client::announce`, with what `getaddrinfo` answers, none if it fails.  The value it
returns is not used. -/
def announce (url : ByteString) (infos : Option (List AddrInfo)) (u : UdpTracker) :
    Except TrackerError UdpTracker :=
  match UdpUrl.parse url with
  | none => .ok u
  | some parsed =>
    match infos with
    | none => .ok (u.resolve (cStr parsed.peername))
    | some infos => infos.foldlM (announceAt env parsed.peerPort) (u.resolve (cStr parsed.peername))

end UdpTracker

end Tent
