import Tent.Tracker.UdpTrackerClient

/-!
# The tracker client

`tracker_client::announce` asks every tracker of the torrent for peers, over UDP or with an HTTP
request, and collects them in `received_peers`.  An HTTP answer is a bencoded dictionary whose entry
`peers` is a list of dictionaries or a string with six bytes for each peer; `parsePeers` decodes
both.  Nothing is pushed that is there already.

`lt::bdecode` is a parameter: a function from bytes to trees that may fail.  Looking up a key in a
node that is no dictionary breaks an assertion of the library; what is found then is a parameter
too.

What the trackers answer is part of the input.  A client carries the URLs that it requested.
-/

set_option autoImplicit false

namespace Tent

open Bytes

/-! ### Bencoded trees -/

/-- `lt::bdecode_node`. -/
inductive BNode where
  /-- An integer, with what `int_value` returns for it. -/
  | int (value : ℤ)
  /-- A string. -/
  | string (value : ByteString)
  /-- A list. -/
  | list (items : List BNode)
  /-- A dictionary. -/
  | dict (entries : List (ByteString × BNode))

/-- What a client is given and does not change. -/
structure TrackerEnv extends UdpEnv where
  /-- `lt::bdecode`; none if it reports an error. -/
  bdecode : ByteString → Option BNode
  /-- What `dict_find` returns for a node that is no dictionary. -/
  strayFind : BNode → ByteString → Option BNode

namespace BNode

variable (env : TrackerEnv)

/-- `bdecode_node::dict_find`; none is a node of type `none_t`. -/
def dictFind (key : ByteString) : BNode → Option BNode
  | .dict entries => entries.lookup key
  | node => env.strayFind node key

/-- `bdecode_node::dict_find_list`. -/
def dictFindList (key : ByteString) (node : BNode) : Option (List BNode) :=
  match node.dictFind env key with
  | some (.list items) => some items
  | _ => none

/-- `bdecode_node::dict_find_string`. -/
def dictFindString (key : ByteString) (node : BNode) : Option ByteString :=
  match node.dictFind env key with
  | some (.string value) => some value
  | _ => none

/-- `bdecode_node::dict_find_string_value`. -/
def dictFindStringValue (key : ByteString) (node : BNode) : ByteString :=
  (node.dictFindString env key).getD []

/-- `bdecode_node::dict_find_int_value`. -/
def dictFindIntValue (key : ByteString) (node : BNode) : ℤ :=
  match node.dictFind env key with
  | some (.int value) => value
  | _ => 0

/-- The entry `peers` of an answer as a list. -/
def peerList (node : BNode) : Option (List BNode) :=
  node.dictFindList env (ascii ['p', 'e', 'e', 'r', 's'])

/-- The entry `peers` of an answer as a string. -/
def peerString (node : BNode) : Option ByteString :=
  node.dictFindString env (ascii ['p', 'e', 'e', 'r', 's'])

/-- The id of an entry of the list. -/
def entryId (node : BNode) : ByteString :=
  node.dictFindStringValue env (ascii ['p', 'e', 'e', 'r', ' ', 'i', 'd'])

/-- The address of an entry of the list. -/
def entryIp (node : BNode) : ByteString := node.dictFindStringValue env (ascii ['i', 'p'])

/-- The port of an entry of the list, as a `uint16_t`. -/
def entryPort (node : BNode) : ℕ :=
  toUInt16 (node.dictFindIntValue env (ascii ['p', 'o', 'r', 't']))

end BNode

/-! ### `parse_peers` -/

/-- The comparison of `find_peer_it`. -/
def samePeer (peerIp : ByteString) (peerPort : ℕ) (peer : PeerInfo) : Bool :=
  inetNtop peer.endpoint.sinAddr == peerIp && ntohs peer.endpoint.sinPort == peerPort

section ParsePeers

variable (env : TrackerEnv)

/-- The body of the loop over a list of dictionaries. -/
def parseEntry (peers : List PeerInfo) (entry : BNode) : Except TrackerError (List PeerInfo) :=
  addPeer (samePeer (entry.entryIp env) (entry.entryPort env)) (entry.entryId env)
    (entry.entryIp env) (entry.entryPort env) peers

/-- The body of the loop over a compact string, which reads six bytes from `offset` on. -/
def parseCompact (peerString : ByteString) (peers : List PeerInfo) (offset : ℕ) :
    Except TrackerError (List PeerInfo) :=
  let peerIp := saddrToStr (ntohl (ofBE (window env.oob peerString offset 4).reverse))
  let peerPort := ntohs (ofBE (window env.oob peerString (offset + 4) 2).reverse)
  addPeer (samePeer peerIp peerPort) [] peerIp peerPort peers

/-- The offsets of a loop that goes from zero up to the size in steps of six. -/
def compactOffsets (size : ℕ) : List ℕ := (List.range ((size + 5) / 6)).map (6 * ·)

/-- `parse_peers`. -/
def parsePeers (trackerRsp : ByteString) (peers : List PeerInfo) :
    Except TrackerError (List PeerInfo) :=
  match env.bdecode trackerRsp with
  | none => .ok peers
  | some decoded =>
    match decoded.peerList env, decoded.peerString env with
    | some peerList, _ => peerList.foldlM (parseEntry env) peers
    | none, some peerString =>
      (compactOffsets peerString.length).foldlM (parseCompact env peerString) peers
    | none, none => .ok peers

end ParsePeers

/-! ### HTTP -/

/-- `http::response`: the status, zero if there was none, the header lines and the body. -/
structure HttpResponse where
  /-- `status()`. -/
  status : ℤ
  /-- The lines that `header_cb` was called with. -/
  headers : List ByteString
  /-- `body()`. -/
  body : ByteString
deriving DecidableEq, Repr

/-- `response::header_cb`.  The two bytes at the end of the line are cut off with a difference of
sizes as a `size_t`. -/
def headerCb (field : Option ByteString) (line : ByteString) : Option ByteString :=
  match findText (ascii ['L', 'o', 'c', 'a', 't', 'i', 'o', 'n', ':', ' ']) line with
  | none => field
  | some start =>
    some ((line.drop (start + 10)).take ((line.length + 2 ^ 64 - (start + 10) - 2) % 2 ^ 64))

namespace HttpResponse

/-- `header_fields_[header_field::LOCATION]`, if it was set. -/
def location (resp : HttpResponse) : Option ByteString := resp.headers.foldl headerCb none

/-- `response::field` of `header_field::LOCATION`. -/
def field (resp : HttpResponse) : Except TrackerError ByteString :=
  match resp.location with
  | none => .error .noHeaderField
  | some location => .ok location

end HttpResponse

/-- The digits of `percent_encode` behind the first separator: another one in front of every two
digits that something follows. -/
def percentGroups : ByteString → ByteString
  | a :: b :: c :: rest => a :: b :: 37 :: percentGroups (c :: rest)
  | rest => rest

/-- `percent_encode` of a hash that is printed in the given digits. -/
def percentEncode (hash : ByteString) : ByteString := 37 :: percentGroups hash

/-! ### Announcing -/

/-- A tracker of the torrent, with what it answers: the answers to the request and to the one that a
redirection leads to, and what `getaddrinfo` returns for its host. -/
structure Tracker where
  /-- `url`. -/
  url : ByteString
  /-- The answer to the first request. -/
  first : HttpResponse
  /-- The answer to the second request. -/
  second : HttpResponse
  /-- The addresses of the host and what comes of them. -/
  infos : Option (List AddrInfo)
deriving DecidableEq, Repr

/-- The state of `tracker_client::announce`. -/
structure TrackerClient where
  /-- `udp_tracker`, with `received_peers`. -/
  udp : UdpTracker
  /-- The URLs that were requested. -/
  requested : List ByteString
deriving DecidableEq, Repr

namespace TrackerClient

variable (env : TrackerEnv)

/-- The URL of the HTTP request. -/
def httpUrl (url : ByteString) : ByteString :=
  url ++ ascii ['?', 'i', 'n', 'f', 'o', '_', 'h', 'a', 's', 'h', '='] ++
    percentEncode env.infoHash ++ ascii ['&', 'p', 'e', 'e', 'r', '_', 'i', 'd', '='] ++
    env.peerId ++ ascii ['&', 'p', 'o', 'r', 't', '='] ++ decimal env.localPort ++
    ascii ['&', 'd', 'o', 'w', 'n', 'l', 'o', 'a', 'd', 'e', 'd', '=', '0',
      '&', 'u', 'p', 'l', 'o', 'a', 'd', 'e', 'd', '=', '0', '&', 'l', 'e', 'f', 't', '='] ++
    decimal env.totalSize ++
    ascii ['&', 'e', 'v', 'e', 'n', 't', '=', 's', 't', 'a', 'r', 't', 'e', 'd']

/-- `http_client.get`. -/
def get (url : ByteString) (t : TrackerClient) : TrackerClient :=
  { t with requested := t.requested ++ [url] }

/-- The end of the branch for HTTP trackers. -/
def handle (resp : HttpResponse) (t : TrackerClient) : Except TrackerError TrackerClient :=
  if resp.status = 200 then
    (parsePeers env resp.body t.udp.receivedPeers).map fun peers =>
      { t with udp.receivedPeers := peers }
  else .ok t

/-- The body of the loop over the trackers. -/
def announceTo (t : TrackerClient) (tracker : Tracker) : Except TrackerError TrackerClient :=
  if (findText (ascii ['u', 'd', 'p']) tracker.url).isSome then
    (t.udp.announce env.toUdpEnv tracker.url tracker.infos).map fun udp => { t with udp := udp }
  else
    let t := t.get (httpUrl env tracker.url)
    if tracker.first.status = 301 then
      tracker.first.field.bind fun location => (t.get location).handle env tracker.second
    else t.handle env tracker.first

/-- `tracker_client::announce`: what it returns and the state it leaves.  The endpoint is what an
`endpoint` holds that was not initialized. -/
def announce (ep : Endpoint) (trackers : List Tracker) (receivedPeers : List PeerInfo) :
    Except TrackerError (Bool × TrackerClient) :=
  if trackers.isEmpty then .ok (false, ⟨.initial receivedPeers ep, []⟩)
  else
    (trackers.foldlM (announceTo env) ⟨.initial [] ep, []⟩).map fun t =>
      (!t.udp.receivedPeers.isEmpty, t)

end TrackerClient

end Tent
