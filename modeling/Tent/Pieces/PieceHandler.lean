import Tent.Storage.FileHandler

/-!
# The piece handler

`piece_handler` keeps what the client knows about the download: which pieces every peer announced
(`have_map_`), which blocks may be requested from it (`request_map_`), the blocks received so far
(`received_pieces_`), the files on disk and the number of pieces written.

A piece is requested in blocks of `BLOCK_LEN` bytes.  When a block arrives, `received` stores it and
`write_if_valid` tries to finish its piece: if all blocks are there and their concatenation has the
right hash, the blocks are written to the files, which consumes the stored buffers.

The handler also carries a log of what cannot be read off its state afterwards (`HandlerEvent`):
the strings given to the hasher, the writes to files, the pieces found valid and the calls of
`session::stop`.  No function reads the log.
-/

set_option autoImplicit false

namespace Tent

open Bytes

/-- `piece_handler::BLOCK_LEN`. -/
def blockLen : ℕ := 2 ^ 14

/-- A block is not empty. -/
lemma blockLen_pos : 0 < blockLen := by decide

/-- The range of a `uint32_t`. -/
def uint32Range : ℕ := 2 ^ 32

/-- A peer id: the key of the handler's maps. -/
abbrev PeerId := ByteString

/-- `piece_received_key`. -/
structure PieceReceivedKey where
  /-- `index_`. -/
  index : ℕ
  /-- `begin_`. -/
  begin : ℕ
deriving DecidableEq, Repr

/-- `received_block`. -/
structure ReceivedBlock where
  /-- `received_`. -/
  received : Bool
  /-- The unread bytes of `block_`. -/
  block : ByteString
deriving DecidableEq, Repr

/-- `msg::request`. -/
structure Request where
  /-- `index_`. -/
  index : ℕ
  /-- `begin_`. -/
  begin : ℕ
  /-- `length_`. -/
  length : ℕ
deriving DecidableEq, Repr

/-- What the handler does besides changing its state. -/
inductive HandlerEvent where
  /-- The hasher finished over these bytes, for this piece. -/
  | hashed (index : ℕ) (bytes : ByteString)
  /-- A `file_handler::write` of this range, from a buffer with so many bytes available. -/
  | fileWrite (range : FileSlice) (available : ℕ)
  /-- `write_if_valid(index)` returned true. -/
  | validated (index : ℕ)
  /-- `session::stop()`. -/
  | stop
deriving DecidableEq, Repr

/-- The order in which a `std::unordered_set` is walked through: some permutation of what was
inserted. -/
structure SetOrder where
  /-- The order of the walk, given the elements in the order of their insertion. -/
  order : List ℕ → List ℕ
  /-- Every element is visited once. -/
  perm : ∀ l, (order l).Perm l

/-- What the handler is given and does not change: the torrent, the hash function, what lies behind
a buffer and the order of walks through sets. -/
structure Env (Digest : Type*) where
  /-- `torrent_info_`. -/
  torrent : TorrentInfo Digest
  /-- `lt::hasher`. -/
  sha1 : ByteString → Digest
  /-- The bytes behind the end of a buffer. -/
  oob : Oob
  /-- The order of a walk through a set of piece indices. -/
  setOrder : SetOrder

/-- The state of a `piece_handler`. -/
structure PieceHandler where
  /-- `have_map_`, each set in the order of insertion. -/
  haveMap : PeerId → List ℕ
  /-- `request_map_`, the front of each queue first. -/
  requestMap : PeerId → List Request
  /-- `received_pieces_`; a missing entry reads as a block that was not received. -/
  receivedPieces : PieceReceivedKey → ReceivedBlock
  /-- `file_handlers_`: the file index of the handler stored under a name. -/
  fileHandlers : List (String × ℕ)
  /-- The files the handlers write to, by file index. -/
  disk : Disk
  /-- `written_pieces_`. -/
  writtenPieces : ℕ
  /-- What the handler did so far. -/
  log : List HandlerEvent

/-- `file_handlers_.emplace` for the files from `index` on: a name that is taken keeps its
handler. -/
def emplaceHandlers : List FileEntry → ℕ → List (String × ℕ) → List (String × ℕ)
  | [], _, handlers => handlers
  | f :: fs, index, handlers =>
      emplaceHandlers fs (index + 1)
        (if (handlers.lookup f.name).isSome then handlers else handlers ++ [(f.name, index)])

/-- `std::ceil(piece_size / BLOCK_LEN)`. -/
def blocksPerPiece (pieceSize : ℕ) : ℕ := (pieceSize + blockLen - 1) / blockLen

/-- `block_ind * BLOCK_LEN`, a `uint32_t`. -/
def blockBegin (blockInd : ℕ) : ℕ := blockInd * blockLen % uint32Range

/-- The bit positions of a byte that are set, most significant first, as piece indices. -/
def bitIndices (indexOffset : ℕ) (bits : UInt8) : List ℕ :=
  ((List.range 8).filter fun j => bits.toNat.testBit (7 - j)).map fun j =>
    (indexOffset * 8 + j) % uint32Range

/-- The piece indices of a bitfield, in the order in which `have` meets them. -/
def bitfieldIndices : ByteString → ℕ → List ℕ
  | [], _ => []
  | bits :: rest, indexOffset =>
    bitIndices indexOffset bits ++ bitfieldIndices rest (indexOffset + 1)

namespace PieceHandler

variable {Digest : Type*} (env : Env Digest)

/-- The constructor `piece_handler::piece_handler`. -/
def create : PieceHandler where
  haveMap := fun _ => []
  requestMap := fun _ => []
  receivedPieces := fun _ => ⟨false, []⟩
  fileHandlers := emplaceHandlers env.torrent.files 0 []
  disk := Disk.create env.torrent
  writtenPieces := 0
  log := []

/-- The keys of the blocks of a piece, in order. -/
def blockKeys (index : ℕ) : List PieceReceivedKey :=
  (List.range (blocksPerPiece (env.torrent.pieceSize index))).map fun k => ⟨index, blockBegin k⟩

/-- The requests that `add_to_queue` emplaces for a piece: one for each unreceived block. -/
def newRequests (index : ℕ) (h : PieceHandler) : List Request :=
  let pieceSize := env.torrent.pieceSize index
  let blocks := blocksPerPiece pieceSize
  (List.range blocks).filterMap fun k =>
    if (h.receivedPieces ⟨index, blockBegin k⟩).received then none
    else
      let blockSize :=
        if k < blocks - 1 ∨ pieceSize % blockLen = 0 then blockLen else pieceSize % blockLen
      some ⟨index, blockBegin k, blockSize⟩

/-- `piece_handler::add_to_queue`. -/
def addToQueue (peerId : PeerId) (index : ℕ) (h : PieceHandler) : PieceHandler :=
  { h with requestMap :=
      Function.update h.requestMap peerId (h.requestMap peerId ++ newRequests env index h) }

/-- `piece_handler::have(peer_id, index)`. -/
def haveIndex (peerId : PeerId) (index : ℕ) (h : PieceHandler) : PieceHandler :=
  if index ∈ h.haveMap peerId then h
  else
    addToQueue env peerId index
      { h with haveMap := Function.update h.haveMap peerId (h.haveMap peerId ++ [index]) }

/-- `piece_handler::have(peer_id, bitfield)`. -/
def haveBitfield (peerId : PeerId) (bitfield : ByteString) (h : PieceHandler) : PieceHandler :=
  (bitfieldIndices bitfield 0).foldl (fun h index => haveIndex env peerId index h) h

/-- `piece_handler::rebuild_queue`; the result says whether the queue is not empty now. -/
def rebuildQueue (peerId : PeerId) (h : PieceHandler) : PieceHandler × Bool :=
  let h' := (env.setOrder.order (h.haveMap peerId)).foldl
    (fun h index => addToQueue env peerId index h) h
  (h', !(h'.requestMap peerId).isEmpty)

/-- The loop of `get_piece_request`: pop until the popped block is unreceived. -/
def popUnreceived (h : PieceHandler) : List Request → List Request × Option Request
  | [] => ([], none)
  | r :: queue =>
      if (h.receivedPieces ⟨r.index, r.begin⟩).received then popUnreceived h queue
      else (queue, some r)

/-- The first lines of `get_piece_request`: an empty queue is rebuilt, and the result says whether
there is anything to pop. -/
def refill (peerId : PeerId) (h : PieceHandler) : PieceHandler × Bool :=
  if (h.requestMap peerId).isEmpty then rebuildQueue env peerId h else (h, true)

/-- `piece_handler::get_piece_request`; `none` is a pair whose first component is false. -/
def getPieceRequest (peerId : PeerId) (h : PieceHandler) : PieceHandler × Option Request :=
  let filled := refill env peerId h
  if filled.2 then
    let popped := popUnreceived filled.1 (filled.1.requestMap peerId)
    ({ filled.1 with requestMap := Function.update filled.1.requestMap peerId popped.1 }, popped.2)
  else (filled.1, none)

/-- `piece_handler::is_done`. -/
def isDone (h : PieceHandler) : Bool := env.torrent.numPieces ≤ h.writtenPieces

/-- Store a block: append its bytes to the buffer and set the flag. -/
def store (key : PieceReceivedKey) (data : ByteString) (h : PieceHandler) : PieceHandler :=
  { h with
    receivedPieces :=
      Function.update h.receivedPieces key ⟨true, (h.receivedPieces key).block ++ data⟩ }

/-- The first two words of a piece message. -/
def keyOf (oob : Oob) (payload : ByteString) : PieceReceivedKey :=
  ⟨ofBE (window oob payload 0 4), ofBE (window oob (payload.drop 4) 0 4)⟩

/-- One file slice of the write of a block: the handler stored under the name of the file writes
the next bytes of the stored block, which consumes them. -/
def writeSlice (key : PieceReceivedKey) (h : PieceHandler) (s : FileSlice) : PieceHandler :=
  match h.fileHandlers.lookup (env.torrent.fileName s.fileIndex) with
  | some file =>
      { h with
        disk := Function.update h.disk file
          (FileHandler.write env.oob (h.receivedPieces key).block s.offset s.size (h.disk file))
        receivedPieces := Function.update h.receivedPieces key
          ⟨(h.receivedPieces key).received, (h.receivedPieces key).block.drop s.size⟩
        log := h.log ++
          [.fileWrite ⟨file, s.offset, s.size⟩ (h.receivedPieces key).block.length] }
  | none => h

/-- The write of one block along the slices of `map_block`. -/
def writeBlock (h : PieceHandler) (key : PieceReceivedKey) : PieceHandler :=
  (env.torrent.mapBlock key.index key.begin blockLen).foldl (writeSlice env key) h

variable [DecidableEq Digest]

/-- `piece_handler::write_if_valid`. -/
def writeIfValid (index : ℕ) (h : PieceHandler) : PieceHandler × Bool :=
  let keys := blockKeys env index
  if keys.all fun key => (h.receivedPieces key).received then
    let bytes := keys.flatMap fun key => (h.receivedPieces key).block
    let h := { h with log := h.log ++ [.hashed index bytes] }
    if env.sha1 bytes = env.torrent.hashForPiece index then
      let h := keys.foldl (writeBlock env) h
      ({ h with
          writtenPieces := h.writtenPieces + 1
          log := h.log ++ [.validated index] }, true)
    else (h, false)
  else (h, false)

/-- The body of `piece_handler::received`, given the key and the rest of the message. -/
def receivedBlock (key : PieceReceivedKey) (data : ByteString) (h : PieceHandler) : PieceHandler :=
  if (h.receivedPieces key).received then h
  else
    let (h, valid) := writeIfValid env key.index (store key data h)
    if valid && isDone env h then { h with log := h.log ++ [.stop] } else h

/-- `piece_handler::received`. -/
def received (payload : ByteString) (h : PieceHandler) : PieceHandler :=
  receivedBlock env (keyOf env.oob payload) (payload.drop 8) h

end PieceHandler

/-! ### Torrents of one and of two bytes -/

/-- The SHA-1 digests of the empty string, of the byte `1` and of the byte `2`. -/
def sampleSha1 (b : ByteString) : ByteString :=
  if b = [] then
    [218, 57, 163, 238, 94, 107, 75, 13, 50, 85, 191, 239, 149, 96, 24, 144, 175, 216, 7, 9]
  else if b = [1] then
    [191, 139, 69, 48, 216, 210, 70, 221, 116, 172, 83, 161, 52, 113, 187, 161, 121, 65, 223, 247]
  else if b = [2] then
    [196, 234, 33, 187, 54, 91, 190, 234, 245, 242, 198, 84, 136, 62, 86, 209, 30, 67, 196, 78]
  else List.replicate 20 0

/-- A torrent with one file of one byte and the given piece digest. -/
def sampleTorrent (digest : ByteString) : TorrentInfo ByteString where
  pieceLength := blockLen
  files := [⟨[], "a", 1⟩]
  hashForPiece := fun _ => digest
  pieceLength_pos := by decide
  pieceLength_le := by decide
  files_ne_nil := by decide
  totalSize_lt := by decide

/-- The environment around a torrent of one byte whose piece has the digest of `content`. -/
def sampleEnv (content : ByteString) : Env ByteString where
  torrent := sampleTorrent (sampleSha1 content)
  sha1 := sampleSha1
  oob := fun _ _ => 0
  setOrder := ⟨id, fun _ => List.Perm.refl _⟩

/-- A torrent with one file of the bytes `1` and `2` and pieces of one byte. -/
def twoPieceEnv : Env ByteString where
  torrent :=
    { pieceLength := 1
      files := [⟨[], "a", 2⟩]
      hashForPiece := fun index => if index = 0 then sampleSha1 [1] else sampleSha1 [2]
      pieceLength_pos := by decide
      pieceLength_le := by decide
      files_ne_nil := by decide
      totalSize_lt := by decide }
  sha1 := sampleSha1
  oob := fun _ _ => 0
  setOrder := (sampleEnv []).setOrder

/-- A piece length of two blocks. -/
lemma two_blockLen_pos : 0 < 2 * blockLen := by decide

/-- Two blocks are no longer than a piece may be. -/
lemma two_blockLen_le : 2 * blockLen ≤ intMax := by decide

/-- The payload of a piece message. -/
def piecePayload (index begin : ℕ) (block : ByteString) : ByteString :=
  toBE 4 index ++ toBE 4 begin ++ block

end Tent
