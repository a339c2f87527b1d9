import Tent.Pieces.Corruption
import Tent.Pieces.Download

/-!
# The bytes that are written

`write_if_valid` hashes the concatenation of the stored blocks of a piece and then writes every
block to its own slot, as long as `map_block` says.  `received` stores blocks of any length, so the
two need not fit: a block that is too long moves the bytes behind it in the concatenation, and a
block that is too short is written beyond its end.

`WrittenAsHashed` says what a call should do: a piece found valid stands in the files as it was
hashed, and no write reads more than the stored block holds.  Where `map_block` finds the blocks, a
call does this exactly when the blocks of a piece that it finds valid fill their slots
(`written_as_hashed_iff`).
-/

set_option autoImplicit false

namespace Tent

open Bytes Segments Transition

namespace PieceHandler

variable {Digest : Type*} (env : Env Digest)

/-- The length of the slot of a block: the block length, cut off at the end of the piece. -/
def slotLen (key : PieceReceivedKey) : ℕ :=
  min blockLen (env.torrent.pieceSize key.index - key.begin)

/-- The range of the piece in the files holds exactly these bytes. -/
structure OnDisk (i : ℕ) (d : Disk) (bytes : ByteString) : Prop where
  /-- There are as many bytes as the piece has. -/
  length_eq : bytes.length = env.torrent.pieceSize i
  /-- Every byte of the files that belongs to the piece is the byte at its offset in the piece. -/
  image_eq : ∀ f < env.torrent.numFiles, ∀ o < env.torrent.fileSize f,
    env.torrent.position f o / env.torrent.pieceLength = i →
      d.image f o = bytes[env.torrent.position f o - i * env.torrent.pieceLength]?

/-- The block is the last missing one of its piece, and the bytes of the piece have the right
hash. -/
structure CompletesValid (h : PieceHandler) (key : PieceReceivedKey) (data : ByteString) :
    Prop where
  /-- The block was not received. -/
  unreceived : (h.receivedPieces key).received = false
  /-- Every other block of the piece was received. -/
  others : ∀ k ∈ blockKeys env key.index, k ≠ key → (h.receivedPieces k).received = true
  /-- The bytes have the right hash. -/
  valid : env.sha1 (assembled env h key data) = env.torrent.hashForPiece key.index

/-- Every block of the piece is as long as its slot when `data` arrives for `key`. -/
def FillsSlots (h : PieceHandler) (key : PieceReceivedKey) (data : ByteString) : Prop :=
  ∀ k ∈ blockKeys env key.index,
    (if k = key then (h.receivedPieces k).block ++ data else (h.receivedPieces k).block).length =
      slotLen env k

/-- A message that completes a piece with the right hash leaves every block as long as its slot. -/
def SlotsFilled (h : PieceHandler) (payload : ByteString) : Prop :=
  CompletesValid env h (keyOf env.oob payload) (payload.drop 8) →
    FillsSlots env h (keyOf env.oob payload) (payload.drop 8)

/-- `map_block` finds the blocks of a piece that a message completes with the right hash. -/
def ValidMapped (h : PieceHandler) (payload : ByteString) : Prop :=
  CompletesValid env h (keyOf env.oob payload) (payload.drop 8) →
    PieceMapped env (keyOf env.oob payload).index

/-- The files can be written to, each through its own handler. -/
structure FilesReady (h : PieceHandler) : Prop where
  /-- Every file is written through its own handler. -/
  handlers : HandlersOwn env h
  /-- The streams can be written to. -/
  formatted : h.disk.Formatted env.torrent

/-- Between the two states every piece found valid was written as it was hashed, and no write read
more bytes than were stored. -/
def WrittenAsHashed (h h' : PieceHandler) : Prop :=
  ∀ new, h'.log = h.log ++ new → ∀ i, .validated i ∈ new →
    (∀ bytes, .hashed i bytes ∈ new → OnDisk env i h'.disk bytes) ∧
      ∀ range available, .fileWrite range available ∈ new → range.size ≤ available

/-- The file writes of one block with so many stored bytes, along its slices. -/
def sliceWrites : List FileSlice → ℕ → List HandlerEvent
  | [], _ => []
  | s :: slices, available => .fileWrite s available :: sliceWrites slices (available - s.size)

variable {env}

/-! ### The file writes -/

/-- The writes along slices read stored bytes only exactly when there are enough of them. -/
lemma sliceWrites_inside_iff {slices : List FileSlice} (hpos : ∀ s ∈ slices, 0 < s.size)
    (available : ℕ) :
    (∀ range n, .fileWrite range n ∈ sliceWrites slices available → range.size ≤ n) ↔
      (slices.map FileSlice.size).sum ≤ available := by
  induction slices generalizing available with
  | nil => simp [sliceWrites]
  | cons s slices ih =>
    have hs := hpos s List.mem_cons_self
    have hslices : ∀ r ∈ slices, 0 < r.size := fun r hr => hpos r (List.mem_cons_of_mem s hr)
    rw [List.map_cons, List.sum_cons]
    constructor
    · intro h
      have hfirst := h s available List.mem_cons_self
      have hrest := (ih hslices (available - s.size)).mp fun range n hmem =>
        h range n (List.mem_cons_of_mem _ hmem)
      omega
    · intro hsum range n hmem
      rcases List.mem_cons.mp hmem with heq | hmem
      · obtain ⟨rfl, rfl⟩ := HandlerEvent.fileWrite.inj heq
        omega
      · exact (ih hslices _).mpr (by omega) range n hmem

/-- The log of the write of a block. -/
lemma log_foldl_writeSlice (key : PieceReceivedKey) {slices : List FileSlice}
    (hslices : ∀ s ∈ slices, s.fileIndex < env.torrent.numFiles) {h : PieceHandler}
    (hown : HandlersOwn env h) :
    (slices.foldl (writeSlice env key) h).log =
      h.log ++ sliceWrites slices (h.receivedPieces key).block.length := by
  induction slices generalizing h with
  | nil => simp [sliceWrites]
  | cons s slices ih =>
    have hlookup := hown s.fileIndex (hslices s List.mem_cons_self)
    have hown' : HandlersOwn env (writeSlice env key h s) := by
      intro f hf
      rw [(writeFrame_writeSlice env key h s).fileHandlers_eq]
      exact hown f hf
    have hlog : (writeSlice env key h s).log =
        h.log ++ [.fileWrite s (h.receivedPieces key).block.length] := by
      simp [writeSlice, hlookup]
    have hblock : ((writeSlice env key h s).receivedPieces key).block.length =
        (h.receivedPieces key).block.length - s.size := by
      simp [writeSlice, hlookup]
    rw [List.foldl_cons, ih (fun r hr => hslices r (List.mem_cons_of_mem s hr)) hown', hlog, hblock,
      List.append_assoc]
    rfl

/-- The log of the write of a piece: the writes of its blocks, one after the other. -/
lemma log_writePiece {keys : List PieceReceivedKey} (hnodup : keys.Nodup) {h : PieceHandler}
    (hown : HandlersOwn env h) :
    (keys.foldl (writeBlock env) h).log = h.log ++ keys.flatMap fun key =>
      sliceWrites (env.torrent.mapBlock key.index key.begin blockLen)
        (h.receivedPieces key).block.length := by
  induction keys generalizing h with
  | nil => simp
  | cons key keys ih =>
    rw [List.nodup_cons] at hnodup
    have hown' : HandlersOwn env (writeBlock env h key) := by
      intro f hf
      rw [(writeFrame_writeBlock env h key).fileHandlers_eq]
      exact hown f hf
    have hlog : (writeBlock env h key).log = h.log ++
        sliceWrites (env.torrent.mapBlock key.index key.begin blockLen)
          (h.receivedPieces key).block.length :=
      log_foldl_writeSlice key (fun s hs => (env.torrent.mem_mapBlock hs).1) hown
    have hsame : (keys.flatMap fun k =>
          sliceWrites (env.torrent.mapBlock k.index k.begin blockLen)
            ((writeBlock env h key).receivedPieces k).block.length) =
        keys.flatMap fun k => sliceWrites (env.torrent.mapBlock k.index k.begin blockLen)
          (h.receivedPieces k).block.length := by
      refine List.flatMap_congr fun k hk => ?_
      have hne : k ≠ key := fun heq => hnodup.1 (heq ▸ hk)
      rw [writeBlock_receivedPieces_of_ne env hne]
    rw [List.foldl_cons, ih hnodup.2 hown', hlog, hsame, List.append_assoc, List.flatMap_cons]

/-- Only file writes are recorded along slices. -/
lemma eq_fileWrite_of_mem_sliceWrites {slices : List FileSlice} {available : ℕ} {e : HandlerEvent}
    (he : e ∈ sliceWrites slices available) : ∃ range n, e = .fileWrite range n := by
  induction slices generalizing available with
  | nil => exact absurd he List.not_mem_nil
  | cons s slices ih =>
    rcases List.mem_cons.mp he with rfl | he
    · exact ⟨s, available, rfl⟩
    · exact ih he

/-! ### Slots that are filled -/

variable {h : PieceHandler} {i : ℕ}

/-- The blocks of an existing piece are blocks of the torrent. -/
lemma isBlock_of_mem_blockKeys (hi : i < env.torrent.numPieces) {key : PieceReceivedKey}
    (hkey : key ∈ blockKeys env i) : env.torrent.IsBlock key := by
  obtain rfl := index_of_mem_blockKeys hkey
  exact (TorrentInfo.isBlock_iff hi).mpr hkey

/-- The slots of a piece have together the size of the piece. -/
lemma sum_slotLen (i : ℕ) :
    ((blockKeys env i).map (slotLen env)).sum = env.torrent.pieceSize i := by
  have hlen := congrArg List.length (flatMap_blockBytes env (fun _ => 0) i)
  rw [List.length_flatMap, TorrentInfo.pieceBytes, length_stretch] at hlen
  rw [← hlen]
  refine congrArg List.sum (List.map_congr_left fun key _ => ?_)
  rw [TorrentInfo.blockBytes, length_stretch]
  rfl

/-- Stored blocks that fill their slots are the blocks of some contents of the torrent. -/
lemma exists_content (hi : i < env.torrent.numPieces)
    (hfill : ∀ k ∈ blockKeys env i, (h.receivedPieces k).block.length = slotLen env k) :
    ∃ content : ℕ → UInt8, ∀ k ∈ blockKeys env i,
      (h.receivedPieces k).block = env.torrent.blockBytes content k := by
  refine ⟨fun p => (h.receivedPieces ⟨i, (p - i * env.torrent.pieceLength) / blockLen *
    blockLen⟩).block.getD ((p - i * env.torrent.pieceLength) % blockLen) 0, fun key hkey => ?_⟩
  have hlen := hfill key hkey
  obtain ⟨hindex, k, hbegin, -⟩ := mem_blockKeys.mp hkey
  have hpos := blockLen_pos
  obtain ⟨index, begin⟩ := key
  obtain rfl : index = i := hindex
  obtain rfl : begin = k * blockLen := hbegin
  apply List.ext_getElem?
  intro m
  by_cases hm : m < slotLen env ⟨index, k * blockLen⟩
  · have hmlt : m < blockLen := Nat.lt_of_lt_of_le hm (Nat.min_le_left _ _)
    have hoff : index * env.torrent.pieceLength + k * blockLen + m -
        index * env.torrent.pieceLength = m + k * blockLen := by omega
    have hdiv : (m + k * blockLen) / blockLen = k := by
      rw [Nat.add_mul_div_right _ _ hpos, Nat.div_eq_of_lt hmlt, Nat.zero_add]
    have hmod : (m + k * blockLen) % blockLen = m := by
      rw [Nat.add_mul_mod_self_right, Nat.mod_eq_of_lt hmlt]
    refine Eq.trans ?_ (getElem?_stretch _ _ hm).symm
    simp only [hoff, hdiv, hmod]
    rw [List.getD_eq_getElem?_getD, List.getElem?_eq_getElem (by omega), Option.getD_some]
  · rw [List.getElem?_eq_none (by omega), List.getElem?_eq_none]
    rw [TorrentInfo.blockBytes, length_stretch]
    exact Nat.not_lt.mp hm

/-- A piece whose blocks fill their slots is written as it was hashed. -/
lemma onDisk_writtenPiece (hready : FilesReady env h) (hdvd : blockLen ∣ env.torrent.pieceLength)
    (hi : i < env.torrent.numPieces) (hmapped : PieceMapped env i)
    (hfill : ∀ k ∈ blockKeys env i, (h.receivedPieces k).block.length = slotLen env k) :
    OnDisk env i (writtenPiece env i h).disk (storedBytes env i h) ∧
      FilesReady env (writtenPiece env i h) := by
  obtain ⟨content, hcontent⟩ := exists_content hi hfill
  have hbytes : storedBytes env i h = env.torrent.pieceBytes content i := by
    rw [← flatMap_blockBytes env content i]
    exact List.flatMap_congr hcontent
  have hframe := writeFrame_writePiece env (blockKeys env i) (hashedPiece env i h)
  have hcount := countFrame_writtenPiece env i h
  obtain ⟨hformatted, himage⟩ := disk_foldl_writeBlock content (blockKeys env i)
    (fun key hkey => isBlock_of_mem_blockKeys hi hkey) nodup_blockKeys hdvd hmapped
    (show HandlersOwn env (hashedPiece env i h) from hready.handlers) hready.formatted hcontent
  refine ⟨⟨?_, fun f hf o ho hpiece => ?_⟩, ⟨fun f hf => ?_, ?_⟩⟩
  · rw [hbytes, TorrentInfo.pieceBytes, length_stretch]
  · have hp := position_lt_totalSize hf ho
    obtain ⟨hle, hlt⟩ := (env.torrent.div_pieceLength_eq_iff hi hp).mp hpiece
    rw [hcount.disk_eq]
    refine (himage f hf o ho).trans ?_
    rw [if_pos ((exists_covers_iff hi hp).mpr hpiece), hbytes, TorrentInfo.pieceBytes,
      getElem?_stretch content _ (by omega), Nat.add_sub_cancel' hle]
  · rw [hcount.fileHandlers_eq, hframe.fileHandlers_eq]
    exact hready.handlers f hf
  · rw [hcount.disk_eq]
    exact hformatted

/-- The writes of a piece read stored bytes only exactly when no block is shorter than its slot. -/
lemma pieceWrites_inside_iff (hdvd : blockLen ∣ env.torrent.pieceLength)
    (hi : i < env.torrent.numPieces) (hmapped : PieceMapped env i) (length : PieceReceivedKey → ℕ) :
    (∀ range n, .fileWrite range n ∈ ((blockKeys env i).flatMap fun key =>
        sliceWrites (env.torrent.mapBlock key.index key.begin blockLen) (length key)) →
      range.size ≤ n) ↔ ∀ key ∈ blockKeys env i, slotLen env key ≤ length key := by
  have hblock : ∀ key ∈ blockKeys env i,
      ((∀ range n, .fileWrite range n ∈ sliceWrites
          (env.torrent.mapBlock key.index key.begin blockLen) (length key) → range.size ≤ n) ↔
        slotLen env key ≤ length key) := by
    intro key hkey
    rw [sliceWrites_inside_iff fun s hs => (env.torrent.mem_mapBlock hs).2,
      env.torrent.sum_size_mapBlock,
      TorrentInfo.mappedSize_eq (isBlock_of_mem_blockKeys hi hkey) hdvd (hmapped key hkey)]
    rfl
  constructor
  · intro h key hkey
    refine (hblock key hkey).mp fun range n hmem => h range n ?_
    exact List.mem_flatMap.mpr ⟨key, hkey, hmem⟩
  · intro h range n hmem
    obtain ⟨key, hkey, hmem⟩ := List.mem_flatMap.mp hmem
    exact (hblock key hkey).mpr (h key hkey) range n hmem

/-- The events of a piece found valid: one string was hashed, the piece was written with these file
writes, and no other piece was found valid. -/
structure PieceEvents (i : ℕ) (bytes : ByteString) (writes new : List HandlerEvent) : Prop where
  /-- What was hashed. -/
  hashed : ∀ b, .hashed i b ∈ new ↔ b = bytes
  /-- Which piece was found valid. -/
  validated : ∀ j, .validated j ∈ new ↔ j = i
  /-- The file writes. -/
  fileWrite : ∀ range n, .fileWrite range n ∈ new ↔ .fileWrite range n ∈ writes

/-- The events in the order in which they are logged. -/
lemma pieceEvents_append {bytes : ByteString} {writes stops : List HandlerEvent}
    (hwrites : ∀ e ∈ writes, ∃ range n, e = .fileWrite range n) (hstops : ∀ e ∈ stops, e = .stop) :
    PieceEvents i bytes writes (.hashed i bytes :: writes ++ .validated i :: stops) where
  hashed b := by
    have hno : .hashed i b ∉ writes := fun hmem => by
      obtain ⟨range, n, he⟩ := hwrites _ hmem
      cases he
    have hno' : .hashed i b ∉ stops := fun hmem => by cases hstops _ hmem
    simp [hno, hno']
  validated j := by
    have hno : .validated j ∉ writes := fun hmem => by
      obtain ⟨range, n, he⟩ := hwrites _ hmem
      cases he
    have hno' : .validated j ∉ stops := fun hmem => by cases hstops _ hmem
    simp [hno, hno']
  fileWrite range n := by
    have hno : .fileWrite range n ∉ stops := fun hmem => by cases hstops _ hmem
    simp [hno]

/-- A piece was written as it was hashed if its range holds what was hashed and its file writes read
stored bytes only. -/
lemma writtenAsHashed_iff_of_log {h₀ h' : PieceHandler} {bytes : ByteString}
    {writes new : List HandlerEvent} (hnew : h'.log = h₀.log ++ new)
    (hevents : PieceEvents i bytes writes new) :
    WrittenAsHashed env h₀ h' ↔
      OnDisk env i h'.disk bytes ∧ ∀ range n, .fileWrite range n ∈ writes → range.size ≤ n := by
  constructor
  · intro hwritten
    obtain ⟨hall, hsizes⟩ := hwritten new hnew i ((hevents.validated i).mpr rfl)
    refine ⟨hall bytes ((hevents.hashed bytes).mpr rfl), fun range n hin => ?_⟩
    exact hsizes range n ((hevents.fileWrite range n).mpr hin)
  · rintro ⟨hon, hsizes⟩ new' hnew' j hj
    obtain rfl := List.append_cancel_left (hnew.symm.trans hnew')
    obtain rfl := (hevents.validated j).mp hj
    refine ⟨fun b hb => ?_, fun range n hin => hsizes range n ((hevents.fileWrite range n).mp hin)⟩
    rw [(hevents.hashed b).mp hb]
    exact hon

/-- Writing a piece found valid writes it as it was hashed exactly when its blocks fill their
slots. -/
lemma writtenAsHashed_writtenPiece_iff (hready : FilesReady env h)
    (hdvd : blockLen ∣ env.torrent.pieceLength) (hi : i < env.torrent.numPieces)
    (hmapped : PieceMapped env i) {h₀ : PieceHandler} (hlog : h.log = h₀.log) :
    WrittenAsHashed env h₀ (stopIfDone env (writtenPiece env i h)) ↔
      ∀ k ∈ blockKeys env i, (h.receivedPieces k).block.length = slotLen env k := by
  set writes := (blockKeys env i).flatMap fun key =>
    sliceWrites (env.torrent.mapBlock key.index key.begin blockLen)
      (h.receivedPieces key).block.length with hwrites
  have hown : HandlersOwn env (hashedPiece env i h) := hready.handlers
  have hfileWrites : ∀ e ∈ writes, ∃ range n, e = .fileWrite range n := by
    intro e he
    obtain ⟨key, -, he⟩ := List.mem_flatMap.mp he
    exact eq_fileWrite_of_mem_sliceWrites he
  obtain ⟨stops, hstop, hstops⟩ := log_stopIfDone env (writtenPiece env i h)
  have hnew : (stopIfDone env (writtenPiece env i h)).log =
      h₀.log ++ (.hashed i (storedBytes env i h) :: writes ++ .validated i :: stops) := by
    rw [hstop, writtenPiece, log_writePiece nodup_blockKeys hown, ← hlog]
    simp [hashedPiece, hwrites]
  rw [writtenAsHashed_iff_of_log hnew (pieceEvents_append hfileWrites hstops), stopIfDone_disk,
    pieceWrites_inside_iff hdvd hi hmapped fun key => (h.receivedPieces key).block.length]
  constructor
  · rintro ⟨hon, hle⟩ k hk
    refine (eq_of_sum_map_le hle ?_ k hk).symm
    have hlen := hon.length_eq
    rw [storedBytes, List.length_flatMap] at hlen
    rw [sum_slotLen, ← hlen]
  · exact fun hfill => ⟨(onDisk_writtenPiece hready hdvd hi hmapped hfill).1,
      fun k hk => Nat.le_of_eq (hfill k hk).symm⟩

/-! ### One call of `received` -/

/-- The stored bytes of a block after one is stored. -/
lemma block_store (key k : PieceReceivedKey) (data : ByteString) (h : PieceHandler) :
    ((store key data h).receivedPieces k).block =
      if k = key then (h.receivedPieces k).block ++ data else (h.receivedPieces k).block := by
  by_cases hk : k = key
  · simp [store, hk]
  · simp [store, hk]

/-- States without a new piece found valid wrote nothing that could be wrong. -/
lemma WrittenAsHashed.of_log {h' : PieceHandler} (new : List HandlerEvent)
    (hlog : h'.log = h.log ++ new) (hnew : ∀ i, .validated i ∉ new) : WrittenAsHashed env h h' := by
  intro new' hlog' i hi
  obtain rfl := List.append_cancel_left (hlog.symm.trans hlog')
  exact absurd hi (hnew i)

variable [DecidableEq Digest] {key : PieceReceivedKey} {data : ByteString}

/-- A received block has its piece written as it was hashed exactly when the blocks of a piece that
it completes with the right hash fill their slots. -/
lemma writtenAsHashed_receivedBlock_iff (hready : FilesReady env h)
    (hdvd : blockLen ∣ env.torrent.pieceLength) (hi : key.index < env.torrent.numPieces)
    (hmapped : CompletesValid env h key data → PieceMapped env key.index) :
    WrittenAsHashed env h (receivedBlock env key data h) ↔
      (CompletesValid env h key data → FillsSlots env h key data) := by
  apply receivedBlock_cases (P := fun h' => WrittenAsHashed env h h' ↔
    (CompletesValid env h key data → FillsSlots env h key data))
  · intro hrec
    refine iff_of_true (.of_log [] (by simp) (by simp)) fun hvalid => ?_
    exact absurd (hrec.symm.trans hvalid.unreceived) (by simp)
  · intro _ hall
    refine iff_of_true (.of_log [] (by simp [store]) (by simp)) fun hvalid => ?_
    exact absurd (allReceived_store_iff.mpr hvalid.others) hall
  · intro _ _ hhash
    rw [storedBytes_store] at hhash
    refine iff_of_true (.of_log _ rfl (by simp)) fun hvalid => absurd hvalid.valid hhash
  · intro hrec hall hhash
    rw [storedBytes_store] at hhash
    have hvalid : CompletesValid env h key data := ⟨hrec, allReceived_store_iff.mp hall, hhash⟩
    have hstored : FilesReady env (store key data h) := ⟨hready.handlers, hready.formatted⟩
    have hlog : (store key data h).log = h.log := rfl
    rw [writtenAsHashed_writtenPiece_iff hstored hdvd hi (hmapped hvalid) hlog]
    refine Iff.trans ?_ ⟨fun hfill _ => hfill, fun himp => himp hvalid⟩
    refine forall₂_congr fun k _ => ?_
    rw [block_store]

/-- The files stay ready when a block is received whose piece, if found valid, fills its slots. -/
lemma FilesReady.receivedBlock (hready : FilesReady env h)
    (hdvd : blockLen ∣ env.torrent.pieceLength) (hi : key.index < env.torrent.numPieces)
    (hmapped : CompletesValid env h key data → PieceMapped env key.index)
    (hfill : CompletesValid env h key data → FillsSlots env h key data) :
    FilesReady env (receivedBlock env key data h) := by
  apply receivedBlock_cases (P := FilesReady env)
  · exact fun _ => hready
  · exact fun _ _ => ⟨hready.handlers, hready.formatted⟩
  · exact fun _ _ _ => ⟨hready.handlers, hready.formatted⟩
  · intro hrec hall hhash
    rw [storedBytes_store] at hhash
    have hvalid : CompletesValid env h key data := ⟨hrec, allReceived_store_iff.mp hall, hhash⟩
    obtain ⟨-, hwritten⟩ := onDisk_writtenPiece (h := store key data h)
      ⟨hready.handlers, hready.formatted⟩ hdvd hi (hmapped hvalid) fun k hk => by
        rw [block_store]
        exact hfill hvalid k hk
    refine ⟨fun f hf => ?_, ?_⟩
    · rw [stopIfDone_fileHandlers]
      exact hwritten.handlers f hf
    · rw [stopIfDone_disk]
      exact hwritten.formatted

omit [DecidableEq Digest] in
/-- The constructor leaves files that are ready. -/
lemma filesReady_create (hnames : (env.torrent.files.map FileEntry.name).Nodup) :
    FilesReady env (create env) :=
  ⟨handlersOwn_create hnames, Disk.formatted_create env.torrent⟩

/-! ### Runs -/

/-- In every run of `received` over messages for existing pieces, in which `map_block` finds the
blocks of the pieces found valid, each of these pieces stands in the files as it was hashed and no
write reads more than is stored, exactly when the blocks of all of them fill their slots. -/
theorem written_as_hashed_iff (hdvd : blockLen ∣ env.torrent.pieceLength)
    (hnames : (env.torrent.files.map FileEntry.name).Nodup) (payloads : List ByteString)
    (hpayloads : ∀ p ∈ payloads, (keyOf env.oob p).index < env.torrent.numPieces)
    (hmapped : Meets (fun h p => received env p h) (ValidMapped env) (create env) payloads) :
    Meets (fun h p => received env p h) (fun h p => WrittenAsHashed env h (received env p h))
        (create env) payloads ↔
      Meets (fun h p => received env p h) (SlotsFilled env) (create env) payloads := by
  have hexact : ∀ h p, (keyOf env.oob p).index < env.torrent.numPieces ∧ ValidMapped env h p →
      FilesReady env h → (WrittenAsHashed env h (received env p h) ↔ SlotsFilled env h p) :=
    fun h p hp hready => writtenAsHashed_receivedBlock_iff hready hdvd hp.1 hp.2
  refine meets_iff_meets hexact ?_
    (fun pre p hpre => ⟨hpayloads p (hpre.subset (by simp)), hmapped pre p hpre⟩)
    (filesReady_create hnames)
  intro h p hp hready hwritten
  exact hready.receivedBlock hdvd hp.1 hp.2 ((hexact h p hp hready).mp hwritten)

/-- The exactness statement for a torrent of two pieces and three files: the second block of the
first piece, the last piece, found valid and then sent again, and nothing for the first block. -/
theorem written_as_hashed_sample :
    Meets (fun h p => received (trueEnv threeFiles fun _ => 7) p h)
        (fun h p => WrittenAsHashed (trueEnv threeFiles fun _ => 7) h
          (received (trueEnv threeFiles fun _ => 7) p h))
        (create (trueEnv threeFiles fun _ => 7))
        [piecePayload 0 blockLen [5], piecePayload 1 0 [7], piecePayload 1 0 [9],
          piecePayload 0 0 []] ↔
      Meets (fun h p => received (trueEnv threeFiles fun _ => 7) p h)
        (SlotsFilled (trueEnv threeFiles fun _ => 7)) (create (trueEnv threeFiles fun _ => 7))
        [piecePayload 0 blockLen [5], piecePayload 1 0 [7], piecePayload 1 0 [9],
          piecePayload 0 0 []] := by
  set env := trueEnv threeFiles fun _ => 7 with henv
  have hfit : env.torrent.OffsetsFit := ⟨by decide, by decide⟩
  have hrange : ∀ p ∈ [piecePayload 0 blockLen [5], piecePayload 1 0 [7], piecePayload 1 0 [9],
      piecePayload 0 0 []], (keyOf env.oob p).index < env.torrent.numPieces := by decide
  exact written_as_hashed_iff ⟨2, rfl⟩ (by decide) _ hrange
    fun pre p hpre _ => pieceMapped_of_offsetsFit hfit (hrange p (hpre.subset (by simp)))

/-- The SHA-1 digest of a block and one byte of zeros. -/
def zerosDigest : ByteString :=
  [59, 148, 48, 99, 72, 39, 43, 37, 96, 143, 90, 62, 23, 206, 217, 124, 204, 205, 128, 49]

/-- A function with the value of SHA-1 at a block and one byte of zeros. -/
def zerosSha1 (b : ByteString) : ByteString :=
  if b = List.replicate (blockLen + 1) 0 then zerosDigest else List.replicate 20 0

/-- A torrent of one piece with one file of zeros, one byte longer than a block, and the SHA-1
digest of its contents. -/
def twoBlockEnv : Env ByteString where
  torrent :=
    { pieceLength := 2 * blockLen
      files := [⟨[], "a", blockLen + 1⟩]
      hashForPiece := fun _ => zerosDigest
      pieceLength_pos := two_blockLen_pos
      pieceLength_le := two_blockLen_le
      files_ne_nil := by decide
      totalSize_lt := by decide }
  sha1 := zerosSha1
  oob := fun _ _ => 0
  setOrder := (sampleEnv []).setOrder

/-- All bytes of the piece sent in its first block, and none in its second: the hash is right, and
the last byte is read from behind the end of the second block. -/
theorem long_block_breaks_write :
    ¬ Meets (fun h p => received twoBlockEnv p h)
        (fun h p => WrittenAsHashed twoBlockEnv h (received twoBlockEnv p h)) (create twoBlockEnv)
        [piecePayload 0 0 (List.replicate (blockLen + 1) 0), piecePayload 0 blockLen []] := by
  intro hmeets
  set all : ByteString := List.replicate (blockLen + 1) 0 with hall
  have hdvd : blockLen ∣ twoBlockEnv.torrent.pieceLength := ⟨2, rfl⟩
  have hfit := twoBlockEnv.torrent.offsetsFit_of_numFiles_eq_one rfl
  have hkeys : blockKeys twoBlockEnv 0 = [⟨0, 0⟩, ⟨0, blockLen⟩] := by decide
  have hfirst : received twoBlockEnv (piecePayload 0 0 all) (create twoBlockEnv) =
      store ⟨0, 0⟩ all (create twoBlockEnv) := by
    have hmissing : ¬ AllReceived twoBlockEnv 0 (store ⟨0, 0⟩ all (create twoBlockEnv)) := by
      intro hrec
      have htrue := hrec ⟨0, blockLen⟩ (by rw [hkeys]; simp)
      exact absurd htrue (by simp [store, create, blockLen])
    have hflag : ((create twoBlockEnv).receivedPieces ⟨0, 0⟩).received = false := rfl
    rw [received, keyOf_piecePayload _ (by decide) (by decide), drop_piecePayload, receivedBlock,
      hflag, writeIfValid_of_missing hmissing]
    rfl
  have hready : FilesReady twoBlockEnv (store ⟨0, 0⟩ all (create twoBlockEnv)) :=
    ⟨(filesReady_create (by decide)).handlers, (filesReady_create (by decide)).formatted⟩
  have hstep := hmeets [piecePayload 0 0 all] (piecePayload 0 blockLen []) (List.prefix_rfl)
  change WrittenAsHashed twoBlockEnv (received twoBlockEnv (piecePayload 0 0 all)
    (create twoBlockEnv)) (received twoBlockEnv (piecePayload 0 blockLen [])
      (received twoBlockEnv (piecePayload 0 0 all) (create twoBlockEnv))) at hstep
  rw [hfirst, received, keyOf_piecePayload _ (by decide) (by decide), drop_piecePayload,
    writtenAsHashed_receivedBlock_iff hready hdvd (by decide) fun _ =>
      pieceMapped_of_offsetsFit hfit (by decide)] at hstep
  have hne : (⟨0, 0⟩ : PieceReceivedKey) ≠ ⟨0, blockLen⟩ := by decide
  have hassembled : assembled twoBlockEnv (store ⟨0, 0⟩ all (create twoBlockEnv)) ⟨0, blockLen⟩ [] =
      all := by
    have hzero : ((store ⟨0, 0⟩ all (create twoBlockEnv)).receivedPieces ⟨0, 0⟩).block = all := by
      rw [block_store, if_pos rfl]
      rfl
    have hone : ((store ⟨0, 0⟩ all (create twoBlockEnv)).receivedPieces ⟨0, blockLen⟩).block =
        [] := by
      rw [block_store, if_neg hne.symm]
      rfl
    rw [assembled, hkeys, List.flatMap_cons, List.flatMap_singleton, if_neg hne, if_pos rfl, hzero,
      hone, List.append_nil, List.append_nil]
  have hvalid : CompletesValid twoBlockEnv (store ⟨0, 0⟩ all (create twoBlockEnv))
      ⟨0, blockLen⟩ [] := by
    refine ⟨by simp [store, create, blockLen], fun k hk hne => ?_, ?_⟩
    · rw [hkeys] at hk
      rcases List.mem_cons.mp hk with rfl | hk
      · simp [store]
      · exact absurd (List.mem_singleton.mp hk) hne
    · have hsha1 : twoBlockEnv.sha1 = zerosSha1 := rfl
      have hdigest : zerosSha1 all = zerosDigest := by
        rw [zerosSha1, if_pos hall]
      rw [hassembled, hsha1, hdigest]
      rfl
  have hlen := hstep hvalid ⟨0, 0⟩ (by rw [hkeys]; simp)
  have hslot : slotLen twoBlockEnv ⟨0, 0⟩ = blockLen := by decide
  have hempty : ((create twoBlockEnv).receivedPieces ⟨0, 0⟩).block = [] := rfl
  rw [hslot, if_neg hne, block_store, if_pos rfl, hempty, List.nil_append, hall,
    List.length_replicate] at hlen
  exact absurd hlen (by decide)

end PieceHandler

end Tent
