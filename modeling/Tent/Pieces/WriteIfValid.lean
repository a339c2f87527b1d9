import Mathlib.Data.List.Nodup
import Tent.Pieces.PieceHandler

/-!
# Writing a piece

Specifications of the functions through which a received block goes: the blocks of a piece
(`mem_blockKeys`), the write of a block along its file slices, `write_if_valid` and `received`.

A write changes the disk and consumes stored bytes, and nothing else: `WriteFrame` collects what
stays.  `receivedBlock_cases` lists everything `received` can do, so that the invariants of later
files never unfold it.
-/

set_option autoImplicit false

namespace Tent

open Bytes

/-! ### Piece messages -/

/-- The key of a piece message whose fields fit into 32 bits. -/
lemma keyOf_piecePayload (oob : Oob) {index begin : ℕ} (hi : index < uint32Range)
    (hb : begin < uint32Range) (block : ByteString) :
    PieceHandler.keyOf oob (piecePayload index begin block) = ⟨index, begin⟩ := by
  have hindex : window oob (piecePayload index begin block) 0 4 = toBE 4 index := by
    rw [piecePayload, List.append_assoc, window_zero_eq_take oob (by simp),
      List.take_append_of_le_length (by simp), List.take_of_length_le (by simp)]
  have hbegin : window oob ((piecePayload index begin block).drop 4) 0 4 = toBE 4 begin := by
    rw [piecePayload, List.append_assoc, List.drop_append_of_le_length (by simp),
      List.drop_eq_nil_of_le (by simp), List.nil_append, window_zero_eq_take oob (by simp),
      List.take_append_of_le_length (by simp), List.take_of_length_le (by simp)]
  unfold PieceHandler.keyOf
  rw [hindex, hbegin, ofBE_toBE_of_lt hi, ofBE_toBE_of_lt hb]

/-- The bytes of a piece message behind its two words. -/
lemma drop_piecePayload (index begin : ℕ) (block : ByteString) :
    (piecePayload index begin block).drop 8 = block := by
  rw [piecePayload, List.drop_append_of_le_length (by simp), List.drop_eq_nil_of_le (by simp),
    List.nil_append]

/-! ### The blocks of a piece -/

/-- The blocks of a piece are those that start inside it. -/
lemma lt_blocksPerPiece_iff {k size : ℕ} : k < blocksPerPiece size ↔ k * blockLen < size := by
  unfold blocksPerPiece
  rw [Nat.lt_div_iff_mul_lt (by decide), blockLen]
  omega

/-- A non-empty piece has a block. -/
lemma blocksPerPiece_pos {size : ℕ} (h : 0 < size) : 0 < blocksPerPiece size := by
  rw [lt_blocksPerPiece_iff]
  omega

/-- The product of a block index inside an `int`-sized piece does not wrap around. -/
lemma blockBegin_eq {k size : ℕ} (hsize : size ≤ intMax) (hk : k < blocksPerPiece size) :
    blockBegin k = k * blockLen := by
  rw [lt_blocksPerPiece_iff] at hk
  have hmax : intMax < uint32Range := by decide
  exact Nat.mod_eq_of_lt (by omega)

namespace PieceHandler

variable {Digest : Type*} {env : Env Digest}

variable (env) in
/-- The size of a piece is an `int`, whether or not the index is in range. -/
lemma pieceSize_le_intMax (index : ℕ) : env.torrent.pieceSize index ≤ intMax :=
  Nat.le_trans (env.torrent.pieceSize_le index) env.torrent.pieceLength_le

/-- The keys of the blocks of a piece, without the wrap-around that never happens. -/
lemma blockKeys_eq {index : ℕ} :
    blockKeys env index =
      (List.range (blocksPerPiece (env.torrent.pieceSize index))).map fun k =>
        ⟨index, k * blockLen⟩ := by
  apply List.map_congr_left
  intro k hk
  rw [blockBegin_eq (pieceSize_le_intMax env index) (List.mem_range.mp hk)]

/-- The blocks of a piece start at the multiples of the block length inside it. -/
lemma mem_blockKeys {index : ℕ} {key : PieceReceivedKey} :
    key ∈ blockKeys env index ↔
      key.index = index ∧
        ∃ k, key.begin = k * blockLen ∧ k * blockLen < env.torrent.pieceSize index := by
  rw [blockKeys_eq, List.mem_map]
  constructor
  · rintro ⟨k, hk, rfl⟩
    exact ⟨rfl, k, rfl, lt_blocksPerPiece_iff.mp (List.mem_range.mp hk)⟩
  · rintro ⟨hindex, k, hbegin, hk⟩
    refine ⟨k, List.mem_range.mpr (lt_blocksPerPiece_iff.mpr hk), ?_⟩
    rw [← hindex, ← hbegin]

/-- The blocks of a piece belong to that piece. -/
lemma index_of_mem_blockKeys {index : ℕ} {key : PieceReceivedKey}
    (h : key ∈ blockKeys env index) : key.index = index := by
  obtain ⟨k, -, rfl⟩ := List.mem_map.mp h
  rfl

/-- A piece has no block twice. -/
lemma nodup_blockKeys {index : ℕ} : (blockKeys env index).Nodup := by
  rw [blockKeys_eq]
  refine List.Nodup.map ?_ List.nodup_range
  intro a b hab
  have hmul : a * blockLen = b * blockLen := (PieceReceivedKey.mk.inj hab).2
  exact Nat.eq_of_mul_eq_mul_right (by decide) hmul

/-- A piece has a block. -/
lemma blockKeys_ne_nil {index : ℕ} (hi : index < env.torrent.numPieces) :
    blockKeys env index ≠ [] := by
  have hpos := blocksPerPiece_pos (env.torrent.pieceSize_pos hi)
  intro hnil
  have hlen := congrArg List.length hnil
  simp [blockKeys] at hlen
  omega

/-- A block starts before the end of the torrent. -/
lemma target_lt_totalSize {index : ℕ} (hi : index < env.torrent.numPieces)
    {key : PieceReceivedKey} (hkey : key ∈ blockKeys env index) :
    key.index * env.torrent.pieceLength + key.begin < env.torrent.totalSize := by
  obtain ⟨rfl, k, hbegin, hlt⟩ := mem_blockKeys.mp hkey
  have hend := env.torrent.piece_end_le hi
  omega

/-! ### What a write leaves alone -/

/-- What the write of blocks leaves alone: everything but the disk, the stored bytes and the
log, which only records file writes. -/
structure WriteFrame (h h' : PieceHandler) : Prop where
  /-- The announced pieces stay. -/
  haveMap_eq : h'.haveMap = h.haveMap
  /-- The request queues stay. -/
  requestMap_eq : h'.requestMap = h.requestMap
  /-- The map of file handlers stays. -/
  fileHandlers_eq : h'.fileHandlers = h.fileHandlers
  /-- The counter stays. -/
  writtenPieces_eq : h'.writtenPieces = h.writtenPieces
  /-- The flags stay. -/
  received_eq : ∀ key, (h'.receivedPieces key).received = (h.receivedPieces key).received
  /-- The log records writes to files only. -/
  log_eq : ∃ writes, h'.log = h.log ++ writes ∧
    ∀ e ∈ writes, ∃ range available, e = .fileWrite range available

/-- Writing nothing leaves everything alone. -/
lemma WriteFrame.refl (h : PieceHandler) : WriteFrame h h :=
  ⟨rfl, rfl, rfl, rfl, fun _ => rfl, [], by simp, by simp⟩

/-- What two writes leave alone, their sequence leaves alone. -/
lemma WriteFrame.trans {h₁ h₂ h₃ : PieceHandler} (h₁₂ : WriteFrame h₁ h₂)
    (h₂₃ : WriteFrame h₂ h₃) : WriteFrame h₁ h₃ := by
  obtain ⟨ws₁, hlog₁, hws₁⟩ := h₁₂.log_eq
  obtain ⟨ws₂, hlog₂, hws₂⟩ := h₂₃.log_eq
  refine ⟨h₂₃.haveMap_eq.trans h₁₂.haveMap_eq, h₂₃.requestMap_eq.trans h₁₂.requestMap_eq,
    h₂₃.fileHandlers_eq.trans h₁₂.fileHandlers_eq,
    h₂₃.writtenPieces_eq.trans h₁₂.writtenPieces_eq,
    fun key => (h₂₃.received_eq key).trans (h₁₂.received_eq key), ws₁ ++ ws₂, ?_, ?_⟩
  · rw [hlog₂, hlog₁, List.append_assoc]
  · intro e he
    rcases List.mem_append.mp he with he | he
    · exact hws₁ e he
    · exact hws₂ e he

/-- A fold of writes leaves alone what each write does. -/
lemma WriteFrame.foldl {α : Type*} {f : PieceHandler → α → PieceHandler}
    (hf : ∀ h a, WriteFrame h (f h a)) (l : List α) (h : PieceHandler) :
    WriteFrame h (l.foldl f h) := by
  induction l generalizing h with
  | nil => exact WriteFrame.refl h
  | cons a l ih => exact (hf h a).trans (ih (f h a))

variable (env)

/-- The write of a slice is a write. -/
lemma writeFrame_writeSlice (key : PieceReceivedKey) (h : PieceHandler) (s : FileSlice) :
    WriteFrame h (writeSlice env key h s) := by
  unfold writeSlice
  split
  · refine ⟨rfl, rfl, rfl, rfl, fun k => ?_, _, rfl, by simp⟩
    by_cases hk : k = key
    · simp [hk]
    · simp [hk]
  · exact WriteFrame.refl h

/-- The write of a block is a write. -/
lemma writeFrame_writeBlock (h : PieceHandler) (key : PieceReceivedKey) :
    WriteFrame h (writeBlock env h key) :=
  WriteFrame.foldl (writeFrame_writeSlice env key) _ h

/-- The write of a piece is a write. -/
lemma writeFrame_writePiece (keys : List PieceReceivedKey) (h : PieceHandler) :
    WriteFrame h (keys.foldl (writeBlock env) h) :=
  WriteFrame.foldl (writeFrame_writeBlock env) _ h

/-- The write of a block does not touch the bytes stored under other keys. -/
lemma writeBlock_receivedPieces_of_ne {h : PieceHandler} {key key' : PieceReceivedKey}
    (hne : key' ≠ key) :
    (writeBlock env h key).receivedPieces key' = h.receivedPieces key' := by
  unfold writeBlock
  induction env.torrent.mapBlock key.index key.begin blockLen generalizing h with
  | nil => rfl
  | cons s slices ih =>
    rw [List.foldl_cons, ih, writeSlice]
    split
    · exact Function.update_of_ne hne _ _
    · rfl

/-- The write of a piece does not touch the bytes stored under other keys. -/
lemma writePiece_receivedPieces_of_notMem {keys : List PieceReceivedKey} {h : PieceHandler}
    {key : PieceReceivedKey} (hkey : key ∉ keys) :
    (keys.foldl (writeBlock env) h).receivedPieces key = h.receivedPieces key := by
  induction keys generalizing h with
  | nil => rfl
  | cons k keys ih =>
    rw [List.mem_cons, not_or] at hkey
    rw [List.foldl_cons, ih hkey.2, writeBlock_receivedPieces_of_ne env hkey.1]

/-! ### The stored bytes that a write consumes -/

/-- Every file of the torrent has a handler stored under its name. -/
def HandlersComplete (h : PieceHandler) : Prop :=
  ∀ f < env.torrent.numFiles, ∃ file, h.fileHandlers.lookup (env.torrent.fileName f) = some file

variable {env}

/-- A fold of slice writes consumes as many stored bytes as the slices have together. -/
lemma block_foldl_writeSlice {key : PieceReceivedKey} {slices : List FileSlice}
    (hslices : ∀ s ∈ slices, s.fileIndex < env.torrent.numFiles) {h : PieceHandler}
    (hh : HandlersComplete env h) :
    ((slices.foldl (writeSlice env key) h).receivedPieces key).block =
      (h.receivedPieces key).block.drop (slices.map FileSlice.size).sum := by
  induction slices generalizing h with
  | nil => simp
  | cons s slices ih =>
    obtain ⟨file, hfile⟩ := hh s.fileIndex (hslices s List.mem_cons_self)
    have hnext : HandlersComplete env (writeSlice env key h s) := by
      intro f hf
      rw [(writeFrame_writeSlice env key h s).fileHandlers_eq]
      exact hh f hf
    rw [List.foldl_cons, ih (fun r hr => hslices r (List.mem_cons_of_mem s hr)) hnext,
      List.map_cons, List.sum_cons, ← List.drop_drop]
    simp [writeSlice, hfile]

/-- The write of a block consumes the mapped size of the block. -/
lemma block_writeBlock (key : PieceReceivedKey) {h : PieceHandler} (hh : HandlersComplete env h) :
    ((writeBlock env h key).receivedPieces key).block =
      (h.receivedPieces key).block.drop (env.torrent.mappedSize key.index key.begin blockLen) := by
  rw [writeBlock, block_foldl_writeSlice (fun s hs => (env.torrent.mem_mapBlock hs).1) hh,
    env.torrent.sum_size_mapBlock]

/-- The write of a piece consumes the mapped size of every block. -/
lemma block_writePiece {keys : List PieceReceivedKey} (hnodup : keys.Nodup) {h : PieceHandler}
    (hh : HandlersComplete env h) {key : PieceReceivedKey} (hkey : key ∈ keys) :
    ((keys.foldl (writeBlock env) h).receivedPieces key).block =
      (h.receivedPieces key).block.drop (env.torrent.mappedSize key.index key.begin blockLen) := by
  induction keys generalizing h with
  | nil => simp at hkey
  | cons k keys ih =>
    have hnext : HandlersComplete env (writeBlock env h k) := by
      intro f hf
      rw [(writeFrame_writeBlock env h k).fileHandlers_eq]
      exact hh f hf
    rw [List.nodup_cons] at hnodup
    rw [List.foldl_cons]
    by_cases hk : key = k
    · subst hk
      rw [writePiece_receivedPieces_of_notMem env hnodup.1, block_writeBlock key hh]
    · have hmem : key ∈ keys := (List.mem_cons.mp hkey).resolve_left hk
      rw [ih hnodup.2 hnext hmem, writeBlock_receivedPieces_of_ne env hk]

/-- The constructor stores a handler for every file. -/
lemma emplaceHandlers_lookup (fs : List FileEntry) (index : ℕ) (handlers : List (String × ℕ)) :
    (∀ f ∈ fs, ∃ file, (emplaceHandlers fs index handlers).lookup f.name = some file) ∧
      ∀ name file, handlers.lookup name = some file →
        (emplaceHandlers fs index handlers).lookup name = some file := by
  induction fs generalizing index handlers with
  | nil => simp [emplaceHandlers]
  | cons f fs ih =>
    set next := if (handlers.lookup f.name).isSome then handlers
      else handlers ++ [(f.name, index)] with hnext
    have hkeep : ∀ name file, handlers.lookup name = some file →
        next.lookup name = some file := by
      intro name file hname
      rw [hnext]
      split_ifs
      · exact hname
      · rw [List.lookup_append, hname, Option.some_or]
    have hself : ∃ file, next.lookup f.name = some file := by
      rw [hnext]
      split_ifs with hsome
      · exact Option.isSome_iff_exists.mp hsome
      · refine ⟨index, ?_⟩
        rw [Option.not_isSome_iff_eq_none] at hsome
        rw [List.lookup_append, hsome, Option.none_or]
        simp
    obtain ⟨hfiles, hmono⟩ := ih (index + 1) next
    refine ⟨?_, fun name file hname => hmono name file (hkeep name file hname)⟩
    intro g hg
    rcases List.mem_cons.mp hg with rfl | hg
    · obtain ⟨file, hfile⟩ := hself
      exact ⟨file, hmono _ _ hfile⟩
    · exact hfiles g hg

variable (env)

/-- All blocks of the piece have been received. -/
def AllReceived (index : ℕ) (h : PieceHandler) : Prop :=
  ∀ key ∈ blockKeys env index, (h.receivedPieces key).received = true

/-- The stored bytes of the piece: what `write_if_valid` gives to the hasher. -/
def storedBytes (index : ℕ) (h : PieceHandler) : ByteString :=
  (blockKeys env index).flatMap fun key => (h.receivedPieces key).block

/-- The handler after the hasher finished over the stored bytes of the piece. -/
def hashedPiece (index : ℕ) (h : PieceHandler) : PieceHandler :=
  { h with log := h.log ++ [.hashed index (storedBytes env index h)] }

/-- The handler after a valid piece was written and counted. -/
def writtenPiece (index : ℕ) (h : PieceHandler) : PieceHandler :=
  let h := (blockKeys env index).foldl (writeBlock env) (hashedPiece env index h)
  { h with writtenPieces := h.writtenPieces + 1, log := h.log ++ [.validated index] }

/-- What counting a piece whose blocks were written leaves alone. -/
structure CountFrame (h h' : PieceHandler) : Prop where
  /-- The announced pieces. -/
  haveMap_eq : h'.haveMap = h.haveMap
  /-- The queues. -/
  requestMap_eq : h'.requestMap = h.requestMap
  /-- The stored blocks. -/
  receivedPieces_eq : h'.receivedPieces = h.receivedPieces
  /-- The map of file handlers. -/
  fileHandlers_eq : h'.fileHandlers = h.fileHandlers
  /-- The files. -/
  disk_eq : h'.disk = h.disk
  /-- The piece is counted. -/
  writtenPieces_eq : h'.writtenPieces = h.writtenPieces + 1

/-- A valid piece is counted after its blocks were written. -/
lemma countFrame_writtenPiece (index : ℕ) (h : PieceHandler) :
    CountFrame ((blockKeys env index).foldl (writeBlock env) (hashedPiece env index h))
      (writtenPiece env index h) := by
  have hcount : ∀ w : PieceHandler, CountFrame w { w with
      writtenPieces := w.writtenPieces + 1, log := w.log ++ [.validated index] } :=
    fun _ => ⟨rfl, rfl, rfl, rfl, rfl, rfl⟩
  exact hcount _

/-- The call of `session::stop` when nothing is left to write. -/
def stopIfDone (h : PieceHandler) : PieceHandler :=
  if isDone env h then { h with log := h.log ++ [.stop] } else h

section StopIfDone

/-- The call of `stop` is recorded behind what happened before, and nothing else changes. -/
lemma stopIfDone_eq (h : PieceHandler) :
    ∃ stops, stopIfDone env h = { h with log := h.log ++ stops } ∧ ∀ e ∈ stops, e = .stop := by
  rw [stopIfDone]
  split_ifs
  · exact ⟨[.stop], rfl, fun e he => List.mem_singleton.mp he⟩
  · refine ⟨[], ?_, by simp⟩
    rw [List.append_nil]

/-- Stopping the session is all that is logged then. -/
lemma log_stopIfDone (h : PieceHandler) :
    ∃ stops, (stopIfDone env h).log = h.log ++ stops ∧ ∀ e ∈ stops, e = .stop := by
  obtain ⟨stops, heq, hstops⟩ := stopIfDone_eq env h
  refine ⟨stops, ?_, hstops⟩
  rw [heq]

/-- What was logged stays in front. -/
lemma log_prefix_stopIfDone (h : PieceHandler) : h.log <+: (stopIfDone env h).log := by
  obtain ⟨stops, hlog, -⟩ := log_stopIfDone env h
  rw [hlog]
  exact List.prefix_append h.log stops

variable {env}

@[simp] lemma stopIfDone_haveMap (h : PieceHandler) : (stopIfDone env h).haveMap = h.haveMap := by
  obtain ⟨stops, heq, -⟩ := stopIfDone_eq env h
  rw [heq]

@[simp] lemma stopIfDone_requestMap (h : PieceHandler) :
    (stopIfDone env h).requestMap = h.requestMap := by
  obtain ⟨stops, heq, -⟩ := stopIfDone_eq env h
  rw [heq]

@[simp] lemma stopIfDone_receivedPieces (h : PieceHandler) :
    (stopIfDone env h).receivedPieces = h.receivedPieces := by
  obtain ⟨stops, heq, -⟩ := stopIfDone_eq env h
  rw [heq]

@[simp] lemma stopIfDone_fileHandlers (h : PieceHandler) :
    (stopIfDone env h).fileHandlers = h.fileHandlers := by
  obtain ⟨stops, heq, -⟩ := stopIfDone_eq env h
  rw [heq]

@[simp] lemma stopIfDone_writtenPieces (h : PieceHandler) :
    (stopIfDone env h).writtenPieces = h.writtenPieces := by
  obtain ⟨stops, heq, -⟩ := stopIfDone_eq env h
  rw [heq]

@[simp] lemma stopIfDone_disk (h : PieceHandler) : (stopIfDone env h).disk = h.disk := by
  obtain ⟨stops, heq, -⟩ := stopIfDone_eq env h
  rw [heq]

end StopIfDone

variable {env}
variable [DecidableEq Digest]

/-- A piece with a missing block is left alone. -/
lemma writeIfValid_of_missing {index : ℕ} {h : PieceHandler} (hall : ¬ AllReceived env index h) :
    writeIfValid env index h = (h, false) := by
  have hfalse : ((blockKeys env index).all fun key => (h.receivedPieces key).received) = false := by
    rw [← Bool.not_eq_true, List.all_eq_true]
    exact hall
  rw [writeIfValid, hfalse]
  rfl

/-- A complete piece with the wrong hash is not written. -/
lemma writeIfValid_of_mismatch {index : ℕ} {h : PieceHandler} (hall : AllReceived env index h)
    (hhash : env.sha1 (storedBytes env index h) ≠ env.torrent.hashForPiece index) :
    writeIfValid env index h = (hashedPiece env index h, false) := by
  have htrue : ((blockKeys env index).all fun key => (h.receivedPieces key).received) = true :=
    List.all_eq_true.mpr hall
  rw [writeIfValid, htrue]
  exact if_neg hhash

/-- A complete piece with the right hash is written and counted. -/
lemma writeIfValid_of_match {index : ℕ} {h : PieceHandler} (hall : AllReceived env index h)
    (hhash : env.sha1 (storedBytes env index h) = env.torrent.hashForPiece index) :
    writeIfValid env index h = (writtenPiece env index h, true) := by
  have htrue : ((blockKeys env index).all fun key => (h.receivedPieces key).received) = true :=
    List.all_eq_true.mpr hall
  rw [writeIfValid, htrue]
  exact if_pos hhash

/-- A block that completes its piece, with the right hash, has the piece written and counted. -/
lemma receivedBlock_of_match {key : PieceReceivedKey} {data : ByteString} {h : PieceHandler}
    (hrec : (h.receivedPieces key).received = false)
    (hall : AllReceived env key.index (store key data h))
    (hhash : env.sha1 (storedBytes env key.index (store key data h)) =
      env.torrent.hashForPiece key.index) :
    receivedBlock env key data h =
      stopIfDone env (writtenPiece env key.index (store key data h)) := by
  have hstop : ∀ w : PieceHandler, (if true && isDone env w then
      { w with log := w.log ++ [.stop] } else w) = stopIfDone env w := fun _ => rfl
  rw [receivedBlock, hrec, if_neg Bool.false_ne_true, writeIfValid_of_match hall hhash]
  exact hstop _

/-- Everything `received` can do: nothing for a block received before, only storing the block while
the piece is incomplete, storing and hashing a complete piece with the wrong hash, and storing,
writing and counting one with the right hash. -/
theorem receivedBlock_cases {key : PieceReceivedKey} {data : ByteString} {h : PieceHandler}
    {P : PieceHandler → Prop}
    (hdup : (h.receivedPieces key).received = true → P h)
    (hmissing : (h.receivedPieces key).received = false →
      ¬ AllReceived env key.index (store key data h) → P (store key data h))
    (hmismatch : (h.receivedPieces key).received = false →
      AllReceived env key.index (store key data h) →
      env.sha1 (storedBytes env key.index (store key data h)) ≠
        env.torrent.hashForPiece key.index → P (hashedPiece env key.index (store key data h)))
    (hmatch : (h.receivedPieces key).received = false →
      AllReceived env key.index (store key data h) →
      env.sha1 (storedBytes env key.index (store key data h)) =
        env.torrent.hashForPiece key.index →
      P (stopIfDone env (writtenPiece env key.index (store key data h)))) :
    P (receivedBlock env key data h) := by
  cases hrec : (h.receivedPieces key).received with
  | true =>
    rw [receivedBlock, if_pos hrec]
    exact hdup hrec
  | false =>
    by_cases hall : AllReceived env key.index (store key data h)
    · by_cases hhash : env.sha1 (storedBytes env key.index (store key data h)) =
          env.torrent.hashForPiece key.index
      · rw [receivedBlock_of_match hrec hall hhash]
        exact hmatch hrec hall hhash
      · rw [receivedBlock, hrec, writeIfValid_of_mismatch hall hhash]
        exact hmismatch hrec hall hhash
    · rw [receivedBlock, hrec, writeIfValid_of_missing hall]
      exact hmissing hrec hall

variable (env) in
omit [DecidableEq Digest] in
/-- Writing a piece records file writes between the hash and the verdict. -/
lemma log_writtenPiece (index : ℕ) (h : PieceHandler) :
    ∃ writes, (writtenPiece env index h).log =
        h.log ++ .hashed index (storedBytes env index h) :: writes ++ [.validated index] ∧
      ∀ e ∈ writes, ∃ range available, e = .fileWrite range available := by
  obtain ⟨writes, hlog, hwrites⟩ :=
    (writeFrame_writePiece env (blockKeys env index) (hashedPiece env index h)).log_eq
  refine ⟨writes, ?_, hwrites⟩
  rw [writtenPiece, hlog, hashedPiece]
  simp

omit [DecidableEq Digest] in
/-- Writing a piece keeps the flags. -/
lemma received_writtenPiece (index : ℕ) (h : PieceHandler) (key : PieceReceivedKey) :
    ((writtenPiece env index h).receivedPieces key).received =
      (h.receivedPieces key).received := by
  rw [(countFrame_writtenPiece env index h).receivedPieces_eq]
  exact (writeFrame_writePiece env (blockKeys env index) (hashedPiece env index h)).received_eq key

/-- After `received` exactly the flag of the block has been set. -/
lemma received_receivedBlock (key : PieceReceivedKey) (data : ByteString) (h : PieceHandler)
    (k : PieceReceivedKey) :
    ((receivedBlock env key data h).receivedPieces k).received =
      if k = key then true else (h.receivedPieces k).received := by
  have hstore : ((store key data h).receivedPieces k).received =
      if k = key then true else (h.receivedPieces k).received := by
    by_cases hk : k = key
    · simp [store, hk]
    · simp [store, hk]
  apply receivedBlock_cases
    (P := fun h' => (h'.receivedPieces k).received =
      if k = key then true else (h.receivedPieces k).received)
  · intro hrec
    split_ifs with hk
    · rw [hk, hrec]
    · rfl
  · exact fun _ _ => hstore
  · exact fun _ _ _ => hstore
  · intro _ _ _
    rw [stopIfDone_receivedPieces, received_writtenPiece, hstore]

end PieceHandler

end Tent
