import Mathlib.Data.Finset.Card
import Mathlib.Data.Finset.Filter
import Mathlib.Data.Finset.Range
import Tent.Foundation.SecureHash
import Tent.Foundation.Transition
import Tent.Pieces.WriteIfValid

/-!
# Downloading a torrent

What `piece_handler` is for: when the blocks of a torrent are delivered, in any order and with any
repetitions, its files fill up with the bytes of the torrent, piece by piece.

The abstract state of a download is the list of the blocks delivered so far.  A piece is complete
when all its blocks are in the list (`Complete`), and `Downloaded` says what the handler must look
like: the counter is the number of complete pieces, the files hold the bytes of the complete pieces
and are untouched elsewhere, and the session was stopped if and only if every piece is complete.

`Tracks` adds what the handler has to remember for that: the flags are those of the delivered
blocks, and the buffers of an incomplete piece hold its delivered blocks in full.  Each delivered
block keeps it (`Tracks.receivedBlock`).

`map_block` has to find the blocks of the pieces that are written (`PieceMapped`).  In a torrent
whose files begin too far behind it does not, and the download goes wrong
(`wrapped_offset_breaks_download`).
-/

set_option autoImplicit false

namespace Tent

open Bytes Segments Transition

/-! ### The bytes of a torrent -/

namespace TorrentInfo

variable {Digest : Type*} (t : TorrentInfo Digest) (content : ℕ → UInt8)

/-- The bytes of a block: from its start on, up to the block length and the end of the piece. -/
def blockBytes (key : PieceReceivedKey) : ByteString :=
  stretch content (key.index * t.pieceLength + key.begin)
    (min blockLen (t.pieceSize key.index - key.begin))

/-- The bytes of a piece. -/
def pieceBytes (index : ℕ) : ByteString :=
  stretch content (index * t.pieceLength) (t.pieceSize index)

/-- The message that delivers a block. -/
def blockPayload (key : PieceReceivedKey) : ByteString :=
  piecePayload key.index key.begin (t.blockBytes content key)

/-- The key of a block of the torrent: a multiple of the block length inside one of the pieces. -/
structure IsBlock (key : PieceReceivedKey) : Prop where
  /-- The piece exists. -/
  index_lt : key.index < t.numPieces
  /-- The block starts inside the piece, on the grid. -/
  begin_eq : ∃ k, key.begin = k * blockLen ∧ k * blockLen < t.pieceSize key.index

variable {t}

/-- The blocks of the torrent are the blocks that `write_if_valid` walks through. -/
lemma isBlock_iff {env : Env Digest} {key : PieceReceivedKey}
    (hi : key.index < env.torrent.numPieces) :
    env.torrent.IsBlock key ↔ key ∈ PieceHandler.blockKeys env key.index := by
  rw [PieceHandler.mem_blockKeys]
  exact ⟨fun h => ⟨rfl, h.begin_eq⟩, fun h => ⟨hi, h.2⟩⟩

/-- When the block length divides the piece length, `map_block` cuts a block off where its piece
ends, because only the last piece can end inside a block. -/
lemma mappedSize_eq {key : PieceReceivedKey} (hkey : t.IsBlock key)
    (hdvd : blockLen ∣ t.pieceLength) (hmapped : t.Mapped key.index key.begin blockLen) :
    t.mappedSize key.index key.begin blockLen =
      min blockLen (t.pieceSize key.index - key.begin) := by
  obtain ⟨hi, k, hbegin, hlt⟩ := hkey
  obtain ⟨m, hm⟩ := hdvd
  have hsize := t.pieceSize_eq_min hi
  have hstart := t.mul_pieceLength_lt hi
  have hle := t.pieceSize_le key.index
  have hnext : k * blockLen + blockLen ≤ t.pieceLength := by
    have hkm : k < m := by
      by_contra hcon
      have hmul := Nat.mul_le_mul_right blockLen (Nat.not_lt.mp hcon)
      rw [Nat.mul_comm m] at hmul
      omega
    have hmul := Nat.mul_le_mul_right blockLen hkm
    rw [Nat.succ_mul, Nat.mul_comm m] at hmul
    omega
  rw [hmapped.mappedSize_eq_min]
  omega

end TorrentInfo

namespace PieceHandler

variable {Digest : Type*} (env : Env Digest) (content : ℕ → UInt8)

/-- The blocks of a piece make up the piece. -/
lemma flatMap_blockBytes (i : ℕ) :
    ((blockKeys env i).flatMap fun key => env.torrent.blockBytes content key) =
      env.torrent.pieceBytes content i := by
  set size := env.torrent.pieceSize i with hsize
  have hcover : size ≤ blocksPerPiece size * blockLen := by
    by_contra hcon
    exact Nat.lt_irrefl _ (lt_blocksPerPiece_iff.mpr (Nat.lt_of_not_le hcon))
  rw [blockKeys_eq, List.flatMap_map]
  refine (flatMap_stretch content (i * env.torrent.pieceLength) blockLen size fun k hk =>
    Nat.le_of_lt (lt_blocksPerPiece_iff.mp hk)).trans ?_
  rw [Nat.min_eq_right hcover]
  rfl

/-- What is assumed of a torrent whose blocks are delivered. -/
structure TrueTorrent : Prop where
  /-- The piece length is a multiple of the block length. -/
  blockLen_dvd : blockLen ∣ env.torrent.pieceLength
  /-- The leaf names of the files are pairwise distinct. -/
  names_nodup : (env.torrent.files.map FileEntry.name).Nodup
  /-- The piece hashes are those of the contents. -/
  hash_eq : ∀ i < env.torrent.numPieces,
    env.torrent.hashForPiece i = env.sha1 (env.torrent.pieceBytes content i)

/-- `map_block` finds every block of the piece. -/
def PieceMapped (i : ℕ) : Prop :=
  ∀ key ∈ blockKeys env i, env.torrent.Mapped key.index key.begin blockLen

/-- All blocks of the piece are among the delivered ones. -/
def Complete (keys : List PieceReceivedKey) (i : ℕ) : Prop :=
  ∀ key ∈ blockKeys env i, key ∈ keys

instance (keys : List PieceReceivedKey) : DecidablePred (Complete env keys) :=
  fun i => inferInstanceAs (Decidable (∀ key ∈ blockKeys env i, key ∈ keys))

/-- What the handler looks like after the delivery of some blocks. -/
structure Downloaded (keys : List PieceReceivedKey) (h : PieceHandler) : Prop where
  /-- The counter is the number of complete pieces. -/
  written_eq : h.writtenPieces =
    ((Finset.range env.torrent.numPieces).filter (Complete env keys)).card
  /-- The files have their sizes. -/
  length_eq : ∀ f < env.torrent.numFiles, (h.disk f).content.length = env.torrent.fileSize f
  /-- The bytes of complete pieces are on disk, and the others are as the constructor left them. -/
  image_eq : ∀ f < env.torrent.numFiles, ∀ o < env.torrent.fileSize f,
    h.disk.image f o =
      if Complete env keys (env.torrent.position f o / env.torrent.pieceLength) then
        some (content (env.torrent.position f o))
      else (Disk.create env.torrent).image f o
  /-- The session was stopped if and only if every piece is complete. -/
  stop_iff : .stop ∈ h.log ↔ ∀ i < env.torrent.numPieces, Complete env keys i

/-- The handler stored under the name of a file is that file's own. -/
def HandlersOwn (h : PieceHandler) : Prop :=
  ∀ f < env.torrent.numFiles, h.fileHandlers.lookup (env.torrent.fileName f) = some f

/-- The invariant of a download. -/
structure Tracks (keys : List PieceReceivedKey) (h : PieceHandler) : Prop
    extends Downloaded env content keys h where
  /-- Every file is written through its own handler. -/
  handlers : HandlersOwn env h
  /-- The streams can be written to. -/
  formatted : h.disk.Formatted env.torrent
  /-- The flags are those of the delivered blocks. -/
  flags : ∀ key, (h.receivedPieces key).received = decide (key ∈ keys)
  /-- The buffers of an incomplete piece hold its delivered blocks. -/
  buffers : ∀ i < env.torrent.numPieces, ¬ Complete env keys i → ∀ key ∈ blockKeys env i,
    (h.receivedPieces key).block = if key ∈ keys then env.torrent.blockBytes content key else []

variable {env content}

/-! ### The constructor -/

/-- `emplace` stores every file under its own name when the names are distinct and not taken. -/
lemma lookup_emplaceHandlers {fs : List FileEntry} (hnodup : (fs.map FileEntry.name).Nodup)
    (index : ℕ) (handlers : List (String × ℕ))
    (hfree : ∀ f ∈ fs, handlers.lookup f.name = none) {j : ℕ} (hj : j < fs.length) :
    (emplaceHandlers fs index handlers).lookup fs[j].name = some (index + j) := by
  induction fs generalizing index handlers j with
  | nil => simp at hj
  | cons f fs ih =>
    rw [List.map_cons, List.nodup_cons] at hnodup
    have hself := hfree f List.mem_cons_self
    have hnext : (if (handlers.lookup f.name).isSome then handlers
        else handlers ++ [(f.name, index)]) = handlers ++ [(f.name, index)] := by
      simp [hself]
    rw [emplaceHandlers, hnext]
    cases j with
    | zero =>
      refine (emplaceHandlers_lookup fs (index + 1) _).2 f.name index ?_
      rw [List.lookup_append, hself, Option.none_or]
      simp
    | succ j =>
      rw [List.getElem_cons_succ, ih hnodup.2 (index + 1) _ (fun g hg => ?_)]
      · congr 1
        omega
      · have hne : g.name ≠ f.name := fun heq =>
          hnodup.1 (heq ▸ List.mem_map_of_mem hg)
        rw [List.lookup_append, hfree g (List.mem_cons_of_mem f hg), Option.none_or]
        simp [List.lookup_cons, beq_eq_false_iff_ne.mpr hne]

/-- With distinct leaf names every file gets a handler of its own. -/
lemma handlersOwn_create (hnodup : (env.torrent.files.map FileEntry.name).Nodup) :
    HandlersOwn env (create env) := by
  intro f hf
  have hlookup := lookup_emplaceHandlers hnodup 0 [] (fun _ _ => rfl)
    (show f < env.torrent.files.length from hf)
  rw [Nat.zero_add] at hlookup
  unfold TorrentInfo.fileName
  rw [List.getElem?_eq_getElem hf]
  exact hlookup

/-- Before the first block no piece is complete. -/
lemma not_complete_nil {i : ℕ} (hi : i < env.torrent.numPieces) : ¬ Complete env [] i := by
  intro hc
  obtain ⟨key, hkey⟩ := List.exists_mem_of_ne_nil _ (blockKeys_ne_nil hi)
  exact List.not_mem_nil (hc key hkey)

/-- The last byte of a file lies inside the torrent. -/
lemma position_lt_totalSize {f o : ℕ} (hf : f < env.torrent.numFiles)
    (ho : o < env.torrent.fileSize f) : env.torrent.position f o < env.torrent.totalSize := by
  have hlen : f < env.torrent.sizes.length := by
    simpa [TorrentInfo.sizes, TorrentInfo.numFiles] using hf
  have hle := start_add_getElem_le_sum hlen
  rw [TorrentInfo.fileSize, List.getD_eq_getElem _ _ hlen] at ho
  unfold TorrentInfo.position TorrentInfo.totalSize
  omega

/-- The constructor starts a download. -/
lemma tracks_create (ht : TrueTorrent env content) (hpos : 0 < env.torrent.numPieces) :
    Tracks env content [] (create env) where
  written_eq := by
    rw [Finset.filter_false_of_mem fun i hi => not_complete_nil (Finset.mem_range.mp hi)]
    rfl
  length_eq := (Disk.formatted_create env.torrent).length_eq
  image_eq f hf o ho := by
    have hlt := env.torrent.div_pieceLength_lt (position_lt_totalSize hf ho)
    rw [if_neg (not_complete_nil hlt)]
    rfl
  stop_iff := by
    refine iff_of_false (by simp [create]) fun hall => ?_
    exact not_complete_nil hpos (hall 0 hpos)
  handlers := handlersOwn_create ht.names_nodup
  formatted := Disk.formatted_create env.torrent
  flags key := by simp [create]
  buffers i hi _ key _ := by simp [create]

/-! ### Writing a piece to disk -/

/-- Writing along slices deals the stored bytes out along them. -/
lemma disk_foldl_writeSlice (key : PieceReceivedKey) (slices : List FileSlice)
    (hslices : ∀ s ∈ slices, s.fileIndex < env.torrent.numFiles ∧ 0 < s.size ∧
      s.offset + s.size ≤ env.torrent.fileSize s.fileIndex)
    {h : PieceHandler} (hown : HandlersOwn env h) (hd : h.disk.Formatted env.torrent)
    (hlen : (slices.map FileSlice.size).sum ≤ (h.receivedPieces key).block.length) :
    (slices.foldl (writeSlice env key) h).disk.Formatted env.torrent ∧
      (slices.foldl (writeSlice env key) h).disk.image =
        paint (slices.map FileSlice.toSlice) (h.receivedPieces key).block h.disk.image := by
  induction slices generalizing h with
  | nil => exact ⟨hd, rfl⟩
  | cons s slices ih =>
    obtain ⟨hf, hpos, hle⟩ := hslices s List.mem_cons_self
    rw [List.map_cons, List.sum_cons] at hlen
    have hnext : writeSlice env key h s =
        { h with
          disk := Function.update h.disk s.fileIndex (FileHandler.write env.oob
            (h.receivedPieces key).block s.offset s.size (h.disk s.fileIndex))
          receivedPieces := Function.update h.receivedPieces key
            ⟨(h.receivedPieces key).received, (h.receivedPieces key).block.drop s.size⟩
          log := h.log ++ [.fileWrite ⟨s.fileIndex, s.offset, s.size⟩
            (h.receivedPieces key).block.length] } := by
      simp [writeSlice, hown s.fileIndex hf]
    have hblock : ((writeSlice env key h s).receivedPieces key).block =
        (h.receivedPieces key).block.drop s.size := by
      simp [hnext]
    have hown' : HandlersOwn env (writeSlice env key h s) := by
      intro f hf'
      rw [(writeFrame_writeSlice env key h s).fileHandlers_eq]
      exact hown f hf'
    have hd' : (writeSlice env key h s).disk.Formatted env.torrent := by
      rw [hnext]
      exact hd.update env.oob _ hf hpos hle
    obtain ⟨hformatted, himage⟩ := ih (fun r hr => hslices r (List.mem_cons_of_mem s hr)) hown' hd'
      (by rw [hblock, List.length_drop]; omega)
    refine ⟨hformatted, ?_⟩
    rw [List.foldl_cons, himage, hblock, List.map_cons, paint]
    congr 1
    rw [hnext]
    exact hd.image_update env.oob hf hpos hle (by omega)

/-- The positions of the torrent that a block covers. -/
def Covers (env : Env Digest) (key : PieceReceivedKey) (p : ℕ) : Prop :=
  key.index * env.torrent.pieceLength + key.begin ≤ p ∧
    p < key.index * env.torrent.pieceLength + key.begin +
      min blockLen (env.torrent.pieceSize key.index - key.begin)

instance (key : PieceReceivedKey) : DecidablePred (Covers env key) := fun _ =>
  inferInstanceAs (Decidable (_ ∧ _))

/-- Writing a block whose bytes are stored in full puts them at its positions. -/
lemma disk_writeBlock {key : PieceReceivedKey} (hkey : env.torrent.IsBlock key)
    (hdvd : blockLen ∣ env.torrent.pieceLength)
    (hmapped : env.torrent.Mapped key.index key.begin blockLen) {h : PieceHandler}
    (hown : HandlersOwn env h) (hd : h.disk.Formatted env.torrent)
    (hblock : (h.receivedPieces key).block = env.torrent.blockBytes content key) :
    (writeBlock env h key).disk.Formatted env.torrent ∧
      ∀ f < env.torrent.numFiles, ∀ o < env.torrent.fileSize f,
        (writeBlock env h key).disk.image f o =
          if Covers env key (env.torrent.position f o) then
            some (content (env.torrent.position f o))
          else h.disk.image f o := by
  have hmem := (TorrentInfo.isBlock_iff hkey.index_lt).mp hkey
  have hsize := TorrentInfo.mappedSize_eq hkey hdvd hmapped
  have hlen : (h.receivedPieces key).block.length =
      env.torrent.mappedSize key.index key.begin blockLen := by
    rw [hblock, hsize, TorrentInfo.blockBytes, length_stretch]
  have hinside := (env.torrent.mapBlock_inside_iff
    (env.torrent.mappedSize_pos (target_lt_totalSize hkey.index_lt hmem) blockLen_pos)).mpr
      hmapped.endsInside
  obtain ⟨hformatted, himage⟩ := disk_foldl_writeSlice key
    (env.torrent.mapBlock key.index key.begin blockLen)
    (fun s hs => ⟨(env.torrent.mem_mapBlock hs).1, (env.torrent.mem_mapBlock hs).2,
      hinside s hs⟩) hown hd
    (by rw [env.torrent.sum_size_mapBlock, hlen])
  refine ⟨hformatted, fun f _ o ho => ?_⟩
  unfold writeBlock
  rw [himage, hmapped.endsInside.paint_mapBlock hlen _ f o ho, hsize, hmapped.found_eq]
  by_cases hcov : Covers env key (env.torrent.position f o)
  · rw [if_pos hcov]
    obtain ⟨hle, hlt⟩ := hcov
    rw [if_pos ⟨hle, hlt⟩, hblock, TorrentInfo.blockBytes, getElem?_stretch content _ (by omega),
      Nat.add_sub_cancel' hle]
  · rw [if_neg hcov]
    exact if_neg hcov

/-- Writing blocks whose bytes are stored in full puts them at their positions. -/
lemma disk_foldl_writeBlock (content : ℕ → UInt8) (keys : List PieceReceivedKey)
    (hkeys : ∀ key ∈ keys, env.torrent.IsBlock key) (hnodup : keys.Nodup)
    (hdvd : blockLen ∣ env.torrent.pieceLength)
    (hmapped : ∀ key ∈ keys, env.torrent.Mapped key.index key.begin blockLen) {h : PieceHandler}
    (hown : HandlersOwn env h) (hd : h.disk.Formatted env.torrent)
    (hblocks : ∀ key ∈ keys,
      (h.receivedPieces key).block = env.torrent.blockBytes content key) :
    (keys.foldl (writeBlock env) h).disk.Formatted env.torrent ∧
      ∀ f < env.torrent.numFiles, ∀ o < env.torrent.fileSize f,
        (keys.foldl (writeBlock env) h).disk.image f o =
          if ∃ key ∈ keys, Covers env key (env.torrent.position f o) then
            some (content (env.torrent.position f o))
          else h.disk.image f o := by
  induction keys generalizing h with
  | nil => exact ⟨hd, fun f _ o _ => by simp⟩
  | cons key keys ih =>
    rw [List.nodup_cons] at hnodup
    obtain ⟨hformatted, himage⟩ := disk_writeBlock (hkeys key List.mem_cons_self) hdvd
      (hmapped key List.mem_cons_self) hown hd (hblocks key List.mem_cons_self)
    have hown' : HandlersOwn env (writeBlock env h key) := by
      intro f hf
      rw [(writeFrame_writeBlock env h key).fileHandlers_eq]
      exact hown f hf
    -- the write of a block consumes only its own buffer
    have hblocks' : ∀ k ∈ keys, ((writeBlock env h key).receivedPieces k).block =
        env.torrent.blockBytes content k := by
      intro k hk
      have hne : k ≠ key := fun heq => hnodup.1 (heq ▸ hk)
      rw [writeBlock_receivedPieces_of_ne env hne]
      exact hblocks k (List.mem_cons_of_mem key hk)
    obtain ⟨hformatted', himage'⟩ := ih (fun k hk => hkeys k (List.mem_cons_of_mem key hk))
      hnodup.2 (fun k hk => hmapped k (List.mem_cons_of_mem key hk)) hown' hformatted hblocks'
    refine ⟨hformatted', fun f hf o ho => ?_⟩
    rw [List.foldl_cons, himage' f hf o ho, himage f hf o ho]
    by_cases hrest : ∃ k ∈ keys, Covers env k (env.torrent.position f o)
    · obtain ⟨k, hk, hcov⟩ := hrest
      rw [if_pos ⟨k, hk, hcov⟩, if_pos ⟨k, List.mem_cons_of_mem key hk, hcov⟩]
    · rw [if_neg hrest]
      by_cases hcov : Covers env key (env.torrent.position f o)
      · rw [if_pos hcov, if_pos ⟨key, List.mem_cons_self, hcov⟩]
      · have hnone : ¬ ∃ k ∈ key :: keys, Covers env k (env.torrent.position f o) := by
          rintro ⟨k, hk, hk'⟩
          rcases List.mem_cons.mp hk with rfl | hk
          · exact hcov hk'
          · exact hrest ⟨k, hk, hk'⟩
        rw [if_neg hcov, if_neg hnone]

/-- The blocks of a piece cover the positions of the piece. -/
lemma exists_covers_iff {i p : ℕ} (hi : i < env.torrent.numPieces)
    (hp : p < env.torrent.totalSize) :
    (∃ key ∈ blockKeys env i, Covers env key p) ↔ p / env.torrent.pieceLength = i := by
  rw [env.torrent.div_pieceLength_eq_iff hi hp]
  constructor
  · rintro ⟨key, hkey, hle, hlt⟩
    obtain ⟨rfl, k, hbegin, hk⟩ := mem_blockKeys.mp hkey
    omega
  · rintro ⟨hle, hlt⟩
    set o := p - i * env.torrent.pieceLength with ho
    have hdiv := Nat.div_add_mod o blockLen
    have hmod := Nat.mod_lt o blockLen_pos
    rw [Nat.mul_comm] at hdiv
    refine ⟨⟨i, o / blockLen * blockLen⟩, mem_blockKeys.mpr ⟨rfl, o / blockLen, rfl, ?_⟩, ?_⟩
    · omega
    · constructor
      · change i * env.torrent.pieceLength + o / blockLen * blockLen ≤ p
        omega
      · change p < i * env.torrent.pieceLength + o / blockLen * blockLen +
          min blockLen (env.torrent.pieceSize i - o / blockLen * blockLen)
        omega

/-- Where the offsets of the files fit into 48 bits, every block is found. -/
lemma pieceMapped_of_offsetsFit (hfit : env.torrent.OffsetsFit) {i : ℕ}
    (hi : i < env.torrent.numPieces) : PieceMapped env i :=
  fun _ hkey => hfit.mapped blockLen (target_lt_totalSize hi hkey)

/-! ### One delivered block -/

/-- A block completes no piece but its own. -/
lemma complete_append_of_ne {keys : List PieceReceivedKey} {key : PieceReceivedKey} {i : ℕ}
    (hne : i ≠ key.index) : Complete env (keys ++ [key]) i ↔ Complete env keys i := by
  refine forall₂_congr fun k hk => ?_
  have hk' : k ≠ key := fun heq => hne ((index_of_mem_blockKeys hk).symm.trans (heq ▸ rfl))
  simp [hk']

/-- A complete piece stays complete. -/
lemma Complete.append {keys : List PieceReceivedKey} {i : ℕ} (hc : Complete env keys i)
    (key : PieceReceivedKey) : Complete env (keys ++ [key]) i :=
  fun k hk => List.mem_append_left _ (hc k hk)

/-- A piece with an undelivered block is incomplete. -/
lemma not_complete_of_notMem {keys : List PieceReceivedKey} {key : PieceReceivedKey}
    (hkey : env.torrent.IsBlock key) (hnew : key ∉ keys) : ¬ Complete env keys key.index :=
  fun hc => hnew (hc key ((TorrentInfo.isBlock_iff hkey.index_lt).mp hkey))

/-- What the handler looks like depends only on which pieces are complete. -/
lemma Downloaded.congr {keys keys' : List PieceReceivedKey} {h : PieceHandler}
    (hd : Downloaded env content keys h)
    (hiff : ∀ i, Complete env keys' i ↔ Complete env keys i) : Downloaded env content keys' h where
  written_eq := by
    rw [hd.written_eq]
    congr 1
    exact Finset.filter_congr fun i _ => (hiff i).symm
  length_eq := hd.length_eq
  image_eq f hf o ho := by
    rw [hd.image_eq f hf o ho]
    exact if_congr (hiff _).symm rfl rfl
  stop_iff := by
    rw [hd.stop_iff]
    exact forall₂_congr fun i _ => (hiff i).symm

section Step

variable {keys : List PieceReceivedKey} {h : PieceHandler} {key : PieceReceivedKey}

/-- Storing a block sets its flag. -/
lemma Tracks.flags_store (ht : Tracks env content keys h) (data : ByteString)
    (k : PieceReceivedKey) :
    ((store key data h).receivedPieces k).received = decide (k ∈ keys ++ [key]) := by
  by_cases hk : k = key
  · simp [store, hk]
  · simp [store, hk, ht.flags k]

/-- Storing a block puts its bytes into the empty buffer of the block. -/
lemma Tracks.buffers_store (ht : Tracks env content keys h) (hkey : env.torrent.IsBlock key)
    (hnew : key ∉ keys) {i : ℕ} (hi : i < env.torrent.numPieces) (hinc : ¬ Complete env keys i)
    {k : PieceReceivedKey} (hk : k ∈ blockKeys env i) :
    ((store key (env.torrent.blockBytes content key) h).receivedPieces k).block =
      if k ∈ keys ++ [key] then env.torrent.blockBytes content k else [] := by
  by_cases heq : k = key
  · subst heq
    have hempty := ht.buffers k.index hkey.index_lt (not_complete_of_notMem hkey hnew) k
      ((TorrentInfo.isBlock_iff hkey.index_lt).mp hkey)
    rw [if_neg hnew] at hempty
    simp [store, hempty]
  · have hold := ht.buffers i hi hinc k hk
    simp [store, heq, hold]

/-- With all flags set the stored bytes are those of the piece. -/
lemma Tracks.storedBytes_store (ht : Tracks env content keys h) (hkey : env.torrent.IsBlock key)
    (hnew : key ∉ keys) (hcomplete : Complete env (keys ++ [key]) key.index) :
    storedBytes env key.index (store key (env.torrent.blockBytes content key) h) =
      env.torrent.pieceBytes content key.index := by
  rw [← flatMap_blockBytes env content key.index, storedBytes]
  simp only [List.flatMap]
  congr 1
  refine List.map_congr_left fun k hk => ?_
  rw [ht.buffers_store hkey hnew hkey.index_lt (not_complete_of_notMem hkey hnew) hk,
    if_pos (hcomplete k hk)]

/-- A block that leaves its piece incomplete is only stored. -/
lemma Tracks.store (ht : Tracks env content keys h) (hkey : env.torrent.IsBlock key)
    (hnew : key ∉ keys) (hinc : ¬ Complete env (keys ++ [key]) key.index) :
    Tracks env content (keys ++ [key])
      (store key (env.torrent.blockBytes content key) h) := by
  have hiff : ∀ i, Complete env (keys ++ [key]) i ↔ Complete env keys i := by
    intro i
    by_cases hi : i = key.index
    · subst hi
      exact iff_of_false hinc fun hc => hinc (hc.append key)
    · exact complete_append_of_ne hi
  have hd : Downloaded env content keys
      (PieceHandler.store key (env.torrent.blockBytes content key) h) :=
    ⟨ht.written_eq, ht.length_eq, ht.image_eq, ht.stop_iff⟩
  exact {
    toDownloaded := hd.congr hiff
    handlers := ht.handlers
    formatted := ht.formatted
    flags := ht.flags_store _
    buffers := fun i hi hc k hk =>
      ht.buffers_store hkey hnew hi (fun hold => hc ((hiff i).mpr hold)) hk }

/-- The number of complete pieces grows by one when a block completes its piece. -/
lemma card_complete_append (hkey : env.torrent.IsBlock key) (hnew : key ∉ keys)
    (hcomplete : Complete env (keys ++ [key]) key.index) :
    ((Finset.range env.torrent.numPieces).filter (Complete env (keys ++ [key]))).card =
      ((Finset.range env.torrent.numPieces).filter (Complete env keys)).card + 1 := by
  have hinsert : (Finset.range env.torrent.numPieces).filter (Complete env (keys ++ [key])) =
      insert key.index ((Finset.range env.torrent.numPieces).filter (Complete env keys)) := by
    ext i
    by_cases hi : i = key.index
    · subst hi
      simp [hcomplete, hkey.index_lt]
    · simp [hi, complete_append_of_ne hi]
  rw [hinsert, Finset.card_insert_of_notMem]
  simp [not_complete_of_notMem hkey hnew]

/-- All pieces are counted if and only if all are complete. -/
lemma numPieces_le_card_iff :
    env.torrent.numPieces ≤
        ((Finset.range env.torrent.numPieces).filter (Complete env keys)).card ↔
      ∀ i < env.torrent.numPieces, Complete env keys i := by
  constructor
  · intro hle i hi
    have hsub := Finset.filter_subset (Complete env keys) (Finset.range env.torrent.numPieces)
    have heq := Finset.eq_of_subset_of_card_le hsub (by rw [Finset.card_range]; exact hle)
    have hmem : i ∈ (Finset.range env.torrent.numPieces).filter (Complete env keys) := by
      rw [heq]
      exact Finset.mem_range.mpr hi
    exact (Finset.mem_filter.mp hmem).2
  · intro hall
    rw [Finset.filter_true_of_mem fun i hi => hall i (Finset.mem_range.mp hi), Finset.card_range]

/-- A block that completes its piece has the piece written, counted and, if it is the last one,
the session stopped. -/
lemma Tracks.writtenPiece (ht : Tracks env content keys h)
    (htrue : TrueTorrent env content) (hkey : env.torrent.IsBlock key)
    (hmapped : PieceMapped env key.index) (hnew : key ∉ keys)
    (hcomplete : Complete env (keys ++ [key]) key.index) :
    Tracks env content (keys ++ [key]) (stopIfDone env (writtenPiece env key.index
      (PieceHandler.store key (env.torrent.blockBytes content key) h))) := by
  set stored := PieceHandler.store key (env.torrent.blockBytes content key) h with hstored
  set written := PieceHandler.writtenPiece env key.index stored with hwritten
  have hinc := not_complete_of_notMem hkey hnew
  have hframe := writeFrame_writePiece env (blockKeys env key.index)
    (hashedPiece env key.index stored)
  have hcounted := countFrame_writtenPiece env key.index stored
  obtain ⟨hformatted, himage⟩ := disk_foldl_writeBlock content
    (blockKeys env key.index) (h := hashedPiece env key.index stored)
    (fun k hk => (TorrentInfo.isBlock_iff
      (by rw [index_of_mem_blockKeys hk]; exact hkey.index_lt)).mpr
        (by rw [index_of_mem_blockKeys hk]; exact hk))
    nodup_blockKeys htrue.blockLen_dvd hmapped ht.handlers ht.formatted
    (fun k hk => (ht.buffers_store hkey hnew hkey.index_lt hinc hk).trans
      (if_pos (hcomplete k hk)))
  have hcount : written.writtenPieces =
      ((Finset.range env.torrent.numPieces).filter (Complete env (keys ++ [key]))).card := by
    rw [card_complete_append hkey hnew hcomplete, ← ht.written_eq, hcounted.writtenPieces_eq,
      hframe.writtenPieces_eq]
    rfl
  have hnostop : .stop ∉ written.log := by
    obtain ⟨writes, hlog, hwrites⟩ := log_writtenPiece env key.index stored
    have hold : .stop ∉ h.log := fun hmem =>
      hinc (ht.stop_iff.mp hmem key.index hkey.index_lt)
    have hnone : .stop ∉ writes := by
      intro hmem
      obtain ⟨range, available, heq⟩ := hwrites _ hmem
      exact absurd heq (by simp)
    rw [hwritten, hlog]
    simp only [List.append_assoc, List.cons_append, List.mem_append, List.mem_cons, reduceCtorEq,
      List.not_mem_nil, or_false, false_or, not_or]
    exact ⟨hold, hnone⟩
  have hstop : .stop ∈ (stopIfDone env written).log ↔
      ∀ i < env.torrent.numPieces, Complete env (keys ++ [key]) i := by
    rw [← numPieces_le_card_iff, ← hcount, stopIfDone]
    split_ifs with hdone
    · exact iff_of_true (by simp) (of_decide_eq_true hdone)
    · exact iff_of_false hnostop fun hle => hdone (decide_eq_true hle)
  constructor
  · constructor
    · rw [stopIfDone_writtenPieces, hcount]
    · intro f hf
      rw [stopIfDone_disk, hcounted.disk_eq]
      exact hformatted.length_eq f hf
    · intro f hf o ho
      have hp := position_lt_totalSize hf ho
      rw [stopIfDone_disk, hcounted.disk_eq]
      refine (himage f hf o ho).trans ?_
      by_cases hpiece : env.torrent.position f o / env.torrent.pieceLength = key.index
      · rw [if_pos ((exists_covers_iff hkey.index_lt hp).mpr hpiece), hpiece, if_pos hcomplete]
      · rw [if_neg fun hex => hpiece ((exists_covers_iff hkey.index_lt hp).mp hex)]
        refine (ht.image_eq f hf o ho).trans ?_
        exact if_congr (complete_append_of_ne hpiece).symm rfl rfl
    · exact hstop
  · intro f hf
    rw [stopIfDone_fileHandlers, hcounted.fileHandlers_eq, hframe.fileHandlers_eq]
    exact ht.handlers f hf
  · rw [stopIfDone_disk, hcounted.disk_eq]
    exact hformatted
  · intro k
    rw [stopIfDone_receivedPieces, received_writtenPiece]
    exact ht.flags_store _ k
  · intro i hi hc k hk
    have hne : i ≠ key.index := fun heq => hc (heq ▸ hcomplete)
    have hnot : k ∉ blockKeys env key.index := fun hk' =>
      hne ((index_of_mem_blockKeys hk).symm.trans (index_of_mem_blockKeys hk'))
    rw [stopIfDone_receivedPieces, hcounted.receivedPieces_eq,
      writePiece_receivedPieces_of_notMem env (h := hashedPiece env key.index stored) hnot]
    exact ht.buffers_store hkey hnew hi
      (fun hold => hc ((complete_append_of_ne hne).mpr hold)) hk

variable [DecidableEq Digest]

/-- Every delivered block of the torrent keeps the invariant. -/
lemma Tracks.receivedBlock (ht : Tracks env content keys h) (htrue : TrueTorrent env content)
    (hkey : env.torrent.IsBlock key)
    (hmapped : Complete env (keys ++ [key]) key.index → PieceMapped env key.index) :
    Tracks env content (keys ++ [key])
      (receivedBlock env key (env.torrent.blockBytes content key) h) := by
  have hall : AllReceived env key.index
      (PieceHandler.store key (env.torrent.blockBytes content key) h) ↔
      Complete env (keys ++ [key]) key.index := by
    refine forall₂_congr fun k _ => ?_
    rw [ht.flags_store, decide_eq_true_eq]
  have hnew : (h.receivedPieces key).received = false → key ∉ keys := by
    intro hfalse
    rw [ht.flags] at hfalse
    exact of_decide_eq_false hfalse
  apply receivedBlock_cases
  · intro hdup
    rw [ht.flags] at hdup
    have hmem : key ∈ keys := of_decide_eq_true hdup
    have hsame : ∀ k, k ∈ keys ++ [key] ↔ k ∈ keys := fun k => by
      simp only [List.mem_append, List.mem_singleton, or_iff_left_iff_imp]
      rintro rfl
      exact hmem
    have hiff : ∀ i, Complete env (keys ++ [key]) i ↔ Complete env keys i := fun i =>
      forall₂_congr fun k _ => hsame k
    exact {
      toDownloaded := ht.toDownloaded.congr hiff
      handlers := ht.handlers
      formatted := ht.formatted
      flags := fun k => by rw [ht.flags k]; exact decide_eq_decide.mpr (hsame k).symm
      buffers := fun i hi hc k hk => by
        rw [ht.buffers i hi (fun hold => hc ((hiff i).mpr hold)) k hk]
        exact if_congr (hsame k).symm rfl rfl }
  · exact fun hfalse hinc => ht.store hkey (hnew hfalse) fun hc => hinc (hall.mpr hc)
  · intro hfalse hcomplete hhash
    rw [ht.storedBytes_store hkey (hnew hfalse) (hall.mp hcomplete)] at hhash
    exact absurd (htrue.hash_eq key.index hkey.index_lt).symm hhash
  · exact fun hfalse hcomplete _ =>
      ht.writtenPiece htrue hkey (hmapped (hall.mp hcomplete)) (hnew hfalse) (hall.mp hcomplete)

end Step

/-! ### Whole downloads -/

variable [DecidableEq Digest]

/-- The fields of a block of the torrent survive the message that delivers it. -/
lemma received_blockPayload {key : PieceReceivedKey} (hkey : env.torrent.IsBlock key)
    (h : PieceHandler) :
    received env (env.torrent.blockPayload content key) h =
      receivedBlock env key (env.torrent.blockBytes content key) h := by
  obtain ⟨k, hbegin, hlt⟩ := hkey.begin_eq
  have hindex := env.torrent.numPieces_lt
  have hsize := pieceSize_le_intMax env key.index
  have hmax : intMax < uint32Range := by decide
  have hpow : 2 ^ 31 < uint32Range := by decide
  have hi := hkey.index_lt
  rw [received, TorrentInfo.blockPayload, keyOf_piecePayload env.oob (by omega) (by omega),
    drop_piecePayload]

/-- Blocks of the torrent, delivered in any order and with any repetitions, keep the invariant. -/
lemma tracks_run (htrue : TrueTorrent env content) (hpos : 0 < env.torrent.numPieces)
    {keys : List PieceReceivedKey} (hkeys : ∀ key ∈ keys, env.torrent.IsBlock key)
    (hmapped : ∀ i < env.torrent.numPieces, Complete env keys i → PieceMapped env i) :
    Tracks env content keys (run (fun h p => received env p h) (create env)
      (keys.map (env.torrent.blockPayload content))) := by
  induction keys using List.reverseRecOn with
  | nil => exact tracks_create htrue hpos
  | append_singleton keys key ih =>
    have hkey := hkeys key (by simp)
    have hprefix := ih (fun k hk => hkeys k (List.mem_append_left _ hk))
      fun i hi hc => hmapped i hi (hc.append key)
    rw [List.map_append, run_append, List.map_singleton, run_cons, run_nil,
      received_blockPayload hkey]
    exact hprefix.receivedBlock htrue hkey (hmapped key.index hkey.index_lt)

/-- Correctness of the download: after every prefix of a sequence of blocks of the torrent, in any
order and with any repetitions, the counter, the files and the call of `session::stop` are those
of the pieces that are complete, if `map_block` finds the blocks of these pieces. -/
theorem download_correct (htrue : TrueTorrent env content) (hlast : 0 < env.torrent.numPieces)
    (keys : List PieceReceivedKey) (hkeys : ∀ key ∈ keys, env.torrent.IsBlock key)
    (hmapped : ∀ i < env.torrent.numPieces, Complete env keys i → PieceMapped env i) :
    ∀ pre, pre <+: keys → Downloaded env content pre
      (run (fun h p => received env p h) (create env)
        (pre.map (env.torrent.blockPayload content))) := by
  intro pre hpre
  have hcomplete : ∀ i, Complete env pre i → Complete env keys i :=
    fun i hc key hkey => hpre.subset (hc key hkey)
  exact (tracks_run htrue hlast (fun key hkey => hkeys key (hpre.subset hkey))
    fun i hi hc => hmapped i hi (hcomplete i hc)).toDownloaded

/-- A torrent with the given contents: the piece hashes are the SHA-1 digests of its pieces. -/
def trueEnv (torrent : TorrentInfo ByteString) (content : ℕ → UInt8) : Env ByteString where
  torrent := { torrent with
    hashForPiece := fun i => SecureHash.sha1 (torrent.pieceBytes content i) }
  sha1 := SecureHash.sha1
  oob := fun _ _ => 0
  setOrder := (sampleEnv []).setOrder

/-- The piece hashes of such a torrent are those of its contents. -/
lemma trueTorrent_trueEnv {torrent : TorrentInfo ByteString} (content : ℕ → UInt8)
    (hdvd : blockLen ∣ torrent.pieceLength)
    (hnames : (torrent.files.map FileEntry.name).Nodup) :
    TrueTorrent (trueEnv torrent content) content where
  blockLen_dvd := hdvd
  names_nodup := hnames
  hash_eq _ _ := rfl

/-- A torrent with three files, one of them empty, and two pieces, the last one of one byte. -/
def threeFiles : TorrentInfo ByteString where
  pieceLength := 2 * blockLen
  files := [⟨[], "a", blockLen - 1⟩, ⟨[], "b", 0⟩, ⟨[], "c", blockLen + 2⟩]
  hashForPiece := fun _ => []
  pieceLength_pos := two_blockLen_pos
  pieceLength_le := two_blockLen_le
  files_ne_nil := by decide
  totalSize_lt := by decide

/-- The download of such a torrent, the last piece first and a block of the first piece twice. -/
theorem download_sample :
    TrueTorrent (trueEnv threeFiles fun p => UInt8.ofNat p) (fun p => UInt8.ofNat p) ∧
      ∀ pre, pre <+: [⟨1, 0⟩, ⟨0, blockLen⟩, ⟨0, blockLen⟩, ⟨0, 0⟩] →
      Downloaded (trueEnv threeFiles fun p => UInt8.ofNat p) (fun p => UInt8.ofNat p) pre
        (run (fun h p => received (trueEnv threeFiles fun p => UInt8.ofNat p) p h)
          (create (trueEnv threeFiles fun p => UInt8.ofNat p))
          (pre.map (threeFiles.blockPayload fun p => UInt8.ofNat p))) := by
  set env := trueEnv threeFiles fun p => UInt8.ofNat p with henv
  have htrue : TrueTorrent env fun p => UInt8.ofNat p :=
    trueTorrent_trueEnv _ ⟨2, rfl⟩ (by decide)
  have hfit : env.torrent.OffsetsFit := ⟨by decide, by decide⟩
  refine ⟨htrue, download_correct htrue (by decide) _ (fun key hkey => ?_)
    fun i hi _ => pieceMapped_of_offsetsFit hfit hi⟩
  simp only [List.mem_cons, List.not_mem_nil, or_false] at hkey
  rcases hkey with rfl | rfl | rfl | rfl
  · exact ⟨by decide, 0, rfl, by decide⟩
  · exact ⟨by decide, 1, rfl, by decide⟩
  · exact ⟨by decide, 1, rfl, by decide⟩
  · exact ⟨by decide, 0, rfl, by decide⟩

/-- A torrent whose third file, of one block, begins at `2 ^ 48`; the block is its last piece. -/
def longTorrent : TorrentInfo ByteString where
  pieceLength := 2 ^ 29
  files := [⟨[], "a", 2 ^ 47⟩, ⟨[], "b", 2 ^ 47⟩, ⟨[], "c", blockLen⟩]
  hashForPiece := fun _ => []
  pieceLength_pos := by decide
  pieceLength_le := by decide
  files_ne_nil := by decide
  totalSize_lt := by decide

/-- The offset of the third file and the target of its block are cut to zero, so the block is
written over the first file, and the third one stays as the constructor left it. -/
theorem wrapped_offset_breaks_download :
    TrueTorrent (trueEnv longTorrent fun _ => 1) (fun _ => 1) ∧
      (trueEnv longTorrent fun _ => 1).torrent.IsBlock ⟨2 ^ 19, 0⟩ ∧
      longTorrent.mapBlock (2 ^ 19) 0 blockLen = [⟨0, 0, blockLen⟩] ∧
      ¬ Downloaded (trueEnv longTorrent fun _ => 1) (fun _ => 1) [⟨2 ^ 19, 0⟩]
        (run (fun h p => received (trueEnv longTorrent fun _ => 1) p h)
          (create (trueEnv longTorrent fun _ => 1))
          [longTorrent.blockPayload (fun _ => 1) ⟨2 ^ 19, 0⟩]) := by
  have hmap : longTorrent.mapBlock (2 ^ 19) 0 blockLen = [⟨0, 0, blockLen⟩] := by
    decide +kernel
  have hblock : (trueEnv longTorrent fun _ => 1).torrent.IsBlock ⟨2 ^ 19, 0⟩ :=
    ⟨by decide, 0, rfl, by decide⟩
  refine ⟨trueTorrent_trueEnv _ ⟨2 ^ 15, rfl⟩ (by decide), hblock, hmap, fun hdown => ?_⟩
  set env := trueEnv longTorrent fun _ => 1 with henv
  have hkeys : blockKeys env (2 ^ 19) = [⟨2 ^ 19, 0⟩] := by decide
  -- whatever the delivery does, it writes to the first file only
  have hkept : ∀ data, (receivedBlock env ⟨2 ^ 19, 0⟩ data (create env)).disk 2 =
      (create env).disk 2 := by
    intro data
    apply receivedBlock_cases (P := fun h => h.disk 2 = (create env).disk 2)
    · exact fun _ => rfl
    · exact fun _ _ => rfl
    · exact fun _ _ _ => rfl
    · intro _ _ _
      have hlookup : (create env).fileHandlers.lookup (env.torrent.fileName 0) = some 0 := by
        decide
      have hslices : env.torrent.mapBlock (2 ^ 19) 0 blockLen = [⟨0, 0, blockLen⟩] := hmap
      rw [stopIfDone_disk, (countFrame_writtenPiece env _ _).disk_eq, hkeys, List.foldl_cons,
        List.foldl_nil, writeBlock, hslices, List.foldl_cons, List.foldl_nil]
      unfold writeSlice
      rw [show (hashedPiece env (2 ^ 19) (store ⟨2 ^ 19, 0⟩ data (create env))).fileHandlers =
        (create env).fileHandlers from rfl, hlookup]
      dsimp only
      rw [Function.update_of_ne (show (2 : ℕ) ≠ 0 by decide)]
      rfl
  have hrun : received env (longTorrent.blockPayload (fun _ => 1) ⟨2 ^ 19, 0⟩) (create env) =
      receivedBlock env ⟨2 ^ 19, 0⟩ (env.torrent.blockBytes (fun _ => 1) ⟨2 ^ 19, 0⟩)
        (create env) := received_blockPayload hblock _
  have hzero : ((create env).disk 2).content = List.replicate (env.torrent.fileSize 2) 0 :=
    (FileHandler.create_spec _).1
  have himage := hdown.image_eq 2 (by decide) 0 (by decide)
  rw [run_cons, run_nil, hrun, Disk.image, hkept, hzero, if_pos (by decide +kernel)] at himage
  exact absurd himage (by decide)

end PieceHandler

end Tent
