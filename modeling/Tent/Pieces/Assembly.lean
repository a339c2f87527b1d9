import Tent.Pieces.Download
import Tent.Pieces.Queues

/-!
# Blocks from anybody

`Tracks` is about peers that deliver the torrent.  Here peers deliver what they like: a block is
kept if it is the first one under its key, and whether a piece is written depends on the hash of
what was kept for it.

The abstract state of a download is then the map of the blocks that were kept (`Blocks`), and a
delivery is a step on it (`Blocks.deliver`).  A piece is valid when blocks were kept for all of it
and their bytes have the digest of the piece (`Blocks.Valid`).  `Assembles` says that the handler is
what the map makes of it: a valid piece is on disk and counted, every other piece is as the
constructor left it, and the session was stopped if and only if all pieces are valid.  Every
delivery keeps it (`Assembles.receivedBlock`), as long as the index is that of a piece and a block
of the torrent has its length (`Nominal`).

If nothing but the contents of the torrent has the digests of its pieces (`Authentic`), then a piece
is valid exactly when the first block under each of its keys is the true one.
-/

set_option autoImplicit false

namespace Tent

open Bytes Segments Transition

/-- Segment and offset of a position in a line of equally long segments. -/
lemma segment_div_mod {size k o : ℕ} (ho : o < size) :
    (k * size + o) / size = k ∧ (k * size + o) % size = o := by
  have hpos : 0 < size := by omega
  rw [Nat.mul_comm]
  constructor
  · rw [Nat.mul_add_div hpos, Nat.div_eq_of_lt ho, Nat.add_zero]
  · rw [Nat.mul_add_mod, Nat.mod_eq_of_lt ho]

section Count

variable {n : ℕ} {P Q : ℕ → Prop} [DecidablePred P] [DecidablePred Q]

/-- All numbers below a bound are counted if and only if all have the property. -/
lemma le_card_filter_range_iff : n ≤ ((Finset.range n).filter P).card ↔ ∀ i < n, P i := by
  constructor
  · intro hle i hi
    have hsub := Finset.filter_subset P (Finset.range n)
    have heq := Finset.eq_of_subset_of_card_le hsub (by rw [Finset.card_range]; exact hle)
    have hmem : i ∈ (Finset.range n).filter P := by
      rw [heq]
      exact Finset.mem_range.mpr hi
    exact (Finset.mem_filter.mp hmem).2
  · intro hall
    rw [Finset.filter_true_of_mem fun i hi => hall i (Finset.mem_range.mp hi), Finset.card_range]

/-- One more number is counted when one more has the property. -/
lemma card_filter_range_succ {k : ℕ} (hk : k < n) (hP : ¬ P k) (hQ : Q k)
    (hiff : ∀ i, i ≠ k → (Q i ↔ P i)) :
    ((Finset.range n).filter Q).card = ((Finset.range n).filter P).card + 1 := by
  have hinsert : (Finset.range n).filter Q = insert k ((Finset.range n).filter P) := by
    ext i
    by_cases hi : i = k
    · subst hi
      simp [hQ, hk]
    · simp [hi, hiff i hi]
  rw [hinsert, Finset.card_insert_of_notMem]
  simp [hP]

end Count

/-- What `received` reads off a piece message. -/
structure Delivery where
  /-- The key of the block. -/
  key : PieceReceivedKey
  /-- The bytes behind the key. -/
  data : ByteString
deriving DecidableEq, Repr

/-- The delivery of a piece message. -/
def Delivery.ofPayload (oob : Oob) (payload : ByteString) : Delivery :=
  ⟨PieceHandler.keyOf oob payload, payload.drop 8⟩

/-- The blocks that were kept, by key. -/
abbrev Blocks := PieceReceivedKey → Option ByteString

namespace Blocks

/-- A delivery is kept if nothing was kept under its key before. -/
def deliver (blocks : Blocks) (d : Delivery) : Blocks :=
  if (blocks d.key).isSome then blocks else Function.update blocks d.key (some d.data)

/-- A second delivery under a key changes nothing. -/
lemma deliver_of_isSome {blocks : Blocks} {d : Delivery} (h : (blocks d.key).isSome) :
    blocks.deliver d = blocks :=
  if_pos h

/-- A first delivery under a key is kept. -/
lemma deliver_of_none {blocks : Blocks} {d : Delivery} (h : blocks d.key = none) :
    blocks.deliver d = Function.update blocks d.key (some d.data) := by
  rw [deliver, h]
  rfl

/-- A delivery does nothing under other keys. -/
lemma deliver_apply_of_ne {blocks : Blocks} {d : Delivery} {key : PieceReceivedKey}
    (hkey : key ≠ d.key) : blocks.deliver d key = blocks key := by
  rw [deliver]
  split_ifs
  · rfl
  · exact Function.update_of_ne hkey _ _

/-- What was kept stays. -/
lemma deliver_apply_of_isSome {blocks : Blocks} {d : Delivery} {key : PieceReceivedKey}
    (h : (blocks key).isSome) : blocks.deliver d key = blocks key := by
  by_cases hkey : key = d.key
  · rw [deliver_of_isSome (hkey ▸ h)]
  · exact deliver_apply_of_ne hkey

/-- What is kept after some deliveries is what came first. -/
lemma run_deliver_apply (ds : List Delivery) (key : PieceReceivedKey) :
    run deliver (fun _ => none) ds key = (ds.find? fun d => d.key = key).map Delivery.data := by
  induction ds using List.reverseRecOn with
  | nil => rfl
  | append_singleton ds d ih =>
    rw [run_append, run_cons, run_nil, List.find?_append]
    cases hfirst : ds.find? fun d => d.key = key with
    | some e =>
      rw [hfirst, Option.map_some] at ih
      rw [deliver_apply_of_isSome (by rw [ih]; rfl), ih]
      rfl
    | none =>
      rw [hfirst, Option.map_none] at ih
      by_cases hkey : d.key = key
      · subst hkey
        rw [deliver_of_none ih, Function.update_self]
        simp
      · rw [deliver_apply_of_ne (Ne.symm hkey), ih]
        simp [hkey]

variable {Digest : Type*} (env : Env Digest) (blocks : Blocks)

/-- A block was kept for every part of the piece. -/
def Whole (i : ℕ) : Prop :=
  ∀ key ∈ PieceHandler.blockKeys env i, (blocks key).isSome

/-- What was kept for the piece. -/
def bytesOf (i : ℕ) : ByteString :=
  (PieceHandler.blockKeys env i).flatMap fun key => (blocks key).getD []

/-- The piece is whole and its bytes have the right digest. -/
def Valid (i : ℕ) : Prop :=
  blocks.Whole env i ∧ env.sha1 (blocks.bytesOf env i) = env.torrent.hashForPiece i

instance [DecidableEq Digest] : DecidablePred (blocks.Valid env) := fun i =>
  have : Decidable (blocks.Whole env i) := inferInstanceAs (Decidable (∀ _ ∈ _, _))
  inferInstanceAs (Decidable (_ ∧ _))

/-- The byte that was kept for a position of the torrent. -/
def byteAt (p : ℕ) : UInt8 :=
  let offset := p % env.torrent.pieceLength
  ((blocks ⟨p / env.torrent.pieceLength, offset / blockLen * blockLen⟩).getD []).getD
    (offset % blockLen) 0

/-- The blocks of the torrent that were kept have their lengths. -/
def HasLengths : Prop :=
  ∀ key, env.torrent.IsBlock key → ∀ data, blocks key = some data →
    data.length = min blockLen (env.torrent.pieceSize key.index - key.begin)

variable {env} {blocks}

/-- A piece that is whole stays what it is. -/
lemma bytesOf_deliver {i : ℕ} (h : blocks.Whole env i) (d : Delivery) :
    (blocks.deliver d).bytesOf env i = blocks.bytesOf env i := by
  unfold bytesOf
  simp only [List.flatMap]
  congr 1
  exact List.map_congr_left fun key hkey => by rw [deliver_apply_of_isSome (h key hkey)]

/-- A piece that is whole stays whole. -/
lemma Whole.deliver {i : ℕ} (h : blocks.Whole env i) (d : Delivery) :
    (blocks.deliver d).Whole env i := by
  intro key hkey
  rw [deliver_apply_of_isSome (h key hkey)]
  exact h key hkey

/-- A valid piece stays valid. -/
lemma Valid.deliver {i : ℕ} (h : blocks.Valid env i) (d : Delivery) :
    (blocks.deliver d).Valid env i :=
  ⟨h.1.deliver d, by rw [bytesOf_deliver h.1, h.2]⟩

/-- A delivery means nothing to a piece that it is no block of. -/
lemma valid_deliver_of_notMem {i : ℕ} {d : Delivery}
    (hkey : d.key ∉ PieceHandler.blockKeys env i) :
    (blocks.deliver d).Valid env i ↔ blocks.Valid env i := by
  have hsame : ∀ key ∈ PieceHandler.blockKeys env i, blocks.deliver d key = blocks key :=
    fun key hmem => deliver_apply_of_ne fun heq => hkey (heq ▸ hmem)
  have hwhole : (blocks.deliver d).Whole env i ↔ blocks.Whole env i :=
    forall₂_congr fun key hmem => by rw [hsame key hmem]
  have hbytes : (blocks.deliver d).bytesOf env i = blocks.bytesOf env i := by
    unfold bytesOf
    simp only [List.flatMap]
    congr 1
    exact List.map_congr_left fun key hmem => by rw [hsame key hmem]
  unfold Valid
  rw [hwhole, hbytes]

/-- A delivery means nothing to other pieces. -/
lemma valid_deliver_of_ne {i : ℕ} {d : Delivery} (hi : i ≠ d.key.index) :
    (blocks.deliver d).Valid env i ↔ blocks.Valid env i :=
  valid_deliver_of_notMem fun hmem => hi (PieceHandler.index_of_mem_blockKeys hmem).symm

/-- The block at a position of a piece is a block of the piece. -/
lemma block_mem_blockKeys {i p : ℕ} (hi : i < env.torrent.numPieces)
    (hp : p < env.torrent.totalSize) (hpiece : p / env.torrent.pieceLength = i) :
    (⟨i, p % env.torrent.pieceLength / blockLen * blockLen⟩ : PieceReceivedKey) ∈
      PieceHandler.blockKeys env i := by
  refine PieceHandler.mem_blockKeys.mpr ⟨rfl, _, rfl, ?_⟩
  obtain ⟨hle, hlt⟩ := (env.torrent.div_pieceLength_eq_iff hi hp).mp hpiece
  have hmod := Nat.div_add_mod p env.torrent.pieceLength
  rw [hpiece, Nat.mul_comm] at hmod
  have hfloor := Nat.div_mul_le_self (p % env.torrent.pieceLength) blockLen
  omega

/-- The bytes of a whole piece stay. -/
lemma byteAt_deliver {i p : ℕ} (hi : i < env.torrent.numPieces) (hp : p < env.torrent.totalSize)
    (hpiece : p / env.torrent.pieceLength = i) (h : blocks.Whole env i) (d : Delivery) :
    (blocks.deliver d).byteAt env p = blocks.byteAt env p := by
  have hblock := h _ (block_mem_blockKeys hi hp hpiece)
  unfold byteAt
  dsimp only
  rw [hpiece, deliver_apply_of_isSome hblock]

/-- Reading a kept block of the right length off the torrent. -/
lemma blockBytes_byteAt {key : PieceReceivedKey} (hkey : env.torrent.IsBlock key)
    {data : ByteString} (hdata : blocks key = some data)
    (hlen : data.length = min blockLen (env.torrent.pieceSize key.index - key.begin)) :
    env.torrent.blockBytes (blocks.byteAt env) key = data := by
  obtain ⟨k, hbegin, hlt⟩ := hkey.begin_eq
  have hle := env.torrent.pieceSize_le key.index
  rw [TorrentInfo.blockBytes, ← hlen]
  refine List.ext_getElem? fun j => ?_
  by_cases hj : j < data.length
  · obtain ⟨hquot, hrem⟩ := segment_div_mod (k := key.index)
      (show key.begin + j < env.torrent.pieceLength by omega)
    obtain ⟨hblock, hoff⟩ := segment_div_mod (k := k) (show j < blockLen by omega)
    rw [← Nat.add_assoc] at hquot hrem
    rw [← hbegin] at hblock hoff
    rw [getElem?_stretch _ _ hj]
    unfold byteAt
    dsimp only
    rw [hquot, hrem, hblock, hoff, ← hbegin, hdata, Option.getD_some,
      List.getD_eq_getElem _ _ hj, List.getElem?_eq_getElem hj]
  · rw [List.getElem?_eq_none (by rw [length_stretch]; omega), List.getElem?_eq_none (by omega)]

end Blocks

/-- What is assumed of a torrent. -/
structure Regular {Digest : Type*} (env : Env Digest) : Prop where
  /-- There is a piece. -/
  numPieces_pos : 0 < env.torrent.numPieces
  /-- The piece length is a multiple of the block length. -/
  blockLen_dvd : blockLen ∣ env.torrent.pieceLength
  /-- The leaf names of the files are pairwise distinct. -/
  names_nodup : (env.torrent.files.map FileEntry.name).Nodup
  /-- The offsets of the files fit into their field. -/
  offsetsFit : env.torrent.OffsetsFit
  /-- No piece has the digest of the empty string. -/
  digest_ne : ∀ i < env.torrent.numPieces, env.sha1 [] ≠ env.torrent.hashForPiece i

/-- A delivery for one of the pieces; if it is a block of the torrent, it has its length. -/
structure Nominal {Digest : Type*} (env : Env Digest) (d : Delivery) : Prop where
  /-- The piece exists. -/
  index_lt : d.key.index < env.torrent.numPieces
  /-- A block has its length. -/
  length_eq : env.torrent.IsBlock d.key →
    d.data.length = min blockLen (env.torrent.pieceSize d.key.index - d.key.begin)

namespace PieceHandler

variable {Digest : Type*} [DecidableEq Digest] (env : Env Digest)

/-- What the handler looks like when some blocks were kept. -/
structure Reflects (blocks : Blocks) (h : PieceHandler) : Prop where
  /-- The counter is the number of valid pieces. -/
  written_eq : h.writtenPieces =
    ((Finset.range env.torrent.numPieces).filter (blocks.Valid env)).card
  /-- The files have their sizes. -/
  length_eq : ∀ f < env.torrent.numFiles, (h.disk f).content.length = env.torrent.fileSize f
  /-- The bytes of valid pieces are on disk, and the others are as the constructor left them. -/
  image_eq : ∀ f < env.torrent.numFiles, ∀ o < env.torrent.fileSize f,
    h.disk.image f o =
      if blocks.Valid env (env.torrent.position f o / env.torrent.pieceLength) then
        some (blocks.byteAt env (env.torrent.position f o))
      else (Disk.create env.torrent).image f o
  /-- The pieces that `write_if_valid` found valid are the valid ones. -/
  validated_iff : ∀ i < env.torrent.numPieces, .validated i ∈ h.log ↔ blocks.Valid env i
  /-- The session was stopped if and only if every piece is valid. -/
  stop_iff : .stop ∈ h.log ↔ ∀ i < env.torrent.numPieces, blocks.Valid env i

/-- The invariant of the deliveries. -/
structure Assembles (blocks : Blocks) (h : PieceHandler) : Prop extends Reflects env blocks h where
  /-- Every file is written through its own handler. -/
  handlers : HandlersOwn env h
  /-- The streams can be written to. -/
  formatted : h.disk.Formatted env.torrent
  /-- The kept blocks of the torrent have their lengths. -/
  lengths : blocks.HasLengths env
  /-- The flags are those of the kept blocks. -/
  flags : ∀ key, (h.receivedPieces key).received = (blocks key).isSome
  /-- The buffers of a piece that is not valid hold its kept blocks. -/
  pending : ∀ i < env.torrent.numPieces, ¬ blocks.Valid env i → ∀ key ∈ blockKeys env i,
    (h.receivedPieces key).block = (blocks key).getD []
  /-- The buffers of a valid piece were consumed. -/
  consumed : ∀ i < env.torrent.numPieces, blocks.Valid env i → ∀ key ∈ blockKeys env i,
    (h.receivedPieces key).block = []

variable {env}

omit [DecidableEq Digest] in
/-- Before the first block no piece is valid. -/
lemma not_valid_none {i : ℕ} (hi : i < env.torrent.numPieces) :
    ¬ Blocks.Valid env (fun _ => none) i := by
  rintro ⟨hwhole, -⟩
  obtain ⟨key, hkey⟩ := List.exists_mem_of_ne_nil _ (blockKeys_ne_nil hi)
  exact absurd (hwhole key hkey) (by simp)

/-- The constructor has no blocks. -/
lemma assembles_create (hreg : Regular env) : Assembles env (fun _ => none) (create env) where
  written_eq := by
    rw [Finset.filter_false_of_mem fun i hi => not_valid_none (Finset.mem_range.mp hi)]
    rfl
  length_eq := (Disk.formatted_create env.torrent).length_eq
  image_eq f hf o ho := by
    have hlt := env.torrent.div_pieceLength_lt (position_lt_totalSize hf ho)
    rw [if_neg (not_valid_none hlt)]
    rfl
  validated_iff i hi := iff_of_false (by simp [create]) (not_valid_none hi)
  stop_iff := by
    refine iff_of_false (by simp [create]) fun hall => ?_
    exact not_valid_none hreg.numPieces_pos (hall 0 hreg.numPieces_pos)
  handlers := handlersOwn_create hreg.names_nodup
  formatted := Disk.formatted_create env.torrent
  lengths := fun _ _ _ hdata => absurd hdata (by simp)
  flags key := rfl
  pending i _ _ key _ := rfl
  consumed i hi hvalid := absurd hvalid (not_valid_none hi)

omit [DecidableEq Digest] in
/-- A block of one piece is none of another one. -/
lemma notMem_blockKeys_of_ne {i j : ℕ} (hij : i ≠ j) {key : PieceReceivedKey}
    (hkey : key ∈ blockKeys env i) : key ∉ blockKeys env j := fun hother =>
  hij ((index_of_mem_blockKeys hkey).symm.trans (index_of_mem_blockKeys hother))

omit [DecidableEq Digest] in
/-- Handlers of their own are handlers. -/
lemma handlersComplete {h : PieceHandler} (hown : HandlersOwn env h) : HandlersComplete env h :=
  fun f hf => ⟨f, hown f hf⟩

section Step

variable {blocks : Blocks} {h : PieceHandler} {d : Delivery}

/-- The lengths stay right when a delivery has its length. -/
lemma Assembles.lengths_deliver (ha : Assembles env blocks h) (hd : Nominal env d) :
    (blocks.deliver d).HasLengths env := by
  intro key hkey data hdata
  by_cases hcase : blocks key = none
  · by_cases heq : key = d.key
    · subst heq
      rw [Blocks.deliver_of_none hcase, Function.update_self, Option.some.injEq] at hdata
      rw [← hdata]
      exact hd.length_eq hkey
    · rw [Blocks.deliver_apply_of_ne heq] at hdata
      exact ha.lengths key hkey data hdata
  · rw [Blocks.deliver_apply_of_isSome (Option.isSome_iff_ne_none.mpr hcase)] at hdata
    exact ha.lengths key hkey data hdata

/-- Storing a block sets its flag. -/
lemma Assembles.flags_store (ha : Assembles env blocks h) (hnew : blocks d.key = none)
    (key : PieceReceivedKey) :
    ((store d.key d.data h).receivedPieces key).received = (blocks.deliver d key).isSome := by
  rw [Blocks.deliver_of_none hnew]
  by_cases hkey : key = d.key
  · simp [store, hkey]
  · simp [store, hkey, ha.flags key]

/-- Storing a block of a piece that is not valid keeps it. -/
lemma Assembles.pending_store (ha : Assembles env blocks h) (hnew : blocks d.key = none) {i : ℕ}
    (hi : i < env.torrent.numPieces) (hvalid : ¬ blocks.Valid env i) {key : PieceReceivedKey}
    (hkey : key ∈ blockKeys env i) :
    ((store d.key d.data h).receivedPieces key).block = (blocks.deliver d key).getD [] := by
  have hold := ha.pending i hi hvalid key hkey
  rw [Blocks.deliver_of_none hnew]
  by_cases heq : key = d.key
  · rw [heq, hnew, Option.getD_none] at hold
    simp [store, heq, hold]
  · simp [store, heq, hold]

/-- Storing a block that is new leaves the consumed buffers of a valid piece alone. -/
lemma Assembles.consumed_store (ha : Assembles env blocks h) (hnew : blocks d.key = none) {i : ℕ}
    (hi : i < env.torrent.numPieces) (hvalid : blocks.Valid env i) {key : PieceReceivedKey}
    (hkey : key ∈ blockKeys env i) : ((store d.key d.data h).receivedPieces key).block = [] := by
  have hne : key ≠ d.key := by
    rintro rfl
    exact absurd (hvalid.1 _ hkey) (by simp [hnew])
  have hold := ha.consumed i hi hvalid key hkey
  simp [store, hne, hold]

/-- What is hashed when a block of a piece that is not valid was stored: all that was kept. -/
lemma Assembles.storedBytes_pending (ha : Assembles env blocks h) (hnew : blocks d.key = none)
    {i : ℕ} (hi : i < env.torrent.numPieces) (hvalid : ¬ blocks.Valid env i) :
    storedBytes env i (store d.key d.data h) = (blocks.deliver d).bytesOf env i := by
  unfold storedBytes Blocks.bytesOf
  simp only [List.flatMap]
  congr 1
  exact List.map_congr_left fun key hkey => ha.pending_store hnew hi hvalid hkey

/-- What is hashed when something that is no block was stored for a valid piece: nothing. -/
lemma Assembles.storedBytes_consumed (ha : Assembles env blocks h) (hnew : blocks d.key = none)
    {i : ℕ} (hi : i < env.torrent.numPieces) (hvalid : blocks.Valid env i) :
    storedBytes env i (store d.key d.data h) = [] :=
  List.flatMap_eq_nil_iff.mpr fun _ hkey => ha.consumed_store hnew hi hvalid hkey

/-- A piece that is found complete is whole. -/
lemma Assembles.allReceived_iff (ha : Assembles env blocks h) (hnew : blocks d.key = none) :
    AllReceived env d.key.index (store d.key d.data h) ↔
      (blocks.deliver d).Whole env d.key.index :=
  forall₂_congr fun key _ => by rw [ha.flags_store hnew]

/-- What the handler looks like when the same pieces are valid. -/
lemma Reflects.deliver (hr : Reflects env blocks h)
    (hiff : ∀ i, (blocks.deliver d).Valid env i ↔ blocks.Valid env i) :
    Reflects env (blocks.deliver d) h where
  written_eq := by
    rw [hr.written_eq]
    congr 1
    exact Finset.filter_congr fun i _ => (hiff i).symm
  length_eq := hr.length_eq
  image_eq f hf o ho := by
    have hp := position_lt_totalSize hf ho
    rw [hr.image_eq f hf o ho]
    by_cases hvalid : blocks.Valid env (env.torrent.position f o / env.torrent.pieceLength)
    · rw [if_pos hvalid, if_pos ((hiff _).mpr hvalid),
        Blocks.byteAt_deliver (env.torrent.div_pieceLength_lt hp) hp rfl hvalid.1]
    · rw [if_neg hvalid, if_neg fun hcon => hvalid ((hiff _).mp hcon)]
  validated_iff i hi := (hr.validated_iff i hi).trans (hiff i).symm
  stop_iff := by
    rw [hr.stop_iff]
    exact forall₂_congr fun i _ => (hiff i).symm

/-- A block that makes no piece valid is only stored. -/
lemma Assembles.store (ha : Assembles env blocks h) (hnew : blocks d.key = none)
    (hd : Nominal env d)
    (hiff : ∀ i, (blocks.deliver d).Valid env i ↔ blocks.Valid env i) :
    Assembles env (blocks.deliver d) (store d.key d.data h) where
  toReflects := Reflects.deliver
    ⟨ha.written_eq, ha.length_eq, ha.image_eq, ha.validated_iff, ha.stop_iff⟩ hiff
  handlers := ha.handlers
  formatted := ha.formatted
  lengths := ha.lengths_deliver hd
  flags := ha.flags_store hnew
  pending := fun i hi hvalid _ hkey =>
    ha.pending_store hnew hi (fun hold => hvalid ((hiff i).mpr hold)) hkey
  consumed := fun i hi hvalid _ hkey => ha.consumed_store hnew hi ((hiff i).mp hvalid) hkey

omit [DecidableEq Digest] in
/-- A hash that was computed is logged behind everything else. -/
lemma mem_log_hashedPiece {i : ℕ} {e : HandlerEvent} (he : ∀ bytes, e ≠ .hashed i bytes) :
    e ∈ (hashedPiece env i h).log ↔ e ∈ h.log := by
  simp [PieceHandler.hashedPiece, he]

omit [DecidableEq Digest] in
/-- What is logged when a piece is written and counted, but for the writes and the hash. -/
lemma mem_log_writtenPiece {i : ℕ} {e : HandlerEvent} (hwrite : ∀ range n, e ≠ .fileWrite range n)
    (hhash : ∀ bytes, e ≠ .hashed i bytes) :
    e ∈ (PieceHandler.writtenPiece env i h).log ↔ e ∈ h.log ∨ e = .validated i := by
  obtain ⟨writes, hlog, hwrites⟩ := log_writtenPiece env i h
  have hnone : e ∉ writes := fun hmem => by
    obtain ⟨range, n, heq⟩ := hwrites e hmem
    exact hwrite range n heq
  rw [hlog]
  simp [hhash, hnone]

/-- A piece with the wrong digest is only hashed. -/
lemma Assembles.hashedPiece (ha : Assembles env blocks h) (i : ℕ) :
    Assembles env blocks (hashedPiece env i h) where
  written_eq := ha.written_eq
  length_eq := ha.length_eq
  image_eq := ha.image_eq
  validated_iff j hj := (mem_log_hashedPiece (by simp)).trans (ha.validated_iff j hj)
  stop_iff := (mem_log_hashedPiece (by simp)).trans ha.stop_iff
  handlers := ha.handlers
  formatted := ha.formatted
  lengths := ha.lengths
  flags := ha.flags
  pending := ha.pending
  consumed := ha.consumed

/-- A block that makes its piece valid has the piece written, counted and, if it is the last one,
the session stopped. -/
lemma Assembles.writtenPiece (ha : Assembles env blocks h) (hreg : Regular env)
    (hnew : blocks d.key = none) (hd : Nominal env d) (hold : ¬ blocks.Valid env d.key.index)
    (hvalid : (blocks.deliver d).Valid env d.key.index) :
    Assembles env (blocks.deliver d) (stopIfDone env (writtenPiece env d.key.index
      (PieceHandler.store d.key d.data h))) := by
  set stored := PieceHandler.store d.key d.data h with hstored
  set written := PieceHandler.writtenPiece env d.key.index stored with hwritten
  set next := blocks.deliver d with hnext
  have hiff : ∀ i, i ≠ d.key.index → (next.Valid env i ↔ blocks.Valid env i) :=
    fun i hi => Blocks.valid_deliver_of_ne hi
  have hframe := writeFrame_writePiece env (blockKeys env d.key.index)
    (PieceHandler.hashedPiece env d.key.index stored)
  have hcounted := countFrame_writtenPiece env d.key.index stored
  have hblock : ∀ key ∈ blockKeys env d.key.index, env.torrent.IsBlock key := by
    intro key hkey
    have hindex := index_of_mem_blockKeys hkey
    exact (TorrentInfo.isBlock_iff (hindex ▸ hd.index_lt)).mpr (hindex.symm ▸ hkey)
  have hlengths : next.HasLengths env := ha.lengths_deliver hd
  have hmapped : PieceMapped env d.key.index :=
    pieceMapped_of_offsetsFit hreg.offsetsFit hd.index_lt
  -- the buffers of the piece hold what is read off the torrent at its blocks
  have hbuffers : ∀ key ∈ blockKeys env d.key.index,
      (stored.receivedPieces key).block = env.torrent.blockBytes (next.byteAt env) key := by
    intro key hkey
    obtain ⟨data, hdata⟩ := Option.isSome_iff_exists.mp (hvalid.1 key hkey)
    rw [hstored, ha.pending_store hnew hd.index_lt hold hkey, ← hnext, hdata, Option.getD_some,
      Blocks.blockBytes_byteAt (hblock key hkey) hdata (hlengths key (hblock key hkey) data hdata)]
  obtain ⟨hformatted, himage⟩ := disk_foldl_writeBlock (next.byteAt env)
    (blockKeys env d.key.index) (h := PieceHandler.hashedPiece env d.key.index stored) hblock
    nodup_blockKeys hreg.blockLen_dvd hmapped ha.handlers ha.formatted hbuffers
  have hcount : written.writtenPieces =
      ((Finset.range env.torrent.numPieces).filter (next.Valid env)).card := by
    rw [card_filter_range_succ hd.index_lt hold hvalid hiff, ← ha.written_eq,
      hcounted.writtenPieces_eq, hframe.writtenPieces_eq]
    rfl
  have hnostop : .stop ∉ written.log := by
    rw [mem_log_writtenPiece (by simp) (by simp), not_or]
    exact ⟨fun hmem => hold (ha.stop_iff.mp hmem d.key.index hd.index_lt), by simp⟩
  have hvalidated : ∀ i < env.torrent.numPieces,
      .validated i ∈ (stopIfDone env written).log ↔ next.Valid env i := by
    intro i hi
    have hstops : .validated i ∈ (stopIfDone env written).log ↔ .validated i ∈ written.log := by
      rw [stopIfDone]
      split_ifs
      · simp
      · rfl
    rw [hstops, mem_log_writtenPiece (by simp) (by simp)]
    change .validated i ∈ h.log ∨ _ ↔ _
    rw [ha.validated_iff i hi, HandlerEvent.validated.injEq]
    by_cases heq : i = d.key.index
    · exact iff_of_true (.inr heq) (heq ▸ hvalid)
    · rw [hiff i heq, or_iff_left heq]
  have hstop : .stop ∈ (stopIfDone env written).log ↔
      ∀ i < env.torrent.numPieces, next.Valid env i := by
    rw [← le_card_filter_range_iff, ← hcount, stopIfDone]
    split_ifs with hdone
    · exact iff_of_true (by simp) (of_decide_eq_true hdone)
    · exact iff_of_false hnostop fun hle => hdone (decide_eq_true hle)
  constructor
  · constructor
    · rw [stopIfDone_writtenPieces, hcount]
    · intro f hf
      rw [stopIfDone_disk, hcounted.disk_eq]
      exact hformatted.length_eq f hf
    · intro f hf o ho
      have hp := position_lt_totalSize hf ho
      rw [stopIfDone_disk, hcounted.disk_eq]
      refine (himage f hf o ho).trans ?_
      by_cases hpiece : env.torrent.position f o / env.torrent.pieceLength = d.key.index
      · rw [if_pos ((exists_covers_iff hd.index_lt hp).mpr hpiece), hpiece, if_pos hvalid]
      · rw [if_neg fun hex => hpiece ((exists_covers_iff hd.index_lt hp).mp hex)]
        refine (ha.image_eq f hf o ho).trans ?_
        by_cases hother : blocks.Valid env (env.torrent.position f o / env.torrent.pieceLength)
        · rw [if_pos hother, if_pos ((hiff _ hpiece).mpr hother), hnext,
            Blocks.byteAt_deliver (env.torrent.div_pieceLength_lt hp) hp rfl hother.1]
        · rw [if_neg hother, if_neg fun hcon => hother ((hiff _ hpiece).mp hcon)]
    · exact hvalidated
    · exact hstop
  · intro f hf
    rw [stopIfDone_fileHandlers, hcounted.fileHandlers_eq, hframe.fileHandlers_eq]
    exact ha.handlers f hf
  · rw [stopIfDone_disk, hcounted.disk_eq]
    exact hformatted
  · exact hlengths
  · intro key
    rw [stopIfDone_receivedPieces, received_writtenPiece]
    exact ha.flags_store hnew key
  · intro i hi hinvalid key hkey
    have hne : i ≠ d.key.index := fun heq => hinvalid (heq ▸ hvalid)
    rw [stopIfDone_receivedPieces, hcounted.receivedPieces_eq,
      writePiece_receivedPieces_of_notMem env (notMem_blockKeys_of_ne hne hkey)]
    exact ha.pending_store hnew hi (fun hbefore => hinvalid ((hiff i hne).mpr hbefore)) hkey
  · intro i hi hafter key hkey
    rw [stopIfDone_receivedPieces, hcounted.receivedPieces_eq]
    by_cases hne : i = d.key.index
    · subst hne
      have hlen : (stored.receivedPieces key).block.length ≤
          env.torrent.mappedSize key.index key.begin blockLen := by
        rw [hbuffers key hkey, TorrentInfo.blockBytes, length_stretch,
          TorrentInfo.mappedSize_eq (hblock key hkey) hreg.blockLen_dvd (hmapped key hkey)]
      rw [block_writePiece nodup_blockKeys
        (h := PieceHandler.hashedPiece env d.key.index stored) (handlersComplete ha.handlers) hkey]
      exact List.drop_eq_nil_of_le hlen
    · rw [writePiece_receivedPieces_of_notMem env (notMem_blockKeys_of_ne hne hkey)]
      exact ha.consumed_store hnew hi ((hiff i hne).mp hafter) hkey

/-- Every delivery for one of the pieces, with the length of a block if it is one, keeps the
invariant. -/
theorem Assembles.receivedBlock (ha : Assembles env blocks h) (hreg : Regular env)
    (hd : Nominal env d) :
    Assembles env (blocks.deliver d) (receivedBlock env d.key d.data h) := by
  have hnone : (h.receivedPieces d.key).received = false → blocks d.key = none := by
    intro hfalse
    rw [ha.flags] at hfalse
    exact Option.not_isSome_iff_eq_none.mp (by simp [hfalse])
  -- a delivery that changes the validity of a piece changes that of its own
  have hcongr : ((blocks.deliver d).Valid env d.key.index ↔ blocks.Valid env d.key.index) →
      ∀ i, (blocks.deliver d).Valid env i ↔ blocks.Valid env i := by
    intro hown i
    by_cases hi : i = d.key.index
    · rw [hi, hown]
    · exact Blocks.valid_deliver_of_ne hi
  apply receivedBlock_cases
  · intro hdup
    rw [ha.flags] at hdup
    rw [Blocks.deliver_of_isSome hdup]
    exact ha
  · intro hfalse hmissing
    have hnew := hnone hfalse
    rw [ha.allReceived_iff hnew] at hmissing
    refine ha.store hnew hd (hcongr (iff_of_false (fun hv => hmissing hv.1) fun hv => ?_))
    exact hmissing (hv.1.deliver d)
  · intro hfalse hall hhash
    have hnew := hnone hfalse
    refine (ha.store hnew hd (hcongr ⟨fun hv => ?_, fun hv => hv.deliver d⟩)).hashedPiece _
    by_contra hold
    rw [ha.storedBytes_pending hnew hd.index_lt hold] at hhash
    exact hhash hv.2
  · intro hfalse hall hhash
    have hnew := hnone hfalse
    have hold : ¬ blocks.Valid env d.key.index := by
      intro hv
      rw [ha.storedBytes_consumed hnew hd.index_lt hv] at hhash
      exact hreg.digest_ne d.key.index hd.index_lt hhash
    rw [ha.storedBytes_pending hnew hd.index_lt hold] at hhash
    exact ha.writtenPiece hreg hnew hd hold ⟨(ha.allReceived_iff hnew).mp hall, hhash⟩

/-- The invariant is not about the entries for peers. -/
lemma Assembles.of_core_eq {h' : PieceHandler} (ha : Assembles env blocks h)
    (hcore : h'.core = h.core) : Assembles env blocks h' := by
  have hwritten : h'.writtenPieces = h.writtenPieces :=
    show h'.core.writtenPieces = h.core.writtenPieces by rw [hcore]
  have hdisk : h'.disk = h.disk :=
    show h'.core.disk = h.core.disk by rw [hcore]
  have hlog : h'.log = h.log :=
    show h'.core.log = h.core.log by rw [hcore]
  have hhandlers : h'.fileHandlers = h.fileHandlers :=
    show h'.core.fileHandlers = h.core.fileHandlers by rw [hcore]
  have hreceived := receivedPieces_of_core_eq hcore
  constructor
  · exact ⟨by rw [hwritten, ha.written_eq], by rw [hdisk]; exact ha.length_eq,
      by rw [hdisk]; exact ha.image_eq, by rw [hlog]; exact ha.validated_iff,
      by rw [hlog]; exact ha.stop_iff⟩
  · intro f hf
    rw [hhandlers]
    exact ha.handlers f hf
  · rw [hdisk]
    exact ha.formatted
  · exact ha.lengths
  · rw [hreceived]
    exact ha.flags
  · rw [hreceived]
    exact ha.pending
  · rw [hreceived]
    exact ha.consumed

end Step

end PieceHandler

/-! ### Authentic digests -/

/-- The contents of the pieces, and nothing else, have the digests of the pieces. -/
def Authentic {Digest : Type*} (env : Env Digest) (content : ℕ → UInt8) : Prop :=
  ∀ i < env.torrent.numPieces, ∀ bytes,
    env.sha1 bytes = env.torrent.hashForPiece i ↔ bytes = env.torrent.pieceBytes content i

namespace Blocks

variable {Digest : Type*} {env : Env Digest} {content : ℕ → UInt8} {blocks : Blocks} {i : ℕ}

/-- The bytes of a whole piece are those that are read off the torrent at the piece. -/
lemma bytesOf_eq_pieceBytes (hlen : blocks.HasLengths env) (hi : i < env.torrent.numPieces)
    (hwhole : blocks.Whole env i) :
    blocks.bytesOf env i = env.torrent.pieceBytes (blocks.byteAt env) i := by
  rw [← PieceHandler.flatMap_blockBytes env, bytesOf]
  simp only [List.flatMap]
  congr 1
  refine List.map_congr_left fun key hkey => ?_
  have hindex := PieceHandler.index_of_mem_blockKeys hkey
  have hblock : env.torrent.IsBlock key :=
    (TorrentInfo.isBlock_iff (hindex ▸ hi)).mpr (hindex.symm ▸ hkey)
  obtain ⟨data, hdata⟩ := Option.isSome_iff_exists.mp (hwhole key hkey)
  rw [blockBytes_byteAt hblock hdata (hlen key hblock data hdata), hdata, Option.getD_some]

/-- The bytes of a valid piece are those of the contents. -/
lemma byteAt_of_valid (hauth : Authentic env content) (hlen : blocks.HasLengths env)
    (hi : i < env.torrent.numPieces) (hvalid : blocks.Valid env i) {o : ℕ}
    (ho : o < env.torrent.pieceSize i) :
    blocks.byteAt env (i * env.torrent.pieceLength + o) =
      content (i * env.torrent.pieceLength + o) := by
  have hbytes := (hauth i hi _).mp hvalid.2
  rw [bytesOf_eq_pieceBytes hlen hi hvalid.1] at hbytes
  have hat := congrArg (·[o]?) hbytes
  unfold TorrentInfo.pieceBytes at hat
  rw [getElem?_stretch _ _ ho, getElem?_stretch _ _ ho] at hat
  exact Option.some.inj hat

/-- The true blocks are valid together. -/
lemma valid_of_blocks
    (hhash : env.torrent.hashForPiece i = env.sha1 (env.torrent.pieceBytes content i))
    (hall : ∀ key ∈ PieceHandler.blockKeys env i,
      blocks key = some (env.torrent.blockBytes content key)) : blocks.Valid env i := by
  refine ⟨fun key hkey => by rw [hall key hkey]; rfl, ?_⟩
  rw [hhash, ← PieceHandler.flatMap_blockBytes env, bytesOf]
  simp only [List.flatMap]
  congr 2
  exact List.map_congr_left fun key hkey => by rw [hall key hkey, Option.getD_some]

/-- A piece is valid exactly when all of its blocks are the true ones. -/
theorem valid_iff_blocks (hauth : Authentic env content) (hlen : blocks.HasLengths env)
    (hi : i < env.torrent.numPieces) :
    blocks.Valid env i ↔ ∀ key ∈ PieceHandler.blockKeys env i,
      blocks key = some (env.torrent.blockBytes content key) := by
  constructor
  · intro hvalid key hkey
    have hindex := PieceHandler.index_of_mem_blockKeys hkey
    subst hindex
    have hblock := (TorrentInfo.isBlock_iff hi).mpr hkey
    obtain ⟨data, hdata⟩ := Option.isSome_iff_exists.mp (hvalid.1 key hkey)
    rw [hdata, ← blockBytes_byteAt hblock hdata (hlen key hblock data hdata)]
    congr 1
    unfold TorrentInfo.blockBytes
    refine List.ext_getElem? fun j => ?_
    by_cases hj : j < min blockLen (env.torrent.pieceSize key.index - key.begin)
    · rw [getElem?_stretch _ _ hj, getElem?_stretch _ _ hj, Nat.add_assoc,
        byteAt_of_valid hauth hlen hi hvalid (by omega)]
    · rw [List.getElem?_eq_none (by rw [length_stretch]; omega),
        List.getElem?_eq_none (by rw [length_stretch]; omega)]
  · exact valid_of_blocks ((hauth i hi _).mpr rfl).symm

/-- The byte of a position whose block is the true one. -/
lemma byteAt_of_block {p : ℕ} (hp : p < env.torrent.totalSize)
    (hblock : ∀ key ∈ PieceHandler.blockKeys env (p / env.torrent.pieceLength),
      blocks key = some (env.torrent.blockBytes content key)) :
    blocks.byteAt env p = content p := by
  have hi := env.torrent.div_pieceLength_lt hp
  obtain ⟨hle, hlt⟩ := (env.torrent.div_pieceLength_eq_iff hi hp).mp rfl
  have hquot := Nat.div_add_mod p env.torrent.pieceLength
  rw [Nat.mul_comm] at hquot
  have hrem := Nat.div_add_mod (p % env.torrent.pieceLength) blockLen
  rw [Nat.mul_comm] at hrem
  have hmod := Nat.mod_lt (p % env.torrent.pieceLength) blockLen_pos
  unfold byteAt
  dsimp only
  rw [hblock _ (block_mem_blockKeys hi hp rfl), Option.getD_some, List.getD_eq_getElem?_getD,
    TorrentInfo.blockBytes, getElem?_stretch _ _ (by dsimp only; omega), Option.getD_some]
  congr 1
  dsimp only
  omega

/-- Blocks of a piece for which only true blocks are delivered. -/
lemma kept_of_true {ds : List Delivery}
    (htrue : ∀ d ∈ ds, d.key ∈ PieceHandler.blockKeys env i →
      d.data = env.torrent.blockBytes content d.key) {key : PieceReceivedKey}
    (hkey : key ∈ PieceHandler.blockKeys env i) :
    run deliver (fun _ => none) ds key =
      if key ∈ ds.map Delivery.key then some (env.torrent.blockBytes content key) else none := by
  rw [run_deliver_apply]
  cases hfind : ds.find? fun d => d.key = key with
  | none =>
    have hnone : key ∉ ds.map Delivery.key := by
      rw [List.find?_eq_none] at hfind
      intro hmem
      obtain ⟨d, hd, hdkey⟩ := List.mem_map.mp hmem
      exact hfind d hd (by simpa using hdkey)
    rw [if_neg hnone]
    rfl
  | some d =>
    obtain rfl : d.key = key := by simpa using List.find?_some hfind
    have hmem := List.mem_of_find?_eq_some hfind
    rw [if_pos (List.mem_map_of_mem hmem), Option.map_some, htrue d hmem hkey]

/-- A piece for which only true blocks are delivered is valid when all of them were. -/
lemma valid_iff_complete {ds : List Delivery}
    (hhash : env.torrent.hashForPiece i = env.sha1 (env.torrent.pieceBytes content i))
    (htrue : ∀ d ∈ ds, d.key ∈ PieceHandler.blockKeys env i →
      d.data = env.torrent.blockBytes content d.key) :
    Blocks.Valid env (run deliver (fun _ => none) ds) i ↔
      PieceHandler.Complete env (ds.map Delivery.key) i := by
  constructor
  · rintro ⟨hwhole, -⟩ key hkey
    by_contra hnone
    have hsome := hwhole key hkey
    rw [kept_of_true htrue hkey, if_neg hnone] at hsome
    exact Bool.noConfusion hsome
  · intro hcomplete
    refine valid_of_blocks hhash fun key hkey => ?_
    rw [kept_of_true htrue hkey, if_pos (hcomplete key hkey)]

end Blocks

namespace PieceHandler

variable {Digest : Type*} [DecidableEq Digest] {env : Env Digest} {content : ℕ → UInt8}
  {blocks : Blocks} {h : PieceHandler}

/-- Every byte of the files is that of the contents or as the constructor left it. -/
lemma Assembles.image_authentic (ha : Assembles env blocks h) (hauth : Authentic env content)
    {f o : ℕ} (hf : f < env.torrent.numFiles) (ho : o < env.torrent.fileSize f) :
    h.disk.image f o =
      if blocks.Valid env (env.torrent.position f o / env.torrent.pieceLength) then
        some (content (env.torrent.position f o))
      else (Disk.create env.torrent).image f o := by
  have hp := position_lt_totalSize hf ho
  have hi := env.torrent.div_pieceLength_lt hp
  rw [ha.image_eq f hf o ho]
  refine ite_congr rfl (fun hvalid => ?_) fun _ => rfl
  obtain ⟨hle, hlt⟩ := (env.torrent.div_pieceLength_eq_iff hi hp).mp rfl
  have hbyte := Blocks.byteAt_of_valid hauth ha.lengths hi hvalid
    (o := env.torrent.position f o -
      env.torrent.position f o / env.torrent.pieceLength * env.torrent.pieceLength) (by omega)
  rw [Nat.add_sub_cancel' hle] at hbyte
  rw [hbyte]

end PieceHandler

end Tent
