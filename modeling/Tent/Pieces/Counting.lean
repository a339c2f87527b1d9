import Mathlib.Algebra.Order.BigOperators.Group.List
import Mathlib.Data.Finset.Card
import Mathlib.Data.Finset.Range
import Tent.Foundation.Transition
import Tent.Pieces.WriteIfValid

/-!
# Counting the pieces

`written_pieces_` is raised whenever `write_if_valid` returns true, and nothing records which piece
it was for.  A block off the grid of a finished piece runs `write_if_valid` again; what keeps the
piece from being counted a second time is that the first write consumed stored bytes, so that the
hasher now sees a shorter string.

This works as long as there was a byte to consume.  The digest of the empty string as a piece hash
is the exception: empty blocks validate such a piece again and again
(`counts_once_iff_no_empty_digest`).
-/

set_option autoImplicit false

namespace Tent

open Bytes Transition

namespace PieceHandler

/-- The pieces for which `write_if_valid` returned true, in order and with repetitions. -/
def validatedIndices (log : List HandlerEvent) : List ℕ :=
  log.filterMap fun
    | .validated i => some i
    | _ => none

/-- The log names the pieces found valid. -/
lemma mem_validatedIndices {log : List HandlerEvent} {i : ℕ} :
    i ∈ validatedIndices log ↔ .validated i ∈ log := by
  unfold validatedIndices
  rw [List.mem_filterMap]
  constructor
  · rintro ⟨e, he, hi⟩
    cases e with
    | validated j =>
      obtain rfl : j = i := by simpa using hi
      exact he
    | _ => simp at hi
  · exact fun h => ⟨_, h, rfl⟩

/-- Two logs are searched one after the other. -/
@[simp] lemma validatedIndices_append (log₁ log₂ : List HandlerEvent) :
    validatedIndices (log₁ ++ log₂) = validatedIndices log₁ ++ validatedIndices log₂ :=
  List.filterMap_append

/-- File writes are not verdicts. -/
lemma validatedIndices_fileWrites {writes : List HandlerEvent}
    (h : ∀ e ∈ writes, ∃ range available, e = .fileWrite range available) :
    validatedIndices writes = [] := by
  unfold validatedIndices
  rw [List.filterMap_eq_nil_iff]
  intro e he
  obtain ⟨range, available, rfl⟩ := h e he
  rfl

variable {Digest : Type*} (env : Env Digest)

/-- No two different strings given to the hasher have the same digest. -/
def NoCollision (log : List HandlerEvent) : Prop :=
  ∀ i x j y, .hashed i x ∈ log → .hashed j y ∈ log → env.sha1 x = env.sha1 y → x = y

/-- `session::stop` is only called after every piece was found valid. -/
def StopJustified (pre : List HandlerEvent) : HandlerEvent → Prop
  | .stop => ∀ i < env.torrent.numPieces, .validated i ∈ pre
  | _ => True

/-- The invariant behind the count: a piece found valid has fewer stored bytes left than the string
that was hashed then. -/
structure Counted (h : PieceHandler) : Prop where
  /-- Every file has a handler. -/
  handlers : HandlersComplete env h
  /-- The counter is the number of verdicts. -/
  written_eq : h.writtenPieces = (validatedIndices h.log).length
  /-- No piece was found valid twice. -/
  nodup : (validatedIndices h.log).Nodup
  /-- Only pieces of the torrent were found valid. -/
  inRange : ∀ i ∈ validatedIndices h.log, i < env.torrent.numPieces
  /-- A valid piece is complete and its stored bytes are partly consumed. -/
  consumed : ∀ i ∈ validatedIndices h.log, AllReceived env i h ∧
    ∃ bytes, .hashed i bytes ∈ h.log ∧ env.sha1 bytes = env.torrent.hashForPiece i ∧
      (storedBytes env i h).length < bytes.length
  /-- The session was stopped only after every piece was found valid. -/
  stops : Each (StopJustified env) h.log

variable {env}

/-- Distinct pieces of the torrent, as many as there are, are all of them. -/
lemma mem_of_numPieces_le_length {l : List ℕ} (hnodup : l.Nodup)
    (hrange : ∀ i ∈ l, i < env.torrent.numPieces) (hlen : env.torrent.numPieces ≤ l.length)
    {i : ℕ} (hi : i < env.torrent.numPieces) : i ∈ l := by
  have hsub : l.toFinset ⊆ Finset.range env.torrent.numPieces := fun j hj =>
    Finset.mem_range.mpr (hrange j (List.mem_toFinset.mp hj))
  have hcard : (Finset.range env.torrent.numPieces).card ≤ l.toFinset.card := by
    rw [Finset.card_range, List.toFinset_card_of_nodup hnodup]
    exact hlen
  have heq := Finset.eq_of_subset_of_card_le hsub hcard
  exact List.mem_toFinset.mp (heq ▸ Finset.mem_range.mpr hi)

/-- Storing a block that does not belong to a piece leaves the bytes of the piece. -/
lemma storedBytes_store_of_notMem {i : ℕ} {key : PieceReceivedKey} {data : ByteString}
    {h : PieceHandler} (hkey : key ∉ blockKeys env i) :
    storedBytes env i (store key data h) = storedBytes env i h := by
  simp only [storedBytes, List.flatMap]
  congr 1
  refine List.map_congr_left fun k hk => ?_
  have hne : k ≠ key := fun heq => hkey (heq ▸ hk)
  simp [store, hne]

/-- Storing a block keeps complete pieces complete. -/
lemma AllReceived.store {i : ℕ} {h : PieceHandler} (hall : AllReceived env i h)
    (key : PieceReceivedKey) (data : ByteString) : AllReceived env i (store key data h) := by
  intro k hk
  by_cases hne : k = key
  · simp [PieceHandler.store, hne]
  · simpa [PieceHandler.store, hne] using hall k hk

/-- A block that was not received is no block of a complete piece. -/
lemma notMem_blockKeys_of_allReceived {i : ℕ} {h : PieceHandler} (hall : AllReceived env i h)
    {key : PieceReceivedKey} (hrec : (h.receivedPieces key).received = false) :
    key ∉ blockKeys env i := by
  intro hmem
  rw [hall key hmem] at hrec
  exact Bool.noConfusion hrec

/-- Storing a new block keeps the invariant. -/
lemma Counted.store {h : PieceHandler} (hc : Counted env h) {key : PieceReceivedKey}
    (data : ByteString) (hrec : (h.receivedPieces key).received = false) :
    Counted env (store key data h) where
  handlers := hc.handlers
  written_eq := hc.written_eq
  nodup := hc.nodup
  inRange := hc.inRange
  consumed i hi := by
    obtain ⟨hall, bytes, hmem, hhash, hlt⟩ := hc.consumed i hi
    refine ⟨hall.store key data, bytes, hmem, hhash, ?_⟩
    rwa [storedBytes_store_of_notMem (notMem_blockKeys_of_allReceived hall hrec)]
  stops := hc.stops

/-- A failed check keeps the invariant. -/
lemma Counted.hashedPiece {h : PieceHandler} (hc : Counted env h) (index : ℕ) :
    Counted env (hashedPiece env index h) := by
  have hsame : validatedIndices (PieceHandler.hashedPiece env index h).log =
      validatedIndices h.log := by
    simp [PieceHandler.hashedPiece, validatedIndices]
  constructor
  · exact hc.handlers
  · rw [hsame]
    exact hc.written_eq
  · rw [hsame]
    exact hc.nodup
  · rw [hsame]
    exact hc.inRange
  · rw [hsame]
    intro i hi
    obtain ⟨hall, bytes, hmem, hhash, hlt⟩ := hc.consumed i hi
    exact ⟨hall, bytes, List.mem_append_left _ hmem, hhash, hlt⟩
  · exact each_concat.mpr ⟨hc.stops, trivial⟩

/-- The write of a piece whose stored bytes are not all empty leaves fewer of them. -/
lemma length_storedBytes_writtenPiece_lt {index : ℕ} (hi : index < env.torrent.numPieces)
    {h : PieceHandler} (hh : HandlersComplete env h) (hne : storedBytes env index h ≠ []) :
    (storedBytes env index (writtenPiece env index h)).length <
      (storedBytes env index h).length := by
  set mapped := fun key : PieceReceivedKey =>
    env.torrent.mappedSize key.index key.begin blockLen with hmapped
  have hmapped_pos : ∀ key ∈ blockKeys env index, 0 < mapped key := by
    intro key hkey
    exact env.torrent.mappedSize_pos (target_lt_totalSize hi hkey) blockLen_pos
  have hblock : ∀ key ∈ blockKeys env index,
      ((writtenPiece env index h).receivedPieces key).block =
        (h.receivedPieces key).block.drop (mapped key) := by
    intro key hkey
    rw [(countFrame_writtenPiece env index h).receivedPieces_eq]
    exact block_writePiece (h := PieceHandler.hashedPiece env index h) nodup_blockKeys hh hkey
  obtain ⟨key, hkey, hfull⟩ : ∃ key ∈ blockKeys env index, (h.receivedPieces key).block ≠ [] := by
    by_contra hcon
    push Not at hcon
    exact hne (List.flatMap_eq_nil_iff.mpr hcon)
  unfold storedBytes
  rw [List.length_flatMap, List.length_flatMap]
  apply List.sum_lt_sum
  · intro k hk
    rw [hblock k hk, List.length_drop]
    exact Nat.sub_le _ _
  · refine ⟨key, hkey, ?_⟩
    have hlen := List.length_pos_of_ne_nil hfull
    have hpos := hmapped_pos key hkey
    rw [hblock key hkey, List.length_drop]
    omega

/-- The write of one piece leaves the stored bytes of the others. -/
lemma storedBytes_writtenPiece_of_ne {i index : ℕ} (hne : i ≠ index) (h : PieceHandler) :
    storedBytes env i (writtenPiece env index h) = storedBytes env i h := by
  simp only [storedBytes, List.flatMap]
  congr 1
  refine List.map_congr_left fun k hk => ?_
  have hnot : k ∉ blockKeys env index := fun hk' =>
    hne ((index_of_mem_blockKeys hk).symm.trans (index_of_mem_blockKeys hk'))
  rw [(countFrame_writtenPiece env index h).receivedPieces_eq,
    writePiece_receivedPieces_of_notMem env (h := PieceHandler.hashedPiece env index h) hnot]
  rfl

variable (env) in
/-- The write of a piece adds its verdict. -/
lemma validatedIndices_writtenPiece (index : ℕ) (h : PieceHandler) :
    validatedIndices (writtenPiece env index h).log = validatedIndices h.log ++ [index] := by
  obtain ⟨writes, hlog, hwrites⟩ := log_writtenPiece env index h
  rw [hlog, ← List.singleton_append, ← List.append_assoc]
  simp only [validatedIndices_append, validatedIndices_fileWrites hwrites, List.append_nil]
  simp [validatedIndices]

/-- The write of a piece that was not found valid before keeps the invariant, provided its bytes
are not empty. -/
lemma Counted.writtenPiece {h : PieceHandler} (hc : Counted env h) {index : ℕ}
    (hi : index < env.torrent.numPieces) (hnew : index ∉ validatedIndices h.log)
    (hall : AllReceived env index h)
    (hhash : env.sha1 (storedBytes env index h) = env.torrent.hashForPiece index)
    (hne : storedBytes env index h ≠ []) : Counted env (writtenPiece env index h) := by
  have hframe := writeFrame_writePiece env (blockKeys env index)
    (PieceHandler.hashedPiece env index h)
  have hcount := countFrame_writtenPiece env index h
  have hval := validatedIndices_writtenPiece env index h
  obtain ⟨writes, hlog, hwrites⟩ := log_writtenPiece env index h
  have hallKeep : ∀ i, AllReceived env i h →
      AllReceived env i (PieceHandler.writtenPiece env index h) := fun i hi' k hk => by
    rw [received_writtenPiece]
    exact hi' k hk
  constructor
  · intro f hf
    rw [hcount.fileHandlers_eq, hframe.fileHandlers_eq]
    exact hc.handlers f hf
  · rw [hval, List.length_append, ← hc.written_eq, hcount.writtenPieces_eq,
      hframe.writtenPieces_eq]
    rfl
  · rw [hval]
    exact hc.nodup.append (List.nodup_singleton index)
      (List.disjoint_singleton.mpr hnew)
  · rw [hval]
    intro i hmem
    rcases List.mem_append.mp hmem with hmem | hmem
    · exact hc.inRange i hmem
    · rwa [List.mem_singleton.mp hmem]
  · rw [hval]
    intro i hmem
    rcases List.mem_append.mp hmem with hmem | hmem
    · obtain ⟨halli, bytes, hbytes, hsha, hlt⟩ := hc.consumed i hmem
      have hneq : i ≠ index := fun heq => hnew (heq ▸ hmem)
      refine ⟨hallKeep i halli, bytes, ?_, hsha, ?_⟩
      · rw [hlog]
        simp [hbytes]
      · rwa [storedBytes_writtenPiece_of_ne hneq]
    · obtain rfl := List.mem_singleton.mp hmem
      refine ⟨hallKeep i hall, storedBytes env i h, ?_, hhash,
        length_storedBytes_writtenPiece_lt hi hc.handlers hne⟩
      rw [hlog]
      simp
  · rw [hlog, ← List.singleton_append, ← List.append_assoc, each_concat]
    refine ⟨?_, trivial⟩
    rw [each_append_of_forall, each_concat]
    · exact ⟨hc.stops, trivial⟩
    · intro pre _ e he
      obtain ⟨range, available, rfl⟩ := hwrites e he
      trivial

/-- Stopping the session when all pieces are counted keeps the invariant. -/
lemma Counted.stopIfDone {h : PieceHandler} (hc : Counted env h) :
    Counted env (stopIfDone env h) := by
  rw [PieceHandler.stopIfDone]
  split_ifs with hdone
  · have hsame : validatedIndices (h.log ++ [HandlerEvent.stop]) = validatedIndices h.log := by
      simp [validatedIndices]
    have hle : env.torrent.numPieces ≤ (validatedIndices h.log).length := by
      rw [← hc.written_eq]
      exact of_decide_eq_true hdone
    constructor
    · exact hc.handlers
    · rw [hsame]
      exact hc.written_eq
    · rw [hsame]
      exact hc.nodup
    · rw [hsame]
      exact hc.inRange
    · rw [hsame]
      intro i hi
      obtain ⟨hall, bytes, hmem, hhash, hlt⟩ := hc.consumed i hi
      exact ⟨hall, bytes, List.mem_append_left _ hmem, hhash, hlt⟩
    · refine each_concat.mpr ⟨hc.stops, fun i hi => ?_⟩
      exact mem_validatedIndices.mp (mem_of_numPieces_le_length hc.nodup hc.inRange hle hi)
  · exact hc

variable [DecidableEq Digest]

variable (env) in
/-- The log of a call extends the log before it. -/
lemma log_prefix_receivedBlock (key : PieceReceivedKey) (data : ByteString) (h : PieceHandler) :
    h.log <+: (receivedBlock env key data h).log := by
  apply receivedBlock_cases (P := fun h' => h.log <+: h'.log)
  · exact fun _ => List.prefix_rfl
  · exact fun _ _ => List.prefix_rfl
  · exact fun _ _ _ => List.prefix_append _ _
  · intro _ _ _
    obtain ⟨writes, hlog, -⟩ := log_writtenPiece env key.index (store key data h)
    have hpre : h.log <+: (PieceHandler.writtenPiece env key.index (store key data h)).log := by
      rw [hlog, List.append_assoc]
      exact List.prefix_append _ _
    exact hpre.trans (log_prefix_stopIfDone env _)

/-- A delivered block keeps the invariant, as long as no strings given to the hasher collide and no
piece has the digest of the empty string. -/
lemma Counted.receivedBlock {h : PieceHandler} (hc : Counted env h)
    (hempty : ∀ i < env.torrent.numPieces, env.torrent.hashForPiece i ≠ env.sha1 [])
    {key : PieceReceivedKey} (hi : key.index < env.torrent.numPieces) (data : ByteString)
    (hcol : NoCollision env (receivedBlock env key data h).log) :
    Counted env (receivedBlock env key data h) := by
  revert hcol
  apply receivedBlock_cases (P := fun h' => NoCollision env h'.log → Counted env h')
  · exact fun _ _ => hc
  · exact fun hrec _ _ => hc.store data hrec
  · exact fun hrec _ _ _ => (hc.store data hrec).hashedPiece key.index
  · intro hrec hall hhash hcol
    have hstored := hc.store data hrec
    have hne : storedBytes env key.index (PieceHandler.store key data h) ≠ [] := by
      intro hnil
      rw [hnil] at hhash
      exact hempty key.index hi hhash.symm
    refine (hstored.writtenPiece hi ?_ hall hhash hne).stopIfDone
    -- the bytes left of a piece found valid before are shorter than those hashed then
    intro hold
    obtain ⟨-, bytes, hmem, hsha, hlt⟩ := hstored.consumed key.index hold
    obtain ⟨writes, hlog, -⟩ := log_writtenPiece env key.index
      (PieceHandler.store key data h)
    have hmono := (log_prefix_stopIfDone env (PieceHandler.writtenPiece env key.index
      (PieceHandler.store key data h))).subset
    have heq : bytes = storedBytes env key.index (PieceHandler.store key data h) := by
      refine hcol key.index bytes key.index _ (hmono ?_) (hmono ?_) (hsha.trans hhash.symm)
      · rw [hlog]
        simp [hmem]
      · rw [hlog]
        simp
    rw [heq] at hlt
    exact Nat.lt_irrefl _ hlt

/-! ### Empty blocks -/

/-- Nothing but the empty string was stored or hashed. -/
structure Blank (h : PieceHandler) : Prop where
  /-- All stored blocks are empty. -/
  blocks : ∀ key, (h.receivedPieces key).block = []
  /-- All hashed strings are empty. -/
  hashes : ∀ i bytes, .hashed i bytes ∈ h.log → bytes = []

variable (env) in
omit [DecidableEq Digest] in
/-- The stored bytes of a piece are empty when all stored blocks are. -/
lemma Blank.storedBytes_eq {h : PieceHandler} (hb : Blank h) (i : ℕ) :
    storedBytes env i h = [] :=
  List.flatMap_eq_nil_iff.mpr fun key _ => hb.blocks key

/-- Storing an empty block stores nothing. -/
lemma Blank.store {h : PieceHandler} (hb : Blank h) (key : PieceReceivedKey) :
    Blank (PieceHandler.store key [] h) where
  blocks k := by
    by_cases hk : k = key
    · simp [PieceHandler.store, hk, hb.blocks key]
    · simp [PieceHandler.store, hk, hb.blocks k]
  hashes := hb.hashes

omit [DecidableEq Digest] in
/-- Writing empty blocks leaves them empty. -/
lemma Blank.foldl_writeSlice {key : PieceReceivedKey} {h : PieceHandler} (hb : ∀ k,
    (h.receivedPieces k).block = []) (slices : List FileSlice) (k : PieceReceivedKey) :
    ((slices.foldl (writeSlice env key) h).receivedPieces k).block = [] := by
  induction slices generalizing h with
  | nil => exact hb k
  | cons s slices ih =>
    refine ih fun j => ?_
    unfold writeSlice
    split
    · by_cases hj : j = key
      · simp [hj, hb key]
      · simp [hj, hb j]
    · exact hb j

variable (env) in
omit [DecidableEq Digest] in
/-- Hashing and writing empty blocks hashes the empty string and leaves the blocks empty. -/
lemma Blank.writtenPiece {h : PieceHandler} (hb : Blank h) (index : ℕ) :
    Blank (PieceHandler.writtenPiece env index h) where
  blocks k := by
    have hfold : ∀ (keys : List PieceReceivedKey) (g : PieceHandler),
        (∀ j, (g.receivedPieces j).block = []) →
          ∀ j, ((keys.foldl (writeBlock env) g).receivedPieces j).block = [] := by
      intro keys
      induction keys with
      | nil => exact fun g hg => hg
      | cons key keys ih =>
        exact fun g hg => ih _ fun j => Blank.foldl_writeSlice hg _ j
    rw [(countFrame_writtenPiece env index h).receivedPieces_eq]
    exact hfold (blockKeys env index) (PieceHandler.hashedPiece env index h) hb.blocks k
  hashes i bytes hmem := by
    obtain ⟨writes, hlog, hwrites⟩ := log_writtenPiece env index h
    rw [hlog, hb.storedBytes_eq] at hmem
    simp only [List.append_assoc, List.mem_append, List.mem_cons, HandlerEvent.hashed.injEq,
      reduceCtorEq, List.not_mem_nil, or_false] at hmem
    rcases hmem with hmem | ⟨-, rfl⟩ | hmem
    · exact hb.hashes i bytes hmem
    · rfl
    · obtain ⟨range, available, heq⟩ := hwrites _ hmem
      exact absurd heq (by simp)

variable (env) in
/-- Delivering an empty block stores nothing and hashes only the empty string. -/
lemma Blank.receivedBlock {h : PieceHandler} (hb : Blank h) (key : PieceReceivedKey) :
    Blank (PieceHandler.receivedBlock env key [] h) := by
  apply receivedBlock_cases (P := Blank)
  · exact fun _ => hb
  · exact fun _ _ => hb.store key
  · intro _ _ _
    refine ⟨(hb.store key).blocks, fun i bytes hmem => ?_⟩
    rw [PieceHandler.hashedPiece, (hb.store key).storedBytes_eq] at hmem
    rcases List.mem_append.mp hmem with hmem | hmem
    · exact (hb.store key).hashes i bytes hmem
    · simp only [List.mem_singleton, HandlerEvent.hashed.injEq] at hmem
      exact hmem.2
  · intro _ _ _
    have hw := (hb.store key).writtenPiece env key.index
    refine ⟨fun k => by rw [stopIfDone_receivedPieces]; exact hw.blocks k, fun i bytes hmem => ?_⟩
    obtain ⟨stops, hlog, hstops⟩ := log_stopIfDone env
      (PieceHandler.writtenPiece env key.index (PieceHandler.store key [] h))
    rw [hlog] at hmem
    rcases List.mem_append.mp hmem with hmem | hmem
    · exact hw.hashes i bytes hmem
    · cases hstops _ hmem

end PieceHandler

end Tent
