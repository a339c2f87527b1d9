import Tent.Pieces.RequestQueues

/-!
# Decoding a bitfield

The loop of `have` counts bytes, walks through the bits of each from the most significant one down,
and announces the index that it computes from both.  In terms of the whole bitfield this is bit `k`
of the string, counted from the front (`bitfieldIndices_eq`), as long as the index fits a
`uint32_t`.

A piece that is announced already is skipped, so the pieces of a bitfield are entered as one list of
new pieces, whatever was known before (`foldl_haveIndex_haveMap`, `foldl_haveIndex_requestMap`).
-/

set_option autoImplicit false

namespace Tent

open Bytes

/-! ### The bits of a string -/

/-- Bit `k` of a string, counted from the front, the most significant bit of each byte first. -/
def bitAt (b : ByteString) (k : ℕ) : Bool := (b.getD (k / 8) 0).toNat.testBit (7 - k % 8)

/-- The positions of the bits that are set. -/
def setBits (b : ByteString) : List ℕ := (List.range (8 * b.length)).filter (bitAt b)

/-- A set bit lies in the string. -/
lemma mem_setBits {b : ByteString} {k : ℕ} : k ∈ setBits b ↔ bitAt b k = true := by
  refine ⟨fun hk => (List.mem_filter.mp hk).2, fun hk => ?_⟩
  refine List.mem_filter.mpr ⟨List.mem_range.mpr ?_, hk⟩
  by_contra hle
  have hout : b.getD (k / 8) 0 = 0 := List.getD_eq_default _ _ (by omega)
  rw [bitAt, hout] at hk
  simp at hk

/-- No position is listed twice. -/
lemma nodup_setBits (b : ByteString) : (setBits b).Nodup := List.nodup_range.filter _

/-- The bits of a string are those of its first byte and those of the rest. -/
lemma setBits_cons (x : UInt8) (rest : ByteString) :
    setBits (x :: rest) =
      ((List.range 8).filter fun j => x.toNat.testBit (7 - j)) ++
        (setBits rest).map fun k => 8 + k := by
  have hlength : 8 * (x :: rest).length = 8 + 8 * rest.length := by
    rw [List.length_cons]
    omega
  have hrest : ∀ k, bitAt (x :: rest) (8 + k) = bitAt rest k := by
    intro k
    have hdiv : (8 + k) / 8 = k / 8 + 1 := by omega
    have hmod : (8 + k) % 8 = k % 8 := by omega
    rw [bitAt, hdiv, hmod, List.getD_cons_succ]
    rfl
  rw [setBits, hlength, List.range_add, List.filter_append, List.filter_map, setBits]
  refine congrArg₂ (· ++ ·) ?_ (congrArg _ (List.filter_congr fun k _ => hrest k))
  refine List.filter_congr fun j hj => ?_
  have hlt := List.mem_range.mp hj
  rw [bitAt, Nat.div_eq_of_lt hlt, Nat.mod_eq_of_lt hlt, List.getD_cons_zero]

/-- The indices that the loop of `have` computes, from a byte counter on. -/
lemma bitfieldIndices_eq (b : ByteString) (indexOffset : ℕ) :
    bitfieldIndices b indexOffset =
      (setBits b).map fun k => (indexOffset * 8 + k) % uint32Range := by
  induction b generalizing indexOffset with
  | nil => rfl
  | cons x rest ih =>
    rw [bitfieldIndices, ih, setBits_cons, List.map_append, List.map_map, bitIndices]
    congr 1
    refine List.map_congr_left fun k _ => ?_
    rw [Function.comp_apply]
    congr 1
    omega

/-- The indices are the positions of the set bits if these are small enough. -/
lemma bitfieldIndices_eq_setBits {b : ByteString} (hb : ∀ k, bitAt b k = true → k < uint32Range) :
    bitfieldIndices b 0 = setBits b := by
  rw [bitfieldIndices_eq]
  refine (List.map_congr_left fun k hk => ?_).trans (List.map_id _)
  rw [Nat.zero_mul, Nat.zero_add]
  exact Nat.mod_eq_of_lt (hb k (mem_setBits.mp hk))

namespace PieceHandler

variable {Digest : Type*} {env : Env Digest} {peerId : PeerId} {h : PieceHandler}

/-! ### Announcing a list of pieces -/

/-- The pieces of the list that were not announced before. -/
def newIndices (peerId : PeerId) (indices : List ℕ) (h : PieceHandler) : List ℕ :=
  indices.filter fun index => index ∉ h.haveMap peerId

/-- Announcing a piece and then others that are different from it. -/
lemma newIndices_announce {index : ℕ} {indices : List ℕ} (hindex : index ∉ indices) :
    newIndices peerId indices (addToQueue env peerId index (announce peerId index h)) =
      newIndices peerId indices h := by
  refine List.filter_congr fun k hk => ?_
  have hne : k ≠ index := fun heq => hindex (heq ▸ hk)
  rw [addToQueue_haveMap, announce_haveMap]
  simp [hne]

/-- The announcements after a list of different pieces. -/
lemma foldl_haveIndex_haveMap {indices : List ℕ} (hnodup : indices.Nodup) (h : PieceHandler) :
    (indices.foldl (fun h index => haveIndex env peerId index h) h).haveMap peerId =
      h.haveMap peerId ++ newIndices peerId indices h := by
  induction indices generalizing h with
  | nil => simp [newIndices]
  | cons index indices ih =>
    obtain ⟨hindex, hrest⟩ := List.nodup_cons.mp hnodup
    rw [List.foldl_cons, ih hrest, haveIndex_eq]
    split_ifs with hmem
    · simp [newIndices, hmem]
    · rw [newIndices_announce hindex, addToQueue_haveMap, announce_haveMap]
      simp [newIndices, hmem]

/-- The queue after a list of different pieces. -/
lemma foldl_haveIndex_requestMap {indices : List ℕ} (hnodup : indices.Nodup) (h : PieceHandler) :
    (indices.foldl (fun h index => haveIndex env peerId index h) h).requestMap peerId =
      h.requestMap peerId ++
        (newIndices peerId indices h).flatMap fun index => newRequests env index h := by
  induction indices generalizing h with
  | nil => simp [newIndices]
  | cons index indices ih =>
    obtain ⟨hindex, hrest⟩ := List.nodup_cons.mp hnodup
    rw [List.foldl_cons, ih hrest, haveIndex_eq]
    split_ifs with hmem
    · simp [newIndices, hmem]
    · have hcore : (addToQueue env peerId index (announce peerId index h)).core = h.core := rfl
      have hnew : ∀ k, newRequests env k (addToQueue env peerId index (announce peerId index h)) =
          newRequests env k h := newRequests_congr env hcore
      have hself : newRequests env index (announce peerId index h) = newRequests env index h := rfl
      have hqueue : (announce peerId index h).requestMap peerId = h.requestMap peerId := rfl
      rw [newIndices_announce hindex, addToQueue_requestMap, hself, hqueue]
      simp [newIndices, hmem, hnew]

/-- Announcing what is announced changes nothing. -/
lemma foldl_haveIndex_of_subset {indices : List ℕ} (hsub : ∀ k ∈ indices, k ∈ h.haveMap peerId) :
    indices.foldl (fun h index => haveIndex env peerId index h) h = h := by
  induction indices with
  | nil => rfl
  | cons index indices ih =>
    rw [List.foldl_cons, haveIndex_eq, if_pos (hsub index List.mem_cons_self)]
    exact ih fun k hk => hsub k (List.mem_cons_of_mem index hk)

/-! ### Bitfields -/

/-- What decoding a bitfield does for a peer. -/
structure DecodesBitfield (env : Env Digest) (peerId : PeerId) (b : ByteString)
    (h : PieceHandler) : Prop where
  /-- The pieces whose bits are set are added to the have set, and nothing else. -/
  have_iff : ∀ k, k ∈ (haveBitfield env peerId b h).haveMap peerId ↔
    k ∈ h.haveMap peerId ∨ bitAt b k = true
  /-- Other peers, the files and the received blocks are left alone. -/
  local_eq : LocalTo peerId h (haveBitfield env peerId b h)
  /-- The queue is extended by the unreceived blocks of the new pieces, each once. -/
  queue_eq : ∃ added, (haveBitfield env peerId b h).requestMap peerId =
      h.requestMap peerId ++ added ∧ (added.map Request.key).Nodup ∧
    ∀ key, key ∈ added.map Request.key ↔
      (bitAt b key.index = true ∧ key.index ∉ h.haveMap peerId) ∧
        key ∈ blockKeys env key.index ∧ (h.receivedPieces key).received = false
  /-- Decoding it again changes nothing. -/
  again : haveBitfield env peerId b (haveBitfield env peerId b h) = haveBitfield env peerId b h

/-- Two ways through the same bitfields: the same have set and the same queued blocks. -/
structure SameEntries (peerId : PeerId) (h₁ h₂ : PieceHandler) : Prop where
  /-- The have sets are the same. -/
  have_iff : ∀ k, k ∈ h₁.haveMap peerId ↔ k ∈ h₂.haveMap peerId
  /-- The queues hold the same requests, as often. -/
  queue_perm : (h₁.requestMap peerId).Perm (h₂.requestMap peerId)

/-- The set bits are positions of pieces. -/
def BitsInRange (env : Env Digest) (b : ByteString) : Prop :=
  ∀ k, bitAt b k = true → k < env.torrent.numPieces

/-- Decoding a bitfield announces the positions of its set bits. -/
lemma haveBitfield_eq {b : ByteString} (hb : BitsInRange env b) (h : PieceHandler) :
    haveBitfield env peerId b h =
      (setBits b).foldl (fun h index => haveIndex env peerId index h) h := by
  have hsmall : ∀ k, bitAt b k = true → k < uint32Range := fun k hk =>
    Nat.lt_trans (Nat.lt_trans (hb k hk) env.torrent.numPieces_lt) (by decide)
  rw [haveBitfield, bitfieldIndices_eq_setBits hsmall]

/-- The announcements after a bitfield. -/
lemma haveBitfield_haveMap {b : ByteString} (hb : BitsInRange env b) (h : PieceHandler) :
    (haveBitfield env peerId b h).haveMap peerId =
      h.haveMap peerId ++ newIndices peerId (setBits b) h := by
  rw [haveBitfield_eq hb, foldl_haveIndex_haveMap (nodup_setBits b)]

/-- The queue after a bitfield. -/
lemma haveBitfield_requestMap {b : ByteString} (hb : BitsInRange env b) (h : PieceHandler) :
    (haveBitfield env peerId b h).requestMap peerId = h.requestMap peerId ++
      (newIndices peerId (setBits b) h).flatMap fun index => newRequests env index h := by
  rw [haveBitfield_eq hb, foldl_haveIndex_requestMap (nodup_setBits b)]

/-- The new pieces of a bitfield. -/
lemma mem_newIndices_setBits {b : ByteString} {k : ℕ} :
    k ∈ newIndices peerId (setBits b) h ↔ bitAt b k = true ∧ k ∉ h.haveMap peerId := by
  rw [newIndices, List.mem_filter, mem_setBits, decide_eq_true_iff]

/-- The pieces whose bits are set are added to the have set. -/
lemma mem_haveBitfield {b : ByteString} (hb : BitsInRange env b) (k : ℕ) :
    k ∈ (haveBitfield env peerId b h).haveMap peerId ↔
      k ∈ h.haveMap peerId ∨ bitAt b k = true := by
  rw [haveBitfield_haveMap hb, List.mem_append, mem_newIndices_setBits]
  tauto

variable (env peerId h) in
/-- A bitfield whose set bits are positions of pieces is decoded exactly. -/
lemma decodesBitfield {b : ByteString} (hb : BitsInRange env b) :
    DecodesBitfield env peerId b h where
  have_iff := mem_haveBitfield hb
  local_eq := localTo_haveBitfield env peerId b h
  queue_eq := by
    refine ⟨_, haveBitfield_requestMap hb h,
      nodup_map_key_flatMap env ((nodup_setBits b).filter _) h, fun key => ?_⟩
    rw [mem_map_key_flatMap, mem_newIndices_setBits]
  again := by
    rw [haveBitfield_eq hb (haveBitfield env peerId b h)]
    exact foldl_haveIndex_of_subset fun k hk =>
      (mem_haveBitfield hb k).mpr (.inr (mem_setBits.mp hk))

/-- The requests for new pieces after another bitfield are those that they would be before it. -/
lemma haveBitfield_haveBitfield_requestMap {b b' : ByteString} (hb : BitsInRange env b)
    (hb' : BitsInRange env b') (h : PieceHandler) :
    (haveBitfield env peerId b' (haveBitfield env peerId b h)).requestMap peerId =
      h.requestMap peerId ++ (newIndices peerId (setBits b) h ++
        newIndices peerId (setBits b') (haveBitfield env peerId b h)).flatMap
          fun index => newRequests env index h := by
  have hcore := (localTo_haveBitfield env peerId b h).core_eq
  rw [haveBitfield_requestMap hb', haveBitfield_requestMap hb, List.append_assoc,
    List.flatMap_append]
  simp only [newRequests_congr env hcore]

/-- The new pieces of two bitfields, one after the other, are different. -/
lemma nodup_newIndices_append {b b' : ByteString} (hb : BitsInRange env b) (h : PieceHandler) :
    (newIndices peerId (setBits b) h ++
      newIndices peerId (setBits b') (haveBitfield env peerId b h)).Nodup := by
  refine List.nodup_append.mpr ⟨(nodup_setBits b).filter _, (nodup_setBits b').filter _, ?_⟩
  rintro k hk _ hk' rfl
  exact (mem_newIndices_setBits.mp hk').2
    ((mem_haveBitfield hb k).mpr (.inr (mem_newIndices_setBits.mp hk).1))

variable (peerId h) in
/-- The order of two bitfields does not matter. -/
lemma sameEntries_haveBitfield {b b' : ByteString} (hb : BitsInRange env b)
    (hb' : BitsInRange env b') :
    SameEntries peerId (haveBitfield env peerId b' (haveBitfield env peerId b h))
      (haveBitfield env peerId b (haveBitfield env peerId b' h)) where
  have_iff k := by
    rw [mem_haveBitfield hb', mem_haveBitfield hb, mem_haveBitfield hb, mem_haveBitfield hb',
      or_right_comm]
  queue_perm := by
    rw [haveBitfield_haveBitfield_requestMap hb hb', haveBitfield_haveBitfield_requestMap hb' hb]
    refine List.Perm.append_left _ (List.Perm.flatMap_right _ ?_)
    refine (List.perm_ext_iff_of_nodup (nodup_newIndices_append hb h)
      (nodup_newIndices_append hb' h)).mpr fun k => ?_
    simp only [List.mem_append, mem_newIndices_setBits, mem_haveBitfield hb, mem_haveBitfield hb']
    tauto

/-- For every peer and in every state, bitfields whose set bits are positions of pieces are decoded
exactly, once and for all, and in whatever order. -/
theorem bitfield_exact (env : Env Digest) (peerId : PeerId) (h : PieceHandler) (b b' : ByteString)
    (hb : BitsInRange env b) (hb' : BitsInRange env b') :
    DecodesBitfield env peerId b h ∧
      SameEntries peerId (haveBitfield env peerId b' (haveBitfield env peerId b h))
        (haveBitfield env peerId b (haveBitfield env peerId b' h)) :=
  ⟨decodesBitfield env peerId h hb, sameEntries_haveBitfield peerId h hb hb'⟩

/-- The two pieces of a torrent, announced in two bitfields. -/
theorem bitfield_exact_sample :
    DecodesBitfield twoPieceEnv [1] [192] (create twoPieceEnv) ∧
      SameEntries [1]
        (haveBitfield twoPieceEnv [1] [64]
          (haveBitfield twoPieceEnv [1] [192] (create twoPieceEnv)))
        (haveBitfield twoPieceEnv [1] [192]
          (haveBitfield twoPieceEnv [1] [64] (create twoPieceEnv))) := by
  have hrange : ∀ b : ByteString, (∀ k ∈ setBits b, k < twoPieceEnv.torrent.numPieces) →
      BitsInRange twoPieceEnv b := fun b hb k hk => hb k (mem_setBits.mpr hk)
  exact bitfield_exact twoPieceEnv [1] (create twoPieceEnv) [192] [64]
    (hrange _ (by decide +kernel)) (hrange _ (by decide +kernel))

end PieceHandler

end Tent
