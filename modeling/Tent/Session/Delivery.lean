import Tent.Foundation.Simulation
import Tent.Pieces.Assembly
import Tent.Pieces.Counting
import Tent.Session.Bitfields

/-!
# Downloading from many peers

A session drives the download: the steps of its agents put out deliveries, one for each piece
message that an agent handles, and all that the agents do to the files, the counter and the log is
done by these deliveries, in the order in which the messages are handled.  So the handler of a
session, whatever its peers send and whenever they send it, is what the sequence of its deliveries
makes of a new handler (`reflects_deliveries`).

From this follows what the session is for.  If nothing but the contents of the torrent has the
digests of its pieces, no byte of anything else reaches the files, and when the session is stopped
the files are complete (`files_authentic`).  Each piece depends on its own first blocks only
(`piece_valid_iff`), and among peers that send the blocks of the torrent the download is the one
that `Downloaded` describes (`downloads`).
-/

set_option autoImplicit false

namespace Tent

open Bytes Transition

namespace PieceHandler

variable {Digest : Type*} [DecidableEq Digest] (env : Env Digest)

/-- What a message does to the core of the handler. -/
lemma react_core (peerId : PeerId) (choked : Bool) (msg : Message) (h : PieceHandler) :
    (react env peerId choked msg h).1.core =
      (if msg.id = .piece then received env msg.payload h else h).core := by
  unfold react
  cases msg.id with
  | unchoke => exact (localTo_serve env peerId false h).core_eq
  | bitfield => exact (localTo_haveBitfield env peerId msg.payload h).core_eq
  | piece => exact (localTo_serve env peerId choked _).core_eq
  | _ => rfl

variable {env} in
/-- A delivered block counts no piece less. -/
lemma writtenPieces_le_receivedBlock (key : PieceReceivedKey) (data : ByteString)
    (h : PieceHandler) : h.writtenPieces ≤ (receivedBlock env key data h).writtenPieces := by
  apply receivedBlock_cases (P := fun h' => h.writtenPieces ≤ h'.writtenPieces)
  · exact fun _ => Nat.le_refl _
  · exact fun _ _ => Nat.le_refl _
  · exact fun _ _ _ => Nat.le_refl _
  · intro _ _ _
    rw [stopIfDone_writtenPieces, (countFrame_writtenPiece env key.index _).writtenPieces_eq,
      (writeFrame_writePiece env (blockKeys env key.index) _).writtenPieces_eq]
    exact Nat.le_succ _

end PieceHandler

namespace Ctx

variable {Digest : Type*} (env : AgentEnv Digest)

/-- What a step delivers: the block of a piece message that is handled. -/
def delivery (c : Ctx) (l : Label) : List Delivery :=
  match c.incoming env l with
  | some msg => if msg.id = .piece then [.ofPayload env.oob msg.payload] else []
  | none => []

variable [DecidableEq Digest]

/-- What a step does to the core of the handler. -/
lemma core_step (c : Ctx) (l : Label) :
    (c.step env l).shared.handler.core =
      ((c.delivery env l).foldl (fun h d => PieceHandler.receivedBlock env.toEnv d.key d.data h)
        c.shared.handler).core := by
  by_cases hl : l = .execute
  · subst hl
    have hnone : c.delivery env .execute = [] := rfl
    rw [hnone]
    apply step_execute_cases (P := fun c' => c'.shared.handler.core = c.shared.handler.core)
    · exact fun _ => rfl
    · intro _ _ _
      rw [(requestPieces_serve env c).1]
      exact (PieceHandler.localTo_serve _ _ _ _).core_eq
  · rw [(obeys_step env hl).handler_eq, effect, delivery]
    cases c.incoming env l with
    | none => rfl
    | some msg =>
      dsimp only
      rw [PieceHandler.react_core]
      split_ifs <;> rfl

/-- A step keeps what the handler did so far, and counts no piece less. -/
lemma log_prefix_step (c : Ctx) (l : Label) :
    c.shared.handler.log <+: (c.step env l).shared.handler.log ∧
      c.shared.handler.writtenPieces ≤ (c.step env l).shared.handler.writtenPieces := by
  have hall : ∀ (ds : List Delivery) (h : PieceHandler),
      h.log <+: (ds.foldl (fun h d => PieceHandler.receivedBlock env.toEnv d.key d.data h) h).log ∧
        h.writtenPieces ≤ (ds.foldl (fun h d =>
          PieceHandler.receivedBlock env.toEnv d.key d.data h) h).writtenPieces := by
    intro ds
    induction ds with
    | nil => exact fun h => ⟨List.prefix_rfl, Nat.le_refl _⟩
    | cons d ds ih =>
      intro h
      obtain ⟨hlog, hle⟩ := ih (PieceHandler.receivedBlock env.toEnv d.key d.data h)
      exact ⟨(PieceHandler.log_prefix_receivedBlock env.toEnv d.key d.data h).trans hlog,
        (PieceHandler.writtenPieces_le_receivedBlock d.key d.data h).trans hle⟩
  have hcore := core_step env c l
  have hlog := congrArg PieceHandler.log hcore
  have hwritten := congrArg PieceHandler.writtenPieces hcore
  obtain ⟨hpre, hle⟩ := hall (c.delivery env l) c.shared.handler
  exact ⟨hlog ▸ hpre, hwritten ▸ hle⟩

/-- A step keeps the invariant of the deliveries. -/
lemma assembles_step {env : AgentEnv Digest} (hreg : Regular env.toEnv) {c : Ctx} {l : Label}
    {blocks : Blocks} (hnominal : ∀ d ∈ c.delivery env l, Nominal env.toEnv d)
    (ha : PieceHandler.Assembles env.toEnv blocks c.shared.handler) :
    PieceHandler.Assembles env.toEnv (run Blocks.deliver blocks (c.delivery env l))
      (c.step env l).shared.handler := by
  refine PieceHandler.Assembles.of_core_eq ?_ (core_step env c l)
  have hstep : ∀ (h : PieceHandler) (blocks : Blocks) (d : Delivery), Nominal env.toEnv d →
      PieceHandler.Assembles env.toEnv blocks h →
      PieceHandler.Assembles env.toEnv (blocks.deliver d)
        (PieceHandler.receivedBlock env.toEnv d.key d.data h) :=
    fun _ _ _ hd ha => ha.receivedBlock hreg hd
  exact run_rel (R := fun h blocks => PieceHandler.Assembles env.toEnv blocks h) hstep hnominal ha

end Ctx

namespace World

variable {Digest : Type*} (env : AgentEnv Digest) [DecidableEq Digest]

/-- What the steps of a session deliver, in order. -/
def deliveries : World → List (ℕ × Label) → List Delivery :=
  outputs (step env) fun w label => (w.ctx label.1).delivery env label.2

/-- The blocks that are kept in a run of a session. -/
def blocks (w : World) (labels : List (ℕ × Label)) : Blocks :=
  run Blocks.deliver (fun _ => none) (deliveries env w labels)

variable {env}

/-- The first delivery under a key is kept. -/
lemma blocks_apply (w : World) (labels : List (ℕ × Label)) (key : PieceReceivedKey) :
    blocks env w labels key =
      ((deliveries env w labels).find? fun d => d.key = key).map Delivery.data :=
  Blocks.run_deliver_apply _ key

/-- A run of a session keeps the invariant of the deliveries. -/
lemma assembles_run (hreg : Regular env.toEnv) (peers : List Peer) {labels : List (ℕ × Label)}
    (hnominal : ∀ d ∈ deliveries env (create env peers) labels, Nominal env.toEnv d) :
    PieceHandler.Assembles env.toEnv (blocks env (create env peers) labels)
      (run (step env) (create env peers) labels).shared.handler := by
  refine run_simulates (R := fun w blocks =>
    PieceHandler.Assembles env.toEnv blocks w.shared.handler)
    (fun w _ label hd ha => Ctx.assembles_step hreg hd ha) hnominal ?_
  rw [create_handler]
  exact PieceHandler.assembles_create hreg

variable {peers : List Peer} {labels : List (ℕ × Label)}

/-- What a part of a run delivers is delivered in the run. -/
lemma nominal_of_isPrefix {w : World} {pre : List (ℕ × Label)} (hpre : pre <+: labels)
    (hnominal : ∀ d ∈ deliveries env w labels, Nominal env.toEnv d) :
    ∀ d ∈ deliveries env w pre, Nominal env.toEnv d :=
  fun d hd => hnominal d ((outputs_isPrefix w hpre).subset hd)

/-! ### Two peers, one of which lies -/

/-- The torrent of one byte is as it should be. -/
lemma regular_sample : Regular sampleAgentEnv.toEnv where
  numPieces_pos := by decide
  blockLen_dvd := ⟨1, rfl⟩
  names_nodup := by decide
  offsetsFit := ⟨by decide, by decide⟩
  digest_ne := by decide

/-- Only the byte `1` has the digest of the torrent of one byte. -/
lemma authentic_sample : Authentic sampleAgentEnv.toEnv fun _ => 1 := by
  intro i hi bytes
  obtain rfl : i = 0 := by
    have hone : sampleAgentEnv.torrent.numPieces = 1 := by decide
    omega
  change sampleSha1 bytes = sampleSha1 [1] ↔ bytes = [1]
  refine ⟨fun h => ?_, fun h => by rw [h]⟩
  rw [sampleSha1] at h
  split_ifs at h with hnil hone <;> first | exact hone | exact absurd h (by decide)

/-- One peer delivers the byte `1`, then another one the byte `2`. -/
def twoDeliveries : List (ℕ × Label) :=
  [(0, .read (some (MsgFactory.handshake sampleAgentEnv.oob (List.replicate 20 1) [] ++
      MsgFactory.piece 0 0 [1]))), (0, .frame), (0, .frame),
    (1, .read (some (MsgFactory.handshake sampleAgentEnv.oob (List.replicate 20 2) [] ++
      MsgFactory.piece 0 0 [2]))), (1, .frame), (1, .frame)]

/-- What the two peers deliver. -/
lemma deliveries_twoDeliveries :
    deliveries sampleAgentEnv (create sampleAgentEnv [⟨[], 3, true⟩, ⟨[], 4, true⟩]) twoDeliveries =
      [⟨⟨0, 0⟩, [1]⟩, ⟨⟨0, 0⟩, [2]⟩] := by
  decide +kernel

/-- The two deliveries are blocks of one byte for the only piece. -/
lemma nominal_twoDeliveries : ∀ d ∈ deliveries sampleAgentEnv
    (create sampleAgentEnv [⟨[], 3, true⟩, ⟨[], 4, true⟩]) twoDeliveries,
    Nominal sampleAgentEnv.toEnv d := by
  rw [deliveries_twoDeliveries]
  intro d hd
  obtain rfl | rfl : d = ⟨⟨0, 0⟩, [1]⟩ ∨ d = ⟨⟨0, 0⟩, [2]⟩ := by simpa using hd
  · exact ⟨by decide, fun _ => by decide⟩
  · exact ⟨by decide, fun _ => by decide⟩

/-! ### Whole runs of a session -/

/-- In every state of every run of a session the counter, the files and the call of `session::stop`
are those of the pieces that are valid by the deliveries so far. -/
theorem reflects_deliveries (hreg : Regular env.toEnv) (peers : List Peer)
    (labels : List (ℕ × Label))
    (hnominal : ∀ d ∈ deliveries env (create env peers) labels, Nominal env.toEnv d) :
    ∀ pre, pre <+: labels → PieceHandler.Reflects env.toEnv (blocks env (create env peers) pre)
      (run (step env) (create env peers) pre).shared.handler :=
  fun _ hpre => (assembles_run hreg peers (nominal_of_isPrefix hpre hnominal)).toReflects

/-- The handler after the deliveries of two peers, one of which lies. -/
theorem reflects_deliveries_sample :
    Regular sampleAgentEnv.toEnv ∧ ∀ pre, pre <+: twoDeliveries →
      PieceHandler.Reflects sampleAgentEnv.toEnv
      (blocks sampleAgentEnv (create sampleAgentEnv [⟨[], 3, true⟩, ⟨[], 4, true⟩]) pre)
      (run (step sampleAgentEnv) (create sampleAgentEnv [⟨[], 3, true⟩, ⟨[], 4, true⟩])
        pre).shared.handler :=
  ⟨regular_sample, reflects_deliveries regular_sample [⟨[], 3, true⟩, ⟨[], 4, true⟩] twoDeliveries
    nominal_twoDeliveries⟩

/-- No peer can put anything but the contents into the files: every byte of every file is the right
one or as the constructor left it, in every state of every run, and when the session is stopped all
bytes are right. -/
theorem files_authentic {content : ℕ → UInt8} (hreg : Regular env.toEnv)
    (hauth : Authentic env.toEnv content) (peers : List Peer) (labels : List (ℕ × Label))
    (hnominal : ∀ d ∈ deliveries env (create env peers) labels, Nominal env.toEnv d) :
    Along (step env) (fun w => ∀ f < env.torrent.numFiles, ∀ o < env.torrent.fileSize f,
      (w.shared.handler.disk.image f o = some (content (env.torrent.position f o)) ∨
        w.shared.handler.disk.image f o = (Disk.create env.torrent).image f o) ∧
      (.stop ∈ w.shared.handler.log →
        w.shared.handler.disk.image f o = some (content (env.torrent.position f o))))
      (create env peers) labels := by
  intro pre hpre f hf o ho
  have ha := assembles_run hreg peers (nominal_of_isPrefix hpre hnominal)
  have himage := ha.image_authentic hauth hf ho
  refine ⟨?_, fun hstop => ?_⟩
  · rw [himage]
    exact ite_eq_or_eq _ _ _
  · have hlt := env.torrent.div_pieceLength_lt (PieceHandler.position_lt_totalSize hf ho)
    rw [himage, if_pos (ha.stop_iff.mp hstop _ hlt)]

/-- The files while two peers deliver, one of which lies. -/
theorem files_authentic_sample :
    Along (step sampleAgentEnv) (fun w =>
      ∀ f < sampleAgentEnv.torrent.numFiles, ∀ o < sampleAgentEnv.torrent.fileSize f,
      (w.shared.handler.disk.image f o = some 1 ∨
        w.shared.handler.disk.image f o = (Disk.create sampleAgentEnv.torrent).image f o) ∧
      (.stop ∈ w.shared.handler.log → w.shared.handler.disk.image f o = some 1))
      (create sampleAgentEnv [⟨[], 3, true⟩, ⟨[], 4, true⟩]) twoDeliveries :=
  files_authentic regular_sample authentic_sample [⟨[], 3, true⟩, ⟨[], 4, true⟩] twoDeliveries
    nominal_twoDeliveries

/-- Whether a piece is written is decided by the first delivery under each of its keys: it is
written exactly when all of them are the true blocks, whatever was delivered for other pieces and in
between. -/
theorem validated_iff_first_blocks {content : ℕ → UInt8} (hreg : Regular env.toEnv)
    (hauth : Authentic env.toEnv content) (peers : List Peer) (labels : List (ℕ × Label))
    (hnominal : ∀ d ∈ deliveries env (create env peers) labels, Nominal env.toEnv d) :
    ∀ i < env.torrent.numPieces,
      .validated i ∈ (run (step env) (create env peers) labels).shared.handler.log ↔
        ∀ key ∈ PieceHandler.blockKeys env.toEnv i,
          ((deliveries env (create env peers) labels).find? fun d => d.key = key).map
            Delivery.data = some (env.torrent.blockBytes content key) := by
  intro i hi
  have ha := assembles_run hreg peers hnominal
  rw [ha.validated_iff i hi, Blocks.valid_iff_blocks hauth ha.lengths hi]
  exact forall₂_congr fun key _ => by rw [blocks_apply]

/-- The piece is written because the peer that lies comes second. -/
theorem validated_iff_first_blocks_sample :
    Regular sampleAgentEnv.toEnv ∧ ∀ i < sampleAgentEnv.torrent.numPieces,
      .validated i ∈ (run (step sampleAgentEnv)
        (create sampleAgentEnv [⟨[], 3, true⟩, ⟨[], 4, true⟩]) twoDeliveries).shared.handler.log ↔
        ∀ key ∈ PieceHandler.blockKeys sampleAgentEnv.toEnv i,
          ((deliveries sampleAgentEnv (create sampleAgentEnv [⟨[], 3, true⟩, ⟨[], 4, true⟩])
            twoDeliveries).find? fun d => d.key = key).map Delivery.data =
            some (sampleAgentEnv.torrent.blockBytes (fun _ => 1) key) :=
  ⟨regular_sample, validated_iff_first_blocks regular_sample authentic_sample
    [⟨[], 3, true⟩, ⟨[], 4, true⟩] twoDeliveries nominal_twoDeliveries⟩

/-- Among peers whose blocks are those of the torrent, any number of them and in any order, the
download is complete in every state as far as the blocks that were delivered by all of them
together. -/
theorem downloads {content : ℕ → UInt8} (hreg : Regular env.toEnv)
    (hhash : ∀ i < env.torrent.numPieces,
      env.torrent.hashForPiece i = env.sha1 (env.torrent.pieceBytes content i))
    (peers : List Peer) (labels : List (ℕ × Label))
    (hindex : ∀ d ∈ deliveries env (create env peers) labels,
      d.key.index < env.torrent.numPieces)
    (htrue : ∀ d ∈ deliveries env (create env peers) labels, env.torrent.IsBlock d.key →
      d.data = env.torrent.blockBytes content d.key) :
    ∀ pre, pre <+: labels → PieceHandler.Downloaded env.toEnv content
      ((deliveries env (create env peers) pre).map Delivery.key)
      (run (step env) (create env peers) pre).shared.handler := by
  intro pre hpre
  set ds := deliveries env (create env peers) pre with hds
  have hsub : ds ⊆ deliveries env (create env peers) labels := (outputs_isPrefix _ hpre).subset
  have hnominal : ∀ d ∈ ds, Nominal env.toEnv d := by
    refine fun d hd => ⟨hindex d (hsub hd), fun hblock => ?_⟩
    rw [htrue d (hsub hd) hblock, TorrentInfo.blockBytes, Segments.length_stretch]
  have ha := assembles_run hreg peers hnominal
  have hblock : ∀ i < env.torrent.numPieces, ∀ key ∈ PieceHandler.blockKeys env.toEnv i,
      env.torrent.IsBlock key := by
    intro i hi key hkey
    have heq := PieceHandler.index_of_mem_blockKeys hkey
    exact (TorrentInfo.isBlock_iff (heq ▸ hi)).mpr (heq.symm ▸ hkey)
  have hiff : ∀ i < env.torrent.numPieces, (blocks env (create env peers) pre).Valid env.toEnv i ↔
      PieceHandler.Complete env.toEnv (ds.map Delivery.key) i := fun i hi =>
    Blocks.valid_iff_complete (hhash i hi) fun d hd hmem =>
      htrue d (hsub hd) (hblock i hi _ hmem)
  constructor
  · rw [ha.written_eq]
    congr 1
    exact Finset.filter_congr fun i hi => hiff i (Finset.mem_range.mp hi)
  · exact ha.length_eq
  · intro f hf o ho
    have hp := PieceHandler.position_lt_totalSize hf ho
    have hi := env.torrent.div_pieceLength_lt hp
    rw [ha.image_eq f hf o ho]
    refine ite_congr (propext (hiff _ hi)) (fun hcomplete => ?_) fun _ => rfl
    refine congrArg some (Blocks.byteAt_of_block hp fun key hkey => ?_)
    rw [blocks, Blocks.kept_of_true (fun d hd hmem => htrue d (hsub hd) (hblock _ hi _ hmem)) hkey,
      if_pos (hcomplete key hkey)]
  · rw [ha.stop_iff]
    exact forall₂_congr hiff

/-- The download from the peer that does not lie. -/
theorem downloads_sample :
    Regular sampleAgentEnv.toEnv ∧ ∀ pre, pre <+: twoDeliveries.take 3 →
      PieceHandler.Downloaded sampleAgentEnv.toEnv (fun _ => 1)
      ((deliveries sampleAgentEnv (create sampleAgentEnv [⟨[], 3, true⟩, ⟨[], 4, true⟩])
        pre).map Delivery.key)
      (run (step sampleAgentEnv) (create sampleAgentEnv [⟨[], 3, true⟩, ⟨[], 4, true⟩])
        pre).shared.handler := by
  have hone : deliveries sampleAgentEnv (create sampleAgentEnv [⟨[], 3, true⟩, ⟨[], 4, true⟩])
      (twoDeliveries.take 3) = [⟨⟨0, 0⟩, [1]⟩] := by
    decide +kernel
  refine ⟨regular_sample, downloads regular_sample (by decide) _ _ ?_ ?_⟩
  · rw [hone]
    decide
  · rw [hone]
    intro d hd _
    obtain rfl := List.mem_singleton.mp hd
    decide

end World

end Tent
