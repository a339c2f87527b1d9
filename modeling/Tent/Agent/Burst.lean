import Tent.Agent.Reaction
import Tent.Pieces.Supply

/-!
# The blocks of one burst

`request_pieces` calls `get_piece_request` up to `MAX_BURST` times in a row.  The calls take the
unreceived blocks from the queue of the peer, and when the queue runs empty it is rebuilt from the
have set, without any record of what was just given out.  So a burst that goes beyond what is left
in the queue begins again with blocks that it has asked for, unless the rebuilt queue happens to
begin with enough others (`burst_distinct_iff`).
-/

set_option autoImplicit false

namespace Tent

open Transition

namespace PieceHandler

variable {Digest : Type*} {env : Env Digest} {peerId : PeerId} {h : PieceHandler}

/-- The requests of a burst are drawn from the queue of the peer, which is refilled with its
supply. -/
lemma requestLoop_eq_draws (n : ℕ) (h : PieceHandler) :
    (requestLoop env peerId n h).2 =
      Refill.draws (unreceived h) (supply env peerId h) n (h.requestMap peerId) := by
  induction n generalizing h with
  | zero => rfl
  | succ n ih =>
    have hcore := (localTo_getPieceRequest env peerId h).core_eq
    have hsupply : supply env peerId (getPieceRequest env peerId h).1 = supply env peerId h :=
      supply_congr hcore (getPieceRequest_haveMap env peerId h)
    have hgood : unreceived (getPieceRequest env peerId h).1 = unreceived h := by
      unfold unreceived
      rw [receivedPieces_of_core_eq hcore]
    have hpopped : (getPieceRequest env peerId h).1.requestMap peerId =
        (Refill.pop (unreceived h)
          (if h.requestMap peerId = [] then supply env peerId h else h.requestMap peerId)).1 := by
      rw [getPieceRequest_requestMap, popUnreceived_eq_pop, refill_requestMap]
    have hanswer : (getPieceRequest env peerId h).2 =
        (Refill.pop (unreceived h)
          (if h.requestMap peerId = [] then supply env peerId h else h.requestMap peerId)).2 := by
      rw [getPieceRequest_snd, popUnreceived_eq_pop, refill_requestMap]
    rw [requestLoop, Refill.draws, ← hanswer, ← hpopped]
    cases (getPieceRequest env peerId h).2 with
    | none => rfl
    | some req =>
      dsimp only
      rw [ih, hsupply, hgood]

/-- The requests that are left in the queue of a peer, for blocks that were not received. -/
def leftover (peerId : PeerId) (h : PieceHandler) : List Request :=
  (h.requestMap peerId).filter (unreceived h)

variable (env) in
/-- A burst does not come back to a block: what is left in the queue suffices, or a received block
at the end of the queue ends the burst, or there is no supply, or the part of the supply that is
needed is there and has none of the blocks that were left in the queue. -/
def BurstFits (peerId : PeerId) (h : PieceHandler) : Prop :=
  maxBurst ≤ (leftover peerId h).length ∨ ¬ Refill.EndsGood (unreceived h) (h.requestMap peerId) ∨
    supply env peerId h = [] ∨
      (maxBurst - (leftover peerId h).length ≤ (supply env peerId h).length ∧
        ∀ req ∈ (supply env peerId h).take (maxBurst - (leftover peerId h).length),
          ∀ req' ∈ leftover peerId h, req.key ≠ req'.key)

/-- The requests of a burst are for different blocks exactly if it does not come back to a block. -/
lemma Lined.nodup_requestLoop_iff (hh : Lined env peerId h) :
    ((requestLoop env peerId maxBurst h).2.map Request.key).Nodup ↔ BurstFits env peerId h := by
  have hgood : ∀ req ∈ supply env peerId h, unreceived h req = true := by
    intro req hreq
    rw [unreceived, unreceived_of_mem_supply hreq]
    rfl
  rw [requestLoop_eq_draws]
  exact Refill.nodup_map_draws_iff hgood (nodup_supply hh.have_nodup) hh.nodup maxBurst

end PieceHandler

namespace Ctx

variable {Digest : Type*} (env : AgentEnv Digest)

/-- The requests that `request_pieces` pushes are for different blocks. -/
def AsksOnce (c : Ctx) : Prop :=
  ((requestsOf ((c.requestPieces env).agent.trace.drop c.agent.trace.length)).map
    Request.key).Nodup

/-- What `request_pieces` pushes is its burst. -/
lemma requestsOf_requestPieces (c : Ctx) :
    requestsOf ((c.requestPieces env).agent.trace.drop c.agent.trace.length) = c.burst env := by
  rw [requestPieces_trace, List.drop_left, requestsOf_map_pushedRequest]

variable [DecidableEq Digest]

/-- In every state that the handler can reach, a call of `request_pieces` of an unchoked agent asks
for every block once exactly if the burst does not come back to a block. -/
theorem burst_distinct_iff (calls : List HandlerCall) (c : Ctx)
    (hhandler : c.shared.handler =
      run (PieceHandler.call env.toEnv) (PieceHandler.create env.toEnv) calls)
    (hchoked : c.agent.choked = false) :
    c.AsksOnce env ↔ PieceHandler.BurstFits env.toEnv c.agent.peerId c.shared.handler := by
  have hlined : PieceHandler.Lined env.toEnv c.agent.peerId c.shared.handler := by
    rw [hhandler]
    exact (PieceHandler.lined_along env.toEnv calls).last c.agent.peerId
  rw [AsksOnce, requestsOf_requestPieces, burst, hchoked, if_neg Bool.false_ne_true]
  exact hlined.nodup_requestLoop_iff

/-- An unchoked agent whose peer announced the only piece of a torrent of one block. -/
def oneBlockCtx : Ctx where
  self := 0
  agent := { Agent.idle [1] with choked := false }
  shared :=
    { Shared.initial (sampleEnv [1]) with
      handler := run (PieceHandler.call (sampleEnv [1])) (PieceHandler.create (sampleEnv [1]))
        [.haveIndex [1] 0] }

/-- The burst of that agent. -/
theorem burst_distinct_iff_sample :
    oneBlockCtx.AsksOnce sampleAgentEnv ↔
      PieceHandler.BurstFits (sampleEnv [1]) [1] oneBlockCtx.shared.handler :=
  burst_distinct_iff sampleAgentEnv [.haveIndex [1] 0] oneBlockCtx rfl rfl

/-- The agent asks for the only block that is left as often as a burst allows. -/
theorem burst_repeats_block :
    (oneBlockCtx.burst sampleAgentEnv) = List.replicate maxBurst ⟨0, 0, 1⟩ ∧
      ¬ oneBlockCtx.AsksOnce sampleAgentEnv := by
  have hburst : oneBlockCtx.burst sampleAgentEnv = List.replicate maxBurst ⟨0, 0, 1⟩ := by
    decide +kernel
  refine ⟨hburst, ?_⟩
  rw [AsksOnce, requestsOf_requestPieces, hburst]
  decide

end Ctx

end Tent
