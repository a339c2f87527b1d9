import Tent.Tracker.Peers

/-!
# Two decoders of one format

`parse_peers` and `udp_tracker_client::read` decode the same string of six-byte entries.  The loop
of `read` goes on while six bytes are left in the buffer of the datagram; the loop of `parse_peers`
goes on while any byte is left, so that it reads a trailing fragment together with what lies behind
the string.  And the buffer of the datagram cuts off what it has no room for.

So `parse_peers` decodes the entries that `read` decodes and perhaps further ones behind them, and
the two agree exactly if these repeat peers that are there already (`decoders_agree_iff`).
-/

set_option autoImplicit false

namespace Tent

open Bytes Collect

/-- An entry that is kept is the same in what is kept. -/
lemma keyAt_take (oob : Oob) {s : ByteString} {m offset : ℕ} (hm : offset + 6 ≤ m)
    (hs : offset + 6 ≤ s.length) : keyAt oob (s.take m) offset = keyAt oob s offset := by
  have hwindow : window oob (s.take m) (offset + 4) 2 = window oob s (offset + 4) 2 := by
    refine List.map_congr_left fun j hj => ?_
    rw [List.mem_range] at hj
    exact byteAt_take oob (by omega) (by omega)
  unfold keyAt
  rw [hwindow, byteAt_take oob (i := offset) (by omega) (by omega),
    byteAt_take oob (i := offset + 1) (by omega) (by omega),
    byteAt_take oob (i := offset + 2) (by omega) (by omega),
    byteAt_take oob (i := offset + 3) (by omega) (by omega)]

/-- The whole entries of a string that a buffer holds. -/
def wholeEntries (room : ℕ) (s : ByteString) : ℕ := min room s.length / 6

/-- The entries that are decoded from what the buffer holds are the first ones of the string. -/
lemma compactKeys_take (oob : Oob) (room : ℕ) (s : ByteString) :
    compactKeys (s.take room) =
      (List.range (wholeEntries room s)).map fun i => keyAt oob s (6 * i) := by
  rw [compactKeys_eq oob, List.length_take]
  refine List.map_congr_left fun i hi => ?_
  have hlt := List.mem_range.mp hi
  exact keyAt_take oob (by omega) (by omega)

variable (env : TrackerEnv)

/-- One body in two answers: the string is the compact entry `peers` of the bencoded answer, and it
follows the header of a datagram that is taken for an announce response and of which the buffer
stores as many bytes as it has room for. -/
structure SameBody (rsp s : ByteString) (room : ℕ) (u : UdpTracker) (d : Datagram) : Prop where
  /-- The bencoded answer. -/
  decoded : ∃ node, env.bdecode rsp = some node ∧ node.peerList env = none ∧
    node.peerString env = some s
  /-- The datagram, with its header of twenty bytes. -/
  bytes_eq : ∃ header : ByteString, header.length = 20 ∧ d.bytes = (header ++ s).take room
  /-- The datagram carries the transaction id of the announce request and its action. -/
  answers : u.answers env.toUdpEnv 1 d = true

/-- Both decoders return, and leave the same addresses and ports in the same order. -/
def DecodersAgree (rsp : ByteString) (u : UdpTracker) (d : Datagram) : Prop :=
  ∃ peers u', parsePeers env rsp u.receivedPeers = .ok peers ∧ u.read env.toUdpEnv d = .ok u' ∧
    keysOf peers = keysOf u'.receivedPeers

variable {env} {rsp s : ByteString} {room : ℕ} {u : UdpTracker} {d : Datagram}

/-- What `parse_peers` collects, one entry for each six bytes that have begun. -/
lemma SameBody.parsePeers (h : SameBody env rsp s room u d) :
    ∃ peers, Tent.parsePeers env rsp u.receivedPeers = .ok peers ∧
      keysOf peers = ((compactOffsets s.length).map (keyAt env.oob s)).foldl addKey
        (keysOf u.receivedPeers) := by
  obtain ⟨node, hdecoded, hlist, hstring⟩ := h.decoded
  obtain ⟨peers, hpeers, hkeys⟩ := parseCompact_loop_collects s u.receivedPeers
  refine ⟨peers, ?_, hkeys⟩
  rw [Tent.parsePeers, hdecoded]
  dsimp only
  rw [hlist, hstring]
  exact hpeers

/-- What `read` collects, the whole entries that the buffer holds. -/
lemma SameBody.read (h : SameBody env rsp s room u d) :
    ∃ u', u.read env.toUdpEnv d = .ok u' ∧
      keysOf u'.receivedPeers = (compactKeys (s.take (room - 20))).foldl addKey
        (keysOf u.receivedPeers) := by
  obtain ⟨header, hheader, hbytes⟩ := h.bytes_eq
  have hbody : d.bytes.drop 20 = s.take (room - 20) := by
    rw [hbytes, List.drop_take, List.drop_left' hheader]
  have hconnect : u.answers env.toUdpEnv 0 d = false := by
    cases h₀ : u.answers env.toUdpEnv 0 d with
    | false => rfl
    | true => exact absurd ((UdpTracker.not_answers_one h₀).symm.trans h.answers) (by simp)
  apply UdpTracker.read_cases env.toUdpEnv d u (P := fun u' => keysOf u'.receivedPeers = _)
  · exact fun h₀ => absurd (hconnect.symm.trans h₀) (by simp)
  · intro peers _ _ hkeys
    rw [← hbody]
    exact hkeys
  · exact fun _ h₁ => absurd (h₁.symm.trans h.answers) (by simp)

/-- The two decoders agree exactly if every entry that begins behind the whole entries that the
buffer holds, read as `parse_peers` does it, is that of a peer that is there by then. -/
theorem decoders_agree_iff (h : SameBody env rsp s room u d) :
    DecodersAgree env rsp u d ↔
      ∀ i, wholeEntries (room - 20) s ≤ i → 6 * i < s.length →
        keyAt env.oob s (6 * i) ∈ keysOf u.receivedPeers ∨
          keyAt env.oob s (6 * i) ∈ compactKeys (s.take (room - 20)) := by
  obtain ⟨peers, hparse, hpeers⟩ := h.parsePeers
  obtain ⟨u', hread, hkeys⟩ := h.read
  set whole := compactKeys (s.take (room - 20)) with hwhole
  -- the loop of `parse_peers` goes through the whole entries and then through the others
  obtain ⟨k, hk⟩ : ∃ k, (s.length + 5) / 6 = wholeEntries (room - 20) s + k := by
    refine Nat.exists_eq_add_of_le ?_
    unfold wholeEntries
    omega
  have hsplit : (compactOffsets s.length).map (keyAt env.oob s) = whole ++
      (List.range k).map fun j => keyAt env.oob s (6 * (wholeEntries (room - 20) s + j)) := by
    rw [compactOffsets, hk, List.range_add, List.map_append, List.map_append, List.map_map,
      List.map_map, List.map_map, hwhole, compactKeys_take env.oob]
    rfl
  have hagree : DecodersAgree env rsp u d ↔ keysOf peers = keysOf u'.receivedPeers := by
    constructor
    · rintro ⟨peers₁, u₁, h₁, h₂, heq⟩
      rw [hparse] at h₁
      rw [hread] at h₂
      rwa [Except.ok.inj h₁, Except.ok.inj h₂]
    · exact fun heq => ⟨peers, u', hparse, hread, heq⟩
  rw [hagree, hpeers, hkeys, hsplit, List.foldl_append, foldl_addKey_eq_self_iff]
  simp only [List.mem_map, List.mem_range, forall_exists_index, and_imp,
    forall_apply_eq_imp_iff₂, mem_foldl_addKey]
  constructor
  · intro hmem i hi hlt
    obtain ⟨j, rfl⟩ := Nat.exists_eq_add_of_le hi
    exact hmem j (by omega)
  · intro hmem j hj
    exact hmem _ (Nat.le_add_right _ _) (by omega)

/-- A client that waits for the answer to its announce request, with the transaction id `9`. -/
def announcedClient : UdpTracker :=
  (UdpTracker.initial [] sampleEndpoint).connect sampleEndpoint 9 true

/-- An announce response for that client with the given body, of which the buffer of 2048 bytes
stores what it has room for. -/
def announceResponse (s : ByteString) : Datagram :=
  ⟨(toBE 4 1 ++ toBE 4 9 ++ toBE 12 0 ++ s).take 2048, 0, 0, true⟩

/-- One whole entry in both answers. -/
theorem decoders_agree_iff_sample :
    DecodersAgree sampleTrackerEnv sampleCompactBody announcedClient
        (announceResponse [1, 2, 3, 4, 26, 225]) ↔
      ∀ i, wholeEntries (2048 - 20) [1, 2, 3, 4, 26, 225] ≤ i →
        6 * i < ([1, 2, 3, 4, 26, 225] : ByteString).length →
        keyAt sampleTrackerEnv.oob [1, 2, 3, 4, 26, 225] (6 * i) ∈
            keysOf announcedClient.receivedPeers ∨
          keyAt sampleTrackerEnv.oob [1, 2, 3, 4, 26, 225] (6 * i) ∈
            compactKeys (([1, 2, 3, 4, 26, 225] : ByteString).take (2048 - 20)) := by
  have hne : sampleCompactBody ≠ sampleListBody := by decide +kernel
  refine decoders_agree_iff ⟨⟨sampleCompactNode, ?_, rfl, rfl⟩,
    ⟨toBE 4 1 ++ toBE 4 9 ++ toBE 12 0, rfl, rfl⟩, ?_⟩
  · simp [sampleTrackerEnv, hne]
  · decide +kernel

/-- A bencoded answer whose compact string is a fragment of one byte. -/
def fragmentBody : ByteString :=
  ascii ['d', '5', ':', 'p', 'e', 'e', 'r', 's', '1', ':'] ++ [1] ++ ascii ['e']

/-- An environment whose `bdecode` knows that answer. -/
def fragmentEnv : TrackerEnv :=
  { sampleTrackerEnv with
    bdecode := fun body =>
      if body = fragmentBody then some (.dict [(ascii ['p', 'e', 'e', 'r', 's'], .string [1])])
      else none }

/-- `parse_peers` makes a peer of the fragment and the bytes behind it, `read` does not. -/
theorem fragment_makes_peer :
    ((parsePeers fragmentEnv fragmentBody []).map keysOf).toOption = some [(⟨1, 0, 0, 0⟩, 0)] ∧
      ((announcedClient.read fragmentEnv.toUdpEnv (announceResponse [1])).map
        fun u => keysOf u.receivedPeers).toOption = some [] ∧
      ¬ DecodersAgree fragmentEnv fragmentBody announcedClient (announceResponse [1]) := by
  have hparse : ((parsePeers fragmentEnv fragmentBody []).map keysOf).toOption =
      some [(⟨1, 0, 0, 0⟩, 0)] := by
    decide +kernel
  have hread : ((announcedClient.read fragmentEnv.toUdpEnv (announceResponse [1])).map
      fun u => keysOf u.receivedPeers).toOption = some [] := by
    decide +kernel
  refine ⟨hparse, hread, ?_⟩
  rintro ⟨peers, u, hpeers, hu, heq⟩
  change parsePeers fragmentEnv fragmentBody [] = _ at hpeers
  rw [hpeers] at hparse
  rw [hu] at hread
  have hkeys : keysOf peers = [(⟨1, 0, 0, 0⟩, 0)] := Option.some.inj hparse
  have hnone : keysOf u.receivedPeers = [] := Option.some.inj hread
  rw [heq, hnone] at hkeys
  cases hkeys

end Tent
