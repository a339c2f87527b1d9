import Tent.Foundation.Collect
import Tent.Tracker.TrackerClient

/-!
# The peers that were announced

Three decoders push peers: `parse_peers` for a list of dictionaries, `parse_peers` for a compact
string, and `udp_tracker_client::read`.  Each compares a new peer with those that are there in its
own way, and all three amount to comparing address and port (`samePeer_iff`, `sameUdpPeer_iff`).  So
what a decoder does to the addresses and ports is `addKey`, one announced peer after the other
(`Collects`).

A run of the client handles answers of HTTP trackers and datagrams in any order.  `peers_exact` says
that the peers collected in it are those that were announced so far, each of them once.
-/

set_option autoImplicit false

namespace Tent

open Bytes Collect Transition

/-! ### The decoders -/

/-- The addresses and ports of peers. -/
def keysOf (peers : List PeerInfo) : List (InAddr × ℕ) := peers.map PeerInfo.key

/-- The decoder returns, having collected these addresses and ports. -/
def Collects (decoder : List PeerInfo → Except TrackerError (List PeerInfo))
    (ks : List (InAddr × ℕ)) : Prop :=
  ∀ peers, ∃ peers', decoder peers = .ok peers' ∧ keysOf peers' = ks.foldl addKey (keysOf peers)

/-- The comparison of `parse_peers` is that of address and port. -/
lemma samePeer_iff {addr : InAddr} {port : ℕ} {peer : PeerInfo} :
    samePeer (inetNtop addr) port peer = true ↔ peer.key = (addr, port) := by
  rw [samePeer, Bool.and_eq_true, beq_iff_eq, beq_iff_eq, inetNtop_injective.eq_iff, PeerInfo.key,
    Prod.mk.injEq]

/-- So is the comparison of `udp_tracker_client::read`. -/
lemma sameUdpPeer_iff {addr : InAddr} {port : ℕ} {peer : PeerInfo} :
    sameUdpPeer (inetNtop addr) port peer = true ↔ peer.key = (addr, port) := by
  rw [sameUdpPeer, InAddr.ntohl_sAddr, saddrToStr_ofBE]
  exact samePeer_iff

/-- A peer whose address is printed as `inet_ntop` does can be constructed. -/
lemma create_inetNtop (id : ByteString) (addr : InAddr) (port : ℕ) :
    PeerInfo.create id (inetNtop addr) port = .ok ⟨id, ⟨ntohs port, addr⟩⟩ := by
  unfold PeerInfo.create Endpoint.create
  rw [cStr_inetNtop, inetPton_inetNtop]
  rfl

/-- Pushing a peer unless it is there collects its address and port. -/
lemma addPeer_collects {same : PeerInfo → Bool} {addr : InAddr} {port : ℕ} (hport : port < 65536)
    (hsame : ∀ peer, same peer = true ↔ peer.key = (addr, port)) (id : ByteString) :
    Collects (addPeer same id (inetNtop addr) port) [(addr, port)] := by
  intro peers
  have hany : peers.any same = true ↔ (addr, port) ∈ keysOf peers := by
    rw [List.any_eq_true, keysOf, List.mem_map]
    exact exists_congr fun peer => and_congr_right fun _ => hsame peer
  unfold addPeer
  rw [List.foldl_cons, List.foldl_nil, addKey]
  by_cases hmem : (addr, port) ∈ keysOf peers
  · rw [if_pos (hany.mpr hmem), if_pos hmem]
    exact ⟨peers, rfl, rfl⟩
  · rw [if_neg fun h => hmem (hany.mp h), if_neg hmem, create_inetNtop]
    refine ⟨peers ++ [⟨id, ⟨ntohs port, addr⟩⟩], rfl, ?_⟩
    rw [keysOf, List.map_append, List.map_singleton, PeerInfo.key, ntohs_ntohs hport]
    rfl

/-- Decoding nothing. -/
lemma Collects.nil : Collects .ok [] := fun peers => ⟨peers, rfl, rfl⟩

/-- One decoder after the other. -/
lemma Collects.bind {f g : List PeerInfo → Except TrackerError (List PeerInfo)}
    {ks ls : List (InAddr × ℕ)} (hf : Collects f ks) (hg : Collects g ls) :
    Collects (fun peers => (f peers).bind g) (ks ++ ls) := by
  intro peers
  obtain ⟨peers₁, hf₁, hkeys₁⟩ := hf peers
  obtain ⟨peers₂, hg₂, hkeys₂⟩ := hg peers₁
  refine ⟨peers₂, ?_, ?_⟩
  · dsimp only
    rw [hf₁]
    exact hg₂
  · rw [hkeys₂, hkeys₁, List.foldl_append]

/-- A loop of decoders. -/
lemma Collects.foldlM {ι : Type*} {f : List PeerInfo → ι → Except TrackerError (List PeerInfo)}
    {k : ι → InAddr × ℕ} {xs : List ι} (hf : ∀ x ∈ xs, Collects (fun peers => f peers x) [k x]) :
    Collects (fun peers => xs.foldlM f peers) (xs.map k) := by
  induction xs with
  | nil => exact Collects.nil
  | cons x xs ih =>
    exact (hf x List.mem_cons_self).bind (ih fun y hy => hf y (List.mem_cons_of_mem x hy))

/-- The peers of a compact string: four bytes of address and two of port for each. -/
def compactKeys : ByteString → List (InAddr × ℕ)
  | a :: b :: c :: d :: e :: f :: rest => (⟨a, b, c, d⟩, ofBE [e, f]) :: compactKeys rest
  | _ => []

/-- Two bytes are a 16-bit word. -/
lemma ofBE_lt_of_length {b : ByteString} (hb : b.length = 2) : ofBE b < 65536 := by
  have hlt := ofBE_lt b
  rw [hb] at hlt
  exact hlt

/-- The loop of `udp_tracker_client::read` collects the peers of the compact string. -/
lemma readPeers_collects (bytes : ByteString) : Collects (readPeers bytes) (compactKeys bytes) := by
  induction bytes using compactKeys.induct with
  | case1 a b c d e f rest ih =>
    have hip : saddrToStr (ofBE [a, b, c, d]) = inetNtop ⟨a, b, c, d⟩ :=
      saddrToStr_ofBE ⟨a, b, c, d⟩
    have hkeys : compactKeys (a :: b :: c :: d :: e :: f :: rest) =
        [(⟨a, b, c, d⟩, ofBE [e, f])] ++ compactKeys rest := rfl
    intro peers
    rw [hkeys, readPeers.eq_1, hip]
    exact (addPeer_collects (ofBE_lt_of_length rfl) (fun _ => sameUdpPeer_iff) []).bind ih peers
  | case2 bytes hshort =>
    intro peers
    rw [compactKeys, readPeers]
    · exact ⟨peers, rfl, rfl⟩
    · exact hshort
    · exact hshort

/-- The address and port that the loop over a compact string reads at an offset. -/
def keyAt (oob : Oob) (s : ByteString) (offset : ℕ) : InAddr × ℕ :=
  (⟨byteAt oob s offset, byteAt oob s (offset + 1), byteAt oob s (offset + 2),
    byteAt oob s (offset + 3)⟩, ofBE (window oob s (offset + 4) 2))

variable (env : TrackerEnv)

/-- A pass of the loop over a compact string collects what it reads. -/
lemma parseCompact_collects (s : ByteString) (offset : ℕ) :
    Collects (fun peers => parseCompact env s peers offset) [keyAt env.oob s offset] := by
  have hip : saddrToStr (ntohl (ofBE (window env.oob s offset 4).reverse)) =
      inetNtop (keyAt env.oob s offset).1 := by
    rw [ntohl_ofBE (by simp), List.reverse_reverse]
    exact saddrToStr_ofBE (keyAt env.oob s offset).1
  have hport : ntohs (ofBE (window env.oob s (offset + 4) 2).reverse) =
      (keyAt env.oob s offset).2 := by
    rw [ntohs_ofBE (by simp), List.reverse_reverse]
    rfl
  have hlt : (keyAt env.oob s offset).2 < 65536 := by
    exact ofBE_lt_of_length (length_window _ _ _ _)
  unfold parseCompact
  rw [hip, hport]
  exact addPeer_collects hlt (fun _ => samePeer_iff) []

/-- An entry of a list with a valid address is collected. -/
lemma parseEntry_collects {entry : BNode} {addr : InAddr}
    (haddr : inetPton (entry.entryIp env) = some addr) :
    Collects (fun peers => parseEntry env peers entry) [(addr, entry.entryPort env)] := by
  have hport : entry.entryPort env < 65536 := by
    unfold BNode.entryPort toUInt16
    omega
  unfold parseEntry
  rw [inetPton_eq_some_iff.mp haddr]
  exact addPeer_collects hport (fun _ => samePeer_iff) _

/-- What is read behind some bytes is what is read without them. -/
lemma keyAt_append (oob : Oob) (b s : ByteString) (offset : ℕ) (h : offset + 6 ≤ s.length) :
    keyAt oob (b ++ s) (b.length + offset) = keyAt oob s offset := by
  have hbyte : ∀ i < 6,
      byteAt oob (b ++ s) (b.length + offset + i) = byteAt oob s (offset + i) := by
    intro i hi
    have hlt : offset + i < s.length := by omega
    have hlt' : b.length + (offset + i) < (b ++ s).length := by
      rw [List.length_append]
      omega
    rw [Nat.add_assoc, byteAt, byteAt, List.getD_eq_getElem _ _ hlt, List.getD_eq_getElem _ _ hlt',
      List.getElem_append_right (by omega)]
    simp
  have hwindow : window oob (b ++ s) (b.length + offset + 4) 2 = window oob s (offset + 4) 2 := by
    refine List.map_congr_left fun j hj => ?_
    rw [List.mem_range] at hj
    have hadd := hbyte (4 + j) (by omega)
    rwa [← Nat.add_assoc, ← Nat.add_assoc] at hadd
  have hbyte0 := hbyte 0 (by omega)
  rw [Nat.add_zero, Nat.add_zero] at hbyte0
  unfold keyAt
  rw [hbyte0, hbyte 1 (by omega), hbyte 2 (by omega), hbyte 3 (by omega), hwindow]

/-- The compact string, cut at the offsets of the loop; the oracle is not asked. -/
lemma compactKeys_eq (oob : Oob) (s : ByteString) :
    compactKeys s = (List.range (s.length / 6)).map fun i => keyAt oob s (6 * i) := by
  induction s using compactKeys.induct with
  | case1 a b c d e f rest ih =>
    have hlen : (a :: b :: c :: d :: e :: f :: rest).length / 6 = rest.length / 6 + 1 := by
      simp only [List.length_cons]
      omega
    rw [compactKeys, ih, hlen, List.range_succ_eq_map, List.map_cons, List.map_map]
    congr 1
    refine List.map_congr_left fun i hi => ?_
    have hlt := List.mem_range.mp hi
    have hadd := keyAt_append oob [a, b, c, d, e, f] rest (6 * i) (by omega)
    rw [← hadd, Function.comp_apply, Nat.mul_succ, Nat.add_comm (6 * i)]
    rfl
  | case2 s hshort =>
    have hlen : s.length / 6 = 0 := by
      refine Nat.div_eq_of_lt (Nat.lt_of_not_le fun hcon => ?_)
      obtain ⟨head, hhead⟩ : ∃ head, head = s.take 6 := ⟨_, rfl⟩
      have hlen6 : head.length = 6 := by rw [hhead, List.length_take]; omega
      rcases head with _ | ⟨a, _ | ⟨b, _ | ⟨c, _ | ⟨d, _ | ⟨e, _ | ⟨f, _ | ⟨g, head⟩⟩⟩⟩⟩⟩⟩
      all_goals simp at hlen6
      refine hshort a b c d e f (s.drop 6) ?_
      rw [← List.take_append_drop 6 s, ← hhead]
      simp
    rw [compactKeys, hlen]
    · rfl
    · exact hshort

/-! ### Datagrams -/

namespace UdpTracker

/-- A datagram is not both a connect response and an announce response. -/
lemma not_answers_one {env : UdpEnv} {d : Datagram} {u : UdpTracker}
    (h : u.answers env 0 d = true) : u.answers env 1 d = false := by
  simp only [answers, Bool.and_eq_true, beq_iff_eq] at h
  simp [answers, h.2]

/-- Everything that reading a datagram can do; it never throws. -/
theorem read_cases (env : UdpEnv) (d : Datagram) (u : UdpTracker) {P : UdpTracker → Prop}
    (hconnect : u.answers env 0 d = true → P (u.announceTo env d))
    (hannounce : ∀ peers, u.answers env 0 d = false → u.answers env 1 d = true →
      keysOf peers = (compactKeys (d.bytes.drop 20)).foldl addKey (keysOf u.receivedPeers) →
      P (u.setPeers (d.header env.oob) peers))
    (hother : u.answers env 0 d = false → u.answers env 1 d = false → P u) :
    ∃ u', u.read env d = .ok u' ∧ P u' := by
  unfold read
  cases h₀ : u.answers env 0 d with
  | true => exact ⟨_, rfl, hconnect h₀⟩
  | false =>
    cases h₁ : u.answers env 1 d with
    | false => exact ⟨u, rfl, hother h₀ h₁⟩
    | true =>
      obtain ⟨peers, hread, hkeys⟩ := readPeers_collects (d.bytes.drop 20) u.receivedPeers
      refine ⟨u.setPeers (d.header env.oob) peers, ?_, hannounce peers h₀ h₁ hkeys⟩
      rw [hread]
      rfl

end UdpTracker

/-! ### Answers of HTTP trackers -/

/-- The addresses and ports that a decoded answer announces. -/
def BNode.announced (node : BNode) : List (InAddr × ℕ) :=
  match node.peerList env, node.peerString env with
  | some peerList, _ =>
    peerList.filterMap fun entry =>
      (inetPton (entry.entryIp env)).map fun addr => (addr, entry.entryPort env)
  | none, some peerString => compactKeys peerString
  | none, none => []

/-- The addresses and ports that an answer announces. -/
def HttpResponse.announced (resp : HttpResponse) : List (InAddr × ℕ) :=
  if resp.status = 200 then ((env.bdecode resp.body).map (BNode.announced env)).getD [] else []

/-- The addresses in a list are in dotted decimal, and a compact string has whole entries only. -/
structure BNode.WellFormed (node : BNode) : Prop where
  /-- The addresses of a list of dictionaries. -/
  valid_ip : ∀ peerList, node.peerList env = some peerList →
    ∀ entry ∈ peerList, (inetPton (entry.entryIp env)).isSome = true
  /-- The length of a compact string. -/
  six_dvd : ∀ peerString, node.peerString env = some peerString → 6 ∣ peerString.length

/-- An answer that is decoded is well-formed. -/
def HttpResponse.WellFormed (resp : HttpResponse) : Prop :=
  resp.status = 200 → ∀ node, env.bdecode resp.body = some node → node.WellFormed env

variable {env}

/-- The loop over a list with valid addresses collects them all. -/
lemma parseEntries_collects {peerList : List BNode}
    (hvalid : ∀ entry ∈ peerList, (inetPton (entry.entryIp env)).isSome = true) :
    Collects (fun peers => peerList.foldlM (parseEntry env) peers)
      (peerList.filterMap fun entry =>
        (inetPton (entry.entryIp env)).map fun addr => (addr, entry.entryPort env)) := by
  induction peerList with
  | nil => exact Collects.nil
  | cons entry peerList ih =>
    obtain ⟨addr, haddr⟩ := Option.isSome_iff_exists.mp (hvalid entry List.mem_cons_self)
    rw [List.filterMap_cons, haddr]
    exact (parseEntry_collects env haddr).bind
      (ih fun other hother => hvalid other (List.mem_cons_of_mem entry hother))

/-- The loop over a compact string collects what its passes read. -/
lemma parseCompact_loop_collects (peerString : ByteString) :
    Collects (fun peers =>
      (compactOffsets peerString.length).foldlM (parseCompact env peerString) peers)
      ((compactOffsets peerString.length).map (keyAt env.oob peerString)) :=
  Collects.foldlM fun offset _ => parseCompact_collects env peerString offset

/-- The loop over a compact string of whole entries collects them all. -/
lemma parseCompacts_collects {peerString : ByteString} (hdvd : 6 ∣ peerString.length) :
    Collects (fun peers =>
      (compactOffsets peerString.length).foldlM (parseCompact env peerString) peers)
      (compactKeys peerString) := by
  have hcount : (peerString.length + 5) / 6 = peerString.length / 6 := by omega
  have hkeys : compactKeys peerString =
      (compactOffsets peerString.length).map (keyAt env.oob peerString) := by
    rw [compactKeys_eq env.oob, compactOffsets, List.map_map, hcount]
    rfl
  rw [hkeys]
  exact parseCompact_loop_collects peerString

/-- `parse_peers` collects what a well-formed answer announces. -/
lemma parsePeers_collects {resp : HttpResponse} (hresp : resp.WellFormed env)
    (hstatus : resp.status = 200) : Collects (parsePeers env resp.body) (resp.announced env) := by
  intro peers
  unfold HttpResponse.announced parsePeers
  rw [if_pos hstatus]
  cases hdecoded : env.bdecode resp.body with
  | none => exact Collects.nil peers
  | some node =>
    have hnode := hresp hstatus node hdecoded
    rw [Option.map_some, Option.getD_some, BNode.announced]
    dsimp only
    cases hlist : node.peerList env with
    | some peerList => exact parseEntries_collects (hnode.valid_ip peerList hlist) peers
    | none =>
      cases hstring : node.peerString env with
      | none => exact Collects.nil peers
      | some peerString => exact parseCompacts_collects (hnode.six_dvd peerString hstring) peers

/-! ### Runs -/

/-- What can happen to a client. -/
inductive TrackerLabel where
  /-- A URL is requested. -/
  | get (url : ByteString)
  /-- An answer of an HTTP tracker is handled. -/
  | http (resp : HttpResponse)
  /-- A step of the UDP client. -/
  | udp (label : UdpLabel)
deriving DecidableEq, Repr

namespace TrackerClient

variable (env)

/-- A client at the beginning of `announce`, after `received_peers` was cleared. -/
def initial (ep : Endpoint) : TrackerClient := ⟨.initial [] ep, []⟩

/-- One step of a client. -/
def step (t : TrackerClient) : TrackerLabel → TrackerClient
  | .get url => t.get url
  | .http resp => (t.handle env resp).toOption.getD t
  | .udp label => { t with udp := t.udp.step env.toUdpEnv label }

/-- The addresses and ports that are announced by what is handled in a step: an answer of an HTTP
tracker, or a datagram that is taken for an announce response. -/
def announces (t : TrackerClient) : TrackerLabel → List (InAddr × ℕ)
  | .http resp => resp.announced env
  | .udp (.datagram d) =>
    if t.udp.polling && t.udp.answers env.toUdpEnv 1 d then compactKeys (d.bytes.drop 20) else []
  | _ => []

/-- The addresses and ports that are announced in a run. -/
def announcedIn : TrackerClient → List TrackerLabel → List (InAddr × ℕ)
  | _, [] => []
  | t, label :: labels => t.announces env label ++ announcedIn (t.step env label) labels

/-- The addresses and ports of the peers that were received. -/
def keys (t : TrackerClient) : List (InAddr × ℕ) := keysOf t.udp.receivedPeers

variable {env}

/-- Reading a datagram collects what it announces. -/
lemma keys_step_datagram (t : TrackerClient) (d : Datagram) :
    (t.step env (.udp (.datagram d))).keys =
      (t.announces env (.udp (.datagram d))).foldl addKey t.keys := by
  unfold keys step announces UdpTracker.step
  dsimp only
  cases hpolling : t.udp.polling with
  | false => rfl
  | true =>
    rw [if_pos rfl, Bool.true_and]
    obtain ⟨u, hread, hkeys⟩ := UdpTracker.read_cases env.toUdpEnv d t.udp (P := fun u =>
      keysOf u.receivedPeers =
        (if t.udp.answers env.toUdpEnv 1 d then compactKeys (d.bytes.drop 20) else []).foldl
          addKey (keysOf t.udp.receivedPeers))
      (fun h₀ => by rw [UdpTracker.not_answers_one h₀]; rfl)
      (fun peers _ h₁ hkeys => by rw [h₁, if_pos rfl]; exact hkeys)
      (fun _ h₁ => by rw [h₁]; rfl)
    rw [hread]
    exact hkeys

/-- Every step collects what it announces. -/
lemma keys_step {t : TrackerClient} {label : TrackerLabel}
    (hlabel : ∀ resp, label = .http resp → resp.WellFormed env) :
    (t.step env label).keys = (t.announces env label).foldl addKey t.keys := by
  cases label with
  | get url => rfl
  | http resp =>
    unfold keys step announces handle
    dsimp only
    split_ifs with hstatus
    · obtain ⟨peers, hparse, hkeys⟩ := parsePeers_collects (hlabel resp rfl) hstatus
        t.udp.receivedPeers
      rw [hparse]
      exact hkeys
    · rw [HttpResponse.announced, if_neg hstatus]
      rfl
  | udp label =>
    cases label with
    | resolve host => rfl
    | connect ep transactionId sent => rfl
    | datagram d => exact keys_step_datagram t d

/-- A run collects what it announces. -/
lemma keys_run {t : TrackerClient} {labels : List TrackerLabel}
    (hlabels : ∀ resp, .http resp ∈ labels → resp.WellFormed env) :
    (run (step env) t labels).keys = (announcedIn env t labels).foldl addKey t.keys := by
  induction labels generalizing t with
  | nil => rfl
  | cons label labels ih =>
    rw [run_cons, ih fun resp hresp => hlabels resp (List.mem_cons_of_mem label hresp),
      keys_step fun resp hresp => hlabels resp (hresp ▸ List.mem_cons_self), announcedIn,
      List.foldl_append]

/-- The peer list is free of duplicates and complete: at every time of every run, no two peers have
the same address and port, and the addresses and ports are those that were announced so far. -/
theorem peers_exact (env : TrackerEnv) (ep : Endpoint) (labels : List TrackerLabel)
    (hlabels : ∀ resp, .http resp ∈ labels → resp.WellFormed env) :
    ∀ handled, handled <+: labels →
      (run (step env) (initial ep) handled).keys.Nodup ∧
      ∀ k, k ∈ (run (step env) (initial ep) handled).keys ↔
        k ∈ announcedIn env (initial ep) handled := by
  intro handled hprefix
  rw [keys_run fun resp hresp => hlabels resp (List.IsPrefix.subset hprefix hresp)]
  refine ⟨nodup_foldl_addKey List.nodup_nil, fun k => ?_⟩
  rw [mem_foldl_addKey]
  exact or_iff_right List.not_mem_nil

end TrackerClient

/-! ### Three answers with the same peer -/

/-- A bencoded answer with a list of one dictionary. -/
def sampleListBody : ByteString :=
  ascii ['d', '5', ':', 'p', 'e', 'e', 'r', 's', 'l', 'd', '2', ':', 'i', 'p', '7', ':', '1', '.',
    '2', '.', '3', '.', '4', '4', ':', 'p', 'o', 'r', 't', 'i', '6', '8', '8', '1', 'e', 'e', 'e',
    'e']

/-- The tree of that answer. -/
def sampleListNode : BNode :=
  .dict [(ascii ['p', 'e', 'e', 'r', 's'], .list [.dict [
    (ascii ['i', 'p'], .string (ascii ['1', '.', '2', '.', '3', '.', '4'])),
    (ascii ['p', 'o', 'r', 't'], .int 6881)]])]

/-- A bencoded answer with a compact string of one peer. -/
def sampleCompactBody : ByteString :=
  ascii ['d', '5', ':', 'p', 'e', 'e', 'r', 's', '6', ':'] ++ [1, 2, 3, 4, 26, 225] ++ ascii ['e']

/-- The tree of that answer. -/
def sampleCompactNode : BNode :=
  .dict [(ascii ['p', 'e', 'e', 'r', 's'], .string [1, 2, 3, 4, 26, 225])]

/-- An environment whose `bdecode` knows the two answers. -/
def sampleTrackerEnv : TrackerEnv where
  oob := fun _ _ => 0
  peerId := List.replicate 20 7
  infoHash := List.replicate 40 48
  totalSize := 1
  localPort := 6881
  bdecode := fun body =>
    if body = sampleListBody then some sampleListNode
    else if body = sampleCompactBody then some sampleCompactNode
    else none
  strayFind := fun _ _ => none

/-- The address `1.2.3.4` and the port 6881. -/
def sampleEndpoint : Endpoint := ⟨ntohs 6881, ⟨1, 2, 3, 4⟩⟩

/-- The peer is announced in a list, in a compact string, and twice over UDP. -/
def sampleTrackerLabels : List TrackerLabel :=
  [.http ⟨200, [], sampleListBody⟩, .http ⟨200, [], sampleCompactBody⟩,
   .udp (.connect sampleEndpoint 7 true),
   .udp (.datagram ⟨toBE 4 0 ++ toBE 4 7 ++ toBE 8 5, 0, 9, true⟩),
   .udp (.datagram ⟨toBE 4 1 ++ toBE 4 9 ++ toBE 12 0 ++ [1, 2, 3, 4, 26, 225], 0, 0, true⟩),
   .udp (.datagram ⟨toBE 4 1 ++ toBE 4 9 ++ toBE 12 0 ++ [1, 2, 3, 4, 26, 225], 0, 0, true⟩)]

/-- The answer with a list is well-formed. -/
lemma wellFormed_sampleListNode : sampleListNode.WellFormed sampleTrackerEnv where
  valid_ip peerList hlist entry hentry := by
    obtain rfl : _ = peerList := Option.some.inj hlist
    obtain rfl : entry = _ := List.mem_singleton.mp hentry
    decide +kernel
  six_dvd peerString hstring := by
    exact absurd hstring (Option.some_ne_none peerString ∘ Eq.symm)

/-- The answer with a compact string is well-formed. -/
lemma wellFormed_sampleCompactNode : sampleCompactNode.WellFormed sampleTrackerEnv where
  valid_ip peerList hlist := by
    exact absurd hlist (Option.some_ne_none peerList ∘ Eq.symm)
  six_dvd peerString hstring := by
    obtain rfl : _ = peerString := Option.some.inj hstring
    decide

namespace TrackerClient

/-- The peer is there once, although it was announced four times. -/
theorem peers_exact_sample :
    (run (step sampleTrackerEnv) (initial sampleEndpoint) sampleTrackerLabels).keys.Nodup ∧
      ∀ k, k ∈ (run (step sampleTrackerEnv) (initial sampleEndpoint) sampleTrackerLabels).keys ↔
        k ∈ announcedIn sampleTrackerEnv (initial sampleEndpoint) sampleTrackerLabels := by
  refine peers_exact sampleTrackerEnv sampleEndpoint sampleTrackerLabels (fun resp hresp => ?_)
    sampleTrackerLabels List.prefix_rfl
  simp only [sampleTrackerLabels, List.mem_cons, TrackerLabel.http.injEq, reduceCtorEq, or_false,
    List.not_mem_nil] at hresp
  rcases hresp with rfl | rfl
  · intro _ node hnode
    have hdecoded : sampleTrackerEnv.bdecode sampleListBody = some sampleListNode := by
      simp [sampleTrackerEnv]
    obtain rfl : sampleListNode = node := Option.some.inj (hdecoded.symm.trans hnode)
    exact wellFormed_sampleListNode
  · intro _ node hnode
    have hne : sampleCompactBody ≠ sampleListBody := by decide +kernel
    have hdecoded : sampleTrackerEnv.bdecode sampleCompactBody = some sampleCompactNode := by
      simp [sampleTrackerEnv, hne]
    obtain rfl : sampleCompactNode = node := Option.some.inj (hdecoded.symm.trans hnode)
    exact wellFormed_sampleCompactNode

example : (run (step sampleTrackerEnv) (initial sampleEndpoint) sampleTrackerLabels).keys =
    [(⟨1, 2, 3, 4⟩, 6881)] := by
  decide +kernel

end TrackerClient

end Tent
