import Tent.Tracker.Peers

/-!
# Announcing to all trackers

`tracker_client::announce` goes through the trackers and handles what they answer.  First, it is a
run of the client in the sense of `Tent.Tracker.Peers` (`announce_eq_run`), so that what holds along
runs holds of it.  Second, it does not catch what is thrown below it, and three things are: the
constructor of `endpoint` rejects an address, a redirection has no field `Location`, and the port of
a UDP tracker is no number.  `announce_robust_iff` says that these are all: `announce` returns, with
every peer that was announced, exactly if none of them occurs.
-/

set_option autoImplicit false

namespace Tent

open Bytes Collect Transition

/-! ### Announcing is a run -/

/-- What happens at an address of a UDP tracker. -/
def AddrInfo.labels (port : ℤ) (info : AddrInfo) : List UdpLabel :=
  match info.addr with
  | none => []
  | some addr =>
    .connect ⟨ntohs (toUInt16 port), addr⟩ info.attempt.transactionId info.attempt.sent ::
      if info.attempt.sent then info.attempt.datagrams.map .datagram else []

/-- What happens at a UDP tracker. -/
def UdpTracker.labels (url : ByteString) (infos : Option (List AddrInfo)) : List UdpLabel :=
  match UdpUrl.parse url with
  | none => []
  | some parsed =>
    .resolve (cStr parsed.peername) ::
      (infos.getD []).flatMap (AddrInfo.labels ((stoi parsed.peerPort).toOption.getD 0))

namespace UdpTracker

variable {env : UdpEnv}

/-- Reading a datagram while polling is a step, and the client goes on polling. -/
lemma read_eq_step {u v : UdpTracker} {d : Datagram} (hpolling : u.polling = true)
    (h : u.read env d = .ok v) :
    v = run (step env) u [.datagram d] ∧ v.polling = true := by
  have hstep : v = u.step env (.datagram d) := by
    unfold step
    dsimp only
    rw [hpolling, if_pos rfl, h]
    rfl
  refine ⟨hstep, ?_⟩
  obtain ⟨v', hread, hv'⟩ := read_cases env d u (P := fun v => v.polling = true)
    (fun _ => hpolling) (fun _ _ _ _ => hpolling) (fun _ _ => hpolling)
  obtain rfl : v' = v := Except.ok.inj (hread.symm.trans h)
  exact hv'

/-- The body of the loop over the addresses is a run. -/
lemma announceAt_eq_run {u v : UdpTracker} {peerPort : ByteString} {info : AddrInfo}
    (h : u.announceAt env peerPort info = .ok v) :
    v = run (step env) u (info.labels ((stoi peerPort).toOption.getD 0)) := by
  unfold announceAt at h
  unfold AddrInfo.labels
  cases haddr : info.addr with
  | none =>
    rw [haddr] at h
    exact (Except.ok.inj h).symm
  | some addr =>
    rw [haddr] at h
    obtain ⟨port, hport, hsend⟩ := bind_eq_ok.mp h
    rw [hport]
    dsimp only at hsend ⊢
    rw [run_cons]
    cases hsent : info.attempt.sent with
    | false =>
      rw [hsent] at hsend
      exact (Except.ok.inj hsend).symm
    | true =>
      rw [hsent, if_pos rfl] at hsend
      have hrun := run_of_foldlM_ok (g := fun d => [UdpLabel.datagram d])
        (I := fun u => u.polling = true) (fun _ _ _ hu hread => read_eq_step hu hread) rfl hsend
      rw [if_pos rfl, List.map_eq_flatMap]
      exact hrun

/-- `udp_tracker_client::announce` is a run. -/
lemma announce_eq_run {u v : UdpTracker} {url : ByteString} {infos : Option (List AddrInfo)}
    (h : u.announce env url infos = .ok v) : v = run (step env) u (labels url infos) := by
  unfold announce at h
  unfold labels
  cases hparse : UdpUrl.parse url with
  | none =>
    rw [hparse] at h
    exact (Except.ok.inj h).symm
  | some parsed =>
    rw [hparse] at h
    dsimp only at h ⊢
    rw [run_cons]
    cases infos with
    | none => exact (Except.ok.inj h).symm
    | some infos =>
      exact run_of_foldlM_ok (I := fun _ => True)
        (fun _ _ _ _ hpass => ⟨announceAt_eq_run hpass, trivial⟩) trivial h

end UdpTracker

/-- The answer of an HTTP tracker that is looked at: that to the redirected request, if there is
one. -/
def Tracker.answer (tracker : Tracker) : HttpResponse :=
  if tracker.first.status = 301 then tracker.second else tracker.first

/-- What happens at a tracker. -/
def Tracker.labels (env : TrackerEnv) (tracker : Tracker) : List TrackerLabel :=
  if (findText (ascii ['u', 'd', 'p']) tracker.url).isSome then
    (UdpTracker.labels tracker.url tracker.infos).map .udp
  else
    .get (TrackerClient.httpUrl env tracker.url) ::
      if tracker.first.status = 301 then
        [.get (tracker.first.location.getD []), .http tracker.answer]
      else [.http tracker.answer]

namespace TrackerClient

variable {env : TrackerEnv}

/-- A run of the UDP client inside the tracker client. -/
lemma run_udp (t : TrackerClient) (labels : List UdpLabel) :
    run (step env) t (labels.map .udp) =
      { t with udp := run (UdpTracker.step env.toUdpEnv) t.udp labels } := by
  induction labels generalizing t with
  | nil => rfl
  | cons label labels ih => rw [List.map_cons, run_cons, run_cons, ih]; rfl

/-- Handling an answer is a step. -/
lemma handle_eq_step {t v : TrackerClient} {resp : HttpResponse}
    (h : t.handle env resp = .ok v) : v = t.step env (.http resp) := by
  unfold step
  dsimp only
  rw [h]
  rfl

/-- The body of the loop over the trackers is a run. -/
lemma announceTo_eq_run {t v : TrackerClient} {tracker : Tracker}
    (h : t.announceTo env tracker = .ok v) : v = run (step env) t (tracker.labels env) := by
  unfold announceTo at h
  unfold Tracker.labels
  split_ifs at h ⊢ with hudp hmoved
  · obtain ⟨udp, hannounce, rfl⟩ := map_eq_ok.mp h
    rw [run_udp, ← UdpTracker.announce_eq_run hannounce]
  · obtain ⟨location, hfield, hhandle⟩ := bind_eq_ok.mp h
    unfold HttpResponse.field at hfield
    cases hlocation : tracker.first.location with
    | none =>
      rw [hlocation] at hfield
      cases hfield
    | some location' =>
      rw [hlocation] at hfield
      obtain rfl : location' = location := Except.ok.inj hfield
      rw [Tracker.answer, if_pos hmoved, Option.getD_some]
      exact handle_eq_step hhandle
  · rw [Tracker.answer, if_neg hmoved]
    exact handle_eq_step h

/-- `tracker_client::announce` is a run over what happens at its trackers. -/
theorem announce_eq_run {ep : Endpoint} {trackers : List Tracker} {receivedPeers : List PeerInfo}
    {result : Bool} {t : TrackerClient} (htrackers : trackers ≠ [])
    (h : announce env ep trackers receivedPeers = .ok (result, t)) :
    t = run (step env) (initial ep) (trackers.flatMap (Tracker.labels env)) := by
  unfold announce at h
  rw [if_neg (by simpa using htrackers)] at h
  obtain ⟨v, hfold, hresult⟩ := map_eq_ok.mp h
  obtain rfl : v = t := congrArg Prod.snd hresult
  exact run_of_foldlM_ok (I := fun _ => True)
    (fun _ _ _ _ hpass => ⟨announceTo_eq_run hpass, trivial⟩) trivial hfold

end TrackerClient

/-! ### What is thrown -/

/-- Every address in the list of a decoded answer is accepted by the constructor of `endpoint`. -/
def HttpResponse.Accepted (env : TrackerEnv) (resp : HttpResponse) : Prop :=
  resp.status = 200 → ∀ node, env.bdecode resp.body = some node →
    ∀ peerList, node.peerList env = some peerList →
      ∀ entry ∈ peerList, (inetPton (cStr (entry.entryIp env))).isSome = true

/-- Nothing about a tracker makes the client throw: the port of a UDP tracker with an IPv4 address
is a number, a redirection says where to, and the addresses in the answer are accepted. -/
def Tracker.Harmless (env : TrackerEnv) (tracker : Tracker) : Prop :=
  if (findText (ascii ['u', 'd', 'p']) tracker.url).isSome then
    ∀ parsed, UdpUrl.parse tracker.url = some parsed → ∀ infos, tracker.infos = some infos →
      ∀ info ∈ infos, info.addr.isSome = true → (stoi parsed.peerPort).isOk = true
  else
    (tracker.first.status = 301 → tracker.first.location.isSome = true) ∧
      tracker.answer.Accepted env

section Throwing

variable {env : TrackerEnv}

/-- An entry is pushed or found exactly if its address is accepted: an address that is not is none
that `inet_ntop` prints. -/
lemma parseEntry_ok_iff (peers : List PeerInfo) (entry : BNode) :
    (∃ peers', parseEntry env peers entry = .ok peers') ↔
      (inetPton (cStr (entry.entryIp env))).isSome = true := by
  unfold parseEntry addPeer
  split_ifs with hany
  · refine iff_of_true ⟨peers, rfl⟩ ?_
    obtain ⟨peer, -, hsame⟩ := List.any_eq_true.mp hany
    rw [samePeer, Bool.and_eq_true, beq_iff_eq] at hsame
    rw [← hsame.1, cStr_inetNtop, inetPton_inetNtop]
    rfl
  · rw [exists_map_ok_iff, PeerInfo.create, exists_map_ok_iff, Endpoint.create]
    cases inetPton (cStr (entry.entryIp env)) with
    | none =>
      refine iff_of_false ?_ (by simp)
      rintro ⟨endpoint, h⟩
      cases h
    | some addr => exact iff_of_true ⟨_, rfl⟩ rfl

/-- `parse_peers` returns exactly if all addresses of the list are accepted. -/
lemma handle_ok_iff (t : TrackerClient) (resp : HttpResponse) :
    (∃ v, t.handle env resp = .ok v) ↔ resp.Accepted env := by
  unfold TrackerClient.handle HttpResponse.Accepted
  split_ifs with hstatus
  · rw [exists_map_ok_iff]
    unfold parsePeers
    cases hdecoded : env.bdecode resp.body with
    | none => simp
    | some node =>
      simp only [hstatus, Option.some.injEq, forall_const, forall_eq']
      cases hlist : node.peerList env with
      | some peerList =>
        simp only [Option.some.injEq, forall_eq']
        exact exists_foldlM_ok_iff parseEntry_ok_iff peerList t.udp.receivedPeers
      | none =>
        refine iff_of_true ?_ (by simp)
        cases hstring : node.peerString env with
        | none => exact ⟨_, rfl⟩
        | some peerString =>
          obtain ⟨peers, hfold, -⟩ := Collects.foldlM
            (fun offset _ => parseCompact_collects env peerString offset) t.udp.receivedPeers
          exact ⟨peers, hfold⟩
  · exact iff_of_true ⟨t, rfl⟩ fun h => absurd h hstatus

/-- The body of the loop over the addresses throws only for an IPv4 address, if the port is no
number. -/
lemma announceAt_ok_iff {udpEnv : UdpEnv} (peerPort : ByteString) (u : UdpTracker)
    (info : AddrInfo) :
    (∃ v, u.announceAt udpEnv peerPort info = .ok v) ↔
      (info.addr.isSome = true → (stoi peerPort).isOk = true) := by
  unfold UdpTracker.announceAt
  cases haddr : info.addr with
  | none => exact iff_of_true ⟨u, rfl⟩ (by simp)
  | some addr =>
    dsimp only
    cases hport : stoi peerPort with
    | error e =>
      refine iff_of_false ?_ (by simp [Except.isOk, Except.toBool])
      rintro ⟨v, h⟩
      cases h
    | ok port =>
      refine iff_of_true ?_ fun _ => rfl
      change ∃ v, (if info.attempt.sent = true then _ else _) = _
      split_ifs
      · refine (exists_foldlM_ok_iff (Q := fun _ => True) (fun u d => ?_) _ _).mpr
          fun _ _ => trivial
        obtain ⟨v, hread, -⟩ := UdpTracker.read_cases udpEnv d u (P := fun _ => True)
          (fun _ => trivial) (fun _ _ _ _ => trivial) (fun _ _ => trivial)
        exact iff_of_true ⟨v, hread⟩ trivial
      · exact ⟨_, rfl⟩

variable (env) in
/-- The body of the loop over the trackers returns exactly if the tracker is harmless. -/
lemma announceTo_ok_iff (t : TrackerClient) (tracker : Tracker) :
    (∃ v, t.announceTo env tracker = .ok v) ↔ tracker.Harmless env := by
  unfold TrackerClient.announceTo Tracker.Harmless
  split_ifs with hudp hmoved
  · rw [exists_map_ok_iff, UdpTracker.announce]
    cases hparse : UdpUrl.parse tracker.url with
    | none => simp
    | some parsed =>
      dsimp only
      cases hinfos : tracker.infos with
      | none => simp
      | some infos =>
        simp only [Option.some.injEq, forall_eq']
        exact exists_foldlM_ok_iff (announceAt_ok_iff parsed.peerPort) infos _
  · rw [Tracker.answer, if_pos hmoved, HttpResponse.field]
    cases hlocation : tracker.first.location with
    | none =>
      refine iff_of_false ?_ (by simp [hmoved])
      rintro ⟨v, h⟩
      cases h
    | some location =>
      refine Iff.trans (handle_ok_iff _ tracker.second) ?_
      simp
  · rw [Tracker.answer, if_neg hmoved]
    refine Iff.trans (handle_ok_iff _ tracker.first) ?_
    simp [hmoved]

/-! ### What is gained -/

/-- Pushing a peer loses none. -/
lemma addPeer_gains {same : PeerInfo → Bool} {id ip : ByteString} {port : ℕ}
    {peers peers' : List PeerInfo} (h : addPeer same id ip port peers = .ok peers') :
    keysOf peers ⊆ keysOf peers' := by
  unfold addPeer at h
  split_ifs at h
  · rw [Except.ok.inj h]
    exact List.Subset.refl _
  · obtain ⟨peer, -, rfl⟩ := map_eq_ok.mp h
    rw [keysOf, keysOf, List.map_append]
    exact List.subset_append_left _ _

/-- What a decoder collects, it has afterwards. -/
lemma Collects.gains {decoder : List PeerInfo → Except TrackerError (List PeerInfo)}
    {ks : List (InAddr × ℕ)} (hdecoder : Collects decoder ks) {peers peers' : List PeerInfo}
    (h : decoder peers = .ok peers') : keysOf peers ⊆ keysOf peers' ∧ ks ⊆ keysOf peers' := by
  obtain ⟨peers'', hok, hkeys⟩ := hdecoder peers
  obtain rfl : peers'' = peers' := Except.ok.inj (hok.symm.trans h)
  rw [hkeys]
  exact ⟨fun k hk => mem_foldl_addKey.mpr (.inl hk), fun k hk => mem_foldl_addKey.mpr (.inr hk)⟩

/-- The loop over a list has all well-formed entries afterwards, whatever the others are. -/
lemma parseEntries_gains {peerList : List BNode} {peers peers' : List PeerInfo}
    (h : peerList.foldlM (parseEntry env) peers = .ok peers') :
    keysOf peers ⊆ keysOf peers' ∧
      (peerList.filterMap fun entry =>
        (inetPton (entry.entryIp env)).map fun addr => (addr, entry.entryPort env)) ⊆
          keysOf peers' := by
  induction peerList generalizing peers with
  | nil =>
    obtain rfl : peers = peers' := Except.ok.inj h
    exact ⟨List.Subset.refl _, by simp⟩
  | cons entry peerList ih =>
    rw [List.foldlM_cons] at h
    obtain ⟨peers₁, hentry, hfold⟩ := bind_eq_ok.mp h
    obtain ⟨hkeep, hrest⟩ := ih hfold
    refine ⟨List.Subset.trans (addPeer_gains hentry) hkeep, ?_⟩
    rw [List.filterMap_cons]
    cases haddr : inetPton (entry.entryIp env) with
    | none => exact hrest
    | some addr =>
      have hhere := ((parseEntry_collects env haddr).gains hentry).2
      exact List.cons_subset.mpr ⟨hkeep (hhere List.mem_cons_self), hrest⟩

/-- The whole entries of a compact string are among those that the loop reads. -/
lemma compactKeys_subset (oob : Oob) (s : ByteString) :
    compactKeys s ⊆ (compactOffsets s.length).map (keyAt oob s) := by
  rw [compactKeys_eq oob, compactOffsets, List.map_map]
  intro k hk
  obtain ⟨i, hi, rfl⟩ := List.mem_map.mp hk
  rw [List.mem_range] at hi
  exact List.mem_map.mpr ⟨i, List.mem_range.mpr (by omega), rfl⟩

/-- After an answer was handled, all well-formed entries of it are there. -/
lemma handle_gains {t v : TrackerClient} {resp : HttpResponse} (h : t.handle env resp = .ok v) :
    t.keys ⊆ v.keys ∧ resp.announced env ⊆ v.keys := by
  unfold TrackerClient.handle at h
  unfold HttpResponse.announced
  split_ifs at h ⊢ with hstatus
  · obtain ⟨peers, hparse, rfl⟩ := map_eq_ok.mp h
    change keysOf t.udp.receivedPeers ⊆ keysOf peers ∧ _ ⊆ keysOf peers
    unfold parsePeers at hparse
    cases hdecoded : env.bdecode resp.body with
    | none =>
      rw [hdecoded] at hparse
      obtain rfl : _ = peers := Except.ok.inj hparse
      exact ⟨List.Subset.refl _, by simp⟩
    | some node =>
      rw [hdecoded] at hparse
      rw [Option.map_some, Option.getD_some, BNode.announced]
      dsimp only at hparse
      cases hlist : node.peerList env with
      | some peerList =>
        rw [hlist] at hparse
        exact parseEntries_gains hparse
      | none =>
        rw [hlist] at hparse
        cases hstring : node.peerString env with
        | none =>
          rw [hstring] at hparse
          obtain rfl : _ = peers := Except.ok.inj hparse
          exact ⟨List.Subset.refl _, by simp⟩
        | some peerString =>
          rw [hstring] at hparse
          obtain ⟨hkeep, hread⟩ := (Collects.foldlM fun offset _ =>
            parseCompact_collects env peerString offset).gains hparse
          exact ⟨hkeep, List.Subset.trans (compactKeys_subset env.oob peerString) hread⟩
  · obtain rfl : t = v := Except.ok.inj h
    exact ⟨List.Subset.refl _, by simp⟩

end Throwing

namespace TrackerClient

variable {env : TrackerEnv}

/-- A step loses no peer and gains those that it announces. -/
lemma keys_step_gains {t : TrackerClient} {label : TrackerLabel}
    (hlabel : ∀ resp, label = .http resp → resp.Accepted env) :
    t.keys ⊆ (t.step env label).keys ∧ t.announces env label ⊆ (t.step env label).keys := by
  by_cases hhttp : ∃ resp, label = .http resp
  · obtain ⟨resp, rfl⟩ := hhttp
    obtain ⟨v, hhandle⟩ := (handle_ok_iff t resp).mpr (hlabel resp rfl)
    rw [← handle_eq_step hhandle]
    exact handle_gains hhandle
  · rw [keys_step fun resp hresp => absurd ⟨resp, hresp⟩ hhttp]
    exact ⟨fun k hk => mem_foldl_addKey.mpr (.inl hk), fun k hk => mem_foldl_addKey.mpr (.inr hk)⟩

/-- A run loses no peer and gains those that it announces. -/
lemma keys_run_gains {t : TrackerClient} {labels : List TrackerLabel}
    (hlabels : ∀ resp, .http resp ∈ labels → resp.Accepted env) :
    t.keys ⊆ (run (step env) t labels).keys ∧
      announcedIn env t labels ⊆ (run (step env) t labels).keys := by
  induction labels generalizing t with
  | nil => exact ⟨List.Subset.refl _, List.nil_subset _⟩
  | cons label labels ih =>
    have hlabel : ∀ resp, label = .http resp → resp.Accepted env := fun resp hresp =>
      hlabels resp (hresp ▸ List.mem_cons_self)
    obtain ⟨hkeep, hgain⟩ := keys_step_gains (t := t) hlabel
    obtain ⟨hkeep', hgain'⟩ := ih (t := t.step env label) fun resp hresp =>
      hlabels resp (List.mem_cons_of_mem label hresp)
    rw [run_cons, announcedIn]
    exact ⟨List.Subset.trans hkeep hkeep',
      List.append_subset.mpr ⟨List.Subset.trans hgain hkeep', hgain'⟩⟩

/-- The answers that are handled at harmless trackers are accepted. -/
lemma accepted_of_harmless {trackers : List Tracker}
    (htrackers : ∀ tracker ∈ trackers, tracker.Harmless env) (resp : HttpResponse)
    (hresp : .http resp ∈ trackers.flatMap (Tracker.labels env)) : resp.Accepted env := by
  obtain ⟨tracker, htracker, hlabel⟩ := List.mem_flatMap.mp hresp
  have hharmless := htrackers tracker htracker
  unfold Tracker.Harmless at hharmless
  unfold Tracker.labels at hlabel
  split_ifs at hharmless hlabel with hudp hmoved
  · obtain ⟨label, -, hcon⟩ := List.mem_map.mp hlabel
    cases hcon
  · simp only [List.mem_cons, reduceCtorEq, TrackerLabel.http.injEq, List.not_mem_nil, or_false,
      false_or] at hlabel
    exact hlabel ▸ hharmless.2
  · simp only [List.mem_cons, reduceCtorEq, TrackerLabel.http.injEq, List.not_mem_nil, or_false,
      false_or] at hlabel
    exact hlabel ▸ hharmless.2

/-- Bad data of a tracker is not fatal exactly if it is harmless: `announce` returns, its result
says whether there are peers, and every peer that was announced is there, exactly if no tracker
gives an address that is rejected, a redirection to nowhere or a port that is no number.  Without
trackers the list of peers is not cleared. -/
theorem announce_robust_iff (env : TrackerEnv) (ep : Endpoint) (trackers : List Tracker)
    (receivedPeers : List PeerInfo) :
    (∃ result t, announce env ep trackers receivedPeers = .ok (result, t) ∧
        (result = true ↔ t.udp.receivedPeers ≠ []) ∧
        ∀ k ∈ announcedIn env (initial ep) (trackers.flatMap (Tracker.labels env)), k ∈ t.keys) ↔
      (∀ tracker ∈ trackers, tracker.Harmless env) ∧ (trackers = [] → receivedPeers = []) := by
  by_cases hempty : trackers = []
  · subst hempty
    constructor
    · rintro ⟨result, t, hannounce, hresult, -⟩
      obtain ⟨rfl, rfl⟩ := Prod.mk.inj (Except.ok.inj hannounce)
      refine ⟨by simp, fun _ => ?_⟩
      by_contra hne
      exact Bool.false_ne_true (hresult.mpr hne)
    · rintro ⟨-, hpeers⟩
      refine ⟨false, ⟨.initial receivedPeers ep, []⟩, rfl, ?_, by simp [announcedIn]⟩
      rw [hpeers rfl]
      simp [UdpTracker.initial]
  · have hannounce : announce env ep trackers receivedPeers =
        (trackers.foldlM (announceTo env) ⟨.initial [] ep, []⟩).map fun t =>
          (!t.udp.receivedPeers.isEmpty, t) :=
      if_neg (by simpa using hempty)
    have hok := exists_foldlM_ok_iff (announceTo_ok_iff env) trackers (initial ep)
    constructor
    · rintro ⟨result, t, hreturn, -⟩
      rw [hannounce] at hreturn
      exact ⟨hok.mp (exists_map_ok_iff.mp ⟨_, hreturn⟩), fun h => absurd h hempty⟩
    · rintro ⟨hharmless, -⟩
      obtain ⟨t, hfold⟩ := hok.mpr hharmless
      have hreturn : announce env ep trackers receivedPeers =
          .ok (!t.udp.receivedPeers.isEmpty, t) := by
        rw [hannounce]
        exact congrArg (Except.map _) hfold
      refine ⟨_, t, hreturn, by simp, fun k hk => ?_⟩
      rw [announce_eq_run hempty hreturn]
      exact (keys_run_gains (accepted_of_harmless hharmless)).2 hk

/-- A tracker that redirects without saying where to, and one that announces a peer. -/
def sampleTrackers : List Tracker :=
  [⟨ascii ['h', 't', 't', 'p', ':', '/', '/', 'a'], ⟨301, [], []⟩, ⟨0, [], []⟩, none⟩,
   ⟨ascii ['h', 't', 't', 'p', ':', '/', '/', 'b'], ⟨200, [], sampleListBody⟩, ⟨0, [], []⟩, none⟩]

/-- The first tracker ends `announce` with an exception, and the peer of the second one is lost. -/
theorem redirect_without_location_throws :
    announce sampleTrackerEnv sampleEndpoint sampleTrackers [] = .error .noHeaderField ∧
      ¬ ∃ result t, announce sampleTrackerEnv sampleEndpoint sampleTrackers [] = .ok (result, t) ∧
        (result = true ↔ t.udp.receivedPeers ≠ []) ∧
        ∀ k ∈ announcedIn sampleTrackerEnv (initial sampleEndpoint)
          (sampleTrackers.flatMap (Tracker.labels sampleTrackerEnv)), k ∈ t.keys := by
  have hthrow : announce sampleTrackerEnv sampleEndpoint sampleTrackers [] =
      .error .noHeaderField := rfl
  refine ⟨hthrow, ?_⟩
  rintro ⟨result, t, hreturn, -⟩
  rw [hthrow] at hreturn
  cases hreturn

end TrackerClient

end Tent
