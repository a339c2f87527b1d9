import Tent.Bencode.Encode
import Tent.Tracker.Peers

/-!
# Reading a tracker's answer

`parse_peers` once more, with the nodes that `bdecode` returns in the place of trees: it looks the
entry `peers` up twice, asks for the number of items before every item, and looks three keys up in
each of them.  `parsePeersNode_eq` says that this is the decoder over trees, for every answer, as
long as keys are looked up in dictionaries only.

`parsePeersNode_encode` is the round trip: the peers of an answer that was encoded, in either of the
two forms, are the peers that are added.
-/

set_option autoImplicit false

namespace Tent

open Bytes

namespace BdecodeNode

/-- `dict_find_list` and its siblings, for the type that they ask for. -/
def dictFindOfType (type : TokenType) (n : BdecodeNode) (key : ByteString) : Option BdecodeNode :=
  (n.dictFind key).map fun ret => if ret.type = some type then ret else notFound

/-- `dict_find_list`. -/
def dictFindList (n : BdecodeNode) (key : ByteString) : Option BdecodeNode :=
  n.dictFindOfType .list key

/-- `dict_find_string`. -/
def dictFindString (n : BdecodeNode) (key : ByteString) : Option BdecodeNode :=
  n.dictFindOfType .string key

/-- `dict_find_string_value` with an empty default. -/
def dictFindStringValue (n : BdecodeNode) (key : ByteString) : Option ByteString :=
  (n.dictFind key).bind fun c => if c.type ≠ some .string then some [] else c.stringValue

/-- `dict_find_int_value` with the default zero. -/
def dictFindIntValue (n : BdecodeNode) (key : ByteString) : Option ℤ :=
  (n.dictFind key).bind fun c => if c.type ≠ some .integer then some 0 else c.intValue

end BdecodeNode

/-! ### `parse_peers` -/

section ParsePeers

variable (env : TrackerEnv)

/-- The loop over a list of dictionaries. -/
def parseEntriesLoop : ℕ → ℕ → BdecodeNode → List PeerInfo →
    Option (Except TrackerError (List PeerInfo))
  | 0, _, _, _ => none
  | fuel + 1, i, peerList, peers =>
    peerList.listSize.bind fun (size, peerList) =>
      if i < size then
        (peerList.listAt i).bind fun (peerDict, peerList) =>
          (peerDict.dictFindStringValue (ascii ['p', 'e', 'e', 'r', ' ', 'i', 'd'])).bind fun id =>
            (peerDict.dictFindStringValue (ascii ['i', 'p'])).bind fun peerIp =>
              (peerDict.dictFindIntValue (ascii ['p', 'o', 'r', 't'])).bind fun peerPort =>
                match addPeer (samePeer peerIp (toUInt16 peerPort)) id peerIp (toUInt16 peerPort)
                  peers with
                | .error e => some (.error e)
                | .ok peers => parseEntriesLoop fuel (i + 1) peerList peers
      else
        some (.ok peers)

/-- `parse_peers` on the nodes of an answer; none if an assertion of the library does not hold. -/
def parsePeersNode (trackerRsp : ByteString) (peers : List PeerInfo) :
    Option (Except TrackerError (List PeerInfo)) :=
  let result := bdecode trackerRsp defaultDepthLimit defaultTokenLimit
  if result.error ≠ none then
    some (.ok peers)
  else
    let decoded := result.node trackerRsp
    (decoded.dictFindList (ascii ['p', 'e', 'e', 'r', 's'])).bind fun peerList =>
      (decoded.dictFindString (ascii ['p', 'e', 'e', 'r', 's'])).bind fun peerStringNode =>
        if peerList.type = some .list then
          parseEntriesLoop (peerList.rootTokens.length + 1) 0 peerList peers
        else if peerStringNode.type = some .string then
          peerStringNode.stringValue.map fun peerString =>
            (compactOffsets peerString.length).foldlM (parseCompact env peerString) peers
        else
          some (.ok peers)

/-- The environment whose `bdecode` is the one of the library. -/
def TrackerEnv.withBdecode : TrackerEnv :=
  { env with bdecode := fun body => decodeTree body defaultDepthLimit defaultTokenLimit }

end ParsePeers

namespace BdecodeNode

variable {n : BdecodeNode} {entries : List (ByteString × BNode)}

/-- Looking up a value of a type. -/
lemma Represents.dictFindOfType (h : n.Represents (.dict entries)) (t : TokenType)
    (key : ByteString) :
    ∃ c, n.dictFindOfType t key = some c ∧
      c.Stands ((entries.lookup key).filter fun v => v.tokenType = t) := by
  obtain ⟨c, hfind, hstands⟩ := h.dictFind key
  rw [BdecodeNode.dictFindOfType, hfind, Option.map_some]
  cases hlookup : entries.lookup key with
  | none =>
    rw [hlookup] at hstands
    obtain rfl : c = notFound := hstands
    exact ⟨_, rfl, by simp [Stands]⟩
  | some v =>
    rw [hlookup] at hstands
    have htype := Represents.type hstands
    rw [Option.filter_some, htype]
    by_cases ht : v.tokenType = t
    · exact ⟨c, by rw [if_pos (congrArg some ht)], by rwa [if_pos (decide_eq_true ht)]⟩
    · refine ⟨notFound, by rw [if_neg fun heq => ht (Option.some.inj heq)], ?_⟩
      rw [if_neg (by simpa using ht)]
      rfl

/-- Looking up the value of a string. -/
lemma Represents.dictFindStringValue (h : n.Represents (.dict entries)) (env : TrackerEnv)
    (key : ByteString) :
    n.dictFindStringValue key = some (BNode.dictFindStringValue env key (.dict entries)) := by
  obtain ⟨c, hfind, hstands⟩ := h.dictFind key
  rw [BdecodeNode.dictFindStringValue, hfind, Option.bind_some, BNode.dictFindStringValue,
    BNode.dictFindString, BNode.dictFind]
  cases hlookup : entries.lookup key with
  | none =>
    rw [hlookup] at hstands
    obtain rfl : c = notFound := hstands
    rfl
  | some v =>
    rw [hlookup] at hstands
    rw [Represents.type hstands]
    cases v with
    | string s => exact (Represents.string hstands).1
    | int z => rfl
    | list items => rfl
    | dict entries => rfl

/-- Looking up the value of an integer. -/
lemma Represents.dictFindIntValue (h : n.Represents (.dict entries)) (env : TrackerEnv)
    (key : ByteString) :
    n.dictFindIntValue key = some (BNode.dictFindIntValue env key (.dict entries)) := by
  obtain ⟨c, hfind, hstands⟩ := h.dictFind key
  rw [BdecodeNode.dictFindIntValue, hfind, Option.bind_some, BNode.dictFindIntValue,
    BNode.dictFind]
  cases hlookup : entries.lookup key with
  | none =>
    rw [hlookup] at hstands
    obtain rfl : c = notFound := hstands
    rfl
  | some v =>
    rw [hlookup] at hstands
    rw [Represents.type hstands]
    cases v with
    | int z => exact Represents.int hstands
    | string s => rfl
    | list items => rfl
    | dict entries => rfl

/-- There are more tokens than items. -/
lemma Represents.length_lt {items : List BNode} (h : n.Represents (.list items)) :
    items.length < n.rootTokens.length := by
  obtain ⟨j, offset, inner, next, hviews, rfl⟩ := h.list
  have hbound := hviews.row.node.2.1.lt_length
  have hsize := Hedge.length_le_size inner
  rw [Items.length_values]
  omega

end BdecodeNode

section Refinement

variable (env : TrackerEnv)

/-- The loop over the nodes is the fold over the trees. -/
lemma parseEntriesLoop_eq {items : List BNode} (hitems : ∀ v ∈ items, ∃ entries, v = .dict entries)
    {fuel i : ℕ} {n : BdecodeNode} {peers : List PeerInfo} (hn : n.Represents (.list items))
    (hfuel : items.length < i + fuel) (hi : i ≤ items.length) :
    parseEntriesLoop fuel i n peers = some ((items.drop i).foldlM (parseEntry env) peers) := by
  induction fuel generalizing i n peers with
  | zero => omega
  | succ fuel ih =>
    obtain ⟨n', hsize, hn'⟩ := hn.listSize
    rw [parseEntriesLoop, hsize, Option.bind_some]
    dsimp only
    by_cases hlt : i < items.length
    · rw [if_pos hlt]
      obtain ⟨entries, hentry⟩ := hitems items[i] (List.getElem_mem hlt)
      obtain ⟨c, n'', hat, hc, hn''⟩ := hn'.listAt (List.getElem?_eq_getElem hlt)
      rw [hentry] at hc
      rw [hat, Option.bind_some]
      dsimp only
      rw [hc.dictFindStringValue env, Option.bind_some, hc.dictFindStringValue env,
        Option.bind_some, hc.dictFindIntValue env, Option.bind_some,
        List.drop_eq_getElem_cons hlt, hentry, List.foldlM_cons]
      change (match parseEntry env peers (.dict entries) with
        | .error e => some (Except.error e)
        | .ok peers => parseEntriesLoop fuel (i + 1) n'' peers) = _
      cases parseEntry env peers (.dict entries) with
      | error e => rfl
      | ok peers' => exact ih hn'' (by omega) hlt
    · rw [if_neg hlt, List.drop_eq_nil_of_le (not_lt.mp hlt)]
      rfl

/-- Keys of an answer are looked up in dictionaries only: the answer is one, and so is every item of
the list of peers. -/
def BNode.AnnounceShaped (v : BNode) : Prop :=
  ∃ entries, v = .dict entries ∧ ∀ items,
    entries.lookup (ascii ['p', 'e', 'e', 'r', 's']) = some (.list items) →
      ∀ w ∈ items, ∃ entries', w = .dict entries'

/-- The decoder over nodes of an answer that is accepted. -/
lemma parsePeersNode_item {h : Items} {left : ByteString} {v : BNode} {peers : List PeerInfo}
    (hlen : (h.bytes ++ left).length ≤ BdecodeToken.maxOffset)
    (hh : h.Readable defaultDepthLimit defaultTokenLimit) (hv : h.values = [v])
    (hshape : v.AnnounceShaped) :
    parsePeersNode env (h.bytes ++ left) peers =
      some (parsePeers env.withBdecode (h.bytes ++ left) peers) := by
  obtain ⟨entries, rfl, hitems⟩ := hshape
  have herror := congrArg BdecodeResult.error (bdecode_item hlen hh)
  have hroot : BdecodeNode.Represents _ (.dict entries) :=
    ⟨0, 0, h, views_bdecode hlen hh, by rw [hv, List.head?_cons]⟩
  obtain ⟨listNode, hlist, hlistStands⟩ :=
    hroot.dictFindOfType .list (ascii ['p', 'e', 'e', 'r', 's'])
  obtain ⟨stringNode, hstring, hstringStands⟩ :=
    hroot.dictFindOfType .string (ascii ['p', 'e', 'e', 'r', 's'])
  have htree : env.withBdecode.bdecode (h.bytes ++ left) = some (.dict entries) :=
    decodeTree_item hlen hh hv
  rw [parsePeersNode, parsePeers, htree]
  dsimp only
  rw [if_neg (by simp [herror]), BdecodeNode.dictFindList, hlist, Option.bind_some,
    BdecodeNode.dictFindString, hstring, Option.bind_some, BNode.peerList, BNode.dictFindList,
    BNode.peerString, BNode.dictFindString, BNode.dictFind]
  cases hlookup : entries.lookup (ascii ['p', 'e', 'e', 'r', 's']) with
  | none =>
    rw [hlookup] at hlistStands hstringStands
    obtain rfl : listNode = .notFound := hlistStands
    obtain rfl : stringNode = .notFound := hstringStands
    rfl
  | some w =>
    rw [hlookup, Option.filter_some] at hlistStands hstringStands
    cases w with
    | list items =>
      have hrep : listNode.Represents (.list items) := hlistStands
      have hlength := hrep.length_lt
      have htype : some (BNode.list items).tokenType = some .list := rfl
      rw [BdecodeNode.Represents.type hrep]
      dsimp only
      rw [if_pos htype, parseEntriesLoop_eq env.withBdecode (hitems items hlookup) hrep (by omega)
        (Nat.zero_le _), List.drop_zero]
    | string s =>
      obtain rfl : listNode = .notFound := hlistStands
      have hrep : stringNode.Represents (.string s) := hstringStands
      rw [BdecodeNode.Represents.type hrep, hrep.string.1]
      rfl
    | int z =>
      obtain rfl : listNode = .notFound := hlistStands
      obtain rfl : stringNode = .notFound := hstringStands
      rfl
    | dict entries' =>
      obtain rfl : listNode = .notFound := hlistStands
      obtain rfl : stringNode = .notFound := hstringStands
      rfl

/-- The decoder over the nodes of an answer is the one over its tree. -/
theorem parsePeersNode_eq (body : ByteString) (peers : List PeerInfo)
    (hshape : ∀ v, decodeTree body defaultDepthLimit defaultTokenLimit = some v →
      v.AnnounceShaped) :
    parsePeersNode env body peers = some (parsePeers env.withBdecode body peers) := by
  by_cases herror : (bdecode body defaultDepthLimit defaultTokenLimit).error = none
  · obtain ⟨hlen, h, left, rfl, hh⟩ := exists_item_of_bdecode herror
    obtain ⟨v, hv⟩ := Items.exists_value hh.length_eq
    exact parsePeersNode_item env hlen hh hv (hshape v (decodeTree_item hlen hh hv))
  · have htree : env.withBdecode.bdecode body = none := if_neg herror
    rw [parsePeersNode, parsePeers, htree]
    exact if_pos herror

/-- What the answer with a list decodes to. -/
lemma decodeTree_sampleListBody :
    decodeTree sampleListBody defaultDepthLimit defaultTokenLimit = some sampleListNode := by
  have hbody : sampleListBody = (sampleListNode.items .nil).bytes ++ [] := by decide +kernel
  have hencodable : sampleListNode.Encodable := by
    simp only [sampleListNode, BNode.Encodable, EntriesEncodable, ListEncodable]
    decide
  rw [hbody]
  exact decodeTree_item (by decide +kernel)
    ⟨rfl, BNode.wellFormed_items _ .nil hencodable trivial, by decide +kernel, by decide +kernel⟩
    (BNode.values_items _ .nil hencodable)

/-- Keys are looked up in dictionaries only in that answer. -/
lemma announceShaped_sampleListNode : sampleListNode.AnnounceShaped := by
  refine ⟨_, rfl, fun items hitems w hw => ?_⟩
  obtain rfl : _ = items := BNode.list.inj (Option.some.inj hitems)
  obtain rfl : w = _ := List.mem_singleton.mp hw
  exact ⟨_, rfl⟩

/-- Both decoders read that answer alike. -/
theorem parsePeersNode_eq_sample :
    parsePeersNode sampleTrackerEnv sampleListBody [] =
      some (parsePeers sampleTrackerEnv.withBdecode sampleListBody []) := by
  refine parsePeersNode_eq sampleTrackerEnv sampleListBody [] fun v hv => ?_
  obtain rfl : sampleListNode = v := Option.some.inj (decodeTree_sampleListBody.symm.trans hv)
  exact announceShaped_sampleListNode

/-! ### Round trips -/

/-- A dictionary with the address and the port of a peer, and anything else. -/
def BNode.IsPeer (entry : BNode) (key : InAddr × ℕ) : Prop :=
  ∃ entries, entry = .dict entries ∧
    entries.lookup (ascii ['i', 'p']) = some (.string (inetNtop key.1)) ∧
    entries.lookup (ascii ['p', 'o', 'r', 't']) = some (.int key.2) ∧ key.2 < 65536

/-- The peers in one of the two forms: a list of dictionaries, or a string of six bytes each. -/
def BNode.ListsPeers (v : BNode) (keys : List (InAddr × ℕ)) : Prop :=
  (∃ items, v = .list items ∧ List.Forall₂ BNode.IsPeer items keys) ∨
    v = .string (keys.flatMap fun key => key.1.octets ++ toBE 2 key.2) ∧
      ∀ key ∈ keys, key.2 < 65536

/-- The peers of a compact string are those that were written. -/
lemma compactKeys_flatMap {keys : List (InAddr × ℕ)} (hports : ∀ key ∈ keys, key.2 < 65536) :
    compactKeys (keys.flatMap fun key => key.1.octets ++ toBE 2 key.2) = keys := by
  induction keys with
  | nil => rfl
  | cons key keys ih =>
    obtain ⟨⟨a, b, c, d⟩, port⟩ := key
    obtain ⟨hport, hports⟩ := List.forall_mem_cons.mp hports
    have hread : ofBE (toBE 2 port) = port := ofBE_toBE_of_lt hport
    rw [List.flatMap_cons]
    exact congrArg₂ (fun p ks => (⟨⟨a, b, c, d⟩, p⟩ : InAddr × ℕ) :: ks) hread (ih hports)

/-- A compact string has whole entries only. -/
lemma six_dvd_length_flatMap (keys : List (InAddr × ℕ)) :
    6 ∣ (keys.flatMap fun key => key.1.octets ++ toBE 2 key.2).length := by
  induction keys with
  | nil => exact dvd_zero 6
  | cons key keys ih =>
    rw [List.flatMap_cons, List.length_append, List.length_append, length_toBE]
    exact (Nat.dvd_add_right (dvd_refl 6)).mpr ih

/-- The peers of a list are dictionaries. -/
lemma exists_dict_of_isPeer {items : List BNode} {keys : List (InAddr × ℕ)}
    (h : List.Forall₂ BNode.IsPeer items keys) : ∀ w ∈ items, ∃ entries, w = .dict entries := by
  induction h with
  | nil => exact fun w hw => absurd hw List.not_mem_nil
  | cons hpeer _ ih =>
    obtain ⟨entries, rfl, -⟩ := hpeer
    exact List.forall_mem_cons.mpr ⟨⟨entries, rfl⟩, ih⟩

/-- The peers of a list are those that were written. -/
lemma filterMap_isPeer {items : List BNode} {keys : List (InAddr × ℕ)}
    (h : List.Forall₂ BNode.IsPeer items keys) :
    (∀ entry ∈ items, (inetPton (entry.entryIp env)).isSome = true) ∧
      (items.filterMap fun entry =>
        (inetPton (entry.entryIp env)).map fun addr => (addr, entry.entryPort env)) = keys := by
  induction h with
  | nil => exact ⟨by simp, rfl⟩
  | @cons entry key items keys hpeer _ ih =>
    obtain ⟨entries, rfl, hip, hport, hlt⟩ := hpeer
    have hentryIp : BNode.entryIp env (.dict entries) = inetNtop key.1 := by
      rw [BNode.entryIp, BNode.dictFindStringValue, BNode.dictFindString, BNode.dictFind, hip]
      rfl
    have hentryPort : BNode.entryPort env (.dict entries) = key.2 := by
      rw [BNode.entryPort, BNode.dictFindIntValue, BNode.dictFind, hport]
      dsimp only
      rw [toUInt16]
      omega
    have haddr : inetPton (inetNtop key.1) = some key.1 := inetPton_eq_some_iff.mpr rfl
    refine ⟨List.forall_mem_cons.mpr ⟨by rw [hentryIp, haddr]; rfl, ih.1⟩, ?_⟩
    rw [List.filterMap_cons, hentryIp, haddr, Option.map_some, hentryPort, ih.2]

/-- What is read of the tree of an answer that lists peers. -/
lemma parsePeers_of_listsPeers {body : ByteString} {entries : List (ByteString × BNode)} {v : BNode}
    {keys : List (InAddr × ℕ)} (htree : env.bdecode body = some (.dict entries))
    (hlookup : entries.lookup (ascii ['p', 'e', 'e', 'r', 's']) = some v)
    (hpeers : v.ListsPeers keys) : Collects (parsePeers env body) keys := by
  intro peers
  rw [parsePeers, htree]
  dsimp only
  rw [BNode.peerList, BNode.dictFindList, BNode.peerString, BNode.dictFindString, BNode.dictFind,
    hlookup]
  rcases hpeers with ⟨items, rfl, hitems⟩ | ⟨rfl, hports⟩
  · obtain ⟨hvalid, hkeys⟩ := filterMap_isPeer env hitems
    have hcollects := parseEntries_collects hvalid
    rw [hkeys] at hcollects
    exact hcollects peers
  · have hcollects := @parseCompacts_collects env _ (six_dvd_length_flatMap keys)
    rw [compactKeys_flatMap hports] at hcollects
    exact hcollects peers

/-- The peers of an answer that was encoded, in either form and with whatever else, are the peers
that are added, each of them once. -/
theorem parsePeersNode_encode {entries : List (ByteString × BNode)} {v : BNode}
    {keys : List (InAddr × ℕ)} {left : ByteString} (peers : List PeerInfo)
    (hentries : (BNode.dict entries).Encodable)
    (hdepth : ((BNode.dict entries).items .nil).depth < defaultDepthLimit)
    (hsize : ((BNode.dict entries).items .nil).size ≤ defaultTokenLimit)
    (hlen : ((BNode.dict entries).encode ++ left).length ≤ BdecodeToken.maxOffset)
    (hlookup : entries.lookup (ascii ['p', 'e', 'e', 'r', 's']) = some v)
    (hpeers : v.ListsPeers keys) :
    ∃ peers', parsePeersNode env ((BNode.dict entries).encode ++ left) peers = some (.ok peers') ∧
      keysOf peers' = keys.foldl Collect.addKey (keysOf peers) := by
  have hitem : ((BNode.dict entries).items .nil).Readable defaultDepthLimit defaultTokenLimit :=
    ⟨BNode.length_items _ .nil, BNode.wellFormed_items _ .nil hentries trivial, hdepth, hsize⟩
  have hvalues := BNode.values_items (.dict entries) .nil hentries
  have hshape : (BNode.dict entries).AnnounceShaped := by
    refine ⟨entries, rfl, fun items hitems => ?_⟩
    rw [hlookup] at hitems
    obtain rfl := Option.some.inj hitems
    rcases hpeers with ⟨items', heq, hitems'⟩ | ⟨heq, -⟩
    · obtain rfl := BNode.list.inj heq
      exact exists_dict_of_isPeer hitems'
    · exact absurd heq (by simp)
  obtain ⟨peers', hparse, hkeys⟩ := parsePeers_of_listsPeers env.withBdecode
    (decodeTree_item hlen hitem hvalues) hlookup hpeers peers
  exact ⟨peers', by rw [BNode.encode, parsePeersNode_item env hlen hitem hvalues hshape, hparse],
    hkeys⟩

/-- An entry for a peer. -/
def samplePeerNode (key : InAddr × ℕ) : BNode :=
  .dict [(ascii ['i', 'p'], .string (inetNtop key.1)), (ascii ['p', 'o', 'r', 't'], .int key.2)]

/-- Three peers, one of them twice. -/
def samplePeerKeys : List (InAddr × ℕ) :=
  [(⟨1, 2, 3, 4⟩, 6881), (⟨5, 6, 7, 8⟩, 1), (⟨1, 2, 3, 4⟩, 6881), (⟨1, 2, 3, 4⟩, 6882)]

/-- An answer with the interval and these peers. -/
def samplePeersNode : List (ByteString × BNode) :=
  [(ascii ['i', 'n', 't', 'e', 'r', 'v', 'a', 'l'], .int 900),
    (ascii ['p', 'e', 'e', 'r', 's'], .list (samplePeerKeys.map samplePeerNode))]

/-- The three peers are added in the order of the answer, behind the second of them, which was there
before. -/
theorem parsePeersNode_encode_sample :
    samplePeerKeys.foldl Collect.addKey (keysOf [⟨[], ⟨256, ⟨5, 6, 7, 8⟩⟩⟩]) =
      [(⟨5, 6, 7, 8⟩, 1), (⟨1, 2, 3, 4⟩, 6881), (⟨1, 2, 3, 4⟩, 6882)] ∧
    ∃ peers', parsePeersNode sampleTrackerEnv ((BNode.dict samplePeersNode).encode ++ [10])
        [⟨[], ⟨256, ⟨5, 6, 7, 8⟩⟩⟩] = some (.ok peers') ∧
      keysOf peers' = samplePeerKeys.foldl Collect.addKey (keysOf [⟨[], ⟨256, ⟨5, 6, 7, 8⟩⟩⟩]) := by
  refine ⟨by decide, parsePeersNode_encode sampleTrackerEnv [⟨[], ⟨256, ⟨5, 6, 7, 8⟩⟩⟩] ?_
    (by decide +kernel) (by decide +kernel) (by decide +kernel) rfl (Or.inl ⟨_, rfl, ?_⟩)⟩
  · simp only [samplePeersNode, samplePeerKeys, samplePeerNode, List.map, BNode.Encodable,
      EntriesEncodable, ListEncodable]
    decide
  · refine List.forall₂_map_left_iff.mpr (List.forall₂_same.mpr fun key hkey => ?_)
    exact ⟨_, rfl, rfl, rfl, by revert key; decide⟩

end Refinement

end Tent
