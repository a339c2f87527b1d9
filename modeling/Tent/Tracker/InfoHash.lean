import Tent.Foundation.Hex
import Tent.Tracker.Urls

/-!
# The info hash on the wire

libtorrent prints the info hash in lowercase digits (`aux::to_hex`).  The handshake and the announce
to a UDP tracker read it back with `hex_str_to_byte_buff`, and the request to an HTTP tracker has it
percent-encoded.

Both conversions are loops over positions: the first one steps through the digits by two, and the
second one inserts separators into the string that it walks through.  Here they are stated with
these positions (`hexEntries`, `percentLoop`), and shown to be the recursions over the digits that
the messages are made with.
-/

set_option autoImplicit false

namespace Tent

open Bytes

/-! ### `hex_str_to_byte_buff` -/

/-- The loop of `hex_str_to_byte_buff`: the entries of the buffer that are left and `i`.  Behind the
last character of a string stands a zero. -/
def hexEntries (hex : ByteString) : ℕ → ℕ → ByteString
  | 0, _ => []
  | entries + 1, i =>
    UInt8.ofNat (16 * charToInt (hex.getD i 0) + charToInt (hex.getD (i + 1) 0)) ::
      hexEntries hex entries (i + 2)

/-- `hex_str_to_byte_buff` with its positions. -/
def hexStrToByteBuffLoop (hex : ByteString) : ByteString := hexEntries hex (hex.length / 2) 0

/-- The loop reads what follows its position two by two. -/
lemma hexEntries_append (front hex : ByteString) :
    hexEntries (front ++ hex) (hex.length / 2) front.length = hexStrToByteBuff hex := by
  fun_induction hexStrToByteBuff hex generalizing front with
  | case1 hi lo hex ih =>
    have hcount : (hi :: lo :: hex).length / 2 = hex.length / 2 + 1 := by
      simp only [List.length_cons]
      omega
    have hfront : front ++ hi :: lo :: hex = (front ++ [hi, lo]) ++ hex := by simp
    have hhi : (front ++ hi :: lo :: hex).getD front.length 0 = hi := by simp
    have hlo : (front ++ hi :: lo :: hex).getD (front.length + 1) 0 = lo := by simp
    have hlen : front.length + 2 = (front ++ [hi, lo]).length := by simp
    rw [hcount, hexEntries, hhi, hlo, hfront, hlen, ih]
  | case2 hex hshort =>
    have hlen : hex.length < 2 := by
      rcases hex with _ | ⟨hi, _ | ⟨lo, rest⟩⟩
      · simp
      · simp
      · exact absurd rfl (hshort hi lo rest)
    rw [Nat.div_eq_of_lt hlen, hexEntries]

/-- The loop is the recursion over the digits. -/
lemma hexStrToByteBuff_eq_loop (hex : ByteString) :
    hexStrToByteBuff hex = hexStrToByteBuffLoop hex :=
  (hexEntries_append [] hex).symm

/-- A digit is read as its value. -/
lemma charToInt_hexDigit {d : ℕ} (hd : d < 16) : charToInt (hexDigit d) = d := by
  have hall : ∀ e ∈ List.range 16, charToInt (hexDigit e) = e := by decide
  exact hall d (List.mem_range.mpr hd)

/-- Letters are read alike in both cases. -/
lemma charToInt_toLower (x : UInt8) : charToInt (toLower x) = charToInt x := by
  have hall : ∀ n ∈ List.range 256,
      charToInt (toLower (UInt8.ofNat n)) = charToInt (UInt8.ofNat n) := by decide +kernel
  have hx := hall x.toNat (List.mem_range.mpr x.toNat_lt)
  rwa [UInt8.ofNat_toNat] at hx

/-- A string is read alike in both cases. -/
lemma hexStrToByteBuff_map_toLower (hex : ByteString) :
    hexStrToByteBuff (hex.map toLower) = hexStrToByteBuff hex := by
  fun_induction hexStrToByteBuff hex with
  | case1 hi lo hex ih =>
    rw [List.map_cons, List.map_cons, hexStrToByteBuff, charToInt_toLower, charToInt_toLower, ih]
  | case2 hex hshort =>
    rcases hex with _ | ⟨hi, _ | ⟨lo, rest⟩⟩
    · rfl
    · rfl
    · exact absurd rfl (hshort hi lo rest)

/-- What was printed is read back. -/
lemma hexStrToByteBuff_toHex (h : ByteString) : hexStrToByteBuff (toHex h) = h := by
  induction h with
  | nil => rfl
  | cons x h ih =>
    have hcons : toHex (x :: h) =
        hexDigit (x.toNat / 16) :: hexDigit (x.toNat % 16) :: toHex h := rfl
    rw [hcons, hexStrToByteBuff, charToInt_hexDigit (toNat_div_lt x),
      charToInt_hexDigit (toNat_mod_lt x), ofNat_halves, ih]

/-! ### `percent_encode` -/

/-- The loop of `percent_encode` for two digits and a percent sign: the string and the position of
the iterator in it, which `advance`, `insert` and the loop header move. -/
def percentLoop (result : ByteString) (it : ℕ) : ByteString :=
  if 2 + 1 ≤ result.length - it then percentLoop (result.insertIdx (it + 2) 37) (it + 2 + 1)
  else result
termination_by result.length - it
decreasing_by
  rw [List.length_insertIdx_of_le_length (by omega)]
  omega

/-- `percent_encode` with its positions, given the printed hash. -/
def percentEncodeLoop (hash : ByteString) : ByteString := percentLoop (37 :: hash) 1

/-- An insertion behind the front of a string. -/
lemma insertIdx_length_append (front back : ByteString) (x : UInt8) :
    (front ++ back).insertIdx front.length x = front ++ x :: back := by
  induction front with
  | nil => rfl
  | cons y front ih =>
    rw [List.cons_append, List.length_cons, List.insertIdx_succ_cons, ih, List.cons_append]

/-- The loop inserts separators into what follows its position. -/
lemma percentLoop_append (front hash : ByteString) :
    percentLoop (front ++ hash) front.length = front ++ percentGroups hash := by
  fun_induction percentGroups hash generalizing front with
  | case1 a b c rest ih =>
    have hsplit : front ++ a :: b :: c :: rest = (front ++ [a, b]) ++ c :: rest := by simp
    have hinsert : (front ++ a :: b :: c :: rest).insertIdx (front.length + 2) 37 =
        (front ++ [a, b, 37]) ++ c :: rest := by
      have hlen : front.length + 2 = (front ++ [a, b]).length := by simp
      rw [hsplit, hlen, insertIdx_length_append]
      simp
    have hnext : front.length + 2 + 1 = (front ++ [a, b, 37]).length := by simp
    have hroom : 2 + 1 ≤ (front ++ a :: b :: c :: rest).length - front.length := by simp
    rw [percentLoop, if_pos hroom, hinsert, hnext, ih]
    simp
  | case2 hash hshort =>
    have hlen : hash.length < 3 := by
      rcases hash with _ | ⟨a, _ | ⟨b, _ | ⟨c, rest⟩⟩⟩
      · simp
      · simp
      · simp
      · exact absurd rfl (hshort a b c rest)
    have hstop : ¬ 2 + 1 ≤ (front ++ hash).length - front.length := by
      rw [List.length_append]
      omega
    rw [percentLoop, if_neg hstop]

/-- The loop is the recursion over the digits. -/
lemma percentEncode_eq_loop (hash : ByteString) : percentEncode hash = percentEncodeLoop hash :=
  (percentLoop_append [37] hash).symm

/-- A non-empty hash is encoded as the escapes of its bytes. -/
lemma percentEncode_toHex {h : ByteString} (hne : h ≠ []) :
    percentEncode (toHex h) = h.flatMap escape := by
  rw [percentEncode]
  induction h with
  | nil => exact absurd rfl hne
  | cons x h ih =>
    cases h with
    | nil => rfl
    | cons y h =>
      have hrest := ih (List.cons_ne_nil y h)
      rw [List.flatMap_cons, ← hrest]
      rfl

/-! ### What carries the info hash -/

/-- A part of a message behind a known front. -/
lemma take_drop_of_prefix {front part bytes : ByteString} {m n : ℕ}
    (hstarts : front ++ part <+: bytes) (hfront : front.length = m) (hpart : part.length = n) :
    (bytes.drop m).take n = part := by
  rcases hstarts with ⟨back, rfl⟩
  rw [List.append_assoc, List.drop_left' hfront, List.take_left' hpart]

/-- The first twenty bytes of the buffer that a printed hash of twenty bytes is read into. -/
lemma window_hexStrToByteBuff_toHex (oob : Oob) {h : ByteString} (hlen : h.length = 20) :
    window oob (hexStrToByteBuff (toHex h)) 0 20 = h := by
  rw [hexStrToByteBuff_toHex, window_zero_eq_take oob (Nat.le_of_eq hlen.symm),
    List.take_of_length_le (Nat.le_of_eq hlen)]

/-- The URL of a request to the tracker carries the info hash: behind the URL of the tracker comes
the parameter `info_hash`, and its value is decoded as the hash. -/
def UrlCarries (tracker url h : ByteString) : Prop :=
  ∃ value rest, url = tracker ++ ascii ['?', 'i', 'n', 'f', 'o', '_', 'h', 'a', 's', 'h', '='] ++
      value ++ 38 :: rest ∧
    38 ∉ value ∧ percentDecode value = h

/-- An escaped string has no ampersand. -/
lemma ampersand_notMem_flatMap_escape (h : ByteString) : 38 ∉ h.flatMap escape := by
  intro hmem
  rcases mem_flatMap_escape hmem with heq | hdigit
  · exact absurd heq (by decide)
  · exact absurd hdigit (by decide)

/-- The request to an HTTP tracker carries the info hash. -/
lemma urlCarries_httpUrl {h : ByteString} (hne : h ≠ []) {env : TrackerEnv}
    (henv : env.infoHash = toHex h) (url : ByteString) :
    UrlCarries url (TrackerClient.httpUrl env url) h := by
  have hnone := ampersand_notMem_flatMap_escape h
  have hdecode := percentDecode_flatMap_escape h
  rw [UrlCarries, TrackerClient.httpUrl, henv, percentEncode_toHex hne]
  simp only [List.append_assoc]
  exact ⟨h.flatMap escape, _, rfl, hnone, hdecode⟩

/-- For every non-empty byte string, printed in lowercase digits: its digits in either case are read
back as the string, its encoding consists of the escapes of its bytes and is decoded as the string,
and so the request to an HTTP tracker carries it; if it has the twenty bytes of an info hash, so do
the handshake and the announce to a UDP tracker. -/
theorem info_hash_encoders {h : ByteString} (hne : h ≠ []) :
    (∀ s : ByteString, s.map toLower = toHex h → hexStrToByteBuffLoop s = h) ∧
    percentEncodeLoop (toHex h) = h.flatMap escape ∧
    percentDecode (percentEncodeLoop (toHex h)) = h ∧
    (∀ env : TrackerEnv, env.infoHash = toHex h →
      ∀ url, UrlCarries url (TrackerClient.httpUrl env url) h) ∧
    (h.length = 20 → ∀ (oob : Oob) (peerId : ByteString),
      ((MsgFactory.handshake oob peerId (toHex h)).drop 28).take 20 = h ∧
      ∀ connectionId transactionId left key port,
        ((MsgFactory.announce oob connectionId transactionId (toHex h) peerId left key
          port).drop 16).take 20 = h) := by
  have hencode : percentEncodeLoop (toHex h) = h.flatMap escape := by
    rw [← percentEncode_eq_loop, percentEncode_toHex hne]
  refine ⟨fun s hs => ?_, hencode, ?_, fun env henv url => urlCarries_httpUrl hne henv url, ?_⟩
  · rw [← hexStrToByteBuff_eq_loop, ← hexStrToByteBuff_map_toLower, hs, hexStrToByteBuff_toHex]
  · rw [hencode, percentDecode_flatMap_escape]
  · intro hlen oob peerId
    have hwindow := window_hexStrToByteBuff_toHex oob hlen
    have hprotocol : protocolV1.length = 19 := rfl
    constructor
    · rw [MsgFactory.handshake, hwindow]
      refine take_drop_of_prefix (List.prefix_append _ _) ?_ hlen
      simp [hprotocol]
    · intro connectionId transactionId left key port
      have hstarts : toBE 8 connectionId ++ toBE 4 1 ++ toBE 4 transactionId ++ h <+:
          MsgFactory.announce oob connectionId transactionId (toHex h) peerId left key port := by
        rw [MsgFactory.announce, hwindow]
        simp only [List.append_assoc, List.prefix_append_right_inj]
        exact List.prefix_append _ _
      exact take_drop_of_prefix hstarts (by simp) hlen

/-- A byte whose digits are letters, in both cases, and a hash of twenty zeros in a request and in a
handshake. -/
theorem info_hash_encoders_sample :
    hexStrToByteBuffLoop (ascii ['A', 'b']) = [171] ∧
    percentEncodeLoop (ascii ['a', 'b']) = ascii ['%', 'a', 'b'] ∧
    UrlCarries [] (TrackerClient.httpUrl sampleTrackerEnv []) (List.replicate 20 0) ∧
    ((MsgFactory.handshake sampleTrackerEnv.oob [] sampleTrackerEnv.infoHash).drop 28).take 20 =
      List.replicate 20 0 := by
  rcases @info_hash_encoders [171] (by decide) with ⟨hread, hencode, -⟩
  rcases @info_hash_encoders (List.replicate 20 0) (by decide) with ⟨-, -, -, hurl, hmessages⟩
  refine ⟨hread _ (by decide), hencode, hurl sampleTrackerEnv rfl [], ?_⟩
  exact (hmessages rfl sampleTrackerEnv.oob []).1

end Tent
