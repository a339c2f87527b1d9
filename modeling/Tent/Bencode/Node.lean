import Tent.Bencode.Bdecode

/-!
# `bdecode_node`

A node is an index into the tokens that `bdecode` wrote.  The items of a list or a dictionary are
found by jumping from token to token.  A node remembers the last item that was looked up and the
number of its items, so an accessor returns the node as it is afterwards beside its answer.

An accessor returns nothing if an assertion does not hold or a token is read that is not there.
-/

set_option autoImplicit false

namespace Tent

open Bytes

/-- `bdecode_node`. -/
structure BdecodeNode where
  /-- `m_root_tokens`. -/
  rootTokens : List BdecodeToken
  /-- `m_buffer`. -/
  buffer : ByteString
  /-- `m_token_idx`; none for -1. -/
  tokenIdx : Option ℕ
  /-- `m_last_index` and `m_last_token`; none if they are -1. -/
  last : Option (ℕ × ℕ)
  /-- `m_size`; none for -1. -/
  size : Option ℕ

/-! ### Loops over the items -/

/-- `token_source_span`, of the token at an index. -/
def tokenSourceSpan (tokens : List BdecodeToken) (token : ℕ) : Option ℕ :=
  tokens[token]?.bind fun t => tokens[token + 1]?.map fun next => next.offset - t.offset

/-- Jumps to the next item. -/
def skipItem (tokens : List BdecodeToken) (token : ℕ) : Option ℕ :=
  tokens[token]?.map fun t => token + t.nextItem

/-- Jumps to the next item, which is asserted to be there. -/
def skipToItem (tokens : List BdecodeToken) (token : ℕ) : Option ℕ :=
  (skipItem tokens token).bind fun next => tokens[next]?.bind fun t =>
    if t.type = .ending then none else some next

/-- The loop of `list_at`. -/
def listWalk (tokens : List BdecodeToken) : ℕ → ℕ → Option ℕ
  | 0, token => some token
  | n + 1, token => (skipToItem tokens token).bind (listWalk tokens n)

/-- The loop of `dict_at`. -/
def dictWalk (tokens : List BdecodeToken) : ℕ → ℕ → Option ℕ
  | 0, token => some token
  | n + 1, token =>
    if tokens[token]?.map BdecodeToken.type = some .string then
      (skipToItem tokens token).bind fun value =>
        (skipToItem tokens value).bind (dictWalk tokens n)
    else
      none

/-- The loop of `list_size` and `dict_size`. -/
def countItems (tokens : List BdecodeToken) : ℕ → ℕ → ℕ → Option ℕ
  | 0, _, _ => none
  | fuel + 1, token, ret =>
    tokens[token]?.bind fun t =>
      if t.type = .ending then some ret
      else (skipItem tokens token).bind fun next => countItems tokens fuel next (ret + 1)

namespace BdecodeNode

/-- The constructor of a node that is not the root. -/
def child (n : BdecodeNode) (idx : ℕ) : BdecodeNode where
  rootTokens := n.rootTokens
  buffer := n.buffer
  tokenIdx := some idx
  last := none
  size := none

/-- The default constructor. -/
def notFound : BdecodeNode where
  rootTokens := []
  buffer := []
  tokenIdx := none
  last := none
  size := none

/-- `type`; none for `none_t`. -/
def type (n : BdecodeNode) : Option TokenType :=
  n.tokenIdx.bind fun idx => n.rootTokens[idx]?.map BdecodeToken.type

/-- The token of the node, which is asserted to be of the given type. -/
def assertType (n : BdecodeNode) (type : TokenType) : Option (ℕ × BdecodeToken) :=
  n.tokenIdx.bind fun idx => n.rootTokens[idx]?.bind fun t =>
    if t.type = type then some (idx, t) else none

/-- `data_section`. -/
def dataSection (n : BdecodeNode) : Option ByteString :=
  match n.tokenIdx with
  | none => some []
  | some idx =>
    n.rootTokens[idx]?.bind fun t => n.rootTokens[idx + t.nextItem]?.map fun next =>
      (n.buffer.drop t.offset).take (next.offset - t.offset)

/-- `string_length`. -/
def stringLength (n : BdecodeNode) : Option ℕ :=
  (n.assertType .string).bind fun (idx, t) =>
    (tokenSourceSpan n.rootTokens idx).map (· - t.startOffset)

/-- `string_value`. -/
def stringValue (n : BdecodeNode) : Option ByteString :=
  (n.assertType .string).bind fun (idx, t) =>
    (tokenSourceSpan n.rootTokens idx).map fun span =>
      (n.buffer.drop (t.offset + t.startOffset)).take (span - t.startOffset)

/-- `int_value`. -/
def intValue (n : BdecodeNode) : Option ℤ :=
  (n.assertType .integer).bind fun (idx, t) =>
    (tokenSourceSpan n.rootTokens idx).map fun size =>
      let ptr := (n.buffer.drop (t.offset + 1)).take size
      match parseInt 101 (unsigned ptr) 0 with
      | .error _ => 0
      | .ok (val, _) => if ptr.head? = some 45 then -val else val

/-- Where `list_at`, `list_size` and their siblings start: at the item that was looked up last, if
there is one and `usable` holds of its index, otherwise at the first. -/
def lookupStart (n : BdecodeNode) (idx : ℕ) (usable : ℕ → Bool) : ℕ × ℕ :=
  match n.last with
  | some (item, token) => if usable item then (item, token) else (0, idx + 1)
  | none => (0, idx + 1)

/-- `list_at`. -/
def listAt (n : BdecodeNode) (i : ℕ) : Option (BdecodeNode × BdecodeNode) :=
  (n.assertType .list).bind fun (idx, _) =>
    let (item, token) := n.lookupStart idx (· ≤ i)
    (listWalk n.rootTokens (i - item) token).map fun token =>
      (n.child token, { n with last := some (i, token) })

/-- `list_size`. -/
def listSize (n : BdecodeNode) : Option (ℕ × BdecodeNode) :=
  (n.assertType .list).bind fun (idx, _) =>
    match n.size with
    | some size => some (size, n)
    | none =>
      let (item, token) := n.lookupStart idx fun _ => true
      (countItems n.rootTokens (n.rootTokens.length + 1) token item).map fun ret =>
        (ret, { n with size := some ret })

/-- `dict_at`. -/
def dictAt (n : BdecodeNode) (i : ℕ) : Option ((ByteString × BdecodeNode) × BdecodeNode) :=
  (n.assertType .dict).bind fun (idx, _) =>
    let (item, token) := n.lookupStart idx (· ≤ i)
    (dictWalk n.rootTokens (i - item) token).bind fun token =>
      (n.child token).stringValue.bind fun key =>
        (skipItem n.rootTokens token).map fun value =>
          -- there is no point in remembering the first item
          ((key, n.child value), if 0 < i then { n with last := some (i, token) } else n)

/-- `dict_size`. -/
def dictSize (n : BdecodeNode) : Option (ℕ × BdecodeNode) :=
  (n.assertType .dict).bind fun (idx, _) =>
    match n.size with
    | some size => some (size, n)
    | none =>
      let (item, token) := n.lookupStart idx fun _ => true
      (countItems n.rootTokens (n.rootTokens.length + 1) token (item * 2)).bind fun ret =>
        if ret % 2 = 0 then some (ret / 2, { n with size := some (ret / 2) }) else none

/-- The loop of `dict_find`. -/
def findLoop (n : BdecodeNode) (key : ByteString) : ℕ → ℕ → Option BdecodeNode
  | 0, _ => none
  | fuel + 1, token =>
    n.rootTokens[token]?.bind fun t =>
      if t.type = .ending then
        some notFound
      else
        (n.child token).stringValue.bind fun found =>
          (skipToItem n.rootTokens token).bind fun value =>
            if key = found then some (n.child value)
            else (skipItem n.rootTokens value).bind (n.findLoop key fuel)

/-- `dict_find`. -/
def dictFind (n : BdecodeNode) (key : ByteString) : Option BdecodeNode :=
  (n.assertType .dict).bind fun (idx, _) =>
    n.findLoop key (n.rootTokens.length + 1) (idx + 1)

end BdecodeNode

/-- The node that `bdecode` returns for the buffer. -/
def BdecodeResult.node (r : BdecodeResult) (buffer : ByteString) : BdecodeNode where
  rootTokens := r.tokens
  buffer := buffer
  tokenIdx := if r.tokens = [] then none else some 0
  last := none
  size := none

end Tent
