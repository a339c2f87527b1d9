import Tent.Tracker.Endpoint

/-!
# `bdecode`

`lt::bdecode` turns a buffer into an array of tokens.  A token holds the offset of an item in the
buffer and the distance to the token of the next item; a list or a dictionary is followed by the
tokens of its items and by an end token.  The parser is a loop with a stack of the lists and
dictionaries that are still open, where a dictionary's frame tells whether a key or a value is read
next.

The fields of a token and of a frame are bit fields, so what is stored in them is reduced modulo
their width.  The stack is a list with its top in front.  When the loop stops early, the open lists
and dictionaries are closed, so that the array can still be walked.
-/

set_option autoImplicit false

namespace Tent

open Bytes

/-! ### Tokens -/

/-- `bdecode_errors::error_code_enum`, without the value that stands for no error. -/
inductive BdecodeError where
  | expectedDigit
  | expectedColon
  | unexpectedEof
  | expectedValue
  | depthExceeded
  | limitExceeded
  | overflow
  deriving DecidableEq

/-- The types of a token that `bdecode` writes. -/
inductive TokenType where
  | dict
  | list
  | string
  | integer
  | ending
  deriving DecidableEq

/-- `bdecode_token`. -/
structure BdecodeToken where
  /-- The offset of the item in the buffer. -/
  offset : ℕ
  /-- The type of the item. -/
  type : TokenType
  /-- The distance to the token of the next item. -/
  nextItem : ℕ
  /-- The length of the prefix of a string, less the two bytes that are always there. -/
  header : ℕ
  deriving DecidableEq

namespace BdecodeToken

/-- `max_offset`. -/
def maxOffset : ℕ := 2 ^ 29 - 1

/-- `max_next_item`. -/
def maxNextItem : ℕ := 2 ^ 29 - 1

/-- `max_header`. -/
def maxHeader : ℕ := 2 ^ 3 - 1

/-- The constructor with two arguments. -/
def opening (off : ℕ) (t : TokenType) : BdecodeToken where
  offset := off % 2 ^ 29
  type := t
  nextItem := 0
  header := 0

/-- The other constructor. -/
def create (off next : ℕ) (t : TokenType) (headerSize : ℕ) : BdecodeToken where
  offset := off % 2 ^ 29
  type := t
  nextItem := next % 2 ^ 29
  header := if t = .string then (headerSize - 2) % 2 ^ 3 else 0

/-- `start_offset`. -/
def startOffset (t : BdecodeToken) : ℕ := t.header + 2

/-- Writes the distance to the next item. -/
def setNextItem (next : ℕ) (t : BdecodeToken) : BdecodeToken := { t with nextItem := next % 2 ^ 29 }

end BdecodeToken

/-! ### Numbers -/

/-- `numeric`. -/
def numeric (c : UInt8) : Bool := 48 ≤ c.toNat && c.toNat ≤ 57

/-- The value of a digit. -/
def digitOf (c : UInt8) : ℕ := c.toNat - 48

/-- The largest `int64_t`. -/
def int64Max : ℕ := 2 ^ 63 - 1

/-- The loop of `check_integer`: how many digits there are, what is left, and the error. -/
def checkDigits : ByteString → ℕ → ℕ × ByteString × Option BdecodeError
  | [], digits => (digits, [], some .unexpectedEof)
  | c :: rest, digits =>
    if !numeric c then
      (digits, c :: rest, some .expectedDigit)
    else if rest.head? = some 101 then
      (digits + 1, rest, none)
    else
      checkDigits rest (digits + 1)

/-- What follows an optional minus sign. -/
def unsigned (start : ByteString) : ByteString :=
  if start.head? = some 45 then start.tail else start

/-- `check_integer`: what is left, and the error. -/
def checkInteger (start : ByteString) : ByteString × Option BdecodeError :=
  if unsigned start = [] then
    ([], some .unexpectedEof)
  else
    let (digits, left, e) := checkDigits (unsigned start) 0
    (left, if 20 < digits then some .overflow else e)

/-- `parse_int`: the value and what is left, from the delimiter on. -/
def parseInt (delimiter : UInt8) :
    ByteString → ℕ → Except (BdecodeError × ByteString) (ℕ × ByteString)
  | [], val => .ok (val, [])
  | c :: rest, val =>
    if c = delimiter then
      .ok (val, c :: rest)
    else if !numeric c then
      .error (.expectedDigit, c :: rest)
    else if int64Max / 10 < val then
      .error (.overflow, c :: rest)
    else if int64Max - digitOf c < val * 10 then
      .error (.overflow, c :: rest)
    else
      parseInt delimiter rest (val * 10 + digitOf c)

/-! ### The state of the loop -/

/-- `stack_frame`. -/
structure StackFrame where
  /-- The index of the token. -/
  token : ℕ
  /-- In a dictionary, whether a value is read next. -/
  state : Bool
  deriving DecidableEq

/-- The frame of a list or dictionary that was just opened. -/
def StackFrame.create (t : ℕ) : StackFrame := ⟨t % 2 ^ 31, false⟩

/-- The variables of `bdecode`. -/
structure Parse where
  /-- `start - orig_start`. -/
  offset : ℕ
  /-- The bytes from `start` up to `end`. -/
  rest : ByteString
  /-- `ret.m_tokens`. -/
  tokens : List BdecodeToken
  /-- The first `sp` entries of `stack`, the last one in front. -/
  stack : List StackFrame
  /-- `token_limit`. -/
  tokenLimit : ℕ
  deriving DecidableEq

/-- How the loop ends early: the error, the offset that is reported, and the variables at `done`. -/
structure Failure where
  /-- `ec`. -/
  error : BdecodeError
  /-- `*error_pos`. -/
  errorPos : ℕ
  /-- The variables at `done`. -/
  state : Parse
  deriving DecidableEq

namespace Parse

/-- Moves `start` forward to the place where `left` is left. -/
def seek (p : Parse) (left : ByteString) : Parse :=
  { p with offset := p.offset + (p.rest.length - left.length), rest := left }

/-- `TORRENT_FAIL_BDECODE`. -/
def fail (p : Parse) (e : BdecodeError) : Except Failure Parse := .error ⟨e, p.offset, p⟩

/-- What fails does not go on. -/
@[simp] lemma fail_ne_ok (p q : Parse) (e : BdecodeError) : p.fail e ≠ .ok q := by
  simp [fail]

/-- Whether the frame is that of a dictionary. -/
def isDict (p : Parse) (f : StackFrame) : Bool :=
  (p.tokens[f.token]?.map BdecodeToken.type) == some .dict

/-- Whether the innermost open item is a dictionary that expects a key. -/
def readsKey (p : Parse) : Bool :=
  match p.stack with
  | [] => false
  | f :: _ => p.isDict f && !f.state

/-- Whether the innermost open item is a dictionary that expects a value. -/
def readsValue (p : Parse) : Bool :=
  match p.stack with
  | [] => false
  | f :: _ => p.isDict f && f.state

/-- Turns a dictionary from keys to values or back: what the end of the loop's body does to the
frame that was on top before the token. -/
def flip (p : Parse) : List StackFrame :=
  match p.stack with
  | [] => []
  | f :: fs => (if p.isDict f then { f with state := !f.state } else f) :: fs

/-- The token opens a list or a dictionary. -/
def enter (p : Parse) (t : TokenType) (rest : ByteString) : Parse :=
  { p.seek rest with
    tokens := p.tokens ++ [.opening p.offset t]
    stack := .create p.tokens.length :: p.flip }

/-- The case `'i'`. -/
def readInteger (p : Parse) (rest : ByteString) : Except Failure Parse :=
  match checkInteger rest with
  -- the offset that is reported is inside the integer, but `start` goes back to its beginning
  | (left, some e) => .error ⟨e, (p.seek left).offset, p⟩
  | (left, none) =>
    .ok { p.seek left.tail with
      tokens := p.tokens ++ [.create p.offset 1 .integer 1]
      stack := p.flip }

/-- The case `'e'`.  The frame that was on top is gone, so nothing is left to turn. -/
def leave (p : Parse) (rest : ByteString) : Except Failure Parse :=
  match p.stack with
  | [] => p.fail .unexpectedEof
  | f :: fs =>
    if p.readsValue then
      p.fail .expectedValue
    else
      let tokens := p.tokens ++ [.create p.offset 1 .ending 0]
      if BdecodeToken.maxNextItem < tokens.length - f.token then
        { p with tokens := tokens }.fail .limitExceeded
      else
        .ok { p.seek rest with
          tokens := tokens.modify f.token (.setNextItem (tokens.length - f.token))
          stack := fs }

/-- The case of a string whose first digit is `t`. -/
def readString (p : Parse) (t : UInt8) (rest : ByteString) : Except Failure Parse :=
  if rest = [] then
    (p.seek rest).fail .unexpectedEof
  else
    match parseInt 58 rest (digitOf t) with
    | .error (e, left) => (p.seek left).fail e
    | .ok (_, []) => (p.seek []).fail .expectedColon
    | .ok (len, colon :: body) =>
      if body.length < len then
        (p.seek (colon :: body)).fail .unexpectedEof
      else if BdecodeToken.maxHeader < p.rest.length - body.length - 2 then
        (p.seek body).fail .limitExceeded
      else
        .ok { p.seek (body.drop len) with
          tokens := p.tokens ++ [.create p.offset 1 .string (p.rest.length - body.length)]
          stack := p.flip }

/-- The part of the loop's body that looks at the byte `t`. -/
def dispatch (p : Parse) (t : UInt8) (rest : ByteString) : Except Failure Parse :=
  if p.readsKey && !numeric t && t != 101 then
    p.fail .expectedDigit
  else if t = 100 then
    .ok (p.enter .dict rest)
  else if t = 108 then
    .ok (p.enter .list rest)
  else if t = 105 then
    p.readInteger rest
  else if t = 101 then
    p.leave rest
  else if !numeric t then
    p.fail .expectedValue
  else
    p.readString t rest

/-- The body of the loop. -/
def step (depthLimit : ℕ) (p : Parse) : Except Failure Parse :=
  match p.rest with
  | [] => p.fail .unexpectedEof
  | t :: rest =>
    if depthLimit ≤ p.stack.length then
      p.fail .depthExceeded
    else if p.tokenLimit = 0 then
      p.fail .limitExceeded
    else
      { p with tokenLimit := p.tokenLimit - 1 }.dispatch t rest

/-- The loop.  The fuel is more than there are bytes left, and every pass reads one at least. -/
def loop (depthLimit : ℕ) : ℕ → Parse → Except Failure Parse
  | 0, p => p.fail .unexpectedEof
  | fuel + 1, p =>
    match step depthLimit p with
    | .error f => .error f
    | .ok q => if q.stack = [] then .ok q else loop depthLimit fuel q

/-- The body of the loop after `done`, which closes one open item. -/
def unwindFrame (p : Parse) (f : StackFrame) : Parse :=
  let tokens :=
    if p.isDict f && f.state then
      p.tokens ++ [.create p.offset 2 .dict 0, .opening p.offset .ending]
    else
      p.tokens
  { p with
    tokens := tokens.modify f.token (.setNextItem (tokens.length - f.token)) ++
      [.create p.offset 1 .ending 0] }

/-- What follows `done`: the open items are closed from the inside out, and the last token marks
the end. -/
def finish (p : Parse) : List BdecodeToken :=
  (p.stack.foldl unwindFrame p).tokens ++ [.create p.offset 0 .ending 0]

end Parse

/-! ### `bdecode` -/

/-- What `bdecode` returns: the error with its offset, the tokens, and `m_buffer_size`. -/
structure BdecodeResult where
  /-- `ec` and `*error_pos`. -/
  error : Option (BdecodeError × ℕ)
  /-- `ret.m_tokens`. -/
  tokens : List BdecodeToken
  /-- `ret.m_buffer_size`. -/
  bufferSize : ℕ
  deriving DecidableEq

/-- The variables before the loop. -/
def Parse.start (buffer : ByteString) (tokenLimit : ℕ) : Parse := ⟨0, buffer, [], [], tokenLimit⟩

/-- The default of `depth_limit`. -/
def defaultDepthLimit : ℕ := 100

/-- The default of `token_limit`. -/
def defaultTokenLimit : ℕ := 2000000

/-- `bdecode`. -/
def bdecode (buffer : ByteString) (depthLimit tokenLimit : ℕ) : BdecodeResult :=
  if BdecodeToken.maxOffset < buffer.length then
    ⟨some (.limitExceeded, 0), [], 0⟩
  else
    match Parse.loop depthLimit (buffer.length + 1) (.start buffer tokenLimit) with
    | .ok p => ⟨none, p.finish, p.offset⟩
    | .error f => ⟨some (f.error, f.errorPos), f.state.finish, f.state.offset⟩

end Tent
