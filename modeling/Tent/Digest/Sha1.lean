import Tent.Foundation.SecureHash

/-!
# `sha1.cpp`

The SHA-1 of libtorrent.  `SHA1transform` keeps the five working variables where they are and
rotates their names from round to round, and it expands a block into the sixteen words that it was
copied to.  `SHA1_update` fills a buffer of 64 bytes, compresses it when it is full, compresses
further blocks right where they are and keeps the rest in the buffer; the number of bits is counted
in two halves.  `SHA1_final` feeds the padding through `SHA1_update`.

A copy that would leave the buffer is not a value, and neither is a loop that does not end.
-/

set_option autoImplicit false

namespace Tent

open Bytes SecureHash

/-- `rol`. -/
def rol (value : Word) (bits : ℕ) : Word := value <<< bits ||| value >>> (32 - bits)

/-! ### The words of a block -/

/-- The order of the bytes of a word in memory. -/
inductive Endian where
  /-- The lowest byte comes first. -/
  | little
  /-- The highest byte comes first. -/
  | big

/-- A word that is read from four bytes of memory. -/
def Endian.word : Endian → UInt8 → UInt8 → UInt8 → UInt8 → Word
  | .little, b₀, b₁, b₂, b₃ => SecureHash.word b₃ b₂ b₁ b₀
  | .big, b₀, b₁, b₂, b₃ => SecureHash.word b₀ b₁ b₂ b₃

/-- The words of a `CHAR64LONG16` whose bytes are given. -/
def Endian.load (endian : Endian) : ByteString → List Word
  | b₀ :: b₁ :: b₂ :: b₃ :: bs => endian.word b₀ b₁ b₂ b₃ :: endian.load bs
  | _ => []

/-- `little_endian_blk0::apply`. -/
def littleEndianBlk0 (block : List Word) (i : ℕ) : List Word × Word :=
  let x := rol (block.getD i 0) 24 &&& 0xFF00FF00 ||| rol (block.getD i 0) 8 &&& 0x00FF00FF
  (block.set i x, x)

/-- `big_endian_blk0::apply`. -/
def bigEndianBlk0 (block : List Word) (i : ℕ) : List Word × Word := (block, block.getD i 0)

/-- `BlkFun::apply`. -/
def Endian.blk0 : Endian → List Word → ℕ → List Word × Word
  | .little => littleEndianBlk0
  | .big => bigEndianBlk0

/-- `blk`. -/
def blk (block : List Word) (i : ℕ) : List Word × Word :=
  let x := rol (block.getD ((i + 13) &&& 15) 0 ^^^ block.getD ((i + 8) &&& 15) 0 ^^^
    block.getD ((i + 2) &&& 15) 0 ^^^ block.getD (i &&& 15) 0) 1
  (block.set (i &&& 15) x, x)

/-! ### Rounds -/

/-- The working variables. -/
inductive Var where
  | a | b | c | d | e
  deriving DecidableEq

/-- The value of a working variable. -/
def Var.get : Var → Chain → Word
  | a, vars => vars.a
  | b, vars => vars.b
  | c, vars => vars.c
  | d, vars => vars.d
  | e, vars => vars.e

/-- A working variable is assigned. -/
def Var.set : Var → Word → Chain → Chain
  | a, x, vars => { vars with a := x }
  | b, x, vars => { vars with b := x }
  | c, x, vars => { vars with c := x }
  | d, x, vars => { vars with d := x }
  | e, x, vars => { vars with e := x }

/-- The locals of `SHA1transform`. -/
structure Workspace where
  /-- The working variables. -/
  vars : Chain
  /-- `block->l`. -/
  block : List Word

/-- A round: `z` is raised by a mix of the others, a word and a constant, and `w` is rotated. -/
def mixRound (mix : Word → Word → Word → Word) (fetch : List Word → ℕ → List Word × Word)
    (constant : Word) (v w x y z : Var) (i : ℕ) (s : Workspace) : Workspace :=
  let (block, word) := fetch s.block i
  let vars := z.set (z.get s.vars + (mix (w.get s.vars) (x.get s.vars) (y.get s.vars) + word +
    constant + rol (v.get s.vars) 5)) s.vars
  ⟨w.set (rol (w.get vars) 30) vars, block⟩

/-- `R0`. -/
def R0 (endian : Endian) : Var → Var → Var → Var → Var → ℕ → Workspace → Workspace :=
  mixRound (fun w x y => w &&& (x ^^^ y) ^^^ y) endian.blk0 0x5A827999

/-- `R1`. -/
def R1 : Var → Var → Var → Var → Var → ℕ → Workspace → Workspace :=
  mixRound (fun w x y => w &&& (x ^^^ y) ^^^ y) blk 0x5A827999

/-- `R2`. -/
def R2 : Var → Var → Var → Var → Var → ℕ → Workspace → Workspace :=
  mixRound (fun w x y => w ^^^ x ^^^ y) blk 0x6ED9EBA1

/-- `R3`. -/
def R3 : Var → Var → Var → Var → Var → ℕ → Workspace → Workspace :=
  mixRound (fun w x y => (w ||| x) &&& y ||| w &&& x) blk 0x8F1BBCDC

/-- `R4`. -/
def R4 : Var → Var → Var → Var → Var → ℕ → Workspace → Workspace :=
  mixRound (fun w x y => w ^^^ x ^^^ y) blk 0xCA62C1D6

open Var in
/-- The rounds of `SHA1transform`, in its order. -/
def rounds (endian : Endian) : List (Workspace → Workspace) := [
  R0 endian a b c d e 0, R0 endian e a b c d 1, R0 endian d e a b c 2, R0 endian c d e a b 3,
  R0 endian b c d e a 4, R0 endian a b c d e 5, R0 endian e a b c d 6, R0 endian d e a b c 7,
  R0 endian c d e a b 8, R0 endian b c d e a 9, R0 endian a b c d e 10, R0 endian e a b c d 11,
  R0 endian d e a b c 12, R0 endian c d e a b 13, R0 endian b c d e a 14, R0 endian a b c d e 15,
  R1 e a b c d 16, R1 d e a b c 17, R1 c d e a b 18, R1 b c d e a 19,
  R2 a b c d e 20, R2 e a b c d 21, R2 d e a b c 22, R2 c d e a b 23,
  R2 b c d e a 24, R2 a b c d e 25, R2 e a b c d 26, R2 d e a b c 27,
  R2 c d e a b 28, R2 b c d e a 29, R2 a b c d e 30, R2 e a b c d 31,
  R2 d e a b c 32, R2 c d e a b 33, R2 b c d e a 34, R2 a b c d e 35,
  R2 e a b c d 36, R2 d e a b c 37, R2 c d e a b 38, R2 b c d e a 39,
  R3 a b c d e 40, R3 e a b c d 41, R3 d e a b c 42, R3 c d e a b 43,
  R3 b c d e a 44, R3 a b c d e 45, R3 e a b c d 46, R3 d e a b c 47,
  R3 c d e a b 48, R3 b c d e a 49, R3 a b c d e 50, R3 e a b c d 51,
  R3 d e a b c 52, R3 c d e a b 53, R3 b c d e a 54, R3 a b c d e 55,
  R3 e a b c d 56, R3 d e a b c 57, R3 c d e a b 58, R3 b c d e a 59,
  R4 a b c d e 60, R4 e a b c d 61, R4 d e a b c 62, R4 c d e a b 63,
  R4 b c d e a 64, R4 a b c d e 65, R4 e a b c d 66, R4 d e a b c 67,
  R4 c d e a b 68, R4 b c d e a 69, R4 a b c d e 70, R4 e a b c d 71,
  R4 d e a b c 72, R4 c d e a b 73, R4 b c d e a 74, R4 a b c d e 75,
  R4 e a b c d 76, R4 d e a b c 77, R4 c d e a b 78, R4 b c d e a 79]

/-- `SHA1transform`. -/
def sha1Transform (endian : Endian) (state : Chain) (buffer : ByteString) : Chain :=
  let s := (rounds endian).foldl (fun s round => round s) ⟨state, endian.load buffer⟩
  ⟨state.a + s.vars.a, state.b + s.vars.b, state.c + s.vars.c, state.d + s.vars.d,
    state.e + s.vars.e⟩

/-! ### The context -/

/-- The buffer of a context. -/
structure Sha1Buffer where
  /-- Its bytes. -/
  bytes : ByteString
  /-- There are 64 of them. -/
  length_bytes : bytes.length = 64

/-- `memcpy` to an offset of the buffer. -/
def Sha1Buffer.memcpy (buffer : Sha1Buffer) (j : ℕ) (src : ByteString) : Option Sha1Buffer :=
  if h : j + src.length ≤ 64 then
    some ⟨buffer.bytes.take j ++ src ++ buffer.bytes.drop (j + src.length), by
      have hbuffer := buffer.length_bytes
      simp only [List.length_append, List.length_take, List.length_drop]
      omega⟩
  else
    none

/-- `sha1_ctx`. -/
structure Sha1Ctx where
  /-- `state`. -/
  state : Chain
  /-- `count[0]`, the lower half of the number of bits. -/
  count0 : Word
  /-- `count[1]`, its upper half. -/
  count1 : Word
  /-- `buffer`. -/
  buffer : Sha1Buffer

/-- `SHA1_init`, which leaves the buffer as it is. -/
def sha1Init (buffer : Sha1Buffer) : Sha1Ctx where
  state := ⟨0x67452301, 0xEFCDAB89, 0x98BADCFE, 0x10325476, 0xC3D2E1F0⟩
  count0 := 0
  count1 := 0
  buffer := buffer

section Update

variable (endian : Endian)

/-- The loop over whole blocks of the data: the state, and what is left of the data. -/
def transformLoop : ℕ → Chain → ByteString → Option (Chain × ByteString)
  | 0, _, _ => none
  | fuel + 1, state, data =>
    if 63 < data.length then
      transformLoop fuel (sha1Transform endian state (data.take 64)) (data.drop 64)
    else
      some (state, data)

/-- The two halves of the number of bits.  The comparison is one of `size_t`s. -/
def countUpdate (len : ℕ) (count0 count1 : Word) : Word × Word :=
  let bits := len * 8 % 2 ^ 64
  let sum := count0 + BitVec.ofNat 32 bits
  let carried := if sum.toNat < bits then count1 + 1 else count1
  (sum, carried + BitVec.ofNat 32 (len / 2 ^ 29))

/-- `SHA1_update`, which is `internal_update`. -/
def sha1Update (ctx : Sha1Ctx) (data : ByteString) : Option Sha1Ctx :=
  let j := (ctx.count0 >>> 3 &&& 63).toNat
  let (count0, count1) := countUpdate data.length ctx.count0 ctx.count1
  if 63 < j + data.length then
    (ctx.buffer.memcpy j (data.take (64 - j))).bind fun buffer =>
      (transformLoop endian (data.length + 1) (sha1Transform endian ctx.state buffer.bytes)
        (data.drop (64 - j))).bind fun (state, data) =>
          (buffer.memcpy 0 data).map fun buffer => ⟨state, count0, count1, buffer⟩
  else
    (ctx.buffer.memcpy j data).map fun buffer => ⟨ctx.state, count0, count1, buffer⟩

/-! ### The digest -/

/-- The loop that appends zeros. -/
def zerosLoop : ℕ → Sha1Ctx → Option Sha1Ctx
  | 0, _ => none
  | fuel + 1, ctx =>
    if ctx.count0 &&& 504 ≠ 448 then
      (sha1Update endian ctx [0]).bind (zerosLoop fuel)
    else
      some ctx

/-- Byte `i` of words that are written with their highest byte first. -/
def byteOfWords (words : List Word) (i : ℕ) : UInt8 :=
  UInt8.ofBitVec ((words.getD (i >>> 2) 0 >>> ((3 - (i &&& 3)) * 8) &&& 255).setWidth 8)

/-- `SHA1_final`. -/
def sha1Final (ctx : Sha1Ctx) : Option ByteString :=
  let finalcount := (List.range 8).map (byteOfWords [ctx.count1, ctx.count0])
  (sha1Update endian ctx [0x80]).bind fun ctx =>
    (zerosLoop endian 64 ctx).bind fun ctx =>
      (sha1Update endian ctx finalcount).map fun ctx =>
        let state := ctx.state
        (List.range 20).map (byteOfWords [state.a, state.b, state.c, state.d, state.e])

end Update

end Tent
