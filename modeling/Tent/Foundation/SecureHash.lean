import Mathlib.Data.List.GetD
import Tent.Foundation.Absorb
import Tent.Foundation.Bytes

/-!
# SHA-1

The Secure Hash Standard, FIPS PUB 180-1, as it is written there: a message is padded to whole
blocks of sixteen words (`pad`), each block is expanded to eighty words (`schedule`), and eighty
rounds mix these into five chaining words (`compress`).  `sha1` is the message digest.

Words are 32 bits wide and `S^n` of the standard is `BitVec.rotateLeft`.
-/

set_option autoImplicit false

namespace SecureHash

open Bytes

/-- A word. -/
abbrev Word := BitVec 32

/-- The five words that are chained from block to block. -/
structure Chain where
  /-- `A`, or `H0` between blocks. -/
  a : Word
  /-- `B`, or `H1`. -/
  b : Word
  /-- `C`, or `H2`. -/
  c : Word
  /-- `D`, or `H3`. -/
  d : Word
  /-- `E`, or `H4`. -/
  e : Word
  deriving DecidableEq

/-- Four bytes, the highest first, as a word. -/
def word (b₀ b₁ b₂ b₃ : UInt8) : Word :=
  b₀.toBitVec ++ b₁.toBitVec ++ b₂.toBitVec ++ b₃.toBitVec

/-- The words of a byte string. -/
def words : ByteString → List Word
  | b₀ :: b₁ :: b₂ :: b₃ :: bs => word b₀ b₁ b₂ b₃ :: words bs
  | _ => []

/-! ### The functions of a round -/

/-- `f` of round `t`. -/
def f (t : ℕ) (b c d : Word) : Word :=
  if t < 20 then (b &&& c) ||| (~~~b &&& d)
  else if t < 40 then b ^^^ c ^^^ d
  else if t < 60 then (b &&& c) ||| (b &&& d) ||| (c &&& d)
  else b ^^^ c ^^^ d

/-- `K` of round `t`. -/
def K (t : ℕ) : Word :=
  if t < 20 then 0x5A827999 else if t < 40 then 0x6ED9EBA1 else if t < 60 then 0x8F1BBCDC
  else 0xCA62C1D6

/-- The word behind a list of words. -/
def nextWord (ws : List Word) : Word :=
  (ws.getD (ws.length - 3) 0 ^^^ ws.getD (ws.length - 8) 0 ^^^ ws.getD (ws.length - 14) 0 ^^^
    ws.getD (ws.length - 16) 0).rotateLeft 1

/-- Words are put behind a list. -/
def expand : ℕ → List Word → List Word
  | 0, ws => ws
  | n + 1, ws => expand n (ws ++ [nextWord ws])

/-- The eighty words of a block. -/
def schedule (block : ByteString) : List Word := expand 64 (words block)

/-- Round `t` with the word `w`. -/
def round (h : Chain) (t : ℕ) (w : Word) : Chain where
  a := h.a.rotateLeft 5 + f t h.b h.c h.d + h.e + w + K t
  b := h.a
  c := h.b.rotateLeft 30
  d := h.c
  e := h.d

/-- The eighty rounds of a block, and the sum with what was chained before. -/
def compress (h : Chain) (block : ByteString) : Chain :=
  let r := (List.range 80).foldl (fun r t => round r t ((schedule block).getD t 0)) h
  ⟨h.a + r.a, h.b + r.b, h.c + r.c, h.d + r.d, h.e + r.e⟩

/-! ### The eighty words -/

/-- The words of a block. -/
lemma length_words {block : ByteString} (h : block.length = 64) : (words block).length = 16 := by
  have hlength : ∀ (n : ℕ) (bs : ByteString), bs.length = 4 * n → (words bs).length = n := by
    intro n
    induction n with
    | zero => exact fun bs hbs => by rw [List.length_eq_zero_iff.mp hbs]; rfl
    | succ n ih =>
      intro bs hbs
      obtain ⟨b₀, b₁, b₂, b₃, rest, rfl⟩ :
          ∃ b₀ b₁ b₂ b₃ rest, bs = b₀ :: b₁ :: b₂ :: b₃ :: rest := by
        match bs, hbs with
        | b₀ :: b₁ :: b₂ :: b₃ :: rest, _ => exact ⟨b₀, b₁, b₂, b₃, rest, rfl⟩
      rw [words, List.length_cons, ih rest (by simp only [List.length_cons] at hbs; omega)]
  exact hlength 16 block h

/-- Words that are put behind a list do not change it. -/
lemma getD_expand_of_lt {n t : ℕ} {ws : List Word} (ht : t < ws.length) :
    (expand n ws).getD t 0 = ws.getD t 0 := by
  induction n generalizing ws with
  | zero => rfl
  | succ n ih =>
    rw [expand, ih (by rw [List.length_append]; omega), List.getD_append _ _ _ _ ht]

/-- A word that is put behind a list is made of the words in front of it. -/
lemma getD_expand_of_le {n t : ℕ} {ws : List Word} (hws : 16 ≤ ws.length) (ht : ws.length ≤ t)
    (hn : t < ws.length + n) :
    (expand n ws).getD t 0 =
      ((expand n ws).getD (t - 3) 0 ^^^ (expand n ws).getD (t - 8) 0 ^^^
        (expand n ws).getD (t - 14) 0 ^^^ (expand n ws).getD (t - 16) 0).rotateLeft 1 := by
  induction n generalizing ws with
  | zero => omega
  | succ n ih =>
    have hlength : (ws ++ [nextWord ws]).length = ws.length + 1 := List.length_append
    rw [expand]
    rcases Nat.eq_or_lt_of_le ht with rfl | hlt
    · have hback : ∀ k, 0 < k → (expand n (ws ++ [nextWord ws])).getD (ws.length - k) 0 =
          ws.getD (ws.length - k) 0 := by
        intro k hk
        rw [getD_expand_of_lt (by omega), List.getD_append _ _ _ _ (by omega)]
      rw [hback 3 (by decide), hback 8 (by decide), hback 14 (by decide), hback 16 (by decide),
        getD_expand_of_lt (by omega), List.getD_append_right _ _ _ _ (Nat.le_refl _), Nat.sub_self]
      rfl
    · exact ih (by omega) (by omega) (by omega)

/-! ### The digest of a message -/

/-- The chaining words before the first block. -/
def initial : Chain := ⟨0x67452301, 0xEFCDAB89, 0x98BADCFE, 0x10325476, 0xC3D2E1F0⟩

/-- The bits of padding behind a message of some length, and the number of its bits. -/
def padding (length bits : ℕ) : ByteString :=
  0x80 :: List.replicate ((119 - length % 64) % 64) 0 ++ toBE 8 bits

/-- A message that is padded to whole blocks. -/
def pad (message : ByteString) : ByteString :=
  message ++ padding message.length (8 * message.length)

/-- The bytes of the chaining words. -/
def Chain.digest (h : Chain) : ByteString :=
  [h.a, h.b, h.c, h.d, h.e].flatMap fun w => toBE 4 w.toNat

/-- The digest of a message. -/
def sha1 (message : ByteString) : ByteString :=
  (Absorb.absorb compress 64 initial (pad message)).digest

/-- The first test vector of the standard, the digest of `abc`. -/
example : sha1 [97, 98, 99] =
    [0xA9, 0x99, 0x3E, 0x36, 0x47, 0x06, 0x81, 0x6A, 0xBA, 0x3E, 0x25, 0x71, 0x78, 0x50, 0xC2,
      0x6C, 0x9C, 0xD0, 0xD8, 0x9D] := by
  decide +kernel

end SecureHash
