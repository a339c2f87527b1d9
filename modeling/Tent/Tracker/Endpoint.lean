import Mathlib.Data.List.TakeWhile
import Tent.Foundation.Bytes

/-!
# Addresses and peers

`endpoint`, `net::saddr_to_str` and `peer_info`, with what they use of the C library.  Strings are
strings of bytes, as `std::string` is.

An IPv4 address is the four octets of an `in_addr` in memory order.  As a `uint32_t` these are read
on a little-endian host, so `htonl` and `ntohl` swap bytes.  `inetNtop` prints an address in dotted
decimal, and `inetPton` accepts exactly what `inetNtop` prints (`inetPton_eq_some_iff`): four
decimal numbers without leading zeros.
-/

set_option autoImplicit false

namespace Tent

open Bytes

/-! ### Text -/

/-- A text as a string of bytes. -/
def ascii (chars : List Char) : ByteString := chars.map fun c => UInt8.ofNat c.toNat

/-- A number in decimal digits. -/
def decimal (n : ℕ) : ByteString := ascii (Nat.toDigits 10 n)

/-- The number that a string of decimal digits stands for. -/
def digitsValue (digits : ByteString) : ℕ :=
  digits.foldl (fun acc x => acc * 10 + (x.toNat - 48)) 0

/-- `std::string::c_str`, as a function reads it: up to the first zero byte. -/
def cStr (s : ByteString) : ByteString := s.takeWhile (· ≠ 0)

/-! ### Byte order -/

/-- `htonl` and `ntohl` on a little-endian host. -/
def ntohl (n : ℕ) : ℕ := ofBE (toBE 4 n).reverse

/-- `htons` and `ntohs` on a little-endian host. -/
def ntohs (n : ℕ) : ℕ := ofBE (toBE 2 n).reverse

/-- Swapping the bytes of a 32-bit word reverses them. -/
lemma ntohl_ofBE {b : ByteString} (hb : b.length = 4) : ntohl (ofBE b) = ofBE b.reverse := by
  rw [ntohl, ← hb, toBE_ofBE]

/-- Swapping the bytes of a 16-bit word reverses them. -/
lemma ntohs_ofBE {b : ByteString} (hb : b.length = 2) : ntohs (ofBE b) = ofBE b.reverse := by
  rw [ntohs, ← hb, toBE_ofBE]

/-- Swapping the bytes of a 16-bit word twice gives it back. -/
lemma ntohs_ntohs {n : ℕ} (hn : n < 65536) : ntohs (ntohs n) = n := by
  have hswap : ntohs n = ofBE (toBE 2 n).reverse := rfl
  rw [hswap, ntohs_ofBE (by simp), List.reverse_reverse, ofBE_toBE_of_lt hn]

/-! ### Addresses -/

/-- `in_addr`: the octets of an address in memory order. -/
structure InAddr where
  /-- The first octet. -/
  a : UInt8
  /-- The second octet. -/
  b : UInt8
  /-- The third octet. -/
  c : UInt8
  /-- The last octet. -/
  d : UInt8
deriving DecidableEq, Repr

namespace InAddr

/-- The octets of an address. -/
def octets (addr : InAddr) : ByteString := [addr.a, addr.b, addr.c, addr.d]

/-- `s_addr`, as a little-endian host reads it. -/
def sAddr (addr : InAddr) : ℕ := ofBE addr.octets.reverse

/-- The address whose `s_addr` was set. -/
def ofSAddr (n : ℕ) : InAddr where
  a := UInt8.ofNat (n % 256)
  b := UInt8.ofNat (n / 256 % 256)
  c := UInt8.ofNat (n / 256 ^ 2 % 256)
  d := UInt8.ofNat (n / 256 ^ 3 % 256)

/-- An address is known by its octets. -/
lemma octets_injective : Function.Injective octets := by
  rintro ⟨a, b, c, d⟩ ⟨a', b', c', d'⟩ h
  simpa [octets] using h

/-- The octets of an address whose `s_addr` was set. -/
lemma octets_ofSAddr (n : ℕ) : (ofSAddr n).octets = (toBE 4 n).reverse := by
  simp [octets, ofSAddr, toBE]

/-- The first octet of an address is the highest byte of `ntohl(s_addr)`. -/
lemma ntohl_sAddr (addr : InAddr) : ntohl addr.sAddr = ofBE addr.octets := by
  rw [sAddr, ntohl_ofBE (by simp [octets]), List.reverse_reverse]

end InAddr

/-- `inet_ntop` for `AF_INET`. -/
def inetNtop (addr : InAddr) : ByteString :=
  (ascii ['.']).intercalate (addr.octets.map fun octet => decimal octet.toNat)

/-- The octet that a decimal number without leading zeros stands for. -/
def parseOctet (s : ByteString) : Option UInt8 :=
  ((List.range 256).find? fun n => decimal n == s).map UInt8.ofNat

/-- `inet_pton` for `AF_INET`; none if it does not return one. -/
def inetPton (s : ByteString) : Option InAddr :=
  match s.splitOn 46 with
  | [w, x, y, z] =>
    (parseOctet w).bind fun a => (parseOctet x).bind fun b => (parseOctet y).bind fun c =>
      (parseOctet z).map fun d => ⟨a, b, c, d⟩
  | _ => none

/-- `net::saddr_to_str`. -/
def saddrToStr (saddr : ℕ) : ByteString := inetNtop (.ofSAddr (ntohl saddr))

/-- `net::saddr_to_str` of four bytes that were read as a big-endian word. -/
lemma saddrToStr_ofBE (addr : InAddr) : saddrToStr (ofBE addr.octets) = inetNtop addr := by
  have hlen : addr.octets.length = 4 := rfl
  have haddr : InAddr.ofSAddr (ntohl (ofBE addr.octets)) = addr := by
    apply InAddr.octets_injective
    rw [InAddr.octets_ofSAddr, ntohl_ofBE hlen]
    have hback : toBE 4 (ofBE addr.octets.reverse) = addr.octets.reverse := by
      rw [← hlen, ← List.length_reverse, toBE_ofBE]
    rw [hback, List.reverse_reverse]
  rw [saddrToStr, haddr]

/-! ### Dotted decimal -/

/-- The decimal digits of a small number stand for it. -/
lemma digitsValue_decimal : ∀ n < 256, digitsValue (decimal n) = n := by
  decide +kernel

/-- What is read as an octet is its decimal digits. -/
lemma decimal_of_parseOctet {s : ByteString} {octet : UInt8} (h : parseOctet s = some octet) :
    decimal octet.toNat = s := by
  obtain ⟨n, hfind, rfl⟩ := Option.map_eq_some_iff.mp h
  have hlt : n < 256 := List.mem_range.mp (List.mem_of_find?_eq_some hfind)
  have hn : (UInt8.ofNat n).toNat = n := by
    rw [UInt8.toNat_ofNat']
    exact Nat.mod_eq_of_lt hlt
  have hdecimal := List.find?_some hfind
  rw [hn]
  exact eq_of_beq hdecimal

/-- An octet is read as it was printed. -/
lemma parseOctet_decimal (octet : UInt8) : parseOctet (decimal octet.toNat) = some octet := by
  have hsome : (parseOctet (decimal octet.toNat)).isSome = true := by
    rw [parseOctet, Option.isSome_map, List.find?_isSome]
    exact ⟨octet.toNat, List.mem_range.mpr octet.toNat_lt, beq_self_eq_true _⟩
  obtain ⟨octet', hoctet'⟩ := Option.isSome_iff_exists.mp hsome
  have hvalue := congrArg digitsValue (decimal_of_parseOctet hoctet')
  rw [digitsValue_decimal _ octet'.toNat_lt, digitsValue_decimal _ octet.toNat_lt] at hvalue
  rw [hoctet', UInt8.toNat_inj.mp hvalue]

/-- The decimal digits of an octet are neither dots nor zero bytes. -/
lemma decimal_octet {octet x : UInt8} (hx : x ∈ decimal octet.toNat) : x ≠ 46 ∧ x ≠ 0 := by
  have hall :
      ((List.range 256).all fun n => (decimal n).all fun x => x != 46 && x != 0) = true := by
    decide +kernel
  have hoctet := List.all_eq_true.mp hall octet.toNat (List.mem_range.mpr octet.toNat_lt)
  have hdigit := List.all_eq_true.mp hoctet x hx
  rwa [Bool.and_eq_true, bne_iff_ne, bne_iff_ne] at hdigit

/-- Splitting a printed address at its dots. -/
lemma splitOn_inetNtop (addr : InAddr) :
    (inetNtop addr).splitOn 46 = addr.octets.map fun octet => decimal octet.toNat := by
  refine List.splitOn_intercalate 46 ?_ (by simp [InAddr.octets])
  intro l hl hmem
  obtain ⟨octet, -, rfl⟩ := List.mem_map.mp hl
  exact (decimal_octet hmem).1 rfl

/-- `inet_ntop` and `inet_pton` are inverse to each other. -/
lemma inetPton_eq_some_iff {s : ByteString} {addr : InAddr} :
    inetPton s = some addr ↔ s = inetNtop addr := by
  constructor
  · intro h
    unfold inetPton at h
    split at h
    · next w x y z hsplit =>
      simp only [Option.bind_eq_some_iff, Option.map_eq_some_iff] at h
      obtain ⟨a, ha, b, hb, c, hc, d, hd, rfl⟩ := h
      have hback : (ascii ['.']).intercalate (s.splitOn 46) = s := List.intercalate_splitOn 46
      rw [hsplit] at hback
      rw [← hback, ← decimal_of_parseOctet ha, ← decimal_of_parseOctet hb,
        ← decimal_of_parseOctet hc, ← decimal_of_parseOctet hd]
      rfl
    · exact absurd h (by simp)
  · rintro rfl
    unfold inetPton
    rw [splitOn_inetNtop]
    simp [InAddr.octets, parseOctet_decimal]

/-- `inet_pton` accepts what `inet_ntop` prints. -/
lemma inetPton_inetNtop (addr : InAddr) : inetPton (inetNtop addr) = some addr :=
  inetPton_eq_some_iff.mpr rfl

/-- Different addresses are printed differently. -/
lemma inetNtop_injective : Function.Injective inetNtop := by
  intro addr addr' h
  have hback := inetPton_inetNtop addr
  rw [h, inetPton_inetNtop] at hback
  exact (Option.some.inj hback).symm

/-- A printed address has no zero byte. -/
lemma cStr_inetNtop (addr : InAddr) : cStr (inetNtop addr) = inetNtop addr := by
  have hdot : ∀ x ∈ ascii ['.'], x ≠ 0 := by
    intro x hx
    rw [List.mem_singleton.mp hx]
    decide
  refine List.takeWhile_eq_self_iff.mpr fun x hx => decide_eq_true ?_
  simp only [inetNtop, InAddr.octets, List.map_cons, List.map_nil, List.intercalate_cons_cons,
    List.intercalate_singleton, List.mem_append] at hx
  rcases hx with (h | h) | (h | h) | (h | h) | h
  · exact (decimal_octet h).2
  · exact hdot x h
  · exact (decimal_octet h).2
  · exact hdot x h
  · exact (decimal_octet h).2
  · exact hdot x h
  · exact (decimal_octet h).2

/-! ### Endpoints and peers -/

/-- What the code around the trackers throws. -/
inductive TrackerError where
  /-- `std::runtime_error` of the constructor of `endpoint`. -/
  | invalidAddress
  /-- `std::out_of_range` of `header_fields_.at`. -/
  | noHeaderField
  /-- `std::invalid_argument` of `std::stoi`. -/
  | invalidArgument
  /-- `std::out_of_range` of `std::stoi`. -/
  | outOfRange
deriving DecidableEq, Repr

/-- `endpoint`: the fields of its `sockaddr_in` that are used. -/
structure Endpoint where
  /-- `sin_port`, in network byte order. -/
  sinPort : ℕ
  /-- `sin_addr`. -/
  sinAddr : InAddr
deriving DecidableEq, Repr

/-- The constructor `endpoint::endpoint` from an address and a port. -/
def Endpoint.create (ip : ByteString) (port : ℕ) : Except TrackerError Endpoint :=
  match inetPton (cStr ip) with
  | none => .error .invalidAddress
  | some addr => .ok ⟨ntohs port, addr⟩

/-- `peer_info`. -/
structure PeerInfo where
  /-- `id_`. -/
  id : ByteString
  /-- `endpoint_`. -/
  endpoint : Endpoint
deriving DecidableEq, Repr

namespace PeerInfo

/-- The constructor `peer_info::peer_info`; the port is a `uint16_t`. -/
def create (id ip : ByteString) (port : ℕ) : Except TrackerError PeerInfo :=
  (Endpoint.create ip port).map fun endpoint => ⟨id, endpoint⟩

/-- The address and the port of a peer. -/
def key (peer : PeerInfo) : InAddr × ℕ := (peer.endpoint.sinAddr, ntohs peer.endpoint.sinPort)

end PeerInfo

end Tent
