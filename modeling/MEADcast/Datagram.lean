import MEADcast.Header
import MEADcast.Lib.OnesSum

/-!
# IPv6 and UDP headers

What both programs read and write of the headers around the MEADcast header, and the octets
that a UDP checksum covers.
-/

namespace MEADcast

/-- The fields of `struct ipv6hdr` that the programs read or write. -/
structure Ipv6Hdr where
  payload_len : BitVec 16
  nexthdr : BitVec 8
  hop_limit : BitVec 8
  saddr : In6Addr
  daddr : In6Addr
  deriving DecidableEq, Repr

/-- `struct udphdr` and the payload behind it, in network order. -/
structure Udp where
  source : BitVec 16
  dest : BitVec 16
  len : BitVec 16
  check : BitVec 16
  data : List (BitVec 8)
  deriving DecidableEq, Repr

/-- The sixteen octets of an address in network order. -/
def octets (a : In6Addr) : List (BitVec 8) :=
  (List.range 16).map fun i => a.extractLsb' (8 * (15 - i)) 8

/-- The two octets of a word in network order. -/
def octets16 (x : BitVec 16) : List (BitVec 8) := [x.extractLsb' 8 8, x.extractLsb' 0 8]

/-- The octets of a datagram. -/
def Udp.bytes (u : Udp) : List (BitVec 8) :=
  octets16 u.source ++ octets16 u.dest ++ octets16 u.len ++ octets16 u.check ++ u.data

/-- The length of a datagram. -/
def Udp.size (u : Udp) : ℕ := 8 + u.data.length

/-- The pseudo header of a UDP datagram in IPv6: both addresses, the length and the protocol. -/
def pseudoHeader (src dst : In6Addr) (len : BitVec 16) : List (BitVec 8) :=
  octets src ++ octets dst ++ [0, 0] ++ octets16 len ++ [0, 0, 0, ipprotoUdp]

/-- The octets that the checksum of a datagram covers. -/
def Udp.covered (u : Udp) (src dst : In6Addr) : List (BitVec 8) :=
  pseudoHeader src dst u.len ++ u.bytes

/-- An IPv6 receiver accepts the checksum of a datagram: it is not zero, and the
one's-complement sum of pseudo header, UDP header and payload is `0xffff`. -/
def Udp.Accepted (u : Udp) (src dst : In6Addr) : Prop :=
  u.check ≠ 0 ∧ onesSum 65535 (words (u.covered src dst)) = 0xffff

/-! ## Sums of words -/

@[simp] theorem length_octets (a : In6Addr) : (octets a).length = 16 := by
  simp [octets]

@[simp] theorem length_octets16 (x : BitVec 16) : (octets16 x).length = 2 := rfl

theorem length_pseudoHeader (src dst : In6Addr) (len : BitVec 16) :
    (pseudoHeader src dst len).length = 40 := by
  simp [pseudoHeader]

@[simp] theorem wordSum_octets16 (x : BitVec 16) : wordSum (octets16 x) = x.toNat := by
  have := x.isLt
  simp only [octets16, wordSum_cons_cons, wordSum_nil, BitVec.extractLsb'_toNat,
    Nat.shiftRight_eq_div_pow]
  omega

theorem wordSum_pseudoHeader (src dst : In6Addr) (len : BitVec 16) :
    wordSum (pseudoHeader src dst len) =
      wordSum (octets src) + wordSum (octets dst) + len.toNat + 17 := by
  rw [pseudoHeader, wordSum_append (by simp), wordSum_append (by simp), wordSum_append (by simp),
    wordSum_append (by simp), wordSum_octets16]
  rfl

/-- The checksum field enters the sum of a datagram as it is. -/
theorem Udp.wordSum_bytes (u : Udp) : wordSum u.bytes =
    u.source.toNat + u.dest.toNat + u.len.toNat + u.check.toNat + wordSum u.data := by
  rw [Udp.bytes, wordSum_append (by simp), wordSum_append (by simp), wordSum_append (by simp),
    wordSum_append (by simp)]
  simp only [wordSum_octets16]

theorem Udp.wordSum_covered (u : Udp) (src dst : In6Addr) : wordSum (u.covered src dst) =
    wordSum (octets src) + wordSum (octets dst) + u.len.toNat + 17 + wordSum u.bytes := by
  rw [Udp.covered, wordSum_append (by rw [length_pseudoHeader]), wordSum_pseudoHeader]

/-- The sum is never zero, since the protocol number enters it; so only its residue matters. -/
theorem Udp.accepted_iff (u : Udp) (src dst : In6Addr) :
    u.Accepted src dst ↔ u.check ≠ 0 ∧ 65535 ∣ wordSum (u.covered src dst) := by
  have h := onesSum_eq_max_iff (show 0 < 65535 by decide) fun w hw =>
    le_of_mem_words (l := u.covered src dst) hw
  rw [Udp.Accepted, h]
  refine and_congr_right fun _ => and_iff_right_of_imp fun _ h0 => ?_
  have := u.wordSum_covered src dst
  rw [wordSum, h0] at this
  omega

end MEADcast
