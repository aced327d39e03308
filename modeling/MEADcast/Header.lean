import Mathlib.Data.Nat.Basic

/-!
# The MEADcast header

`struct ip6_mdc_hdr` of the sender and `struct ipv6_rt_md_hdr` of the router describe
the same octets, so both programs share one record here.  Addresses are 128-bit
words; the two delivery maps are 32-bit words whose most significant bit belongs to
position `0` of the address list.
-/

namespace MEADcast

/-- `struct in6_addr`. -/
abbrev In6Addr := BitVec 128

/-- `struct addr`: a socket address together with the layer-4 port, which the raw
sockets need to be kept apart. -/
structure Addr where
  sin6_addr : In6Addr
  port : BitVec 16
  deriving DecidableEq, Repr

/-- `IPPROTO_UDP`, `IPPROTO_NONE` and `IPV6_MEADCAST`. -/
abbrev ipprotoUdp : BitVec 8 := 17
abbrev ipprotoNone : BitVec 8 := 59
abbrev ipprotoRouting : BitVec 8 := 43
abbrev ipv6Meadcast : BitVec 8 := 253

/-- Number of positions the two bitmaps can describe (`BITMAP_LIMIT`). -/
abbrev bitmapLimit : ℕ := 32

/-- `struct ip6_mdc_hdr`: the routing header preamble, the flag word, the two bitmaps
and the address list. -/
structure MdcHdr where
  nxt : BitVec 8
  len : BitVec 8
  type : BitVec 8
  segleft : BitVec 8
  dsts : BitVec 8
  dcv : Bool
  rsp : Bool
  hops : BitVec 6
  res : BitVec 16
  dlvm : BitVec 32
  rtm : BitVec 32
  addr : List In6Addr
  deriving DecidableEq, Repr

/-- `get_mdc_hdr_size`: sixteen fixed octets, sixteen for each address, padded to a
multiple of eight. -/
def getMdcHdrSize (num_dst : ℕ) : ℕ :=
  let mdc_pl := 16 + num_dst * 16
  let pad := (8 - mdc_pl % 8) % 8
  mdc_pl + pad

/-- The fixed part and the addresses already fill whole 8-octet units. -/
theorem getMdcHdrSize_eq (n : ℕ) : getMdcHdrSize n = 16 * (n + 1) := by
  simp only [getMdcHdrSize]
  omega

/-- `set_data_hdr`: a data header for the first `len` addresses.  The buffer is
zeroed first, so that the flags and the hop count are zero. -/
def setDataHdr (addrs : List In6Addr) (len : ℕ) (bm : BitVec 32) : MdcHdr where
  nxt := ipprotoUdp
  len := BitVec.ofNat 8 (getMdcHdrSize len / 8 - 1)
  type := ipv6Meadcast
  segleft := 0
  dsts := BitVec.ofNat 8 len
  dcv := false
  rsp := false
  hops := 0
  res := 0
  dlvm := bm
  rtm := bm
  addr := addrs.take len

end MEADcast
