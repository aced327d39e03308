import MEADcast.Datagram
import MEADcast.Router.WellFormed
import MEADcast.Sender.Tx

/-!
# Octets of headers

How the headers lie in memory and go over the wire.  `struct ip6_mdc_hdr` of the sender and
`struct ipv6_rt_md_hdr` of the router have the same fields at the same places: bit fields are filled
from the least significant bit on, and both maps are words of a machine that stores the least
significant octet first.

## Main definitions

* `MdcHdr.octets` — the octets of a header.
* `Ipv6Hdr.octets` — the octets of an IPv6 header.

## Main results

* `ofOctets32_octets32`, `ofOctets_octets` — words and addresses are read as they are written.
* `MdcHdr.setFlags_flags`, `MdcHdr.flags_setFlags` — so are the bit fields.
-/

namespace MEADcast

/-! ## Words -/

/-- The octets of a word, the least significant one first. -/
def octets32 (x : BitVec 32) : List (BitVec 8) := (List.range 4).map fun i => x.extractLsb' (8 * i) 8

/-- The word with these bits. -/
def ofBits (w : ℕ) (f : ℕ → Bool) : BitVec w :=
  (BitVec.ofBoolListLE ((List.range w).map f)).setWidth w

theorem getLsbD_ofBits {w i : ℕ} (h : i < w) (f : ℕ → Bool) : (ofBits w f).getLsbD i = f i := by
  rw [ofBits, BitVec.getLsbD_setWidth, BitVec.getLsbD_ofBoolListLE, decide_eq_true h, Bool.true_and]
  simp [List.getD_eq_getElem?_getD, h]

/-- The word with these octets. -/
def ofOctets32 (l : List (BitVec 8)) : BitVec 32 :=
  ofBits 32 fun i => (l.getD (i / 8) 0).getLsbD (i % 8)

/-- The address with these octets. -/
def ofOctets (l : List (BitVec 8)) : In6Addr :=
  ofBits 128 fun i => (l.getD (15 - i / 8) 0).getLsbD (i % 8)

/-- `ntohs` of the word with these octets. -/
def ofOctets16 (l : List (BitVec 8)) : BitVec 16 := l.getD 0 0 ++ l.getD 1 0

theorem ofOctets16_octets16 (x : BitVec 16) : ofOctets16 (octets16 x) = x := by
  refine BitVec.eq_of_getLsbD_eq fun i hi => ?_
  change (x.extractLsb' 8 8 ++ x.extractLsb' 0 8).getLsbD i = _
  rw [BitVec.getLsbD_append, BitVec.getLsbD_extractLsb', BitVec.getLsbD_extractLsb']
  split
  · rename_i h
    rw [decide_eq_true h, Bool.true_and, Nat.zero_add]
  · rw [decide_eq_true (by omega), Bool.true_and, Nat.add_sub_cancel' (by omega)]

@[simp] theorem length_octets32 (x : BitVec 32) : (octets32 x).length = 4 := rfl

theorem ofOctets32_octets32 (x : BitVec 32) : ofOctets32 (octets32 x) = x := by
  refine BitVec.eq_of_getLsbD_eq fun i hi => ?_
  have hlt : i / 8 < 4 := by omega
  have hoct : (octets32 x).getD (i / 8) 0 = x.extractLsb' (8 * (i / 8)) 8 := by
    simp [octets32, List.getD_eq_getElem?_getD, hlt]
  rw [ofOctets32, getLsbD_ofBits hi, hoct, BitVec.getLsbD_extractLsb',
    decide_eq_true (Nat.mod_lt i (by decide)), Bool.true_and, Nat.div_add_mod]

theorem ofOctets_octets (a : In6Addr) : ofOctets (octets a) = a := by
  refine BitVec.eq_of_getLsbD_eq fun i hi => ?_
  have hlt : 15 - i / 8 < 16 := by omega
  have hoct : (octets a).getD (15 - i / 8) 0 = a.extractLsb' (8 * (i / 8)) 8 := by
    simp only [octets, List.getD_eq_getElem?_getD, List.getElem?_map, List.getElem?_range hlt,
      Option.map_some, Option.getD_some]
    rw [show 15 - (15 - i / 8) = i / 8 by omega]
  rw [ofOctets, getLsbD_ofBits hi, hoct, BitVec.getLsbD_extractLsb',
    decide_eq_true (Nat.mod_lt i (by decide)), Bool.true_and, Nat.div_add_mod]

/-! ## The MEADcast header -/

namespace MdcHdr

/-- The word that the bit fields share their octets with. -/
def flags (hdr : MdcHdr) : BitVec 32 :=
  hdr.res ++ (hdr.hops ++ (BitVec.ofBool hdr.rsp ++ (BitVec.ofBool hdr.dcv ++ hdr.dsts)))

/-- The octets of a header. -/
def octets (hdr : MdcHdr) : List (BitVec 8) :=
  [hdr.nxt, hdr.len, hdr.type, hdr.segleft] ++ octets32 hdr.flags ++ octets32 hdr.dlvm ++
    octets32 hdr.rtm ++ hdr.addr.flatMap MEADcast.octets

end MdcHdr

@[simp] theorem length_flatMap_octets (as : List In6Addr) :
    (as.flatMap octets).length = 16 * as.length := by
  induction as with
  | nil => rfl
  | cons a as ih =>
      rw [List.flatMap_cons, List.length_append, ih, length_octets, List.length_cons]
      omega

namespace MdcHdr

variable {hdr : MdcHdr}

theorem length_octets (hdr : MdcHdr) : hdr.octets.length = 16 * (hdr.addr.length + 1) := by
  simp only [octets, List.length_append, length_octets32, length_flatMap_octets, List.length_cons,
    List.length_nil]
  omega

/-- The fixed part of a header and its addresses. -/
theorem octets_addr (hdr : MdcHdr) (as : List In6Addr) :
    ({ hdr with addr := as } : MdcHdr).octets = hdr.octets.take 16 ++ as.flatMap MEADcast.octets := rfl

theorem getLsbD_flags (hdr : MdcHdr) (i : ℕ) : hdr.flags.getLsbD i =
    if i < 8 then hdr.dsts.getLsbD i
    else if i = 8 then hdr.dcv
    else if i = 9 then hdr.rsp
    else if i < 16 then hdr.hops.getLsbD (i - 10)
    else hdr.res.getLsbD (i - 16) := by
  rw [flags, BitVec.getLsbD_append, BitVec.getLsbD_append, BitVec.getLsbD_append,
    BitVec.getLsbD_append]
  by_cases h8 : i < 8
  · rw [if_pos (by omega), if_pos (by omega), if_pos (by omega), if_pos h8, if_pos h8]
  by_cases h9 : i = 8
  · subst h9
    rw [if_pos (by omega), if_pos (by omega), if_pos (by omega), if_neg h8, if_neg h8, if_pos rfl]
    exact BitVec.getLsbD_ofBool _ 0
  by_cases h10 : i = 9
  · subst h10
    rw [if_pos (by omega), if_pos (by omega), if_neg (by omega), if_neg h8, if_neg h9, if_pos rfl]
    exact BitVec.getLsbD_ofBool _ 0
  by_cases h16 : i < 16
  · rw [if_pos (by omega), if_neg (by omega), if_neg h8, if_neg h9, if_neg h10, if_pos h16]
  · rw [if_neg (by omega), if_neg h8, if_neg h9, if_neg h10, if_neg h16]

theorem setFlags_flags (h hdr : MdcHdr) : h.setFlags hdr.flags =
    { h with
      dsts := hdr.dsts, dcv := hdr.dcv, rsp := hdr.rsp, hops := hdr.hops, res := hdr.res } := by
  have hdsts : hdr.flags.extractLsb' 0 8 = hdr.dsts := by
    refine BitVec.eq_of_getLsbD_eq fun i hi => ?_
    rw [BitVec.getLsbD_extractLsb', decide_eq_true hi, Bool.true_and, getLsbD_flags, Nat.zero_add,
      if_pos hi]
  have hhops : hdr.flags.extractLsb' 10 6 = hdr.hops := by
    refine BitVec.eq_of_getLsbD_eq fun i hi => ?_
    rw [BitVec.getLsbD_extractLsb', decide_eq_true hi, Bool.true_and, getLsbD_flags,
      if_neg (by omega), if_neg (by omega), if_neg (by omega), if_pos (by omega),
      Nat.add_sub_cancel_left]
  have hres : hdr.flags.extractLsb' 16 16 = hdr.res := by
    refine BitVec.eq_of_getLsbD_eq fun i hi => ?_
    rw [BitVec.getLsbD_extractLsb', decide_eq_true hi, Bool.true_and, getLsbD_flags,
      if_neg (by omega), if_neg (by omega), if_neg (by omega), if_neg (by omega),
      Nat.add_sub_cancel_left]
  have hdcv : hdr.flags.getLsbD 8 = hdr.dcv := getLsbD_flags hdr 8
  have hrsp : hdr.flags.getLsbD 9 = hdr.rsp := getLsbD_flags hdr 9
  rw [setFlags, hdsts, hhops, hres, hdcv, hrsp]

theorem flags_setFlags (hdr : MdcHdr) (w : BitVec 32) : (hdr.setFlags w).flags = w := by
  refine BitVec.eq_of_getLsbD_eq fun i hi => ?_
  rw [getLsbD_flags]
  simp only [setFlags, BitVec.getLsbD_extractLsb']
  split_ifs with h8 h9 h10 h16
  · simp [h8]
  · rw [h9]
  · rw [h10]
  · rw [decide_eq_true (by omega), Bool.true_and, Nat.add_sub_cancel' (by omega)]
  · rw [decide_eq_true (by omega), Bool.true_and, Nat.add_sub_cancel' (by omega)]

/-- A word that is written over the bit fields changes these octets only. -/
theorem octets_setFlags (hdr : MdcHdr) (w : BitVec 32) : (hdr.setFlags w).octets =
    hdr.octets.take 4 ++ octets32 w ++ hdr.octets.drop 8 := by
  rw [octets, flags_setFlags]
  simp only [octets, List.append_assoc]
  rfl

end MdcHdr

/-! ## The IPv6 header -/

/-- The octets of an IPv6 header; `vtf` are those of the version, the traffic class and the flow
label. -/
def Ipv6Hdr.octets (vtf : List (BitVec 8)) (ip : Ipv6Hdr) : List (BitVec 8) :=
  vtf ++ octets16 ip.payload_len ++ [ip.nexthdr, ip.hop_limit] ++ MEADcast.octets ip.saddr ++
    MEADcast.octets ip.daddr

theorem Ipv6Hdr.length_octets {vtf : List (BitVec 8)} (h : vtf.length = 4) (ip : Ipv6Hdr) :
    (ip.octets vtf).length = 40 := by
  simp [Ipv6Hdr.octets, h]

namespace Ipv6Hdr

variable {vtf : List (BitVec 8)}

/-- The fields that the sender reads and writes. -/
theorem octets_nexthdr (h : vtf.length = 4) (ip : Ipv6Hdr) :
    ((ip.octets vtf).drop 6).take 1 = [ip.nexthdr] := by
  match vtf, h with
  | [_, _, _, _], _ => rfl

theorem octets_saddr (h : vtf.length = 4) (ip : Ipv6Hdr) :
    ((ip.octets vtf).drop 8).take 16 = MEADcast.octets ip.saddr := by
  match vtf, h with
  | [_, _, _, _], _ => rfl

theorem octets_daddr (h : vtf.length = 4) (ip : Ipv6Hdr) :
    ((ip.octets vtf).drop 24).take 16 = MEADcast.octets ip.daddr := by
  match vtf, h with
  | [_, _, _, _], _ => rfl

theorem octets_setDaddr (h : vtf.length = 4) (ip : Ipv6Hdr) (a : In6Addr) :
    (ip.octets vtf).take 24 ++ MEADcast.octets a ++ (ip.octets vtf).drop 40 =
      ({ ip with daddr := a } : Ipv6Hdr).octets vtf := by
  match vtf, h with
  | [_, _, _, _], _ => rfl

end Ipv6Hdr

theorem Udp.length_bytes (u : Udp) : u.bytes.length = u.size := by
  simp only [Udp.bytes, Udp.size, List.length_append, length_octets16]

/-- The sender fills the whole length that it writes into a header. -/
theorem length_setDataHdr {addrs : List In6Addr} {n : ℕ} (hn : n ≤ 127) (hle : n ≤ addrs.length)
    (bm : BitVec 32) : (setDataHdr addrs n bm).octets.length = getMdcHdrSize n ∧
      (setDataHdr addrs n bm).rthdrLen = getMdcHdrSize n := by
  have hlen : ((setDataHdr addrs n bm).addr).length = n := List.length_take_of_le hle
  constructor
  · rw [MdcHdr.length_octets, hlen, getMdcHdrSize_eq]
  · have h : (setDataHdr addrs n bm).len.toNat = 2 * n + 1 := by
      change (BitVec.ofNat 8 (getMdcHdrSize n / 8 - 1)).toNat = _
      rw [BitVec.toNat_ofNat, getMdcHdrSize_eq]
      omega
    rw [MdcHdr.rthdrLen, h, getMdcHdrSize_eq]
    omega

end MEADcast
