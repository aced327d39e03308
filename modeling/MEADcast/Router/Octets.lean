import MEADcast.Lib.Refines
import MEADcast.Router.Conservation
import MEADcast.Router.SkBuff

/-!
# The router on octets refines the router

What the functions of `mdcast.c` do to the octets of a packet is what the functions on records do to
its headers.

## Main definitions

* `Skb.octets` — the octets of a packet.
* `SkBuff.Holds` — a packet lies in memory.

## Main results

* `SkBuff.Holds.ip6Forward` — the functions refine those on headers.
* `forward_octets` — from the octets that arrive to those that leave.
-/

namespace MEADcast

/-- The octets of a packet; nothing follows the header of a discovery packet. -/
def Skb.octets (vtf : List (BitVec 8)) (skb : Skb) : List (BitVec 8) :=
  skb.ip.octets vtf ++ match skb.md with
    | none => skb.udp.bytes
    | some hdr => hdr.octets ++ if hdr.dcv then [] else skb.udp.bytes

/-- The length field of a header is that of its addresses, and these are at least as many as it
says. -/
structure MdcHdr.Whole (hdr : MdcHdr) : Prop where
  len_eq : hdr.rthdrLen = hdr.octets.length
  dsts_le : hdr.dsts.toNat ≤ hdr.addr.length

/-- Maps, hop count and marks do not matter. -/
theorem MdcHdr.Whole.congr {hdr hdr' : MdcHdr} (W : hdr.Whole) (hlen : hdr'.len = hdr.len)
    (hdsts : hdr'.dsts = hdr.dsts) (haddr : hdr'.addr = hdr.addr) : hdr'.Whole := by
  obtain ⟨hl, hle⟩ := W
  rw [rthdrLen, length_octets] at hl
  exact ⟨by rw [rthdrLen, length_octets, hlen, haddr, hl], by rw [hdsts, haddr]; exact hle⟩

/-- One of the addresses in their octets. -/
theorem take_drop_flatMap_octets {k : ℕ} : ∀ {as : List In6Addr}, k < as.length →
    ((as.flatMap octets).drop (16 * k)).take 16 = octets (as.getD k 0) := by
  induction k with
  | zero =>
      intro as h
      match as, h with
      | a :: as, _ => exact List.take_left' (length_octets a)
  | succ k ih =>
      intro as h
      match as, h with
      | a :: as, h =>
          rw [List.flatMap_cons, show 16 * (k + 1) = 16 + 16 * k by omega, ← List.drop_drop,
            List.drop_left' (length_octets a), ih (Nat.lt_of_succ_lt_succ h), List.getD_cons_succ]

/-! ## Parts of lists -/

section Parts

variable {β : Type} {l l' x : List β} {k n : ℕ}

/-- `l` with `x` from position `k` on. -/
def splice (l : List β) (k : ℕ) (x : List β) : List β := l.take k ++ x ++ l.drop (k + x.length)

theorem length_splice (h : k + x.length ≤ l.length) : (splice l k x).length = l.length := by
  simp only [splice, List.length_append, List.length_take, List.length_drop]
  omega

theorem splice_append_left (h : k + x.length ≤ l.length) :
    splice (l ++ l') k x = splice l k x ++ l' := by
  rw [splice, splice, List.take_append_of_le_length (by omega), List.drop_append_of_le_length h,
    List.append_assoc, List.append_assoc, List.append_assoc]

theorem splice_append_right (h : l.length = n) : splice (l ++ l') (n + k) x = l ++ splice l' k x := by
  subst h
  rw [splice, splice, List.take_length_add_append, Nat.add_assoc, List.drop_length_add_append,
    List.append_assoc, List.append_assoc, List.append_assoc]

theorem take_drop_append_left (h : k + n ≤ l.length) :
    ((l ++ l').drop k).take n = (l.drop k).take n := by
  rw [List.drop_append_of_le_length (by omega),
    List.take_append_of_le_length (by rw [List.length_drop]; omega)]

theorem take_drop_append_right {m : ℕ} (h : l.length = m) :
    ((l ++ l').drop (m + k)).take n = (l'.drop k).take n := by
  subst h
  rw [List.drop_length_add_append]

theorem map_eq_of_forall₂ {α γ δ : Type} {R : α → γ → Prop} {f : α → δ} {g : γ → δ} {as : List α}
    {cs : List γ} (h : List.Forall₂ R as cs) (hR : ∀ a c, R a c → f a = g c) : as.map f = cs.map g := by
  induction h with
  | nil => rfl
  | cons hac _ ih => rw [List.map_cons, List.map_cons, hR _ _ hac, ih]

theorem forall_of_forall₂ {α γ : Type} {R : α → γ → Prop} {P : γ → Prop} {as : List α} {cs : List γ}
    (h : List.Forall₂ R as cs) (hR : ∀ a c, R a c → P c) : ∀ c ∈ cs, P c := by
  induction h with
  | nil => exact fun _ hc => absurd hc List.not_mem_nil
  | cons hac _ ih =>
      intro c hc
      rcases List.mem_cons.mp hc with rfl | hc
      · exact hR _ _ hac
      · exact ih c hc

end Parts

namespace SkBuff

/-- A packet lies in memory; what is not part of its IPv6 header `vtf` are the first octets. -/
structure Holds (vtf : List (BitVec 8)) (b : SkBuff) (skb : Skb) : Prop where
  tail_eq : b.tail = b.data + (skb.octets vtf).length
  load_eq : b.mem.load b.data (skb.octets vtf).length = skb.octets vtf
  network_eq : b.network_header = b.data
  transport_eq : skb.md ≠ none → b.transport_header = b.data + 40
  whole : ∀ hdr, skb.md = some hdr → hdr.Whole
  dst_eq : b.dst = skb.dst

theorem Holds.octets_eq {vtf : List (BitVec 8)} {b : SkBuff} {skb : Skb} (H : b.Holds vtf skb) :
    b.octets = skb.octets vtf := by
  rw [octets, H.tail_eq, Nat.add_sub_cancel_left, H.load_eq]

/-- What a driver hands over. -/
theorem holds_receive (vtf : List (BitVec 8)) {skb : Skb}
    (whole : ∀ hdr, skb.md = some hdr → hdr.Whole) : (receive (skb.octets vtf) skb.dst).Holds vtf skb where
  tail_eq := (Nat.zero_add _).symm
  load_eq := Mem.load_store _ 0 _
  network_eq := rfl
  transport_eq _ := rfl
  whole := whole
  dst_eq := rfl

section Read

variable {vtf : List (BitVec 8)} {b : SkBuff} {skb : Skb} {hdr : MdcHdr} {k n : ℕ}

theorem Holds.load (H : b.Holds vtf skb) (h : k + n ≤ (skb.octets vtf).length) :
    b.mem.load (b.data + k) n = ((skb.octets vtf).drop k).take n := by
  rw [← Mem.take_drop_load h, H.load_eq]

/-- A store inside of the packet. -/
theorem Holds.write (H : b.Holds vtf skb) {skb' : Skb} {x : List (BitVec 8)}
    (hk : k + x.length ≤ (skb.octets vtf).length)
    (hoct : skb'.octets vtf = splice (skb.octets vtf) k x)
    (hmd : skb'.md ≠ none → skb.md ≠ none) (whole : ∀ hdr, skb'.md = some hdr → hdr.Whole)
    (hdst : skb'.dst = skb.dst) : (b.write (b.data + k) x).Holds vtf skb' where
  tail_eq := by
    rw [hoct, length_splice hk]
    exact H.tail_eq
  load_eq := by
    rw [hoct, length_splice hk]
    refine (Mem.load_store_inside hk).trans ?_
    rw [H.load_eq]
    rfl
  network_eq := H.network_eq
  transport_eq h := H.transport_eq (hmd h)
  whole := whole
  dst_eq := H.dst_eq.trans hdst.symm

theorem octets_of_md (hmd : skb.md = some hdr) : skb.octets vtf =
    skb.ip.octets vtf ++ (hdr.octets ++ if hdr.dcv then [] else skb.udp.bytes) := by
  rw [Skb.octets, hmd]

theorem octets_of_data (hmd : skb.md = some hdr) (hdcv : hdr.dcv = false) :
    skb.octets vtf = skb.ip.octets vtf ++ (hdr.octets ++ skb.udp.bytes) := by
  rw [octets_of_md hmd, hdcv]
  rfl

theorem length_octets_of_md (hv : vtf.length = 4) (hmd : skb.md = some hdr) :
    40 + hdr.octets.length ≤ (skb.octets vtf).length := by
  rw [octets_of_md hmd, List.length_append, List.length_append, Ipv6Hdr.length_octets hv]
  omega

variable (hv : vtf.length = 4) (H : b.Holds vtf skb)

include hv H

theorem Holds.load_ip : b.mem.load b.network_header 40 = skb.ip.octets vtf := by
  have hlen := Ipv6Hdr.length_octets hv skb.ip
  have hle : 0 + 40 ≤ (skb.octets vtf).length := by
    rw [Skb.octets, List.length_append, hlen]
    omega
  have h := H.load hle
  rw [Skb.octets, take_drop_append_left (by omega), List.drop_zero,
    List.take_of_length_le (by omega)] at h
  rw [H.network_eq]
  exact h

theorem Holds.load_daddr :
    b.mem.load (b.network_header + 24) 16 = MEADcast.octets skb.ip.daddr := by
  rw [← Ipv6Hdr.octets_daddr hv, ← H.load_ip hv]
  exact (Mem.take_drop_load (by omega)).symm

theorem Holds.load_saddr : b.mem.load (b.network_header + 8) 16 = MEADcast.octets skb.ip.saddr := by
  rw [← Ipv6Hdr.octets_saddr hv, ← H.load_ip hv]
  exact (Mem.take_drop_load (by omega)).symm

theorem Holds.ip_getElem {x : BitVec 8} (hk : k + 1 ≤ 40)
    (h : ((skb.ip.octets vtf).drop k).take 1 = [x]) : b.mem (b.network_header + k) = x := by
  rw [← H.load_ip hv, Mem.take_drop_load hk] at h
  exact (List.cons.inj h).1

theorem Holds.load_hdr (hmd : skb.md = some hdr) (h : k + n ≤ hdr.octets.length) :
    b.mem.load (b.transport_header + k) n = (hdr.octets.drop k).take n := by
  have hle := length_octets_of_md hv hmd
  rw [H.transport_eq (by simp [hmd]), Nat.add_assoc, H.load (by omega), octets_of_md hmd,
    take_drop_append_right (Ipv6Hdr.length_octets hv _), take_drop_append_left h]

theorem Holds.hdr_getElem (hmd : skb.md = some hdr) {x : BitVec 8}
    (h : (hdr.octets.drop k).take 1 = [x]) : b.mem (b.transport_header + k) = x := by
  have hle : k + 1 ≤ hdr.octets.length := by
    have := congrArg List.length h
    rw [List.length_take, List.length_drop, List.length_singleton] at this
    omega
  exact (List.cons.inj ((H.load_hdr hv hmd hle).trans h)).1

theorem Holds.nexthdr_eq (hmd : skb.md = some hdr) : b.nexthdr = hdr.nxt :=
  H.hdr_getElem hv hmd (k := 0) rfl

theorem Holds.hdrlen_eq (hmd : skb.md = some hdr) : b.hdrlen = hdr.len :=
  H.hdr_getElem hv hmd (k := 1) rfl

theorem Holds.rtMdType_eq (hmd : skb.md = some hdr) : b.rtMdType = hdr.type :=
  H.hdr_getElem hv hmd (k := 2) rfl

theorem Holds.flags_eq (hmd : skb.md = some hdr) : b.flags = hdr.flags := by
  have hle := hdr.length_octets
  rw [flags, H.load_hdr hv hmd (by omega)]
  exact ofOctets32_octets32 hdr.flags

theorem Holds.dlvmap_eq (hmd : skb.md = some hdr) : b.dlvmap = hdr.dlvm := by
  have hle := hdr.length_octets
  rw [dlvmap, H.load_hdr hv hmd (by omega)]
  exact ofOctets32_octets32 hdr.dlvm

theorem Holds.rtmap_eq (hmd : skb.md = some hdr) : b.rtmap = hdr.rtm := by
  have hle := hdr.length_octets
  rw [rtmap, H.load_hdr hv hmd (by omega)]
  exact ofOctets32_octets32 hdr.rtm

theorem Holds.numDst_eq (hmd : skb.md = some hdr) : b.numDst = hdr.dsts := by
  rw [numDst, H.flags_eq hv hmd]
  exact congrArg MdcHdr.dsts (hdr.setFlags_flags hdr)

theorem Holds.discovery_eq (hmd : skb.md = some hdr) : b.discovery = hdr.dcv := by
  rw [discovery, H.flags_eq hv hmd]
  exact congrArg MdcHdr.dcv (hdr.setFlags_flags hdr)

theorem Holds.response_eq (hmd : skb.md = some hdr) : b.response = hdr.rsp := by
  rw [response, H.flags_eq hv hmd]
  exact congrArg MdcHdr.rsp (hdr.setFlags_flags hdr)

theorem Holds.hopcount_eq (hmd : skb.md = some hdr) : b.hopcount = hdr.hops := by
  rw [hopcount, H.flags_eq hv hmd]
  exact congrArg MdcHdr.hops (hdr.setFlags_flags hdr)

theorem Holds.rthdrLen_eq (hmd : skb.md = some hdr) : b.rthdrLen = hdr.octets.length := by
  rw [rthdrLen, H.hdrlen_eq hv hmd]
  exact (H.whole hdr hmd).len_eq

/-- One of the addresses of the header. -/
theorem Holds.addrAt_eq (hmd : skb.md = some hdr) {k : Int} {a : In6Addr} (h : hdr.dst k = some a) :
    b.addrAt (b.dstPtr k) = a ∧ b.dstPtr k + 16 ≤ b.uh ∧ b.mem.load (b.dstPtr k) 16 = MEADcast.octets a := by
  rw [MdcHdr.dst] at h
  split at h
  · next hk =>
      obtain rfl := Option.some.inj h
      have W := H.whole hdr hmd
      have hlen := hdr.length_octets
      have hle := W.dsts_le
      have hptr : b.dstPtr k = b.transport_header + (16 + 16 * k.toNat) := by
        rw [dstPtr]
        omega
      have hload : b.mem.load (b.dstPtr k) 16 = MEADcast.octets (hdr.addr.getD k.toNat 0) := by
        rw [hptr, H.load_hdr hv hmd (by omega), ← List.drop_drop]
        exact take_drop_flatMap_octets (by omega)
      refine ⟨?_, ?_, hload⟩
      · rw [addrAt, hload, ofOctets_octets]
      · rw [hptr, uh, H.rthdrLen_eq hv hmd]
        omega
  · cases h

end Read

/-! ## The steps of the data path -/

end SkBuff

/-- Both did the same so far. -/
structure SkTx.Holds (vtf : List (BitVec 8)) (u : SkTx) (t : Tx) : Prop where
  lookups_eq : u.lookups = t.lookups
  outputs_eq : u.outputs = t.outputs
  sent : List.Forall₂ (SkBuff.Holds vtf) u.sent t.sent
  calls_eq : u.calls = t.calls

namespace SkBuff

/-- The same return value, the packet in memory, and the same was done. -/
def Returns (vtf : List (BitVec 8)) (x : Int × SkBuff × SkTx) (y : Int × Skb × Tx) : Prop :=
  x.1 = y.1 ∧ x.2.1.Holds vtf y.2.1 ∧ x.2.2.Holds vtf y.2.2

/-- The address is in a variable of the caller, or in the packet in front of the datagram. -/
def PtrTo (b : SkBuff) : AddrPtr → In6Addr → Prop
  | .fl6 daddr, a => daddr = a
  | .skb off, a => b.addrAt off = a ∧ off + 16 ≤ b.uh

section Steps

variable {vtf : List (BitVec 8)} {b : SkBuff} {skb : Skb} {hdr : MdcHdr} {u : SkTx} {t : Tx} {net : Net}
  {a : In6Addr} {p : AddrPtr}

theorem Holds.setDst (H : b.Holds vtf skb) (net : Net) (hT : u.Holds vtf t) (a : In6Addr) :
    Returns vtf (setDst net u b a) (MEADcast.setDst net t skb a) := by
  have hT' : SkTx.Holds vtf { u with lookups := u.lookups + 1 } { t with lookups := t.lookups + 1 } :=
    { hT with lookups_eq := congrArg (· + 1) hT.lookups_eq }
  rw [SkBuff.setDst, MEADcast.setDst, hT.lookups_eq]
  split
  · exact ⟨rfl, H, hT.lookups_eq ▸ hT'⟩
  · exact ⟨rfl, ⟨H.tail_eq, H.load_eq, H.network_eq, H.transport_eq, H.whole, rfl⟩, hT.lookups_eq ▸ hT'⟩

theorem Holds.dstOutput (H : b.Holds vtf skb) (net : Net) (hT : u.Holds vtf t) :
    (dstOutput net u b).1 = (MEADcast.dstOutput net t skb).1 ∧
      (dstOutput net u b).2.Holds vtf (MEADcast.dstOutput net t skb).2 := by
  rw [SkBuff.dstOutput, MEADcast.dstOutput, hT.outputs_eq]
  split
  · exact ⟨rfl, { hT with outputs_eq := rfl }⟩
  · refine ⟨rfl, { hT with outputs_eq := rfl, sent := ?_ }⟩
    exact List.rel_append hT.sent (.cons H .nil)

/-- A datagram with another checksum. -/
theorem bytes_splice (v : Udp) (c : BitVec 16) :
    splice v.bytes 6 (octets16 c) = ({ v with check := c } : Udp).bytes := rfl

variable (hv : vtf.length = 4) (H : b.Holds vtf skb)

include hv H

theorem Holds.uh_eq (hmd : skb.md = some hdr) : b.uh = b.data + (40 + hdr.octets.length) := by
  rw [uh, H.rthdrLen_eq hv hmd, H.transport_eq (by simp [hmd]), Nat.add_assoc]

/-- A store to the IPv6 header. -/
theorem Holds.writeIp (ip : Ipv6Hdr) {k : ℕ} {x : List (BitVec 8)} (hk : k + x.length ≤ 40)
    (h : ip.octets vtf = splice (skb.ip.octets vtf) k x) :
    (b.write (b.network_header + k) x).Holds vtf { skb with ip := ip } := by
  have hip := Ipv6Hdr.length_octets hv skb.ip
  rw [H.network_eq]
  refine H.write ?_ ?_ (fun h => h) H.whole rfl
  · rw [Skb.octets, List.length_append, hip]
    omega
  · rw [Skb.octets, Skb.octets, splice_append_left (by rw [hip]; exact hk), h]

omit H in
theorem octets_hop_limit (ip : Ipv6Hdr) (n : BitVec 8) :
    ({ ip with hop_limit := n } : Ipv6Hdr).octets vtf = splice (ip.octets vtf) 7 [n] := by
  have hlen : (vtf ++ octets16 ip.payload_len ++ [ip.nexthdr, ip.hop_limit]).length = 8 := by simp [hv]
  have hfront : splice (vtf ++ octets16 ip.payload_len ++ [ip.nexthdr, ip.hop_limit]) 7 [n] =
      vtf ++ octets16 ip.payload_len ++ [ip.nexthdr, n] := by
    match vtf, hv with
    | [_, _, _, _], _ => rfl
  rw [Ipv6Hdr.octets, Ipv6Hdr.octets, splice_append_left (by simp [hv]),
    splice_append_left (by rw [hlen]; exact le_rfl), hfront]

omit H in
theorem octets_setSaddr (ip : Ipv6Hdr) (a : In6Addr) :
    ({ ip with saddr := a } : Ipv6Hdr).octets vtf = splice (ip.octets vtf) 8 (MEADcast.octets a) := by
  match vtf, hv with
  | [_, _, _, _], _ => rfl

/-- A store to the routing header. -/
theorem Holds.writeHdr (hmd : skb.md = some hdr) (hdr' : MdcHdr) {k : ℕ} {x : List (BitVec 8)}
    (hk : k + x.length ≤ hdr.octets.length) (h : hdr'.octets = splice hdr.octets k x)
    (hdcv : hdr'.dcv = hdr.dcv) (W : hdr'.Whole) :
    (b.write (b.transport_header + k) x).Holds vtf { skb with md := some hdr' } := by
  have hip := Ipv6Hdr.length_octets hv skb.ip
  have hle := length_octets_of_md hv hmd
  rw [H.transport_eq (by simp [hmd]), Nat.add_assoc]
  refine H.write (by omega) ?_ (fun _ => by simp [hmd]) (fun _ he => Option.some.inj he ▸ W) rfl
  rw [octets_of_md hmd, splice_append_right hip, splice_append_left hk, ← h, ← hdcv]
  rfl

/-- The update of the checksum. -/
theorem Holds.setCheck (hmd : skb.md = some hdr) (hdcv : hdr.dcv = false) (hp : b.deref p = a) :
    (b.setCheck (b.newSum p (MEADcast.octets skb.ip.daddr))).Holds vtf
      { skb with udp := { skb.udp with check := updateCheck skb.udp.check skb.ip.daddr a } } := by
  have hip := Ipv6Hdr.length_octets hv skb.ip
  have hoct : skb.octets vtf = skb.ip.octets vtf ++ (hdr.octets ++ skb.udp.bytes) :=
    octets_of_data hmd hdcv
  have hlen : (skb.octets vtf).length = 40 + (hdr.octets.length + (8 + skb.udp.data.length)) := by
    rw [hoct, List.length_append, hip, List.length_append, Udp.length_bytes]
    rfl
  have huh : b.uh + 6 = b.data + (40 + (hdr.octets.length + 6)) := by
    rw [H.uh_eq hv hmd]
    omega
  have hcheck : b.mem.load (b.uh + 6) 2 = octets16 skb.udp.check := by
    rw [huh, H.load (by omega), hoct, take_drop_append_right hip, take_drop_append_right rfl]
    rfl
  have hsum : b.newSum p (MEADcast.octets skb.ip.daddr) =
      csumSub (csumPartial (MEADcast.octets a) (~~~csumUnfold (swab16 skb.udp.check)))
        (csumPartial (MEADcast.octets skb.ip.daddr) 0) := by
    rw [newSum, hp, hcheck, ofOctets16_octets16]
  simp only [SkBuff.setCheck, hsum, huh, updateCheck]
  refine H.write ?_ ?_ (fun h => h) H.whole rfl
  · rw [hlen, length_octets16]
    omega
  · rw [hoct, splice_append_right hip, splice_append_right rfl, bytes_splice]
    exact octets_of_data hmd hdcv

omit hv H in
theorem PtrTo.deref (h : b.PtrTo p a) : b.deref p = a := by
  cases p with
  | fl6 daddr => exact h
  | skb off => exact h.1

omit hv H in
/-- The checksum is stored behind the address. -/
theorem PtrTo.deref_setCheck (h : b.PtrTo p a) (sum : BitVec 32) : (b.setCheck sum).deref p = a := by
  cases p with
  | fl6 daddr => exact h
  | skb off =>
      obtain ⟨rfl, hle⟩ := h
      exact congrArg ofOctets (Mem.load_store_of_disjoint (.inr (by omega)))

omit H in
/-- The header that `m2u` stores is the old one with other fields. -/
theorem octets_m2u (ip : Ipv6Hdr) (len : BitVec 16) (nxt : BitVec 8) (a : In6Addr) :
    (ip.octets vtf).take 4 ++ octets16 len ++ [nxt] ++ ((ip.octets vtf).drop 7).take 17 ++
      MEADcast.octets a =
    ({ ip with payload_len := len, nexthdr := nxt, daddr := a } : Ipv6Hdr).octets vtf := by
  match vtf, hv with
  | [_, _, _, _], _ => rfl

omit H in
theorem octets_payload_len (ip : Ipv6Hdr) : ((ip.octets vtf).drop 4).take 2 = octets16 ip.payload_len := by
  match vtf, hv with
  | [_, _, _, _], _ => rfl

theorem Holds.length_data (hmd : skb.md = some hdr) (hdcv : hdr.dcv = false) :
    b.tail = b.data + (40 + hdr.octets.length + skb.udp.size) := by
  rw [H.tail_eq, octets_of_data hmd hdcv, List.length_append, List.length_append,
    Ipv6Hdr.length_octets hv, Udp.length_bytes, Nat.add_assoc]

theorem Holds.load_udp (hmd : skb.md = some hdr) (hdcv : hdr.dcv = false) :
    b.mem.load (b.data + (40 + hdr.octets.length)) skb.udp.size = skb.udp.bytes := by
  have hlen : (skb.octets vtf).length = 40 + hdr.octets.length + skb.udp.size :=
    Nat.add_left_cancel (H.tail_eq.symm.trans (H.length_data hv hmd hdcv))
  rw [H.load (by omega), octets_of_data hmd hdcv, take_drop_append_right (Ipv6Hdr.length_octets hv _),
    ← Nat.add_zero hdr.octets.length, take_drop_append_right rfl, List.drop_zero,
    List.take_of_length_le (by rw [Udp.length_bytes])]

/-- An IPv6 header in front of the datagram, over the end of the routing header. -/
theorem Holds.pull (hmd : skb.md = some hdr) (hdcv : hdr.dcv = false) (ip : Ipv6Hdr) :
    ∃ b', b.pull hdr.octets.length (ip.octets vtf) = some b' ∧
      b'.Holds vtf ⟨ip, none, skb.udp, skb.dst⟩ := by
  have hip := Ipv6Hdr.length_octets hv ip
  have htail := H.length_data hv hmd hdcv
  have hoct : Skb.octets vtf ⟨ip, none, skb.udp, skb.dst⟩ = ip.octets vtf ++ skb.udp.bytes := rfl
  have hsize : (ip.octets vtf ++ skb.udp.bytes).length = 40 + skb.udp.size := by
    rw [List.length_append, hip, Udp.length_bytes]
  refine ⟨_, if_pos (by omega), ?_, ?_, rfl, fun h => absurd rfl h, fun _ h => (nomatch h), H.dst_eq⟩
  · rw [hoct, hsize]
    simp only
    omega
  · rw [hoct, hsize, Mem.load_add]
    have hstore := Mem.load_store b.mem (b.data + hdr.octets.length) (ip.octets vtf)
    rw [hip] at hstore
    have hrest : (b.mem.store (b.data + hdr.octets.length) (ip.octets vtf)).load
        (b.data + hdr.octets.length + 40) skb.udp.size = skb.udp.bytes := by
      rw [Mem.load_store_of_disjoint (.inl (by rw [hip])), ← H.load_udp hv hmd hdcv, Nat.add_assoc,
        Nat.add_comm 40]
    exact congrArg₂ (· ++ ·) hstore hrest

/-- `m2u` leaves the plain packet in the memory behind the end of the address list. -/
theorem Holds.m2u (hT : u.Holds vtf t) (hmd : skb.md = some hdr) (hdcv : hdr.dcv = false)
    (hp : b.PtrTo p a) : Refines (Returns vtf) (SkBuff.m2u net u b p) (MEADcast.m2u net t skb a) := by
  obtain ⟨b', hb', H'⟩ := (H.setCheck hv hmd hdcv hp.deref).pull hv hmd hdcv
    { skb.ip with
      payload_len := skb.ip.payload_len - BitVec.ofNat 16 hdr.octets.length
      nexthdr := hdr.nxt
      daddr := a }
  rw [SkBuff.m2u, MEADcast.m2u, hmd]
  simp only [H.load_ip hv, octets_payload_len hv, Ipv6Hdr.octets_daddr hv, ofOctets16_octets16,
    H.rthdrLen_eq hv hmd, H.nexthdr_eq hv hmd, hp.deref_setCheck, octets_m2u hv, hb',
    Option.bind_eq_bind, Option.bind_some, (H.whole hdr hmd).len_eq]
  exact Refines.some (H'.setDst net hT a)

/-- The loop of `md_data_fwd`. -/
theorem Holds.m2uLoop (hmd : skb.md = some hdr) (hdcv : hdr.dcv = false) : ∀ (n : ℕ) (k : Int)
    {u : SkTx} {t : Tx}, u.Holds vtf t →
    Refines (fun x y => x.1 = y.1 ∧ x.2.Holds vtf y.2) (SkBuff.m2uLoop net b n k u)
      (MEADcast.m2uLoop net skb hdr n k t)
  | 0, k, u, t, hT => Refines.some ⟨rfl, hT⟩
  | n + 1, k, u, t, hT => by
      rw [SkBuff.m2uLoop, MEADcast.m2uLoop]
      refine Refines.bind_right fun a ha => ?_
      refine Refines.bind (H.m2u hv hT hmd hdcv (H.addrAt_eq hv hmd ha).1) ?_
      rintro ⟨e, c, u'⟩ ⟨e', q, t'⟩ ⟨-, Hq, hT'⟩
      obtain ⟨herr, hT''⟩ := Hq.dstOutput net hT'
      exact Refines.ite (not_congr (Eq.congr_left herr)) (fun _ => Refines.some ⟨rfl, hT''⟩)
        fun _ => Holds.m2uLoop hmd hdcv n (k + 1) hT''

theorem Holds.redirect (hmd : skb.md = some hdr) (hdcv : hdr.dcv = false) {k : Int}
    (ha : hdr.dst k = some a) (dlvm : BitVec 32) : (b.redirect (b.dstPtr k) dlvm).Holds vtf
      ⟨{ skb.ip with daddr := a }, some { hdr with dlvm := dlvm },
        { skb.udp with check := updateCheck skb.udp.check skb.ip.daddr a }, skb.dst⟩ := by
  obtain ⟨haddr, hle, -⟩ := H.addrAt_eq hv hmd ha
  have W : ({ hdr with dlvm := dlvm } : MdcHdr).Whole := (H.whole hdr hmd).congr rfl rfl rfl
  have H₁ := H.setCheck hv hmd hdcv (p := .skb (b.dstPtr k)) haddr
  have H₂ := H₁.writeHdr hv hmd { hdr with dlvm := dlvm } (k := 8) (x := octets32 dlvm)
    (by rw [hdr.length_octets, length_octets32]; omega) rfl rfl W
  have hload := (H₂.addrAt_eq hv rfl ha).2.2
  have H₃ := H₂.writeIp hv { skb.ip with daddr := a } (k := 24) (x := MEADcast.octets a)
    (by rw [length_octets]) (Ipv6Hdr.octets_setDaddr hv skb.ip a).symm
  rw [← hload] at H₃
  rw [SkBuff.redirect, H.load_daddr hv]
  exact H₃

/-- `md_data_fwd` gives the packet another destination, or hands out plain copies. -/
theorem Holds.mdDataFwd (hT : u.Holds vtf t) (hmd : skb.md = some hdr) (hdcv : hdr.dcv = false)
    (i j : Int) : Refines (Returns vtf) (SkBuff.mdDataFwd net u b i j)
      (MEADcast.mdDataFwd net t skb i j) := by
  have hT' : SkTx.Holds vtf { u with calls := u.calls ++ [(i, j)] }
      { t with calls := t.calls ++ [(i, j)] } := { hT with calls_eq := by rw [hT.calls_eq] }
  rw [SkBuff.mdDataFwd, MEADcast.mdDataFwd, hmd]
  refine Refines.bind_right (y := unicasts net hdr i (j - i - 1)) fun uni huni => ?_
  have hiff : (j - i - 1 < net.ip6_mdcast_min_dsts ∨ net.ipv6_chk_addr (b.addrAt (b.dstPtr i))) ↔
      uni = true := by
    rw [unicasts] at huni
    split at huni
    · next hlt => exact iff_of_true (.inl hlt) (Option.some.inj huni).symm
    · next hlt =>
        obtain ⟨a, ha, rfl⟩ := Option.map_eq_some_iff.mp huni
        rw [or_iff_right hlt, (H.addrAt_eq hv hmd ha).1]
  refine Refines.ite hiff (fun _ => ?_) fun _ => ?_
  · refine Refines.bind (Holds.m2uLoop hv H hmd hdcv _ _ hT') ?_
    rintro ⟨k, u₁⟩ ⟨k', t₁⟩ ⟨rfl, hT₁⟩
    cases k with
    | none => exact Refines.some ⟨rfl, H, hT₁⟩
    | some k =>
        refine Refines.bind_right fun a ha => ?_
        have hk := H.addrAt_eq hv hmd ha
        exact H.m2u hv hT₁ hmd hdcv ⟨hk.1, hk.2.1⟩
  · refine Refines.bind_right fun a ha => Refines.bind_same fun dlvm => Refines.some ?_
    have Hr := H.redirect hv hmd hdcv ha dlvm
    have hnew : (b.redirect (b.dstPtr (i + 1)) dlvm).addrAt
        ((b.redirect (b.dstPtr (i + 1)) dlvm).network_header + 24) = a := by
      rw [addrAt, Hr.load_daddr hv, ofOctets_octets]
    rw [hnew]
    exact Hr.setDst net hT' a

/-- The loop of `md_data_rcv`. -/
theorem Holds.mdDataLoop (hmd : skb.md = some hdr) (hdcv : hdr.dcv = false) : ∀ (n : ℕ) (i r1 r2 : Int)
    {u : SkTx} {t : Tx}, u.Holds vtf t →
    Refines (fun x y => x.1 = y.1 ∧ x.2.Holds vtf y.2) (SkBuff.mdDataLoop net b n i r1 r2 u)
      (MEADcast.mdDataLoop net skb hdr n i r1 r2 t)
  | 0, _, _, _, _, _, hT => Refines.some ⟨rfl, hT⟩
  | n + 1, i, r1, r2, u, t, hT => by
      rw [SkBuff.mdDataLoop, MEADcast.mdDataLoop, H.rtmap_eq hv hmd, H.dlvmap_eq hv hmd]
      refine Refines.bind_same fun rt => Refines.bind_same fun dlv => ?_
      refine Refines.ite Iff.rfl (fun _ => Holds.mdDataLoop hmd hdcv n _ _ _ hT) fun _ => ?_
      refine Refines.ite Iff.rfl (fun _ => ?_) fun _ =>
        Refines.ite Iff.rfl (fun _ => Holds.mdDataLoop hmd hdcv n _ _ _ hT)
          fun _ => Holds.mdDataLoop hmd hdcv n _ _ _ hT
      refine Refines.ite Iff.rfl (fun _ => ?_) fun _ => Holds.mdDataLoop hmd hdcv n _ _ _ hT
      refine Refines.bind (H.mdDataFwd hv hT hmd hdcv _ _) ?_
      rintro ⟨e, c, u'⟩ ⟨e', q, t'⟩ ⟨-, Hq, hT'⟩
      obtain ⟨herr, hT''⟩ := Hq.dstOutput net hT'
      exact Refines.ite (not_congr (Eq.congr_left herr)) (fun _ => Refines.some ⟨rfl, hT''⟩)
        fun _ => Holds.mdDataLoop hmd hdcv n _ _ _ hT''

omit hv H in
theorem flags_hops (hdr : MdcHdr) (n : BitVec 6) :
    hdr.flags.extractLsb' 16 16 ++ (n ++ hdr.flags.extractLsb' 0 10) =
      ({ hdr with hops := n } : MdcHdr).flags := by
  refine BitVec.eq_of_getLsbD_eq fun i hi => ?_
  rw [BitVec.getLsbD_append, BitVec.getLsbD_append, BitVec.getLsbD_extractLsb', BitVec.getLsbD_extractLsb',
    MdcHdr.getLsbD_flags, MdcHdr.getLsbD_flags, MdcHdr.getLsbD_flags]
  grind

omit hv H in
theorem flags_rsp (hdr : MdcHdr) : hdr.flags ||| 0x200 = ({ hdr with rsp := true } : MdcHdr).flags := by
  have hbit : ∀ i, i < 32 → (0x200 : BitVec 32).getLsbD i = decide (i = 9) := by decide
  refine BitVec.eq_of_getLsbD_eq fun i hi => ?_
  rw [BitVec.getLsbD_or, hbit i hi, MdcHdr.getLsbD_flags, MdcHdr.getLsbD_flags]
  grind

omit hv H in
/-- The word of the bit fields, in its place. -/
theorem octets_splice_flags {hdr' : MdcHdr} (h : hdr.setFlags hdr'.flags = hdr') :
    hdr'.octets = splice hdr.octets 4 (octets32 hdr'.flags) := by
  rw [splice, length_octets32, ← MdcHdr.octets_setFlags, h]

theorem Holds.incHopcount (hmd : skb.md = some hdr) :
    b.incHopcount.Holds vtf { skb with md := some { hdr with hops := hdr.hops + 1 } } := by
  rw [SkBuff.incHopcount, H.flags_eq hv hmd, H.hopcount_eq hv hmd, flags_hops]
  exact H.writeHdr hv hmd { hdr with hops := hdr.hops + 1 } (k := 4)
    (by rw [hdr.length_octets, length_octets32]; omega) (octets_splice_flags (hdr.setFlags_flags _)) rfl
    ((H.whole hdr hmd).congr rfl rfl rfl)

theorem Holds.setResponse (hmd : skb.md = some hdr) :
    b.setResponse.Holds vtf { skb with md := some { hdr with rsp := true } } := by
  rw [SkBuff.setResponse, H.flags_eq hv hmd, flags_rsp]
  exact H.writeHdr hv hmd { hdr with rsp := true } (k := 4)
    (by rw [hdr.length_octets, length_octets32]; omega) (octets_splice_flags (hdr.setFlags_flags _)) rfl
    ((H.whole hdr hmd).congr rfl rfl rfl)

/-- `md_data_rcv`. -/
theorem Holds.mdDataRcv (hT : u.Holds vtf t) (hmd : skb.md = some hdr) :
    Refines (Returns vtf) (SkBuff.mdDataRcv net u b) (MEADcast.mdDataRcv net t skb) := by
  rw [SkBuff.mdDataRcv, MEADcast.mdDataRcv, hmd, H.discovery_eq hv hmd, H.response_eq hv hmd]
  refine Refines.ite Iff.rfl (fun _ => Refines.some ⟨rfl, H, hT⟩) fun hdata => ?_
  have hdcv : hdr.dcv = false := by simpa using not_or.mp hdata |>.1
  have H' := H.incHopcount hv hmd
  dsimp only
  rw [H'.numDst_eq hv rfl]
  refine Refines.bind (H'.mdDataLoop hv rfl hdcv _ _ _ _ hT) ?_
  rintro ⟨r, u'⟩ ⟨r', t'⟩ ⟨rfl, hT'⟩
  rcases r with _ | ⟨r1, r2⟩
  · exact Refines.some ⟨rfl, H', hT'⟩
  · refine Refines.bind (H'.mdDataFwd hv hT' rfl hdcv _ _) ?_
    rintro ⟨e, c, u''⟩ ⟨e', q, t''⟩ ⟨-, Hq, hT''⟩
    exact Refines.some ⟨rfl, Hq, hT''⟩

theorem Holds.reply (hmd : skb.md = some hdr) : b.reply.Holds vtf
    ⟨{ skb.ip with daddr := skb.ip.saddr, hop_limit := 255 }, some { hdr with rsp := true }, skb.udp,
      skb.dst⟩ := by
  have H₁ := H.writeIp hv { skb.ip with daddr := skb.ip.saddr } (k := 24)
    (x := MEADcast.octets skb.ip.saddr) (by rw [length_octets])
    (Ipv6Hdr.octets_setDaddr hv skb.ip skb.ip.saddr).symm
  rw [← H.load_saddr hv] at H₁
  have H₂ := H₁.writeIp hv { skb.ip with daddr := skb.ip.saddr, hop_limit := 255 } (k := 7) (x := [255])
    (by simp) (octets_hop_limit hv { skb.ip with daddr := skb.ip.saddr } 255)
  exact H₂.setResponse hv hmd

/-- `dcv_rsp`. -/
theorem Holds.dcvRsp (hT : u.Holds vtf t) (hmd : skb.md = some hdr) :
    Refines (fun x y => x.1 = y.1 ∧ x.2.Holds vtf y.2) (SkBuff.dcvRsp net u b)
      (MEADcast.dcvRsp net t skb) := by
  have Hr := H.reply hv hmd
  have hnew : b.reply.addrAt (b.reply.network_header + 24) = skb.ip.saddr := by
    rw [addrAt, Hr.load_daddr hv, ofOctets_octets]
  obtain ⟨herr, Hq, hT'⟩ := Hr.setDst net hT skb.ip.saddr
  rw [SkBuff.dcvRsp, MEADcast.dcvRsp, hmd]
  dsimp only
  rw [hnew]
  refine Refines.ite (not_congr (Eq.congr_left herr)) (fun _ => Refines.some ⟨rfl, hT'⟩) fun hok => ?_
  cases hs : net.ipv6_dev_get_saddr skb.ip.saddr with
  | none => exact Refines.some ⟨rfl, hT'⟩
  | some saddr =>
      have Hs := Hq.writeIp hv _ (k := 8) (by rw [length_octets]; decide) (octets_setSaddr hv _ saddr)
      obtain ⟨herr', hT''⟩ := Hs.dstOutput net hT'
      exact Refines.ite (not_congr (Eq.congr_left herr')) (fun _ => Refines.some ⟨rfl, hT''⟩)
        fun _ => Refines.some ⟨rfl, hT''⟩

/-- `md_dcv_rcv`. -/
theorem Holds.mdDcvRcv (hT : u.Holds vtf t) (hmd : skb.md = some hdr) :
    Refines (Returns vtf) (SkBuff.mdDcvRcv net u b) (MEADcast.mdDcvRcv net t skb) := by
  have H' := H.incHopcount hv hmd
  rw [SkBuff.mdDcvRcv, MEADcast.mdDcvRcv, hmd, H.rtMdType_eq hv hmd, H.nexthdr_eq hv hmd,
    H.discovery_eq hv hmd, H.response_eq hv hmd, H.numDst_eq hv hmd]
  refine Refines.ite Iff.rfl (fun _ => Refines.some ⟨rfl, H, hT⟩) fun _ => ?_
  refine Refines.bind (H'.dcvRsp hv hT rfl) ?_
  rintro ⟨e, u'⟩ ⟨e', t'⟩ ⟨-, hT'⟩
  exact Refines.some ⟨rfl, H', hT'⟩

/-- `md_rcv`. -/
theorem Holds.mdRcv (hT : u.Holds vtf t) (hmd : skb.md = some hdr) :
    Refines (Returns vtf) (SkBuff.mdRcv net u b) (MEADcast.mdRcv net t skb) := by
  rw [SkBuff.mdRcv, MEADcast.mdRcv, hmd, H.rtMdType_eq hv hmd, H.discovery_eq hv hmd]
  refine Refines.ite Iff.rfl (fun _ => Refines.some ⟨rfl, H, hT⟩) fun _ => ?_
  refine Refines.ite Iff.rfl (fun _ => Refines.some ⟨rfl, H, hT⟩) fun _ => ?_
  refine Refines.ite Iff.rfl (fun _ => ?_) fun _ => ?_
  · refine Refines.bind (H.mdDcvRcv hv hT hmd) ?_
    rintro ⟨e, c, u'⟩ ⟨e', q, t'⟩ ⟨-, Hq, hT'⟩
    exact Refines.some ⟨rfl, Hq, hT'⟩
  · refine Refines.bind (H.mdDataRcv hv hT hmd) ?_
    rintro ⟨e, c, u'⟩ ⟨e', q, t'⟩ ⟨-, Hq, hT'⟩
    exact Refines.some ⟨rfl, Hq, hT'⟩

end Steps

/-- The packets that leave a router. -/
theorem Holds.ip6Forward {vtf : List (BitVec 8)} {b : SkBuff} {skb : Skb} (H : b.Holds vtf skb)
    (net : Net) (hv : vtf.length = 4) (hmd : skb.ip.nexthdr = ipprotoRouting → skb.md ≠ none) :
    Refines (List.Forall₂ (Holds vtf)) (SkBuff.ip6Forward net b) (MEADcast.ip6Forward net skb) := by
  have hhop : b.mem (b.network_header + 7) = skb.ip.hop_limit := by
    refine H.ip_getElem hv (by decide) ?_
    match vtf, hv with
    | [_, _, _, _], _ => rfl
  have H' := H.writeIp hv { skb.ip with hop_limit := skb.ip.hop_limit - 1 } (k := 7) (by simp)
    (octets_hop_limit hv skb.ip _)
  have hnxt := H'.ip_getElem hv (by decide) (Ipv6Hdr.octets_nexthdr hv _)
  rw [SkBuff.ip6Forward, MEADcast.ip6Forward, hhop]
  dsimp only
  rw [hnxt]
  refine Refines.ite Iff.rfl (fun hrt => ?_) fun _ => Refines.some (.cons H' .nil)
  obtain ⟨hdr, hhdr⟩ := Option.ne_none_iff_exists'.mp (hmd hrt)
  refine Refines.bind (H'.mdRcv hv ⟨rfl, rfl, .nil, rfl⟩ hhdr) ?_
  rintro ⟨e, c, u⟩ ⟨e', q, t⟩ ⟨-, Hq, hT⟩
  exact Refines.some (List.rel_append hT.sent (.cons Hq .nil))

end SkBuff

/-- The octets of a packet arrive at a router, and `ip6_forward` works on them in memory: what leaves
are the octets of the packets that leave according to the functions on headers, on the same routes and
in the same order; and these can arrive at the next router. -/
theorem forward_octets (net : Net) {vtf : List (BitVec 8)} (hv : vtf.length = 4) {skb : Skb} {hdr : MdcHdr}
    (hmd : skb.md = some hdr) (W : hdr.Whole) {out : List Skb} (h : ip6Forward net skb = some out) :
    ∃ bs, SkBuff.ip6Forward net (SkBuff.receive (skb.octets vtf) skb.dst) = some bs ∧
      bs.map SkBuff.octets = out.map (Skb.octets vtf) ∧ bs.map SkBuff.dst = out.map Skb.dst ∧
      ∀ q ∈ out, ∀ hd, q.md = some hd → hd.Whole := by
  have H := SkBuff.holds_receive vtf fun hd he => Option.some.inj (hmd.symm.trans he) ▸ W
  obtain ⟨bs, hbs, hall⟩ := H.ip6Forward net hv (fun _ => by simp [hmd]) out h
  refine ⟨bs, hbs, ?_, ?_, fun q hq hd he => ?_⟩
  · exact map_eq_of_forall₂ hall fun _ _ Hq => Hq.octets_eq
  · exact map_eq_of_forall₂ hall fun _ _ Hq => Hq.dst_eq
  · exact forall_of_forall₂ (P := fun q => ∀ hd, q.md = some hd → hd.Whole) hall
      (fun _ _ Hq => Hq.whole) q hq hd he

/-- The theorem at a packet with two routers. -/
theorem forward_octets_sample :
    ∃ out, ip6Forward (.sample 1) .sample = some out ∧
      ∃ bs, SkBuff.ip6Forward (.sample 1) (.receive (Skb.sample.octets [0x60, 0, 0, 0]) 2) = some bs ∧
        bs.map SkBuff.octets = out.map (Skb.octets [0x60, 0, 0, 0]) := by
  have hmd : Skb.sample.md = some (dataHdr [⟨1, [2]⟩, ⟨3, [4, 5]⟩]) := rfl
  have W : (dataHdr [⟨1, [2]⟩, ⟨3, [4, 5]⟩] : MdcHdr).Whole := ⟨by decide, by decide⟩
  have hv : ([0x60, 0, 0, 0] : List (BitVec 8)).length = 4 := rfl
  have h : ip6Forward (.sample 1) .sample = some ((ip6Forward (.sample 1) .sample).get rfl) :=
    (Option.some_get _).symm
  obtain ⟨bs, hbs, hoct, -, -⟩ := forward_octets (.sample 1) hv hmd W h
  exact ⟨_, h, bs, hbs, hoct⟩

end MEADcast
