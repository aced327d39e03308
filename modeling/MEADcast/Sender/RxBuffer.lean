import MEADcast.Sender.Rx
import MEADcast.Wire

/-!
# The receive buffer

`rx_dcvr` once more, now on the octets that the socket puts into its buffer.

## Main definitions

* `RxBuf.rxDcvr` — the function on octets.

## Main results

* `RxBuf.rxDcvr_octets` — it reads headers as the function on records does.
-/

namespace MEADcast

namespace RxBuf

/-- `rx_dcvr` until its call of `update_topo`: `rt` is where a packet comes from, and `l` are its octets
behind the IPv6 header, of which `rxlen` fit into the buffer. -/
def rxDcvr (rxlen : ℕ) (rt : In6Addr) (l : List (BitVec 8)) : Option DcvRsp :=
  let rxbuf := l.take rxlen
  let nbytes := rxbuf.length
  let flags := ofOctets32 ((rxbuf.drop 4).take 4)
  let hops := (flags.extractLsb' 10 6).toNat
  if nbytes ≠ getMdcHdrSize 1 then none
  else if h : rxbuf.getD 2 0 ≠ ipv6Meadcast ∨ rxbuf.getD 0 0 ≠ ipprotoNone ∨ flags.getLsbD 8 = false ∨
      flags.getLsbD 9 = false ∨ hops < 1 ∨ flags.extractLsb' 0 8 ≠ 1 then none
  else
    some
      { rsa := rt, paddr := ofOctets ((rxbuf.drop 16).take 16), hops := hops
        hops_pos := by omega
        hops_le := Nat.le_of_lt_succ (flags.extractLsb' 10 6).isLt }

/-- Both functions make the same of a header with one address. -/
theorem rxDcvr_octets {rxlen : ℕ} (hrx : 32 ≤ rxlen) {skb : Skb} {hdr : MdcHdr} {a : In6Addr}
    (hmd : skb.md = some hdr) (haddr : hdr.addr = [a]) (hpl : skb.ip.payload_len = 32) :
    rxDcvr rxlen skb.ip.saddr hdr.octets = MEADcast.rxDcvr skb := by
  have hlen : hdr.octets.length = 32 := by rw [hdr.length_octets, haddr, List.length_singleton]
  have hwhole : hdr.octets.take rxlen = hdr.octets := List.take_of_length_le (by omega)
  have hflags : ofOctets32 ((hdr.octets.drop 4).take 4) = hdr.flags := ofOctets32_octets32 hdr.flags
  have hset := hdr.setFlags_flags hdr
  have hdsts : hdr.flags.extractLsb' 0 8 = hdr.dsts := congrArg MdcHdr.dsts hset
  have hdcv : hdr.flags.getLsbD 8 = hdr.dcv := congrArg MdcHdr.dcv hset
  have hrsp : hdr.flags.getLsbD 9 = hdr.rsp := congrArg MdcHdr.rsp hset
  have hhops : hdr.flags.extractLsb' 10 6 = hdr.hops := congrArg MdcHdr.hops hset
  have htype : hdr.octets.getD 2 0 = hdr.type := rfl
  have hnxt : hdr.octets.getD 0 0 = hdr.nxt := rfl
  have hpaddr : ofOctets ((hdr.octets.drop 16).take 16) = a := by
    have h := hdr.octets_addr [a]
    rw [← haddr] at h
    have hfront : (hdr.octets.take 16).length = 16 := by
      rw [List.length_take, hlen]
      rfl
    rw [show hdr.octets = hdr.octets.take 16 ++ hdr.addr.flatMap octets from h, List.drop_left' hfront, haddr,
      List.flatMap_singleton, List.take_of_length_le (length_octets a).le, ofOctets_octets]
  simp only [rxDcvr, MEADcast.rxDcvr, hwhole, hlen, hflags, hdsts, hdcv, hrsp, hhops, htype, hnxt, hpaddr, hmd,
    hpl, haddr, Option.bind_eq_bind, Option.bind_some, List.getElem?_cons_zero]
  rfl

end RxBuf

end MEADcast
