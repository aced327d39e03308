import MEADcast.Router.Data
import MEADcast.Sender.Checksum
import MEADcast.Sender.Node

/-!
# Transmission (`tx.c`)

The sender writes headers and checksums into one buffer and hands it to its sockets.  A
function takes the buffer and what was sent so far, and returns both next to its result.  The
file descriptors and pointers that the functions check are the valid ones they are called with.

## Main definitions

* `Sock` — the sockets of the sender, and which of their sends fail.
* `setDcvrHdr`, `sendDcvr` — discovery requests.
* `txUni`, `txMdc`, `tx` — one datagram to all receivers of a group.
-/

namespace MEADcast

/-- The sockets of the sender: the address they are bound to, which is the source of their packets,
the hop limit that the kernel gives the packets of the MEADcast socket, and which calls of `sendto`,
counted from the start, fail for which destinations.  `bia` is what `get_sa` found on the interface:
the checksum of `tx_mdc` is about this address, whatever the sockets are bound to. -/
structure Sock where
  baddr : In6Addr
  bia : In6Addr
  hop_limit : BitVec 8
  sendError : ℕ → In6Addr → Bool

/-- The number of calls of `sendto` so far, and the packets that left. -/
structure Wire where
  calls : ℕ
  sent : List Skb
  deriving DecidableEq, Repr

/-- Nothing was sent yet. -/
def Wire.start : Wire := ⟨0, []⟩

/-- `sendto`. -/
def Sock.sendto (sk : Sock) (w : Wire) (skb : Skb) : Int × Wire :=
  let w' := { w with calls := w.calls + 1 }
  if sk.sendError w.calls skb.dst then (-1, w') else (1, { w' with sent := w.sent ++ [skb] })

/-- The packet that the MEADcast socket makes of a routing header of `hlen` octets and the
`plen` octets behind it. -/
def Sock.mdcPacket (sk : Sock) (dst : In6Addr) (hdr : MdcHdr) (hlen plen : ℕ) (udp : Udp) : Skb where
  ip :=
    { payload_len := BitVec.ofNat 16 (hlen + plen), nexthdr := ipprotoRouting,
      hop_limit := sk.hop_limit, saddr := sk.baddr, daddr := dst }
  md := some hdr
  udp := udp
  dst := dst

@[simp] theorem Sock.mdcPacket_dst (sk : Sock) (dst : In6Addr) (hdr : MdcHdr) (hlen plen : ℕ)
    (udp : Udp) : (sk.mdcPacket dst hdr hlen plen udp).dst = dst := rfl

/-! ## Discovery requests -/

/-- The word of flags of a header: the bit fields as the compiler lays them out. -/
def MdcHdr.setFlags (hdr : MdcHdr) (flags : BitVec 32) : MdcHdr :=
  { hdr with
    dsts := flags.extractLsb' 0 8, dcv := flags.getLsbD 8, rsp := flags.getLsbD 9,
    hops := flags.extractLsb' 10 6, res := flags.extractLsb' 16 16 }

/-- `set_rt_hdr`. -/
def MdcHdr.setRtHdr (hdr : MdcHdr) (nh len type segleft : BitVec 8) : MdcHdr :=
  { hdr with nxt := nh, len := len, type := type, segleft := segleft }

/-- `set_dcvr_hdr`. -/
def setDcvrHdr (hdr : MdcHdr) : MdcHdr × ℕ :=
  let hdr := { hdr.setFlags 0x101 with dlvm := 0, rtm := 0 }
  let mdc_len := getMdcHdrSize 1
  let rt_len := BitVec.ofNat 8 (mdc_len / 8 - 1)
  (hdr.setRtHdr ipprotoNone rt_len ipv6Meadcast 0, mdc_len)

/-- Nothing behind a header. -/
def Udp.empty : Udp := ⟨0, 0, 0, 0, []⟩

/-- The loop of `send_dcvr` over the receivers. -/
def sendDcvrLoop (sk : Sock) (len : ℕ) : List Addr → MdcHdr → Wire → Int × Wire
  | [], _, w => (0, w)
  | i :: rcvr, hdr, w =>
      let hdr := { hdr with addr := [i.sin6_addr] }
      let (ret, w) := sk.sendto w (sk.mdcPacket i.sin6_addr hdr len 0 .empty)
      if ret < 1 then (ret, w) else sendDcvrLoop sk len rcvr hdr w

/-- `send_dcvr`; the buffer held `txbuf` before. -/
def sendDcvr (sk : Sock) (txbuf : MdcHdr) (rcvr : List Addr) (w : Wire) : Int × Wire :=
  let (hdr, len) := setDcvrHdr txbuf
  sendDcvrLoop sk len rcvr hdr w

/-! ## Data -/

/-- The loop of `tx_uni` over the unicast entries.  The datagram is rewritten in the buffer for
each of them. -/
def txUniLoop (sk : Sock) (fuel : ℕ) :
    List Addr → Ipv6Hdr → Udp → Wire → Option (Int × Ipv6Hdr × Udp × Wire)
  | [], ip, udp, w => some (0, ip, udp, w)
  | addr :: uni, ip, udp, w => do
      let ip := { ip with daddr := addr.sin6_addr }
      let udp ← if ip.nexthdr = ipprotoUdp then
          ({ udp with dest := addr.port } : Udp).setCheck fuel ip.saddr ip.daddr
        else some udp
      let (n, w) := sk.sendto w { ip := ip, md := none, udp := udp, dst := addr.sin6_addr }
      if n < 1 then return (n, ip, udp, w)
      txUniLoop sk fuel uni ip udp w

/-- `tx_uni`. -/
def txUni (sk : Sock) (fuel : ℕ) (grp : TxGroup) (ip : Ipv6Hdr) (udp : Udp) (w : Wire) :
    Option (Int × Ipv6Hdr × Udp × Wire) :=
  txUniLoop sk fuel (grp.uni.take grp.nuni) ip udp w

/-- The loop of `tx_mdc` over the headers.  Only the checksum of the datagram is rewritten. -/
def txMdcLoop (sk : Sock) (fuel plen : ℕ) :
    List MdcHdr → Udp → Wire → Option (Int × Udp × Wire)
  | [], udp, w => some (0, udp, w)
  | hdr :: mdc, udp, w => do
      if hdr.dsts.toNat < 2 then
        txMdcLoop sk fuel plen mdc udp w
      else
        let dst ← hdr.addr[1]?
        let hlen := getMdcHdrSize hdr.dsts.toNat
        let udp ← udp.setCheck fuel sk.bia dst
        let (n, w) := sk.sendto w (sk.mdcPacket dst hdr hlen plen udp)
        if n < 1 then return (n, udp, w)
        txMdcLoop sk fuel plen mdc udp w

/-- `tx_mdc`. -/
def txMdc (sk : Sock) (fuel : ℕ) (grp : TxGroup) (udp : Udp) (plen : ℕ) (w : Wire) :
    Option (Int × Udp × Wire) :=
  txMdcLoop sk fuel plen grp.mdc udp w

/-- `tx`: the packets that leave when the application sent the datagram `udp`. -/
def tx (sk : Sock) (fuel : ℕ) (grp : TxGroup) (ip : Ipv6Hdr) (udp : Udp) : Option Wire := do
  let (_, _, udp, w) ← txUni sk fuel grp ip udp .start
  let (_, _, w) ← txMdc sk fuel grp udp udp.size w
  return w

end MEADcast
