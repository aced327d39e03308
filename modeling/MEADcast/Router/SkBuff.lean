import MEADcast.Lib.Memory
import MEADcast.Router.Forward
import MEADcast.Wire

/-!
# The router on octets

The functions of `net/ipv6/mdcast.c` once more, now on a `struct sk_buff`: they load fields from the
memory of a packet and store them there, and `m2u` moves the IPv6 header over the end of the routing
header.

## Main definitions

* `SkBuff` — a packet in memory.
* `SkBuff.m2u`, `SkBuff.mdDataFwd`, `SkBuff.mdDataRcv`, `SkBuff.dcvRsp`, `SkBuff.mdRcv` — the functions.
* `SkBuff.ip6Forward` — the part of `ip6_forward` around them.
-/

namespace MEADcast

/-- `struct sk_buff`: a packet lies between `data` and `tail`. -/
structure SkBuff where
  mem : Mem (BitVec 8)
  data : ℕ
  tail : ℕ
  network_header : ℕ
  transport_header : ℕ
  dst : In6Addr

/-- What a router did so far, as in `Tx`. -/
structure SkTx where
  lookups : ℕ
  outputs : ℕ
  sent : List SkBuff
  calls : List (Int × Int)

def SkTx.start : SkTx := ⟨0, 0, [], []⟩

/-- `struct in6_addr *`: the address is a variable of the caller, or lies in the packet. -/
inductive AddrPtr
  | fl6 (daddr : In6Addr)
  | skb (off : ℕ)

namespace SkBuff

/-- The octets of a packet. -/
def octets (b : SkBuff) : List (BitVec 8) := b.mem.load b.data (b.tail - b.data)

/-- A packet with these octets, as a driver hands it over. -/
def receive (l : List (BitVec 8)) (dst : In6Addr) : SkBuff where
  mem := Mem.store (fun _ => 0) 0 l
  data := 0
  tail := l.length
  network_header := 0
  transport_header := 40
  dst := dst

def write (b : SkBuff) (off : ℕ) (l : List (BitVec 8)) : SkBuff := { b with mem := b.mem.store off l }

/-! ## The routing header -/

/-- `hdr->rt_hdr.nexthdr`, `hdr->rt_hdr.hdrlen` and `hdr->rt_md_type`. -/
def nexthdr (b : SkBuff) : BitVec 8 := b.mem b.transport_header
def hdrlen (b : SkBuff) : BitVec 8 := b.mem (b.transport_header + 1)
def rtMdType (b : SkBuff) : BitVec 8 := b.mem (b.transport_header + 2)

/-- The word with the bit fields. -/
def flags (b : SkBuff) : BitVec 32 := ofOctets32 (b.mem.load (b.transport_header + 4) 4)
def numDst (b : SkBuff) : BitVec 8 := b.flags.extractLsb' 0 8
def discovery (b : SkBuff) : Bool := b.flags.getLsbD 8
def response (b : SkBuff) : Bool := b.flags.getLsbD 9
def hopcount (b : SkBuff) : BitVec 6 := b.flags.extractLsb' 10 6

def dlvmap (b : SkBuff) : BitVec 32 := ofOctets32 (b.mem.load (b.transport_header + 8) 4)
def rtmap (b : SkBuff) : BitVec 32 := ofOctets32 (b.mem.load (b.transport_header + 12) 4)

/-- `&hdr->dst[k]`. -/
def dstPtr (b : SkBuff) (k : Int) : ℕ := (b.transport_header + 16 + 16 * k).toNat

def addrAt (b : SkBuff) (off : ℕ) : In6Addr := ofOctets (b.mem.load off 16)

def deref (b : SkBuff) : AddrPtr → In6Addr
  | .fl6 daddr => daddr
  | .skb off => b.addrAt off

/-- `hdr->hopcount++` and `hdr->response = 1`, which leave the other bits of the word alone. -/
def incHopcount (b : SkBuff) : SkBuff :=
  b.write (b.transport_header + 4)
    (octets32 (b.flags.extractLsb' 16 16 ++ ((b.hopcount + 1) ++ b.flags.extractLsb' 0 10)))
def setResponse (b : SkBuff) : SkBuff :=
  b.write (b.transport_header + 4) (octets32 (b.flags ||| 0x200))

/-! ## The data path -/

/-- `set_dst`. -/
def setDst (net : Net) (t : SkTx) (b : SkBuff) (daddr : In6Addr) : Int × SkBuff × SkTx :=
  let t' := { t with lookups := t.lookups + 1 }
  if net.routeError t.lookups then (1, b, t') else (0, { b with dst := daddr }, t')

/-- `dst_output`. -/
def dstOutput (net : Net) (t : SkTx) (b : SkBuff) : Int × SkTx :=
  let t' := { t with outputs := t.outputs + 1 }
  if net.outputError t.outputs then (1, t') else (0, { t' with sent := t.sent ++ [b] })

/-- The length of the routing header, and where the UDP header starts. -/
def rthdrLen (b : SkBuff) : ℕ := (b.hdrlen.toNat + 1) * 8
def uh (b : SkBuff) : ℕ := b.transport_header + b.rthdrLen

/-- The sum that `uh->check` is computed from; the words are those of a little-endian host. -/
def newSum (b : SkBuff) (dst : AddrPtr) (daddr : List (BitVec 8)) : BitVec 32 :=
  let sum := csumPartial (MEADcast.octets (b.deref dst))
    (~~~csumUnfold (swab16 (ofOctets16 (b.mem.load (b.uh + 6) 2))))
  csumSub sum (csumPartial daddr 0)

/-- `uh->check = csum_fold(sum)`, with `CSUM_MANGLED_0` in the place of zero. -/
def setCheck (b : SkBuff) (sum : BitVec 32) : SkBuff :=
  let check := csumFold sum
  b.write (b.uh + 6) (octets16 (swab16 (if check = 0 then 0xffff#16 else check)))

/-- `skb_pull`, and `ip` in front of what is left, where the network header is now.  There is no
result if the packet is too short. -/
def pull (b : SkBuff) (len : ℕ) (ip : List (BitVec 8)) : Option SkBuff :=
  if len ≤ b.tail - b.data then
    some ⟨b.mem.store (b.data + len) ip, b.data + len, b.tail, b.data + len, b.transport_header, b.dst⟩
  else none

/-- `m2u`. -/
def m2u (net : Net) (t : SkTx) (b : SkBuff) (dst : AddrPtr) : Option (Int × SkBuff × SkTx) := do
  let ip := b.mem.load b.network_header 40
  let rthdr_len := b.rthdrLen
  let ip_plen := ofOctets16 ((ip.drop 4).take 2) - BitVec.ofNat 16 rthdr_len
  let nexthdr := b.nexthdr
  let b := b.setCheck (b.newSum dst ((ip.drop 24).take 16))
  let daddr := b.deref dst
  let ip :=
    ip.take 4 ++ octets16 ip_plen ++ [nexthdr] ++ (ip.drop 7).take 17 ++ MEADcast.octets daddr
  let b ← b.pull rthdr_len ip
  return setDst net t b daddr

/-- The loop of `md_data_fwd`. -/
def m2uLoop (net : Net) (b : SkBuff) : ℕ → Int → SkTx → Option (Option Int × SkTx)
  | 0, k, t => some (some k, t)
  | n + 1, k, t => do
      let (_, cpy, t) ← m2u net t b (.fl6 (b.addrAt (b.dstPtr k)))
      let (err, t) := dstOutput net t cpy
      if err ≠ 0 then return (none, t)
      m2uLoop net b n (k + 1) t

/-- The other end of `md_data_fwd`: the packet goes to the address at `dst`. -/
def redirect (b : SkBuff) (dst : ℕ) (dlvm : BitVec 32) : SkBuff :=
  let b := b.setCheck (b.newSum (.skb dst) (b.mem.load (b.network_header + 24) 16))
  let b := b.write (b.transport_header + 8) (octets32 dlvm)
  b.write (b.network_header + 24) (b.mem.load dst 16)

/-- `md_data_fwd`. -/
def mdDataFwd (net : Net) (t : SkTx) (b : SkBuff) (i j : Int) : Option (Int × SkBuff × SkTx) := do
  let t := { t with calls := t.calls ++ [(i, j)] }
  let len := j - i - 1
  if len < net.ip6_mdcast_min_dsts ∨ net.ipv6_chk_addr (b.addrAt (b.dstPtr i)) then
    let (k, t) ← m2uLoop net b (j - 1 - (i + 1)).toNat (i + 1) t
    match k with
    | none => return (1, b, t)
    | some k => m2u net t b (.skb (b.dstPtr k))
  else
    let dlvm ← shiftOne (getI i)
    let b := b.redirect (b.dstPtr (i + 1)) dlvm
    return setDst net t b (b.addrAt (b.network_header + 24))

/-- The loop of `md_data_rcv`. -/
def mdDataLoop (net : Net) (b : SkBuff) :
    ℕ → Int → Int → Int → SkTx → Option (Option (Int × Int) × SkTx)
  | 0, _, r1, r2, t => some (some (r1, r2), t)
  | n + 1, i, r1, r2, t => do
      let j := getI i
      let rt ← checkBit b.rtmap j
      let dlv ← checkBit b.dlvmap j
      if !rt then
        mdDataLoop net b n (i + 1) r1 r2 t
      else if 0 ≤ r1 then
        let r2 := if r2 = 0 then i else r2
        if dlv then
          let (_, cpy, t) ← mdDataFwd net t b r1 r2
          let (err, t) := dstOutput net t cpy
          if err ≠ 0 then return (none, t)
          mdDataLoop net b n (i + 1) i 0 t
        else
          mdDataLoop net b n (i + 1) r1 r2 t
      else if dlv then
        mdDataLoop net b n (i + 1) i r2 t
      else
        mdDataLoop net b n (i + 1) r1 r2 t

/-- `md_data_rcv`. -/
def mdDataRcv (net : Net) (t : SkTx) (b : SkBuff) : Option (Int × SkBuff × SkTx) := do
  if b.discovery ∨ b.response then
    return (-1, b, t)
  let b := b.incHopcount
  let (r, t) ← mdDataLoop net b b.numDst.toNat 0 (-1) 0 t
  match r with
  | none => return (1, b, t)
  | some (r1, r2) =>
      let r2 := if r2 = 0 then (b.numDst.toNat : Int) else r2
      let (_, b, t) ← mdDataFwd net t b r1 r2
      return (0, b, t)

/-! ## Discovery -/

/-- The response: back to the source, with the mark. -/
def reply (b : SkBuff) : SkBuff :=
  let rsp := b.write (b.network_header + 24) (b.mem.load (b.network_header + 8) 16)
  let rsp := rsp.write (rsp.network_header + 7) [255]
  rsp.setResponse

/-- `dcv_rsp`. -/
def dcvRsp (net : Net) (t : SkTx) (b : SkBuff) : Option (Int × SkTx) := do
  let rsp := b.reply
  let daddr := rsp.addrAt (rsp.network_header + 24)
  let (err, rsp, t) := setDst net t rsp daddr
  if err ≠ 0 then return (1, t)
  match net.ipv6_dev_get_saddr daddr with
  | none => return (1, t)
  | some saddr =>
      let (err, t) := dstOutput net t (rsp.write (rsp.network_header + 8) (MEADcast.octets saddr))
      if err ≠ 0 then return (1, t)
      return (0, t)

/-- `md_dcv_rcv`. -/
def mdDcvRcv (net : Net) (t : SkTx) (b : SkBuff) : Option (Int × SkBuff × SkTx) := do
  if b.rtMdType ≠ ipv6Meadcast ∨ b.nexthdr ≠ ipprotoNone ∨ b.discovery = false ∨ b.response = true ∨
      b.numDst ≠ 1 then
    return (-1, b, t)
  let b := b.incHopcount
  let (_, t) ← dcvRsp net t b
  return (0, b, t)

/-- `md_rcv`. -/
def mdRcv (net : Net) (t : SkTx) (b : SkBuff) : Option (Int × SkBuff × SkTx) := do
  if net.ip6_mdcast_enable = false then
    return (0, b, t)
  if b.rtMdType ≠ ipv6Meadcast then
    return (-1, b, t)
  if b.discovery then
    let (_, b, t) ← mdDcvRcv net t b
    return (0, b, t)
  else
    let (_, b, t) ← mdDataRcv net t b
    return (0, b, t)

/-- `ip6_forward`: the packets that leave the router. -/
def ip6Forward (net : Net) (b : SkBuff) : Option (List SkBuff) := do
  let b := b.write (b.network_header + 7) [b.mem (b.network_header + 7) - 1]
  if b.mem (b.network_header + 6) = ipprotoRouting then
    let (_, b, t) ← mdRcv net .start b
    return t.sent ++ [b]
  else
    return [b]

end SkBuff

end MEADcast
