import MEADcast.Router.Csum

/-!
# The data path of the router

`net/ipv6/mdcast.c` without the discovery part.  A function of the kernel takes the
router, the packet and what was sent so far, and returns its result, the packet as it left
it and what is sent by then.  The result is `none` if the function uses an index outside
the `num_dst` addresses of the header or a shift amount outside `0 .. 31`.

Which lookups and transmissions fail is decided by the router's environment; packet copies
do not fail.

## Main definitions

* `Skb` — a packet.
* `Net` — a router with its environment.
* `m2u`, `mdDataFwd`, `mdDataRcv` — the functions of the data path.
-/

namespace MEADcast

/-- A packet: the IPv6 header, the routing header in front of the transport layer (`none`
once `m2u` pulled it) and the octets behind it, which the data path takes for a UDP
datagram.  `dst` is the address whose route the packet takes. -/
structure Skb where
  ip : Ipv6Hdr
  md : Option MdcHdr
  udp : Udp
  dst : In6Addr
  deriving DecidableEq, Repr

/-- A router and what happens to it: its settings, the test whether an address is its own,
the address it uses towards a destination, and for each route lookup and each call of
`dst_output`, counted from the start of the processing of a packet, whether it fails. -/
structure Net where
  ip6_mdcast_enable : Bool
  ip6_mdcast_min_dsts : ℕ
  ipv6_chk_addr : In6Addr → Bool
  ipv6_dev_get_saddr : In6Addr → Option In6Addr
  routeError : ℕ → Bool
  outputError : ℕ → Bool

/-- What the processing of a packet did so far: the number of route lookups, of calls of
`dst_output`, the packets that left, and the index pairs `md_data_fwd` was called with. -/
structure Tx where
  lookups : ℕ
  outputs : ℕ
  sent : List Skb
  calls : List (Int × Int)
  deriving DecidableEq, Repr

/-- Nothing was done yet. -/
def Tx.start : Tx := ⟨0, 0, [], []⟩

/-- `CHECK_BIT`. -/
def checkBit (var : BitVec 32) (pos : Int) : Option Bool :=
  if 0 ≤ pos ∧ pos < 32 then some (var.getLsbD pos.toNat) else none

/-- `GET_I`: the bit that belongs to a position of the address list. -/
def getI (i : Int) : Int := 31 - i

/-- `1 << pos`. -/
def shiftOne (pos : Int) : Option (BitVec 32) :=
  if 0 ≤ pos ∧ pos < 32 then some (1#32 <<< pos.toNat) else none

/-- `hdr->dst[k]`. -/
def MdcHdr.dst (hdr : MdcHdr) (k : Int) : Option In6Addr :=
  if 0 ≤ k ∧ k < hdr.dsts.toNat then some (hdr.addr.getD k.toNat 0) else none

/-- The length of the routing header in octets. -/
def MdcHdr.rthdrLen (hdr : MdcHdr) : ℕ := (hdr.len.toNat + 1) * 8

/-- `set_dst`: look up the route to `daddr`.  If there is none the packet keeps the route
it had. -/
def setDst (net : Net) (t : Tx) (skb : Skb) (daddr : In6Addr) : Int × Skb × Tx :=
  let t' := { t with lookups := t.lookups + 1 }
  if net.routeError t.lookups then (1, skb, t') else (0, { skb with dst := daddr }, t')

/-- `dst_output`. -/
def dstOutput (net : Net) (t : Tx) (skb : Skb) : Int × Tx :=
  let t' := { t with outputs := t.outputs + 1 }
  if net.outputError t.outputs then (1, t') else (0, { t' with sent := t.sent ++ [skb] })

/-- `m2u`: turn a MEADcast packet into a plain packet to `dst`. -/
def m2u (net : Net) (t : Tx) (skb : Skb) (dst : In6Addr) : Option (Int × Skb × Tx) := do
  let hdr ← skb.md
  let ip_plen := skb.ip.payload_len - BitVec.ofNat 16 hdr.rthdrLen
  let ip := { skb.ip with payload_len := ip_plen, nexthdr := hdr.nxt, daddr := dst }
  let udp := { skb.udp with check := updateCheck skb.udp.check skb.ip.daddr dst }
  return setDst net t { skb with ip := ip, md := none, udp := udp } dst

/-- The loop of `md_data_fwd` over the endpoints from `k` on, except for the last one, with
`n` rounds left.  It ends with the index it reached, or with `none` when a transmission
failed. -/
def m2uLoop (net : Net) (skb : Skb) (hdr : MdcHdr) :
    ℕ → Int → Tx → Option (Option Int × Tx)
  | 0, k, t => some (some k, t)
  | n + 1, k, t => do
      let daddr ← hdr.dst k
      let (_, cpy, t) ← m2u net t skb daddr
      let (err, t) := dstOutput net t cpy
      if err ≠ 0 then return (none, t)
      m2uLoop net skb hdr n (k + 1) t

/-- The condition under which `md_data_fwd` turns the `len` endpoints of the router at `i`
into plain packets: there are too few of them or the router's address is its own. -/
def unicasts (net : Net) (hdr : MdcHdr) (i len : Int) : Option Bool :=
  if len < net.ip6_mdcast_min_dsts then some true else (hdr.dst i).map net.ipv6_chk_addr

/-- `md_data_fwd`: serve the endpoints between the router at `i` and the position `j`. -/
def mdDataFwd (net : Net) (t : Tx) (skb : Skb) (i j : Int) : Option (Int × Skb × Tx) := do
  let hdr ← skb.md
  let t := { t with calls := t.calls ++ [(i, j)] }
  let len := j - i - 1
  let uni ← unicasts net hdr i len
  if uni then
    let (k, t) ← m2uLoop net skb hdr (j - 1 - (i + 1)).toNat (i + 1) t
    match k with
    | none => return (1, skb, t)
    | some k =>
        let daddr ← hdr.dst k
        m2u net t skb daddr
  else
    let daddr ← hdr.dst (i + 1)
    let udp := { skb.udp with check := updateCheck skb.udp.check skb.ip.daddr daddr }
    let dlvm ← shiftOne (getI i)
    let ip := { skb.ip with daddr := daddr }
    return setDst net t { skb with ip := ip, md := some { hdr with dlvm := dlvm }, udp := udp }
      daddr

/-- The loop of `md_data_rcv` from position `i` on, with `n` positions left: `r1` is the
router whose endpoints are not served yet and `r2` the next router behind it.  It ends with
both, or with `none` when a transmission failed. -/
def mdDataLoop (net : Net) (skb : Skb) (hdr : MdcHdr) :
    ℕ → Int → Int → Int → Tx → Option (Option (Int × Int) × Tx)
  | 0, _, r1, r2, t => some (some (r1, r2), t)
  | n + 1, i, r1, r2, t => do
      let j := getI i
      let rt ← checkBit hdr.rtm j
      let dlv ← checkBit hdr.dlvm j
      if !rt then
        mdDataLoop net skb hdr n (i + 1) r1 r2 t
      else if 0 ≤ r1 then
        let r2 := if r2 = 0 then i else r2
        if dlv then
          let (_, cpy, t) ← mdDataFwd net t skb r1 r2
          let (err, t) := dstOutput net t cpy
          if err ≠ 0 then return (none, t)
          mdDataLoop net skb hdr n (i + 1) i 0 t
        else
          mdDataLoop net skb hdr n (i + 1) r1 r2 t
      else if dlv then
        mdDataLoop net skb hdr n (i + 1) i r2 t
      else
        mdDataLoop net skb hdr n (i + 1) r1 r2 t

/-- `md_data_rcv`. -/
def mdDataRcv (net : Net) (t : Tx) (skb : Skb) : Option (Int × Skb × Tx) := do
  let hdr ← skb.md
  if hdr.dcv ∨ hdr.rsp then
    return (-1, skb, t)
  let hdr := { hdr with hops := hdr.hops + 1 }
  let skb := { skb with md := some hdr }
  let (r, t) ← mdDataLoop net skb hdr hdr.dsts.toNat 0 (-1) 0 t
  match r with
  | none => return (1, skb, t)
  | some (r1, r2) =>
      let r2 := if r2 = 0 then (hdr.dsts.toNat : Int) else r2
      let (_, skb, t) ← mdDataFwd net t skb r1 r2
      return (0, skb, t)

end MEADcast
