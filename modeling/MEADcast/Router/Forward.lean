import MEADcast.Router.Data

/-!
# Forwarding and the discovery part of the router

`ip6_forward` passes each packet with a routing header to `md_rcv` and then forwards
whatever packet it is left with.

## Main definitions

* `mdDcvRcv`, `dcvRsp` — the answer to a discovery request.
* `mdRcv` — the entry point of `net/ipv6/mdcast.c`.
* `ip6Forward` — the part of `ip6_forward` around it.
-/

namespace MEADcast

/-- `dcv_rsp`: send the response to a discovery request. -/
def dcvRsp (net : Net) (t : Tx) (skb : Skb) : Option (Int × Tx) := do
  let hdr ← skb.md
  let daddr := skb.ip.saddr
  let rsp := { skb with
    ip := { skb.ip with daddr := daddr, hop_limit := 255 },
    md := some { hdr with rsp := true } }
  let (err, rsp, t) := setDst net t rsp daddr
  if err ≠ 0 then return (1, t)
  match net.ipv6_dev_get_saddr daddr with
  | none => return (1, t)
  | some saddr =>
      let (err, t) := dstOutput net t { rsp with ip := { rsp.ip with saddr := saddr } }
      if err ≠ 0 then return (1, t)
      return (0, t)

/-- `md_dcv_rcv`. -/
def mdDcvRcv (net : Net) (t : Tx) (skb : Skb) : Option (Int × Skb × Tx) := do
  let hdr ← skb.md
  if hdr.type ≠ ipv6Meadcast ∨ hdr.nxt ≠ ipprotoNone ∨ hdr.dcv = false ∨ hdr.rsp = true ∨
      hdr.dsts ≠ 1 then
    return (-1, skb, t)
  let skb := { skb with md := some { hdr with hops := hdr.hops + 1 } }
  let (_, t) ← dcvRsp net t skb
  return (0, skb, t)

/-- `md_rcv`. -/
def mdRcv (net : Net) (t : Tx) (skb : Skb) : Option (Int × Skb × Tx) := do
  let hdr ← skb.md
  if net.ip6_mdcast_enable = false then
    return (0, skb, t)
  if hdr.type ≠ ipv6Meadcast then
    return (-1, skb, t)
  if hdr.dcv then
    let (_, skb, t) ← mdDcvRcv net t skb
    return (0, skb, t)
  else
    let (_, skb, t) ← mdDataRcv net t skb
    return (0, skb, t)

/-- `ip6_forward`: the packets that leave the router when `skb` arrives. -/
def ip6Forward (net : Net) (skb : Skb) : Option (List Skb) := do
  let skb := { skb with ip := { skb.ip with hop_limit := skb.ip.hop_limit - 1 } }
  if skb.ip.nexthdr = ipprotoRouting then
    let (_, skb, t) ← mdRcv net .start skb
    return t.sent ++ [skb]
  else
    return [skb]

end MEADcast
