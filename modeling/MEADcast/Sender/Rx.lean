import MEADcast.Router.Data
import MEADcast.Sender.Group

/-!
# Discovery responses (`rx.c`)

`updateTopo` is called for every response that passes the checks of `rx_dcvr`: the
router `rsa` claims to be `hops` MEADcast hops away on the path to `paddr`.
-/

namespace MEADcast

/-- What `rx_dcvr` hands to `update_topo`: its checks admit hop counts `1` to `63`, the
range of the header field without `0`. -/
structure DcvRsp where
  rsa : In6Addr
  paddr : In6Addr
  hops : ℕ
  hops_pos : 1 ≤ hops
  hops_le : hops ≤ 63

/-- `rx_dcvr` until its call of `update_topo`.  The socket hands over the octets behind the
IPv6 header. -/
def rxDcvr (skb : Skb) : Option DcvRsp := do
  let hdr ← skb.md
  let nbytes := skb.ip.payload_len.toNat
  if nbytes ≠ getMdcHdrSize 1 then none
  else if h : hdr.type ≠ ipv6Meadcast ∨ hdr.nxt ≠ ipprotoNone ∨ hdr.dcv = false ∨
      hdr.rsp = false ∨ hdr.hops.toNat < 1 ∨ hdr.dsts ≠ 1 then none
  else
    let paddr ← hdr.addr[0]?
    some
      { rsa := skb.ip.saddr, paddr := paddr, hops := hdr.hops.toNat
        hops_pos := by omega
        hops_le := Nat.le_of_lt_succ hdr.hops.isLt }

namespace Sender

/-- `update_topo`.  The second component is the return value; `-1` is a rejected
response. -/
def updateTopo (fuel : ℕ) (s : Sender) (rsa paddr : In6Addr) (hops : ℕ) :
    Option (Sender × Int) :=
  match s.ht paddr with
  | none => some (s, -1)                                -- peer not in group
  | some pv => do
    let l ← pv
    match ← s.heap.node l with
    | .router _ => some (s, -1)                         -- peer is no receiver
    | .leaf _ =>
      match s.ht.ins rsa with
      | (ht, none) => do                                -- insert router
        let c ← s.heap.getPathPos fuel l hops
        let (h, r) ← s.heap.insert rsa c
        let r ← r
        let rt ← h.router r
        let h := h.set r (.router { rt with hops := hops })
        some ({ s with heap := h, ht := ht.put rsa (some r) }, 0)
      | (_, some r) => do                               -- update router
        match ← s.heap.node r with
        | .leaf _ => some (s, -1)                       -- address is already a peer
        | .router rt => do
          let h := s.heap.set r (.router { rt with hops := hops })
          let c ← h.getPathPos fuel l hops
          if rt.parent = none ∧ rt.nleaf = 0 ∧ rt.nchild = 0 then do
            let p ← (← h.node (← c)).parent
            let h ← h.addRouter p r
            let (h, _) ← h.adopt r c
            some ({ s with heap := h }, 0)
          else do
            let (h, _) ← h.adopt r c
            some ({ s with heap := h }, 0)

end Sender

end MEADcast
