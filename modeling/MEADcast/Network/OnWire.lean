import MEADcast.Network.Passage
import MEADcast.Router.Octets

/-!
# Octets in a tree of routers

The network once more, now with nothing but octets in it: a packet goes to the address that stands in
its IPv6 header, and the routers work on it in memory.  Each of its steps is one of packets with
headers, and the other way round.

## Main definitions

* `RouterTree.OctetHop` — the octets of one packet travel to the next node.
* `RouterTree.OnWire` — they are those of a packet.
* `RouterTree.OctetDelivers` — octets end as those of one copy at each receiver.

## Main results

* `RouterTree.simulates_octetHop`, `RouterTree.simulates_hop` — steps on both levels.
* `RouterTree.Delivers.octets` — packets are delivered as octets.
-/

namespace MEADcast

open ParentMap

/-- The destination in an IPv6 header. -/
def daddrOf (l : List (BitVec 8)) : In6Addr := ofOctets ((l.drop 24).take 16)

namespace RouterTree

variable {root : In6Addr} {peers : List In6Addr} (T : RouterTree root peers)

/-- The octets of a packet at a node travel to the next node, as in `Hop`. -/
inductive OctetHop (net : In6Addr → Net) :
    In6Addr × List (BitVec 8) → Multiset (In6Addr × List (BitVec 8)) → Prop
  | forward {x z : In6Addr} {l : List (BitVec 8)} {out : List SkBuff} (hx : x ∉ peers)
      (h : Next T.par x (daddrOf l) z) (hz : T.Router z)
      (hout : SkBuff.ip6Forward (net z) (.receive l (daddrOf l)) = some out) :
      OctetHop net (x, l) ↑(out.map fun b => (z, b.octets))
  | pass {x : In6Addr} {l : List (BitVec 8)} (hx : x ∉ peers) (h : Next T.par x (daddrOf l) root) :
      OctetHop net (x, l) {(root, l)}
  | hand {x y : In6Addr} {l : List (BitVec 8)} (hx : x ∉ peers) (h : Next T.par x (daddrOf l) y)
      (hy : y ∈ peers) : OctetHop net (x, l) {(y, l)}

/-- The octets are those of a packet that has not passed what it has to serve, on the route to its
destination, and with a whole header. -/
structure OnWire (u : Udp) (a : In6Addr × List (BitVec 8)) (b : In6Addr × Skb) : Prop where
  node_eq : a.1 = b.1
  placed : T.Placed u b
  dst_eq : b.2.dst = b.2.ip.daddr
  whole : ∀ hd, b.2.md = some hd → hd.Whole
  octets : ∃ vtf : List (BitVec 8), vtf.length = 4 ∧ a.2 = b.2.octets vtf

/-- Whatever order the octets `S` move in, they come to rest.  After every run only those of copies of
the datagram are at receivers, and at the end exactly those of one copy are at each of them. -/
structure OctetDelivers (net : In6Addr → Net) (u : Udp) (S : Multiset (In6Addr × List (BitVec 8))) :
    Prop where
  ends : Acc (fun t s => Swarm.Step (T.OctetHop net) s t) S
  handed : ∀ S', Swarm.Run (T.OctetHop net) S S' → ∀ y ∈ peers, ∀ l, (y, l) ∈ S' →
    ∃ vtf q, vtf.length = 4 ∧ l = Skb.octets vtf q ∧ q.Copy u y
  once : ∀ S', Swarm.Run (T.OctetHop net) S S' → (∀ t, ¬ Swarm.Step (T.OctetHop net) S' t) →
    ∀ y ∈ peers, ∃ l, S'.filter (fun a => a.1 = y) = {(y, l)}

end RouterTree

/-- The destination is where the header has it. -/
theorem daddrOf_octets {vtf : List (BitVec 8)} (hv : vtf.length = 4) (p : Skb) :
    daddrOf (p.octets vtf) = p.ip.daddr := by
  have hlen := Ipv6Hdr.length_octets hv p.ip
  rw [daddrOf, Skb.octets, take_drop_append_left (by omega), Ipv6Hdr.octets_daddr hv, ofOctets_octets]

namespace RouterTree

variable {root : In6Addr} {peers : List In6Addr} {T : RouterTree root peers} {net : In6Addr → Net}
  {u : Udp} {x z : In6Addr} {p : Skb} {l : List (BitVec 8)}

/-- A packet is no routing packet without its header. -/
theorem Placed.md_ne_none (H : T.Placed u (x, p)) : p.ip.nexthdr = ipprotoRouting → p.md ≠ none := by
  intro hrt hmd
  cases H with
  | mdc _ h => cases hmd.symm.trans h.md_eq
  | plain _ _ h => exact absurd (h.nexthdr.symm.trans hrt) (by decide)

/-- A router forwards the packet, and what leaves is on the route to its destination. -/
theorem Placed.exists_forward (H : T.Placed u (x, p)) (N : T.Equipped net) (hr : T.Router z)
    (hdst : p.dst = p.ip.daddr) :
    ∃ out, ip6Forward (net z) p = some out ∧ ∀ q ∈ out, q.dst = q.ip.daddr := by
  cases H with
  | mdc _ h =>
      refine ⟨_, ip6Forward_forwarded ⟨N.enabled z hr, h.nexthdr, h.md_eq, h.type_eq⟩ h.wf
        (N.routes z hr) (N.transmits z hr), fun q hq => ?_⟩
      obtain ⟨s, -, hq⟩ := List.mem_flatMap.mp hq
      rw [Skb.packets] at hq
      split at hq
      · obtain ⟨a, -, rfl⟩ := List.mem_map.mp hq
        rfl
      · obtain rfl := List.mem_singleton.mp hq
        rfl
  | plain _ _ h =>
      refine ⟨_, h.forward (net z), fun q hq => ?_⟩
      obtain rfl := List.mem_singleton.mp hq
      exact hdst

namespace OnWire

variable (W : T.OnWire u (x, l) (x, p))

include W

theorem daddr_eq : daddrOf l = p.ip.daddr := by
  obtain ⟨vtf, hv, rfl⟩ : ∃ vtf : List (BitVec 8), vtf.length = 4 ∧ l = p.octets vtf := W.octets
  exact daddrOf_octets hv p

/-- The same packet at another node. -/
theorem moved (h : T.Placed u (z, p)) : T.OnWire u (z, l) (z, p) := ⟨rfl, h, W.dst_eq, W.whole, W.octets⟩

/-- The same router on both levels. -/
theorem forward (N : T.Equipped net) (hx : x ∉ peers) (hn : Next T.par x p.ip.daddr z) (hr : T.Router z) :
    ∃ out out', SkBuff.ip6Forward (net z) (.receive l p.ip.daddr) = some out ∧
      ip6Forward (net z) p = some out' ∧
      Multiset.Rel (T.OnWire u) ↑(out.map fun b => (z, b.octets)) ↑(out'.map fun q => (z, q)) := by
  obtain ⟨vtf, hv, rfl⟩ : ∃ vtf : List (BitVec 8), vtf.length = 4 ∧ l = p.octets vtf := W.octets
  obtain ⟨out', hout', hdst⟩ := W.placed.exists_forward N hr W.dst_eq
  have H : (SkBuff.receive (p.octets vtf) p.ip.daddr).Holds vtf p :=
    W.dst_eq ▸ SkBuff.holds_receive vtf W.whole
  obtain ⟨out, hout, hall⟩ := H.ip6Forward (net z) hv W.placed.md_ne_none out' hout'
  have hplaced := (W.placed.hop N (.forward hx hn hr hout')).placed
  refine ⟨out, out', hout, hout', ?_⟩
  rw [← Multiset.map_coe, ← Multiset.map_coe, Multiset.rel_map]
  refine (Swarm.rel_coe hall).mono fun b _ q hq Hq => ?_
  exact ⟨rfl, hplaced _ (Multiset.mem_map_of_mem _ hq), hdst q hq, Hq.whole, vtf, hv, Hq.octets_eq⟩

end OnWire

/-- What octets do, packets do. -/
theorem simulates_octetHop (N : T.Equipped net) (u : Udp) :
    Swarm.Simulates (T.OnWire u) (T.OctetHop net) (T.Hop net) := by
  rintro ⟨x, l⟩ ⟨y, p⟩ out W h
  obtain rfl : x = y := W.node_eq
  cases h with
  | forward hx hn hr hout =>
      rw [W.daddr_eq] at hn hout
      obtain ⟨out₁, out', hout₁, hout', hrel⟩ := W.forward N hx hn hr
      obtain rfl := Option.some.inj (hout₁.symm.trans hout)
      exact ⟨_, .forward hx hn hr hout', hrel⟩
  | pass hx hn =>
      rw [W.daddr_eq] at hn
      have hp : T.Hop net (x, p) {(root, p)} := .pass hx hn
      have hplaced := (W.placed.hop N hp).placed _ (Multiset.mem_singleton_self _)
      exact ⟨_, hp, .cons (W.moved hplaced) .zero⟩
  | @hand _ z _ hx hn hy =>
      rw [W.daddr_eq] at hn
      have hp : T.Hop net (x, p) {(z, p)} := .hand hx hn hy
      have hplaced := (W.placed.hop N hp).placed _ (Multiset.mem_singleton_self _)
      exact ⟨_, hp, .cons (W.moved hplaced) .zero⟩

/-- What packets do, octets do. -/
theorem simulates_hop (N : T.Equipped net) (u : Udp) :
    Swarm.Simulates (fun b a => T.OnWire u a b) (T.Hop net) (T.OctetHop net) := by
  rintro ⟨y, p⟩ ⟨x, l⟩ out W h
  obtain rfl : x = y := W.node_eq
  have hplaced := (W.placed.hop N h).placed
  cases h with
  | forward hx hn hr hout =>
      obtain ⟨out₁, out', hout₁, hout', hrel⟩ := W.forward N hx hn hr
      obtain rfl := Option.some.inj (hout'.symm.trans hout)
      rw [← W.daddr_eq] at hn hout₁
      exact ⟨_, .forward hx hn hr hout₁, Multiset.rel_flip.mpr hrel⟩
  | pass hx hn =>
      rw [← W.daddr_eq] at hn
      exact ⟨_, .pass hx hn, .cons (W.moved (hplaced _ (Multiset.mem_singleton_self _))) .zero⟩
  | hand hx hn hy =>
      rw [← W.daddr_eq] at hn
      exact ⟨_, .hand hx hn hy, .cons (W.moved (hplaced _ (Multiset.mem_singleton_self _))) .zero⟩

/-- If packets are delivered, so are their octets. -/
theorem Delivers.octets {S : Multiset (In6Addr × List (BitVec 8))} {S' : Multiset (In6Addr × Skb)}
    (D : T.Delivers net u S') (N : T.Equipped net) (hS : Multiset.Rel (T.OnWire u) S S') :
    T.OctetDelivers net u S := by
  have hsim := simulates_octetHop N u
  refine ⟨Swarm.acc_of_simulates hsim D.ends hS, fun S₁ hrun y hy l hl => ?_,
    fun S₁ hrun hfinal y hy => ?_⟩
  · obtain ⟨S₁', hrun', hrel⟩ := hrun.simulate hsim hS
    obtain ⟨⟨y', q⟩, hq, W⟩ := Multiset.exists_mem_of_rel_of_mem hrel hl
    obtain rfl : y = y' := W.node_eq
    obtain ⟨vtf, hv, hl⟩ := W.octets
    exact ⟨vtf, q, hv, hl, D.handed S₁' hrun' y hy q hq⟩
  · obtain ⟨S₁', hrun', hrel⟩ := hrun.simulate hsim hS
    obtain ⟨q, hq⟩ := D.once S₁' hrun' (Swarm.final_of_simulates (simulates_hop N u) hrel hfinal) y hy
    have hpart := Swarm.rel_filter (fun a b (W : T.OnWire u a b) => by rw [W.node_eq]) hrel
      (p := fun a => a.1 = y) (q := fun a => a.1 = y)
    rw [hq] at hpart
    obtain ⟨⟨x, l⟩, s, W, hs, he⟩ := Multiset.rel_cons_right.mp hpart
    obtain rfl := Multiset.rel_zero_right.mp hs
    obtain rfl : x = y := W.node_eq
    exact ⟨l, he⟩

end RouterTree

end MEADcast
