import MEADcast.Router.Integrity

/-!
# The way of a packet

A packet passes from router to router.  Whatever fails there, what comes out of it serves only
endpoints that stood in the packet, and carries its datagram; and with routers that turn
everything into plain packets each endpoint is served.

## Main definitions

* `Skb.Forwards` — the step from a packet to one that leaves a router.
* `Skb.Reaches` — a plain packet to an address at the end of such steps.

## Main results

* `Skb.Reaches.endpoint` — only endpoints are reached, with the datagram of the packet.
* `exists_reaches` — each endpoint is reached.
-/

namespace MEADcast

/-- `q` is one of the packets that leave some router when `p` arrives there. -/
def Skb.Forwards (p q : Skb) : Prop := ∃ net out, ip6Forward net p = some out ∧ q ∈ out

/-- The datagram `v` is handed to the address `l` when `p` is sent. -/
def Skb.Reaches (p : Skb) (l : In6Addr) (v : Udp) : Prop :=
  ∃ q, Relation.ReflTransGen Skb.Forwards p q ∧ q.md = none ∧ q.ip.daddr = l ∧ q.udp = v

/-- The same datagram up to the checksum. -/
def Udp.Same (u v : Udp) : Prop := ∃ c, v = { u with check := c }

/-- A packet that serves endpoints of `p` with the datagram of `p`. -/
structure Skb.Serves (p q : Skb) : Prop where
  endpoints : ∀ l ∈ q.endpoints, l ∈ p.endpoints
  udp : p.udp.Same q.udp
  shape : q.md = none ∨ q.WellFormed

variable {net : Net} {p q : Skb} {hd : MdcHdr}

theorem Udp.Same.refl (u : Udp) : u.Same u := ⟨u.check, rfl⟩

theorem Udp.Same.trans {u v w : Udp} (h : u.Same v) (h' : v.Same w) : u.Same w := by
  obtain ⟨c, rfl⟩ := h
  obtain ⟨d, rfl⟩ := h'
  exact ⟨d, rfl⟩

/-- What leaves a router stems from a segment, or is the packet with other hop counts. -/
theorem forwards_cases (hmd : p.md = some hd) (W : hd.WellFormed) {out : List Skb}
    (h : ip6Forward net p = some out) (hq : q ∈ out) : ∃ x y,
      q = p.aged hd x y ∨ ∃ r ∈ (p.aged hd x y).allPackets net { hd with hops := y } hd.pending,
        net.Sends r q := by
  by_cases H : net.Handles p hd
  · let p₁ : Skb := { p with ip := { p.ip with hop_limit := p.ip.hop_limit - 1 } }
    rw [ip6Forward_eq H W.data.1, mdDataRcv_serve (show p₁.md = some hd from hmd) W] at h
    obtain ⟨e, left, t, l, h1, h2, hst, -⟩ := serve_spec net
      (show (p.aged hd (p.ip.hop_limit - 1) (hd.hops + 1)).md =
        some { hd with hops := hd.hops + 1 } from rfl) hd.pending .start W.pending_ne_nil
      fun s hs => W.hopped.holds (List.mem_of_mem_filter hs)
    refine ⟨p.ip.hop_limit - 1, hd.hops + 1, ?_⟩
    change (serve net (p.aged hd (p.ip.hop_limit - 1) (hd.hops + 1)) _ _).map _ = _ at h
    rw [h1, Option.map_some, Option.some.injEq] at h
    rw [Tx.start, List.nil_append] at h2
    rw [← h, h2] at hq
    exact hst q hq
  · refine ⟨p.ip.hop_limit - 1, hd.hops, Or.inl ?_⟩
    obtain rfl := Option.some.inj ((ip6Forward_idle hmd H).symm.trans h)
    rw [List.mem_singleton.mp hq, Skb.aged, ← hmd]

theorem endpoints_aged (hmd : p.md = some hd) (x : BitVec 8) (y : BitVec 6) :
    (p.aged hd x y).endpoints = p.endpoints := by
  rw [Skb.endpoints, Skb.endpoints, hmd]
  rfl

theorem MdcHdr.WellFormed.aged (W : hd.WellFormed) (y : BitVec 6) :
    ({ hd with hops := y } : MdcHdr).WellFormed :=
  ⟨W.data, W.length_eq, W.dsts_le, W.first, W.endpoint, W.beyond, W.sub, W.nonempty⟩

/-- One router. -/
theorem Skb.Forwards.serves (h : p.Forwards q) (hp : p.md = none ∨ p.WellFormed) : p.Serves q := by
  obtain ⟨net, out, h, hq⟩ := h
  rcases hp with hmd | ⟨hd, hmd, W⟩
  · -- a plain packet is forwarded as it is
    have hne : p.ip.nexthdr ≠ ipprotoRouting := by
      intro hr
      simp [ip6Forward, hr, mdRcv, hmd] at h
    simp only [ip6Forward, hne, if_false] at h
    obtain rfl := Option.some.inj h
    obtain rfl := List.mem_singleton.mp hq
    refine ⟨fun l hl => ?_, .refl _, Or.inl hmd⟩
    simpa [Skb.endpoints, hmd] using hl
  obtain ⟨x, y, rfl | ⟨r, hr, hs⟩⟩ := forwards_cases hmd W h hq
  · exact ⟨fun l hl => endpoints_aged hmd x y ▸ hl, .refl _, Or.inr ⟨_, rfl, W.aged y⟩⟩
  obtain ⟨s, hs', hrs⟩ := List.mem_flatMap.mp hr
  have hseg : s ∈ hd.segs := List.mem_of_mem_filter hs'
  have hleaf : ∀ l ∈ s.2.leaves, l ∈ p.endpoints := by
    intro l hl
    rw [Skb.endpoints, hmd]
    exact Multiset.mem_coe.mpr (List.mem_flatMap.mpr ⟨s, hs', hl⟩)
  obtain ⟨d, rfl, -⟩ := hs
  unfold Skb.packets at hrs
  split at hrs
  · obtain ⟨a, ha, rfl⟩ := List.mem_map.mp hrs
    refine ⟨fun l hl => ?_, ⟨_, rfl⟩, Or.inl rfl⟩
    have hl' : l ∈ ({a} : Multiset In6Addr) := hl
    rw [Multiset.mem_singleton.mp hl']
    exact hleaf a ha
  · obtain rfl := List.mem_singleton.mp hrs
    refine ⟨fun l hl => hleaf l ?_, ⟨_, rfl⟩, Or.inr ⟨_, rfl, (W.aged y).toward hseg⟩⟩
    have hpend := pending_toward (W.aged y) hseg
    have hl' : l ∈ (↑(({ hd with hops := y, dlvm := posBit s.1 } : MdcHdr).pending.flatMap
      fun p => p.2.leaves) : Multiset In6Addr) := hl
    rw [hpend] at hl'
    simpa using hl'

/-- Any number of routers. -/
theorem serves_of_run (h : Relation.ReflTransGen Skb.Forwards p q)
    (hp : p.md = none ∨ p.WellFormed) : p.Serves q := by
  induction h with
  | refl => exact ⟨fun _ hl => hl, .refl _, hp⟩
  | tail _ hstep ih =>
      have h := hstep.serves ih.shape
      exact ⟨fun l hl => ih.endpoints l (h.endpoints l hl), ih.udp.trans h.udp, h.shape⟩

/-- Only endpoints are reached, with the datagram of the packet. -/
theorem Skb.Reaches.endpoint {l : In6Addr} {v : Udp} (h : p.Reaches l v)
    (hp : p.md = none ∨ p.WellFormed) : l ∈ p.endpoints ∧ p.udp.Same v := by
  obtain ⟨q, hrun, hmd, rfl, rfl⟩ := h
  have hs := serves_of_run hrun hp
  refine ⟨hs.endpoints _ ?_, hs.udp⟩
  rw [Skb.endpoints, hmd]
  exact Multiset.mem_singleton_self _

/-- A router that takes every address for its own, and nothing fails. -/
def Net.eager : Net where
  ip6_mdcast_enable := true
  ip6_mdcast_min_dsts := 1
  ipv6_chk_addr := fun _ => true
  ipv6_dev_get_saddr := fun _ => none
  routeError := fun _ => false
  outputError := fun _ => false

/-- Each endpoint is reached: a router may turn the whole packet into plain ones. -/
theorem exists_reaches (hmd : p.md = some hd) (W : hd.WellFormed)
    (hr : p.ip.nexthdr = ipprotoRouting) (hty : hd.type = ipv6Meadcast) {l : In6Addr}
    (hl : l ∈ p.endpoints) : ∃ v, p.Reaches l v := by
  have H : Net.eager.Handles p hd := ⟨rfl, hr, hmd, hty⟩
  let p₁ : Skb := { p with ip := { p.ip with hop_limit := p.ip.hop_limit - 1 } }
  have hout : ip6Forward Net.eager p = some (p₁.forwarded Net.eager hd) :=
    ip6Forward_forwarded H W (fun _ => rfl) fun _ => rfl
  rw [Skb.endpoints, hmd] at hl
  obtain ⟨s, hs, hls⟩ := List.mem_flatMap.mp (Multiset.mem_coe.mp hl)
  refine ⟨_, (p₁.hopped hd).plain { hd with hops := hd.hops + 1 } l, .single ⟨_, _, hout, ?_⟩,
    rfl, rfl, rfl⟩
  refine List.mem_flatMap.mpr ⟨s, hs, ?_⟩
  have hu : Net.eager.unicasts s.2 = true := Bool.or_true _
  rw [Skb.packets, if_pos hu]
  exact List.mem_map.mpr ⟨l, hls, rfl⟩

end MEADcast
