import MEADcast.Lib.Swarm
import MEADcast.Lib.TreePath
import MEADcast.Sender.Delivery
import MEADcast.Sender.RouterTree

/-!
# Packets in a tree of routers

Every packet travels along the path of the tree to its destination.  Each router on the way runs
`ip6_forward` on it, the root passes it on, and the receiver keeps it.  Packets move in any order.
What makes them arrive is that no packet has passed the router of a segment it still has to serve:
the router in front of a segment is above its receivers, so that the packet finds it on the way to
the first of them.

## Main definitions

* `RouterTree.Equipped` — the settings of the routers.
* `RouterTree.Hop` — one packet travels to the next node.
* `Skb.Copy` — a plain packet with a datagram.
* `RouterTree.Underway`, `RouterTree.Placed` — a packet that has not passed what it has to serve.
* `RouterTree.Delivers` — packets end as one copy at each receiver.

## Main results

* `RouterTree.Placed.hop` — what becomes of such a packet at the next node.
* `RouterTree.delivers_of_placed` — such packets are delivered in every order.
-/

namespace MEADcast

open ParentMap

namespace RouterTree

/-! ## Nodes -/

section Nodes

variable {ι : Type*} {root : ι} {peers : List ι} (T : RouterTree root peers) {x y z l : ι}

/-- An inner node of the tree other than the root. -/
structure Router (r : ι) : Prop where
  ne_root : r ≠ root
  not_peer : r ∉ peers
  par_ne : T.par r ≠ none

/-- The root or a router. -/
def Inner (x : ι) : Prop := x = root ∨ T.Router x

include T in
theorem root_not_peer : root ∉ peers := fun h => T.peer_par root h T.root_par

theorem up_root (hx : T.par x ≠ none) : Up T.par x root := by
  obtain ⟨q, hq⟩ := Option.ne_none_iff_exists'.mp hx
  exact T.rooted x q hq

variable {T}

theorem Inner.not_peer (h : T.Inner x) : x ∉ peers := by
  rcases h with rfl | h
  · exact T.root_not_peer
  · exact h.not_peer

theorem Inner.up_root (h : T.Inner x) : Up T.par x root := by
  rcases h with rfl | h
  · exact Up.refl _ _
  · exact T.up_root h.par_ne

/-- The way leads to a receiver or to an inner node. -/
theorem Inner.next (hx : T.Inner x) (h : Next T.par x y z) : z ∈ peers ∨ T.Inner z := by
  by_cases hz : z ∈ peers
  · exact Or.inl hz
  by_cases hr : z = root
  · exact Or.inr (Or.inl hr)
  refine Or.inr (Or.inr ⟨hr, hz, ?_⟩)
  cases h with
  | down hz _ => simp [hz]
  | up hxz _ =>
      -- a parent that is not the root has a parent
      intro hn
      obtain ⟨w, hw, hwr⟩ := SUp.iff_exists.mp
        (hx.up_root.eq_or_sUp.resolve_left fun he => by simp [he, T.root_par] at hxz)
      obtain rfl := Option.some.inj (hxz.symm.trans hw)
      exact hr (hwr.eq_of_none hn)

/-- The only receiver on the way is the destination. -/
theorem eq_of_next_peer (h : Next T.par x y l) (hl : l ∈ peers) : y = l := by
  cases h with
  | down _ hy => exact hy.eq_or_sUp.resolve_right fun hs => T.not_mem_of_sUp hs hl
  | up hx _ => exact absurd hl (T.peer_leaf x l hx)

/-- There is a way to every receiver. -/
theorem Inner.exists_next (hx : T.Inner x) (hl : l ∈ peers) : ∃ z, Next T.par x l z :=
  ParentMap.exists_next T.root_par hx.up_root (T.up_root (T.peer_par l hl)) fun h =>
    hx.not_peer (h ▸ hl)

end Nodes

/-! ## Hops -/

variable {root : In6Addr} {peers : List In6Addr} (T : RouterTree root peers)

/-- Every router of the tree runs MEADcast, takes its own address and no other for its own, and
nothing fails there. -/
structure Equipped (net : In6Addr → Net) : Prop where
  enabled : ∀ r, T.Router r → (net r).ip6_mdcast_enable = true
  own : ∀ r, T.Router r → ∀ a, (net r).ipv6_chk_addr a = true ↔ a = r
  routes : ∀ r, T.Router r → (net r).Routes
  transmits : ∀ r, T.Router r → (net r).Transmits

/-- A packet at a node travels to the next node towards its destination: to a router, which puts
packets in its place, to the root, or to a receiver, where it stays. -/
inductive Hop (net : In6Addr → Net) : In6Addr × Skb → Multiset (In6Addr × Skb) → Prop
  | forward {x z : In6Addr} {p : Skb} {out : List Skb} (hx : x ∉ peers)
      (h : Next T.par x p.ip.daddr z) (hz : T.Router z) (hout : ip6Forward (net z) p = some out) :
      Hop net (x, p) ↑(out.map fun q => (z, q))
  | pass {x : In6Addr} {p : Skb} (hx : x ∉ peers) (h : Next T.par x p.ip.daddr root) :
      Hop net (x, p) {(root, p)}
  | hand {x l : In6Addr} {p : Skb} (hx : x ∉ peers) (h : Next T.par x p.ip.daddr l)
      (hl : l ∈ peers) : Hop net (x, p) {(l, p)}

end RouterTree

/-- A plain packet for `l` with a copy of the datagram `u`. -/
structure Skb.Copy (q : Skb) (u : Udp) (l : In6Addr) : Prop where
  md_eq : q.md = none
  nexthdr : q.ip.nexthdr = ipprotoUdp
  daddr : q.ip.daddr = l
  udp : ∃ port, u.Redirected port q.udp

/-- Routers leave plain packets as they are. -/
theorem Skb.Copy.forward {p : Skb} {u : Udp} {l : In6Addr} (h : p.Copy u l) (net : Net) :
    ip6Forward net p =
      some [{ p with ip := { p.ip with hop_limit := p.ip.hop_limit - 1 } }] := by
  have hne : p.ip.nexthdr ≠ ipprotoRouting := by
    rw [h.nexthdr]
    decide
  simp only [ip6Forward, hne, if_false]
  rfl

namespace RouterTree

variable {root : In6Addr} {peers : List In6Addr} (T : RouterTree root peers)

/-- A MEADcast packet at `x` on the way to the first receiver of a segment that is still to be
served.  The routers of its segments are above their receivers, and those of the segments that are
still to be served are neither at `x` nor above it. -/
structure Underway (u : Udp) (x : In6Addr) (p : Skb) (hd : MdcHdr) : Prop where
  md_eq : p.md = some hd
  wf : hd.WellFormed
  nexthdr : p.ip.nexthdr = ipprotoRouting
  type_eq : hd.type = ipv6Meadcast
  nxt_eq : hd.nxt = ipprotoUdp
  led : ∀ s ∈ hd.segs, s.2.router ≠ root ∧ ∀ l ∈ s.2.leaves, l ∈ peers ∧ SUp T.par l s.2.router
  ahead : ∀ s ∈ hd.pending, ¬ Up T.par x s.2.router
  dest : ∃ s ∈ hd.pending, s.2.leaves.head? = some p.ip.daddr
  udp : ∃ port, u.Redirected port p.udp

/-- Where packets may be: those under way at inner nodes, and a copy there or at its receiver. -/
inductive Placed (u : Udp) : In6Addr × Skb → Prop
  | mdc {x : In6Addr} {p : Skb} {hd : MdcHdr} (hx : T.Inner x) (h : T.Underway u x p hd) :
      Placed u (x, p)
  | plain {x l : In6Addr} {p : Skb} (hx : T.Inner x ∨ x = l) (hl : l ∈ peers) (h : p.Copy u l) :
      Placed u (x, p)

end RouterTree

/-- The number of segments a packet still has to serve. -/
def Skb.level (p : Skb) : ℕ := p.md.elim 0 fun hd => hd.pending.length

namespace RouterTree

variable {root : In6Addr} {peers : List In6Addr} (T : RouterTree root peers)

/-- A packet serves fewer segments, or it is closer to its destination. -/
noncomputable def rank (a : In6Addr × Skb) : ℕ ×ₗ ℕ :=
  toLex (a.2.level, way T.par T.depth a.1 a.2.ip.daddr)

/-- The packets `out` in the place of `a` are well placed, each of smaller rank, and meant for
the same endpoints. -/
structure Follows (u : Udp) (a : In6Addr × Skb) (out : Multiset (In6Addr × Skb)) : Prop where
  placed : ∀ b ∈ out, T.Placed u b
  rank_lt : ∀ b ∈ out, T.rank b < T.rank a
  endpoints : (out.map fun b => b.2.endpoints).sum = a.2.endpoints

variable {T} {net : In6Addr → Net} {u : Udp} {x y z l : In6Addr} {p q : Skb} {hd : MdcHdr}

theorem rank_lt_of_level (h : q.level < p.level) : T.rank (z, q) < T.rank (x, p) :=
  Prod.Lex.toLex_lt_toLex.mpr (Or.inl h)

/-- The same destination from the next node. -/
theorem rank_lt_of_next (h : Next T.par x p.ip.daddr z) (hq : q.ip.daddr = p.ip.daddr)
    (hl : q.level = p.level) : T.rank (z, q) < T.rank (x, p) := by
  refine Prod.Lex.toLex_lt_toLex.mpr (Or.inr ⟨hl, ?_⟩)
  dsimp only
  rw [hq]
  exact h.way_lt T.depth_succ

theorem level_eq (hmd : p.md = some hd) : p.level = hd.pending.length := by
  rw [Skb.level, hmd]
  rfl

/-- A single packet that takes the place of another. -/
theorem Follows.single (hb : T.Placed u (z, q)) (h : Next T.par x p.ip.daddr z)
    (hq : q.ip.daddr = p.ip.daddr) (hmd : q.md = p.md) : T.Follows u (x, p) {(z, q)} := by
  refine ⟨fun b hb' => ?_, fun b hb' => ?_, ?_⟩
  · rw [Multiset.mem_singleton.mp hb']
    exact hb
  · rw [Multiset.mem_singleton.mp hb']
    exact rank_lt_of_next h hq (by rw [Skb.level, Skb.level, hmd])
  · simp [Skb.endpoints, hmd, hq]

/-! ### MEADcast packets -/

namespace Underway

variable (h : T.Underway u x p hd)

include h

theorem dest_led : ∃ s ∈ hd.pending, s.2.leaves.head? = some p.ip.daddr ∧ p.ip.daddr ∈ peers ∧
    SUp T.par p.ip.daddr s.2.router := by
  obtain ⟨s, hs, hh⟩ := h.dest
  exact ⟨s, hs, hh, (h.led s (List.mem_of_mem_filter hs)).2 _ (List.mem_of_mem_head? hh)⟩

/-- It does not arrive before it passed a router that serves its destination. -/
theorem not_dest (hz : Next T.par x p.ip.daddr z) : z ∉ peers := by
  intro hm
  obtain ⟨s, hs, -, -, hup⟩ := h.dest_led
  exact hz.ne_of_sUp (h.ahead s hs) hup (eq_of_next_peer hz hm).symm

theorem level_pos : 0 < p.level := by
  rw [level_eq h.md_eq]
  exact List.length_pos_of_ne_nil h.wf.pending_ne_nil

/-- The packet at the next node, unless that is the router of a segment. -/
theorem next (hz : Next T.par x p.ip.daddr z) (hne : ∀ s ∈ hd.pending, z ≠ s.2.router) :
    T.Underway u z p hd :=
  { h with ahead := fun s hs => hz.not_up (h.ahead s hs) (hne s hs) }

/-- The plain packets that a router makes for a segment. -/
theorem copy {s : ℕ × Seg In6Addr In6Addr} (hs : s ∈ hd.pending) (hl : l ∈ s.2.leaves)
    (m : BitVec 8) (n : BitVec 6) : l ∈ peers ∧
      ((p.aged hd m n).plain { hd with hops := n } l).Copy u l := by
  obtain ⟨port, hu⟩ := h.udp
  exact ⟨((h.led s (List.mem_of_mem_filter hs)).2 l hl).1, rfl, h.nxt_eq, rfl, port,
    hu.of_same ⟨_, rfl⟩⟩

/-- The MEADcast packet that a router makes for a segment it does not serve. -/
theorem replica {s : ℕ × Seg In6Addr In6Addr} (hs : s ∈ hd.pending)
    (hz : Next T.par x p.ip.daddr z) (hne : z ≠ s.2.router) (m : BitVec 8) (n : BitVec 6) :
    T.Underway u z ((p.aged hd m n).toward { hd with hops := n } s.1 (s.2.leaves.headD 0))
      { hd with hops := n, dlvm := posBit s.1 } := by
  have hseg : s ∈ hd.segs := List.mem_of_mem_filter hs
  have W := h.wf.aged n
  have hpend := pending_toward W hseg
  obtain ⟨port, hu⟩ := h.udp
  refine ⟨rfl, W.toward hseg, h.nexthdr, h.type_eq, h.nxt_eq, h.led, fun r hr => ?_, ⟨s, ?_, ?_⟩,
    port, hu.of_same ⟨_, rfl⟩⟩
  · rw [hpend, List.mem_singleton] at hr
    rw [hr]
    exact hz.not_up (h.ahead s hs) hne
  · rw [hpend]
    exact List.mem_singleton_self s
  · obtain ⟨a, ls, hls⟩ := List.exists_cons_of_ne_nil (h.wf.holds hseg).leaves_ne
    simp [Skb.toward, hls]

/-- The replica serves one segment, and if the packet served no other it has the same
destination. -/
theorem replica_rank {s : ℕ × Seg In6Addr In6Addr} (hs : s ∈ hd.pending)
    (hz : Next T.par x p.ip.daddr z) (m : BitVec 8) (n : BitVec 6) :
    T.rank (z, (p.aged hd m n).toward { hd with hops := n } s.1 (s.2.leaves.headD 0)) <
      T.rank (x, p) := by
  have hseg : s ∈ hd.segs := List.mem_of_mem_filter hs
  have hlev : ((p.aged hd m n).toward { hd with hops := n } s.1 (s.2.leaves.headD 0)).level = 1 :=
    congrArg List.length (pending_toward (h.wf.aged n) hseg)
  have hpos := h.level_pos
  by_cases h1 : p.level = 1
  · refine rank_lt_of_next hz ?_ (hlev.trans h1.symm)
    -- the only segment is the one whose first receiver the packet goes to
    obtain ⟨r, hr, hh, -⟩ := h.dest_led
    rw [level_eq h.md_eq] at h1
    obtain ⟨t, ht⟩ := List.length_eq_one_iff.mp h1
    rw [ht, List.mem_singleton] at hs hr
    rw [hs, ← hr, List.headD_eq_head?_getD, hh]
    rfl
  · exact rank_lt_of_level (by omega)

/-- What a router makes of a MEADcast packet. -/
theorem forward (N : T.Equipped net) (hz : Next T.par x p.ip.daddr z) (hr : T.Router z)
    {out : List Skb} (hout : ip6Forward (net z) p = some out) :
    T.Follows u (x, p) ↑(out.map fun q => (z, q)) := by
  have H : (net z).Handles p hd := ⟨N.enabled z hr, h.nexthdr, h.md_eq, h.type_eq⟩
  obtain rfl := Option.some.inj
    ((ip6Forward_forwarded H h.wf (N.routes z hr) (N.transmits z hr)).symm.trans hout)
  generalize hp₁ : ({ p with ip := { p.ip with hop_limit := p.ip.hop_limit - 1 } } : Skb) = p₁
  have hmem : ∀ q ∈ p₁.forwarded (net z) hd, T.Placed u (z, q) ∧ T.rank (z, q) < T.rank (x, p) := by
    intro q hq
    obtain ⟨s, hs, hq⟩ := List.mem_flatMap.mp hq
    have hopped : p₁.hopped hd = p.aged hd (p.ip.hop_limit - 1) (hd.hops + 1) := by
      rw [← hp₁]
      rfl
    rw [hopped, Skb.packets] at hq
    split at hq
    · obtain ⟨l, hl, rfl⟩ := List.mem_map.mp hq
      obtain ⟨hlp, hc⟩ := h.copy hs hl (p.ip.hop_limit - 1) (hd.hops + 1)
      exact ⟨.plain (Or.inl (Or.inr hr)) hlp hc, rank_lt_of_level h.level_pos⟩
    · -- the router is not that of the segment
      rename_i hno
      have hne : z ≠ s.2.router := by
        intro he
        exact hno (by simp [Net.unicasts, (N.own z hr s.2.router).mpr he.symm])
      obtain rfl := List.mem_singleton.mp hq
      exact ⟨.mdc (Or.inr hr) (h.replica hs hz hne _ _), h.replica_rank hs hz _ _⟩
  refine ⟨fun b hb => ?_, fun b hb => ?_, ?_⟩
  · obtain ⟨q, hq, rfl⟩ := List.mem_map.mp (Multiset.mem_coe.mp hb)
    exact (hmem q hq).1
  · obtain ⟨q, hq, rfl⟩ := List.mem_map.mp (Multiset.mem_coe.mp hb)
    exact (hmem q hq).2
  · have hmd₁ : p₁.md = some hd := by rw [← hp₁]; exact h.md_eq
    have hend := endpoints_forwarded (net z) hmd₁ h.wf
    rw [Multiset.map_coe, Multiset.sum_coe, List.map_map]
    refine hend.trans ?_
    rw [← hp₁]
    rfl

end Underway

/-! ### All packets -/

namespace Placed

variable {a : In6Addr × Skb} {out : Multiset (In6Addr × Skb)}

/-- What becomes of a packet at the next node. -/
theorem hop (H : T.Placed u a) (N : T.Equipped net) (h : T.Hop net a out) : T.Follows u a out := by
  cases H with
  | @mdc x p hd hx h' =>
      cases h with
      | forward _ hz hr hout => exact h'.forward N hz hr hout
      | pass _ hz =>
          refine .single (.mdc (Or.inl rfl) (h'.next hz fun s hs he => ?_)) hz rfl rfl
          exact (h'.led s (List.mem_of_mem_filter hs)).1 he.symm
      | hand _ hz hl => exact absurd hl (h'.not_dest hz)
  | @plain x l p hx hl h' =>
      cases h with
      | @forward _ z _ out _ hz hr hout =>
          obtain rfl := Option.some.inj ((h'.forward (net z)).symm.trans hout)
          exact .single (.plain (Or.inl (Or.inr hr)) hl ⟨h'.md_eq, h'.nexthdr, h'.daddr, h'.udp⟩)
            hz rfl rfl
      | pass _ hz => exact .single (.plain (Or.inl (Or.inl rfl)) hl h') hz rfl rfl
      | hand _ hz hl' =>
          refine .single (.plain (Or.inr ?_) hl h') hz rfl rfl
          rw [← h'.daddr, eq_of_next_peer hz hl']

/-- A packet that has not arrived can travel on. -/
theorem exists_hop (H : T.Placed u (x, p)) (N : T.Equipped net) (hx : x ∉ peers) :
    ∃ out, T.Hop net (x, p) out := by
  obtain ⟨hin, hl, hfwd⟩ : T.Inner x ∧ p.ip.daddr ∈ peers ∧
      ∀ z, T.Router z → ∃ out, ip6Forward (net z) p = some out := by
    cases H with
    | mdc hin h =>
        obtain ⟨s, -, -, hl, -⟩ := h.dest_led
        exact ⟨hin, hl, fun z hr => ⟨_, ip6Forward_forwarded
          ⟨N.enabled z hr, h.nexthdr, h.md_eq, h.type_eq⟩ h.wf (N.routes z hr) (N.transmits z hr)⟩⟩
    | plain hin hl h =>
        refine ⟨hin.resolve_right fun he => hx (he ▸ hl), h.daddr ▸ hl, fun z _ => ⟨_, h.forward _⟩⟩
  obtain ⟨z, hz⟩ := hin.exists_next hl
  rcases hin.next hz with hzl | rfl | hr
  · exact ⟨_, .hand hx hz hzl⟩
  · exact ⟨_, .pass hx hz⟩
  · obtain ⟨out, hout⟩ := hfwd z hr
    exact ⟨_, .forward hx hz hr hout⟩

/-- A packet at a receiver is a copy for this receiver. -/
theorem copy (H : T.Placed u (x, p)) (hx : x ∈ peers) : p.Copy u x := by
  cases H with
  | mdc hin _ => exact absurd hx hin.not_peer
  | plain hin hl h =>
      obtain rfl := hin.resolve_left fun hin => hin.not_peer hx
      exact h

end Placed

/-! ### Runs -/

theorem preserves_placed (N : T.Equipped net) (u : Udp) : Swarm.Preserves (T.Hop net) (T.Placed u) :=
  fun _ _ H h => (H.hop N h).placed

/-- At the end of a run everything has arrived. -/
theorem arrived_of_final (N : T.Equipped net) {S : Multiset (In6Addr × Skb)}
    (hS : ∀ a ∈ S, T.Placed u a) (hfinal : ∀ S', ¬ Swarm.Step (T.Hop net) S S') :
    ∀ a ∈ S, a.1 ∈ peers := by
  intro a ha
  by_contra hx
  obtain ⟨out, h⟩ := (hS a ha).exists_hop N hx
  exact Swarm.not_of_final hfinal ha out h

/-- If all packets at receivers are copies, the receivers are the endpoints. -/
theorem map_fst_eq {S : Multiset (In6Addr × Skb)} (hS : ∀ a ∈ S, a.2.Copy u a.1) :
    S.map Prod.fst = (S.map fun a => a.2.endpoints).sum := by
  induction S using Multiset.induction_on with
  | empty => rfl
  | cons a S ih =>
      have ha := hS a (Multiset.mem_cons_self _ _)
      rw [Multiset.map_cons, Multiset.map_cons, Multiset.sum_cons,
        ih fun b hb => hS b (Multiset.mem_cons_of_mem hb), Skb.endpoints, ha.md_eq, ← ha.daddr,
        Multiset.singleton_add]

/-- Whatever order the packets `S` move in, they come to rest.  After every run only copies of
the datagram are at receivers, and at the end there is exactly one at each of them. -/
structure Delivers (T : RouterTree root peers) (net : In6Addr → Net) (u : Udp)
    (S : Multiset (In6Addr × Skb)) : Prop where
  ends : Acc (fun t s => Swarm.Step (T.Hop net) s t) S
  handed : ∀ S', Swarm.Run (T.Hop net) S S' → ∀ l ∈ peers, ∀ q, (l, q) ∈ S' → q.Copy u l
  once : ∀ S', Swarm.Run (T.Hop net) S S' → (∀ t, ¬ Swarm.Step (T.Hop net) S' t) →
    ∀ l ∈ peers, ∃ q, S'.filter (fun a => a.1 = l) = {(l, q)}

theorem Delivers.exists_mem {S S' : Multiset (In6Addr × Skb)} (D : T.Delivers net u S)
    (hrun : Swarm.Run (T.Hop net) S S') (hfinal : ∀ t, ¬ Swarm.Step (T.Hop net) S' t) (hl : l ∈ peers) :
    ∃ q, (l, q) ∈ S' := by
  obtain ⟨q, hq⟩ := D.once S' hrun hfinal l hl
  have hm : (l, q) ∈ S'.filter fun a => a.1 = l := by
    rw [hq]
    exact Multiset.mem_singleton_self _
  exact ⟨q, (Multiset.mem_filter.mp hm).1⟩

/-- Packets that are together meant for the receivers of the tree are delivered. -/
theorem delivers_of_placed (N : T.Equipped net) {S : Multiset (In6Addr × Skb)}
    (hS : ∀ a ∈ S, T.Placed u a) (hend : (S.map fun a => a.2.endpoints).sum = peers)
    (hnd : peers.Nodup) : T.Delivers net u S := by
  have hP := preserves_placed N u
  refine ⟨Swarm.acc_of_rank hP (fun _ _ H h => (H.hop N h).rank_lt) hS,
    fun S' hrun l hl q hq => (hrun.forall hP hS _ hq).copy hl, fun S' hrun hfinal l hl => ?_⟩
  have hS' := hrun.forall hP hS
  have harr := arrived_of_final N hS' hfinal
  have hsum := hrun.sum_map hP (fun _ _ H h => (H.hop N h).endpoints) hS
  rw [hend, ← map_fst_eq fun a ha => (hS' a ha).copy (harr a ha)] at hsum
  have hcount : (S'.filter fun a => a.1 = l).card = 1 := by
    rw [← Multiset.countP_eq_card_filter, ← List.count_eq_one_of_mem hnd hl, ← Multiset.coe_count,
      ← hsum, Multiset.count_map, Multiset.countP_eq_card_filter]
    congr 2
    funext a
    exact propext eq_comm
  obtain ⟨⟨x, q⟩, hq⟩ := Multiset.card_eq_one.mp hcount
  have hmem : (x, q) ∈ S'.filter fun a => a.1 = l := by
    rw [hq]
    exact Multiset.mem_singleton_self _
  obtain rfl := (Multiset.mem_filter.mp hmem).2
  exact ⟨q, hq⟩

end RouterTree

end MEADcast
