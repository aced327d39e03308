import MEADcast.Network.ExactlyOnce

/-!
# Groups of a tree that is not complete

Responses are lost, repeated and overtake each other, so that the tree the sender holds is rarely
the tree of the routers.  Whatever arrived, a node is below another one only if it really is.  This
is all that the groups need: no header leads a packet to a router that is not on the way to the
receivers behind it.

## Main definitions

* `RouterTree.Fits` — a group whose packets find what they have to serve.
* `Sender.Sketches` — the sender's tree after any true responses.

## Main results

* `RouterTree.Fits.delivers` — the packets of such a group are delivered.
* `Sender.Sketches.rsp`, `Sender.Sketches.tout` — responses and timeouts keep the tree of this kind,
  and a timeout publishes such a group.
-/

namespace MEADcast

open ParentMap

namespace RouterTree

variable {root : In6Addr} {peers : List In6Addr} (T : RouterTree root peers)

/-- Every header is under way whatever datagram it carries, and each receiver is in the group
once. -/
structure Fits (grp : TxGroup) : Prop where
  mdc : ∀ hd ∈ grp.mdc, hd.WellFormed ∧ ∀ u port q, hd.Packet u port q →
    q.ip.daddr = hd.dest → T.Underway u root q hd
  perm : (grp.mdc.flatMap MdcHdr.endpoints ++ grp.entries.map Addr.sin6_addr).Perm peers

variable {T} {net : In6Addr → Net} {g : List (Seg In6Addr In6Addr)}

/-- The packets of the group are delivered, whatever datagram it is. -/
theorem Fits.delivers {grp : TxGroup} (G : T.Fits grp) (N : T.Equipped net) (hnd : peers.Nodup)
    {sk : Sock} (hsk : ∀ k a, sk.sendError k a = false) {fuel : ℕ} (hf : 3 ≤ fuel) {ip : Ipv6Hdr}
    (hip : ip.nexthdr = ipprotoUdp) (u : Udp) : ∃ w, tx sk fuel grp ip u = some w ∧
      T.Delivers net u ↑(w.sent.map fun q => (root, q)) :=
  delivers_of_tx N hnd hsk hf grp hip u (fun hd hhd => ⟨(G.mdc hd hhd).1, (G.mdc hd hhd).2 u⟩) G.perm

/-- The packets of the group are well placed, and together they are meant for all receivers. -/
theorem Fits.placed {grp : TxGroup} (G : T.Fits grp) {sk : Sock}
    (hsk : ∀ k a, sk.sendError k a = false) {fuel : ℕ} (hf : 3 ≤ fuel) {ip : Ipv6Hdr}
    (hip : ip.nexthdr = ipprotoUdp) {u : Udp} {w : Wire} (h : tx sk fuel grp ip u = some w) :
    (∀ q ∈ w.sent, T.Placed u (root, q)) ∧ (w.sent.map Skb.endpoints).sum = ↑peers := by
  obtain ⟨w', hw, hplaced⟩ := placed_of_tx hsk hf grp hip u
    (fun hd hhd => ⟨(G.mdc hd hhd).1, (G.mdc hd hhd).2 u⟩) G.perm
  obtain rfl := Option.some.inj (hw.symm.trans h)
  exact hplaced

/-- A header is under way if the routers of its segments are above their receivers. -/
theorem underway_dataHdr (hsz : segSize g ≤ 32) (hne : g ≠ []) (hls : ∀ s ∈ g, s.leaves ≠ [])
    (hled : ∀ s ∈ g, s.router ≠ root ∧ ∀ l ∈ s.leaves, l ∈ peers ∧ SUp T.par l s.router) {u : Udp}
    {port : BitVec 16} {q : Skb} (hq : (dataHdr g).Packet u port q)
    (hdest : q.ip.daddr = (dataHdr g).dest) : T.Underway u root q (dataHdr g) := by
  obtain ⟨hmd, hnh, hu⟩ := hq
  have hled' : ∀ s ∈ (dataHdr g).segs, s.2.router ≠ root ∧
      ∀ l ∈ s.2.leaves, l ∈ peers ∧ SUp T.par l s.2.router := by
    intro s hs
    rw [(segs_dataHdr hsz).1] at hs
    refine hled s.2 ?_
    rw [← map_snd_segPos g 0]
    exact List.mem_map_of_mem hs
  refine ⟨hmd, wellFormed_dataHdr hne hls hsz, hnh, rfl, rfl, hled', fun s hs hup => ?_,
    hdest ▸ exists_dest hne hls hsz, port, hu⟩
  exact (hled' s (List.mem_of_mem_filter hs)).1 (hup.eq_of_none T.root_par).symm

end RouterTree

namespace Sender

variable {args : Args} {s s' : Sender} {root x y p : NodeId} {addr : In6Addr}
  {peers : List In6Addr} {T : RouterTree addr peers}

/-- The sender's tree after any responses of routers on the paths to the receivers: hop counts are
depths, and whatever is above a node is above it in the tree `T`. -/
structure Sketches (s : Sender) (root : NodeId) (T : RouterTree addr peers) : Prop where
  phased : ∃ seen, s.Phased root addr seen ∧ ∀ a b, seen a = some b → b = T.depth a
  peers_eq : s.peers = peers
  sampled : ∃ heard, T.Sampled heard s.view

/-- What is above a node is above its address. -/
theorem Inv.sUp_view (I : s.Inv root) (h : SUp s.heap.par x y) :
    SUp s.view.par (s.heap.addr x) (s.heap.addr y) := by
  refine Relation.TransGen.lift s.heap.addr (fun a b hab => ?_) _ _ h
  change s.view.par (s.heap.addr a) = some (s.heap.addr b)
  obtain ⟨nd, hnd⟩ := Heap.node_of_par hab
  rw [I.view_par (by simp [hnd]), hab, Option.map_some]

theorem Resting.sketches (Z : s.Resting root addr) (hp : s.peers = peers)
    (T : RouterTree addr peers) : s.Sketches root T :=
  ⟨⟨_, Z.phased, by simp⟩, hp, _, (Z.known hp T).toSampled⟩

namespace Sketches

variable (S : s.Sketches root T)

include S

theorem planted : s.Planted root addr := by
  obtain ⟨seen, G, -⟩ := S.phased
  exact G.toPlanted

theorem inv : s.Inv root := S.planted.inv

theorem nodup : peers.Nodup := by
  rw [← S.peers_eq, ← S.inv.peers_eq]
  exact S.inv.nodup_members

/-- What is above a node in the heap is above its address in the tree. -/
theorem sUp (h : SUp s.heap.par x y) : SUp T.par (s.heap.addr x) (s.heap.addr y) := by
  obtain ⟨heard, H⟩ := S.sampled
  exact H.sUp (S.inv.sUp_view h)

/-- Leaves carry the addresses of receivers. -/
theorem addr_mem (hx : s.heap.IsLeaf x) : s.heap.addr x ∈ peers := by
  rw [← S.peers_eq]
  exact List.mem_map_of_mem ((S.inv.mem_rcvr x).mpr hx)

/-- Hop counts grow away from the root. -/
theorem hops_lt_par (hx : s.heap.IsRouter x) (hp : s.heap.par x = some p) :
    s.heap.hops p < s.heap.hops x := by
  obtain ⟨heard, H⟩ := S.sampled
  have I := S.inv
  have hxn : s.heap.node x ≠ none := by
    obtain ⟨r, hr⟩ := hx
    simp [hr]
  have hpn : s.heap.node p ≠ none := by
    obtain ⟨r, hr⟩ := I.wf.par_router x p hp
    simp [hr]
  have hview : s.view.par (s.heap.addr x) = some (s.heap.addr p) := by
    rw [I.view_par hxn, hp, Option.map_some]
  have hxp : s.heap.addr x ∉ peers := by
    rw [← S.peers_eq]
    intro hm
    obtain ⟨l, hl, he⟩ := List.mem_map.mp hm
    have hL := (I.mem_rcvr l).mp hl
    obtain rfl := I.addr_inj (by obtain ⟨lf, hlf⟩ := hL; simp [hlf]) hxn he
    exact hL.not_isRouter hx
  obtain ⟨l, hl⟩ := (H.node_cases _ _ hview).resolve_left hxp
  rw [← I.view_hops hpn, ← I.view_hops hxn, H.hops_eq _ l hl, H.hops_of_sUp (.single hview)]
  exact T.depth_lt (H.above _ _ hview)

/-- Hop counts grow along every path. -/
theorem hops_lt (hx : s.heap.IsRouter x) (h : SUp s.heap.par x y) :
    s.heap.hops y < s.heap.hops x := by
  induction h using Relation.TransGen.head_induction_on with
  | single h => exact S.hops_lt_par hx h
  | @head a b hab _ ih => exact (ih (S.inv.wf.par_router a b hab)).trans (S.hops_lt_par hx hab)

/-- A true response keeps the sender's tree a sketch. -/
theorem rsp {r l : In6Addr} (ho : T.On r l) {ret : Int}
    (hc : Completes args s (.rsp r l (T.depth r)) s' ret) :
    s'.Sketches root T ∧ s'.txg = s.txg := by
  obtain ⟨seen, G, hseen⟩ := S.phased
  obtain ⟨heard, H⟩ := S.sampled
  have G' := G.step (fun _ _ _ e => by
    obtain ⟨rfl, rfl, rfl⟩ := Op.rsp.inj e
    exact ⟨hseen r, fun h => absurd h ho.ne_root⟩) hc
  rcases G.rsp_cases ho.ne_root hc with ⟨-, hno⟩ | ⟨-, k, n, p, ha, A⟩
  · exact absurd ⟨S.peers_eq ▸ ho.peer, fun h => ho.not_mem (S.peers_eq ▸ h)⟩ hno
  · exact ⟨⟨⟨_, G', seen_update hseen r⟩, (A.peers_eq G.inv).trans S.peers_eq, _,
      H.rsp ho (A.view_rsp G.inv ha)⟩, A.txg_eq⟩

variable {F : Forest NodeId NodeId} {gs : List (List (Seg NodeId NodeId))}

/-- The router of a segment that a timeout builds is above the receivers of the segment. -/
theorem led (hF : s.heap.Below root F) (O : TimedOut args s s' root F gs) :
    ∀ grp ∈ gs, ∀ sg ∈ grp, s.heap.addr sg.router ≠ addr ∧ ∀ l ∈ sg.leaves,
      s.heap.addr l ∈ peers ∧ SUp T.par (s.heap.addr l) (s.heap.addr sg.router) := by
  have I := S.inv
  obtain ⟨h₁, ht₁, M, -, R⟩ := reduceTree_spec args I.wf I.tracks I.root_router I.root_par hF
  have G := R.groupable I.wf I.tracks I.root_router I.root_par hF fun x _ => I.allFree x
  have htag : ∀ {z}, h₁.IsRouter z → h₁.tag z = s.heap.tag z := by
    rintro z ⟨r, hr⟩
    exact R.tag_of_tag (Heap.node_ne_none_iff.mp (by simp [hr]))
  have hkept : ∀ x ∈ (args.kept F).labs, h₁.IsRouter x := fun x hx =>
    ((G.wf.mem_labs G.below x).mp hx).1
  -- the groups are those of the reduced tree, in which hop counts still grow
  have hgs : Plan.Groups args h₁.hops (args.kept F) gs :=
    O.groups.congr (args.kept_live F) fun x hx => Heap.hops_congr (htag (hkept x hx))
  have hdes := G.designates hgs fun x hx p hp => by
    have hpr := R.wf.par_router x p hp
    rw [Heap.hops_congr (htag (hkept x hx)), Heap.hops_congr (htag hpr)]
    exact S.hops_lt ((Heap.isRouter_congr (htag (hkept x hx))).mp (hkept x hx)) (R.near x p hp).sUp
  obtain ⟨hL, -⟩ := hgs.leaves_eq G.live
  intro grp hg sg hsg
  obtain ⟨hR, hne, habove, -⟩ := hdes grp hg sg hsg
  have hR' := (Heap.isRouter_congr (htag hR)).mp hR
  refine ⟨fun he => hne ?_, fun l hl => ⟨S.addr_mem ?_, S.sUp ?_⟩⟩
  · obtain ⟨r, hr⟩ := hR'
    obtain ⟨rt, hrt⟩ := I.root_router
    exact I.addr_inj (by simp [hr]) (by simp [hrt]) (he.trans (addr_of_sa S.planted.root_sa).symm)
  · have hmem := Plan.mem_doneLeaves.mpr ⟨grp, hg, sg, hsg, hl⟩
    rw [hL, Multiset.mem_coe] at hmem
    exact (I.below hF).2.1 l ((args.kept_leaves F).subset (List.mem_append_right _ hmem))
  · exact Relation.TransGen.lift' id (fun a b hab => (R.near a b hab).sUp) _ _ (habove l hl)

/-- A timeout publishes a group that fits, and the next phase starts with a sketch. -/
theorem tout {ret : Int} (hc : Completes args s .tout s' ret) :
    s'.Sketches root T ∧ ∃ grp, s'.txg = some grp ∧ T.Fits grp := by
  obtain ⟨seen, P, -⟩ := S.phased
  have I := S.inv
  obtain ⟨-, F, gs, hF, O⟩ := I.tout hc
  have Z := P.resting_tout hF O
  obtain ⟨grp, hgrp, C⟩ := O.covers I P.rooted hF
  have hpeers : s'.members.map Addr.sin6_addr = peers := by
    rw [← S.peers_eq, ← I.peers_eq, members, members, O.rcvr_eq, List.map_map, List.map_map]
    refine List.map_congr_left fun l hl => ?_
    have hL := (I.mem_rcvr l).mp hl
    simp [Heap.member, O.tag_frame l fun hm => hL.not_isRouter ((I.below hF).1 l hm)]
  refine ⟨Z.sketches (O.inv.peers_eq.symm.trans hpeers) T, grp, hgrp, ⟨fun hd hhd => ?_, ?_⟩⟩
  · obtain rfl := Option.some.inj (O.txg_eq.symm.trans hgrp)
    obtain ⟨g, hg, rfl⟩ := List.mem_map.mp hhd
    have G := (O.groups.leaves_eq (args.kept_live F)).2 g hg
    obtain ⟨hsz, W⟩ := @wellFormed_of_groupOk args s.heap g G
    refine ⟨W, fun u port q hq hdest => RouterTree.underway_dataHdr hsz (by simpa using G.ne_nil)
      (fun t ht => ?_) (fun t ht => ?_) hq hdest⟩
    · obtain ⟨sg, hsg, rfl⟩ := List.mem_map.mp ht
      simpa using G.leaves_ne_nil sg hsg
    · obtain ⟨sg, hsg, rfl⟩ := List.mem_map.mp ht
      obtain ⟨hne, hled⟩ := S.led hF O g hg sg hsg
      refine ⟨hne, fun l hl => ?_⟩
      obtain ⟨k, hk, rfl⟩ := List.mem_map.mp hl
      exact hled k hk
  · have hend : grp.mdc.flatMap MdcHdr.endpoints = grp.mdc.flatMap MdcHdr.receivers := by
      refine List.flatMap_congr fun hd hhd => ?_
      obtain rfl := Option.some.inj (O.txg_eq.symm.trans hgrp)
      obtain ⟨g, hg, rfl⟩ := List.mem_map.mp hhd
      exact endpoints_dataHdr (@wellFormed_of_groupOk args s.heap g
        ((O.groups.leaves_eq (args.kept_live F)).2 g hg)).1
    rw [hend, TxGroup.entries, C.nuni_eq, List.take_length]
    exact hpeers ▸ C.perm

/-- The group before the first phase fits. -/
theorem fits_unicast : T.Fits s.unicastGroup := by
  refine ⟨fun hd hhd => absurd hhd List.not_mem_nil, ?_⟩
  rw [TxGroup.entries, unicastGroup, List.take_of_length_le (by simp)]
  exact (S.inv.peers_eq.trans S.peers_eq) ▸ List.Perm.refl _

end Sketches

end Sender

end MEADcast
