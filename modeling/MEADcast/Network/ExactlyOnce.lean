import MEADcast.Network.Passage
import MEADcast.Network.SendFailures
import MEADcast.Sender.ArrivalOrder
import MEADcast.Sender.Designated
import MEADcast.Sender.Headers

/-!
# Exactly one copy for each receiver

The sender holds the tree of the routers, reduces it, groups the receivers and sends one packet
for each header and each unicast entry.  The routers of the tree, those that the reduction cut
from the sender's tree included, then turn these packets into one plain packet for each receiver,
in whatever order packets move and whatever number of endpoints a router asks for.

## Main definitions

* `Sender.Holds` — the sender's tree is the tree of the routers.

## Main results

* `Sender.Resting.exists_holds` — every tree is held after the responses of its routers.
* `exactly_once_of_tree` — every receiver ends up with exactly one plain copy.
-/

namespace MEADcast

open ParentMap

/-! ## Headers -/

section Headers

variable {g : List (Seg In6Addr In6Addr)}

/-- A header is sent to the first endpoint of its first segment. -/
theorem exists_dest (hne : g ≠ []) (hls : ∀ s ∈ g, s.leaves ≠ []) (hsz : segSize g ≤ 32) :
    ∃ s ∈ (dataHdr g).pending, s.2.leaves.head? = some (dataHdr g).dest := by
  obtain ⟨s, g, rfl⟩ := List.exists_cons_of_ne_nil hne
  obtain ⟨a, ls, h⟩ := List.exists_cons_of_ne_nil (hls s List.mem_cons_self)
  have haddr : (dataHdr (s :: g)).addr = segAddrs (s :: g) :=
    List.take_of_length_le (by rw [length_segAddrs])
  rw [(segs_dataHdr hsz).2]
  exact ⟨(0, s), List.mem_cons_self, by simp [MdcHdr.dest, haddr, h]⟩

/-- All receivers of a header are to be served. -/
theorem endpoints_dataHdr (hsz : segSize g ≤ 32) : (dataHdr g).endpoints = (dataHdr g).receivers := by
  rw [receivers_dataHdr hsz, MdcHdr.endpoints, (segs_dataHdr hsz).2, ← List.flatMap_map,
    map_snd_segPos]

end Headers

/-! ## The sender's tree -/

/-- The sender holds the tree `T`: parents and receivers are those of `T`, and the hop counts of
routers are their depths. -/
structure Sender.Holds (s : Sender) (root : NodeId) {addr : In6Addr} {peers : List In6Addr}
    (T : RouterTree addr peers) : Prop extends s.Planted root addr where
  peers_eq : s.peers = peers
  par_eq : s.view.par = T.par
  hops_eq : ∀ r, T.Router r → s.view.hops r = T.depth r

namespace Sender.Holds

variable {s : Sender} {root x y p q : NodeId} {addr : In6Addr} {peers : List In6Addr}
  {T : RouterTree addr peers} (H : s.Holds root T)

include H

theorem root_addr : s.heap.addr root = addr := addr_of_sa H.root_sa

/-- What is above a node in the heap is above its address in the tree. -/
theorem sUp_addr (h : SUp s.heap.par x y) : SUp T.par (s.heap.addr x) (s.heap.addr y) := by
  rw [← H.par_eq]
  refine Relation.TransGen.lift s.heap.addr (fun a b hab => ?_) _ _ h
  change s.view.par (s.heap.addr a) = some (s.heap.addr b)
  obtain ⟨nd, hnd⟩ := Heap.node_of_par hab
  rw [H.inv.view_par (by simp [hnd]), hab, Option.map_some]

/-- Routers with a parent are routers of the tree. -/
theorem router (hx : s.heap.IsRouter x) (hp : s.heap.par x = some p) :
    T.Router (s.heap.addr x) := by
  have hlive : s.heap.node x ≠ none := by
    obtain ⟨r, hr⟩ := hx
    simp [hr]
  refine ⟨fun he => ?_, fun hm => ?_, ?_⟩
  · obtain ⟨rt, hrt⟩ := H.inv.root_router
    obtain rfl := H.inv.addr_inj hlive (by simp [hrt]) (he.trans H.root_addr.symm)
    simp [H.inv.root_par] at hp
  · rw [← H.peers_eq] at hm
    obtain ⟨l, hl, he⟩ := List.mem_map.mp hm
    have hL := (H.inv.mem_rcvr l).mp hl
    obtain rfl := H.inv.addr_inj (by obtain ⟨lf, hlf⟩ := hL; simp [hlf]) hlive he
    exact hL.not_isRouter hx
  · rw [← H.par_eq, H.inv.view_par hlive, hp]
    simp

/-- Hop counts grow away from the root. -/
theorem hops_lt (hx : s.heap.IsRouter x) (h : SUp s.heap.par x y) :
    s.heap.hops y < s.heap.hops x := by
  have hdepth : ∀ {z}, s.heap.IsRouter z → Up s.heap.par z root →
      s.heap.hops z = T.depth (s.heap.addr z) := by
    intro z hz hup
    rcases hup.cases_head with rfl | ⟨q, hq, -⟩
    · rw [H.root_hops, H.root_addr, T.depth_root]
    · obtain ⟨r, hr⟩ := hz
      rw [← H.hops_eq _ (H.router ⟨r, hr⟩ hq), H.inv.view_hops (by simp [hr])]
  obtain ⟨q, hq, -⟩ := SUp.iff_exists.mp h
  have hxr := H.rooted x q hq
  obtain ⟨z, -, hz⟩ := Relation.TransGen.tail'_iff.mp h
  have hyr : Up s.heap.par y root := by
    rcases (Up.of_sUp h).total hxr with hu | hu
    · exact hu
    · exact hu.eq_of_none H.inv.root_par ▸ Up.refl _ _
  rw [hdepth hx hxr, hdepth (H.inv.wf.par_router z y hz) hyr]
  exact T.depth_lt (H.sUp_addr h)

variable {args : Args} {h₁ : Heap} {ht₁ : Judy} {F : Forest NodeId NodeId}
  (R : Reduced args s.heap h₁ ht₁ root [] [] F)

include R

omit H in
theorem addr_reduced (hx : h₁.node x ≠ none) : h₁.addr x = s.heap.addr x := by
  rw [Heap.addr, Heap.addr, Heap.sa, Heap.sa, R.tag_of_tag (Heap.node_ne_none_iff.mp hx)]

/-- What is above a node in the reduced heap is above its address in the tree. -/
theorem sUp_reduced (h : SUp h₁.par x y) : SUp T.par (h₁.addr x) (h₁.addr y) := by
  refine Relation.TransGen.lift' h₁.addr (fun a b hab => ?_) _ _ h
  obtain ⟨nd, hnd⟩ := Heap.node_of_par hab
  obtain ⟨r, hr⟩ := R.wf.par_router a b hab
  change SUp T.par (h₁.addr a) (h₁.addr b)
  rw [addr_reduced R (by simp [hnd]), addr_reduced R (by simp [hr])]
  exact H.sUp_addr (R.near a b hab).sUp

/-- Hop counts still grow away from the root. -/
theorem hops_lt_reduced (hx : h₁.IsRouter x) (hp : h₁.par x = some p) : h₁.hops p < h₁.hops x := by
  have htag : ∀ {z}, h₁.IsRouter z → h₁.tag z = s.heap.tag z := by
    rintro z ⟨r, hr⟩
    exact R.tag_of_tag (Heap.node_ne_none_iff.mp (by simp [hr]))
  have hpr := R.wf.par_router x p hp
  rw [Heap.hops_congr (htag hx), Heap.hops_congr (htag hpr)]
  exact H.hops_lt ((Heap.isRouter_congr (htag hx)).mp hx) (R.near x p hp).sUp

theorem addr_mem (hx : h₁.IsLeaf x) : h₁.addr x ∈ peers := by
  obtain ⟨lf, hlf⟩ := hx
  have htag := R.tag_of_tag (Heap.node_ne_none_iff.mp (show h₁.node x ≠ none by simp [hlf]))
  rw [addr_reduced R (by simp [hlf]), ← H.peers_eq]
  exact List.mem_map_of_mem ((H.inv.mem_rcvr x).mpr ((Heap.isLeaf_congr htag).mp ⟨lf, hlf⟩))

/-- The receivers of the reduced tree are those of the tree. -/
theorem peers_perm (hF : s.heap.Below root F) :
    (((args.kept F).leaves ++ h₁.lvs root).map h₁.addr).Perm peers := by
  have I := H.inv
  have P := R.pruned I.wf I.tracks I.root_router I.root_par hF fun x _ => I.allFree x
  have hleaf : ∀ x ∈ (args.kept F).leaves ++ h₁.lvs root, h₁.addr x = s.heap.addr x := by
    intro x hx
    have hx' : h₁.IsLeaf x := by
      rcases List.mem_append.mp hx with hx | hx
      · exact R.wf.isLeaf_of_mem P.below.grown hx
      · exact ((R.wf.mem_lvs root x).mp hx).1
    obtain ⟨lf, hlf⟩ := hx'
    exact addr_reduced R (by simp [hlf])
  rw [List.map_congr_left hleaf, ← H.peers_eq]
  refine List.Perm.map _ ?_
  refine List.perm_append_comm.trans (P.receivers.trans ?_)
  exact List.perm_append_comm.trans (I.rcvr_perm H.rooted hF)

/-- A router other than the root has another address. -/
theorem addr_ne_root (hr : h₁.IsRouter root) (hx : h₁.IsRouter x) (hne : x ≠ root) :
    h₁.addr x ≠ addr := by
  have hsa : ∀ {z}, h₁.IsRouter z → h₁.sa z = some (h₁.addr z) := by
    rintro z ⟨r, hr⟩
    simp [Heap.addr, Heap.sa, Heap.tag_of_node hr]
  have hroot : h₁.addr root = addr := by
    obtain ⟨rt, hrt⟩ := hr
    rw [addr_reduced R (by simp [hrt]), H.root_addr]
  intro he
  rw [← hroot] at he
  exact hne (R.tracks.inj (hsa hx) (he ▸ hsa hr))

/-- The packet of a header is under way. -/
theorem underway (hr : h₁.IsRouter root) {grp : List (Seg NodeId NodeId)} (G : GroupOk args grp)
    (hdes : ∀ sg ∈ grp, h₁.Designates args root sg)
    (hleaf : ∀ sg ∈ grp, ∀ l ∈ sg.leaves, h₁.IsLeaf l) {u : Udp} {port : BitVec 16} {q : Skb}
    (hq : (h₁.header grp).Packet u port q) (hdest : q.ip.daddr = (h₁.header grp).dest) :
    T.Underway u addr q (h₁.header grp) := by
  obtain ⟨hmd, hnh, hu⟩ := hq
  obtain ⟨hsz, W⟩ := @wellFormed_of_groupOk args h₁ grp G
  have hled : ∀ s ∈ (h₁.header grp).segs, s.2.router ≠ addr ∧
      ∀ l ∈ s.2.leaves, l ∈ peers ∧ SUp T.par l s.2.router := by
    intro s hs
    rw [Heap.header, (segs_dataHdr hsz).1] at hs
    have hs' : s.2 ∈ grp.map (Seg.map h₁.addr h₁.addr) := by
      rw [← map_snd_segPos (grp.map (Seg.map h₁.addr h₁.addr)) 0]
      exact List.mem_map_of_mem hs
    obtain ⟨sg, hsg, he⟩ := List.mem_map.mp hs'
    obtain ⟨hR, hne, habove, -⟩ := hdes sg hsg
    rw [← he]
    refine ⟨H.addr_ne_root R hr hR hne, fun l hl => ?_⟩
    obtain ⟨x, hx, rfl⟩ := List.mem_map.mp hl
    exact ⟨H.addr_mem R (hleaf sg hsg x hx), H.sUp_reduced R (habove x hx)⟩
  refine ⟨hmd, W, hnh, rfl, rfl, hled, fun s hs hup => ?_, ?_, port, hu⟩
  · exact (hled s (List.mem_of_mem_filter hs)).1 (hup.eq_of_none T.root_par).symm
  · rw [hdest]
    exact exists_dest (by simpa using G.ne_nil) (fun s hs => by
      obtain ⟨t, ht, rfl⟩ := List.mem_map.mp hs
      simpa using G.leaves_ne_nil t ht) hsz

end Sender.Holds

/-- Every tree is held by a sender that was at rest, after the responses of its routers. -/
theorem Sender.Resting.exists_holds (args : Args) {s : Sender} {root : NodeId} {addr : In6Addr}
    {peers : List In6Addr} (Z : s.Resting root addr) (hpeers : s.peers = peers)
    (T : RouterTree addr peers) : ∃ heard s', Run args s (T.ops heard) s' ∧ s'.Holds root T := by
  obtain ⟨heard, O, hgap⟩ := T.exists_order
  have hon : ∀ r l, (r, l) ∈ heard → T.On r l := fun r l => (O.mem_iff r l).mp
  obtain ⟨s', hrun⟩ := Z.exists_run_ops args hon
  obtain ⟨hR, ⟨_, G⟩, hp⟩ := Z.phased.rsps hpeers (by simp) hon hrun
  have K := (Z.known hpeers T).rsps hR hon hgap
  refine ⟨heard, s', hrun, G.toPlanted, hp, K.toUnion.par_eq hon fun r l => (O.mem_iff r l).mpr,
    fun r hr => ?_⟩
  obtain ⟨q, hq⟩ := Option.ne_none_iff_exists'.mp hr.par_ne
  obtain ⟨l, hl, hup⟩ := T.covered r q hq hr.not_peer
  exact K.hops_eq r l ((O.mem_iff r l).mpr ⟨hl, hup, hr.ne_root⟩)

/-! ## The packets of the sender -/

/-- What single packets are meant for adds up. -/
theorem sum_endpoints {α : Type*} {R : α → Skb → Prop} {f : α → List In6Addr}
    (hR : ∀ a q, R a q → q.endpoints = f a) {as : List α} {l : List Skb}
    (h : List.Forall₂ R as l) : (l.map Skb.endpoints).sum = ↑(as.flatMap f) := by
  induction h with
  | nil => rfl
  | cons h _ ih => rw [List.map_cons, List.sum_cons, ih, hR _ _ h, List.flatMap_cons, Multiset.coe_add]

/-- The packets of a group whose headers are under way and whose entries are receivers, all of them
once, are well placed and together meant for all receivers. -/
theorem placed_of_tx {root : In6Addr} {peers : List In6Addr} {T : RouterTree root peers} {sk : Sock}
    (hsk : ∀ k a, sk.sendError k a = false) {fuel : ℕ} (hf : 3 ≤ fuel) (grp : TxGroup)
    {ip : Ipv6Hdr} (hip : ip.nexthdr = ipprotoUdp) (u : Udp)
    (hmdc : ∀ hd ∈ grp.mdc, hd.WellFormed ∧ ∀ port q, hd.Packet u port q →
      q.ip.daddr = hd.dest → T.Underway u root q hd)
    (hperm : (grp.mdc.flatMap MdcHdr.endpoints ++ grp.entries.map Addr.sin6_addr).Perm peers) :
    ∃ w, tx sk fuel grp ip u = some w ∧ (∀ q ∈ w.sent, T.Placed u (root, q)) ∧
      (w.sent.map Skb.endpoints).sum = ↑peers := by
  obtain ⟨w, l, l', htx, hw, hl, hl'⟩ := @tx_spec sk fuel grp ip hf hip (fun hd h => (hmdc hd h).1) u
  have hdone : ∀ {α : Type} (dst : α → In6Addr) (as : List α) (k : ℕ), sk.done dst k as = as := by
    intro α dst as k
    rw [Sock.done_eq (show ∀ k d, sk.sendError k d = (fun _ => false) d from hsk)]
    exact List.takeWhile_eq_self_iff.mpr fun _ _ => rfl
  rw [hdone] at hl
  rw [TxGroup.sentHdrs, hdone] at hl'
  have hsent := tx_sent hip htx
  refine ⟨w, htx, fun q hq => ?_, ?_⟩
  · have hs := hsent q hq
    rw [hw] at hq
    rcases List.mem_append.mp hq with hq | hq
    · obtain ⟨e, he, hmd, hd, hu⟩ := exists_of_forall₂ hl hq
      have hnh : q.ip.nexthdr = ipprotoUdp := by
        rcases hs with hs | ⟨hd, hs, -⟩
        · exact hs.2
        · simp [hmd] at hs
      have hmem : e.sin6_addr ∈ peers := hperm.subset
        (List.mem_append_right _ (List.mem_map_of_mem he))
      exact .plain (Or.inl (Or.inl rfl)) hmem ⟨hmd, hnh, hd, _, hu⟩
    · obtain ⟨hd, hhd, hp⟩ := exists_of_forall₂ hl' hq
      have hdest : q.ip.daddr = hd.dest := by
        rcases hs with ⟨hs, -⟩ | ⟨hd', hs, hdest⟩
        · simp [hp.1] at hs
        · rw [hdest, Option.some.inj (hs.symm.trans hp.1)]
      exact .mdc (Or.inl rfl) ((hmdc hd hhd).2 _ q hp hdest)
  · have h1 := sum_endpoints (f := fun a : Addr => [a.sin6_addr]) (fun a q h => by
      rw [Skb.endpoints, h.1, h.2.1]
      rfl) hl
    have h2 := sum_endpoints (f := MdcHdr.endpoints) (fun hd q h => by
      rw [Skb.endpoints, h.1]
      rfl) hl'
    rw [hw, List.map_append, List.sum_append]
    refine (congrArg₂ (· + ·) h1 h2).trans ?_
    rw [add_comm, Multiset.coe_add]
    refine Multiset.coe_eq_coe.mpr (List.Perm.trans ?_ hperm)
    simp [← List.map_eq_flatMap]

/-- Such a group is delivered. -/
theorem delivers_of_tx {root : In6Addr} {peers : List In6Addr} {T : RouterTree root peers}
    {net : In6Addr → Net} (N : T.Equipped net) (hnd : peers.Nodup) {sk : Sock}
    (hsk : ∀ k a, sk.sendError k a = false) {fuel : ℕ} (hf : 3 ≤ fuel) (grp : TxGroup)
    {ip : Ipv6Hdr} (hip : ip.nexthdr = ipprotoUdp) (u : Udp)
    (hmdc : ∀ hd ∈ grp.mdc, hd.WellFormed ∧ ∀ port q, hd.Packet u port q →
      q.ip.daddr = hd.dest → T.Underway u root q hd)
    (hperm : (grp.mdc.flatMap MdcHdr.endpoints ++ grp.entries.map Addr.sin6_addr).Perm peers) :
    ∃ w, tx sk fuel grp ip u = some w ∧
      T.Delivers net u ↑(w.sent.map fun q => (root, q)) := by
  obtain ⟨w, htx, hplaced, hsum⟩ := placed_of_tx hsk hf grp hip u hmdc hperm
  refine ⟨w, htx, RouterTree.delivers_of_placed N (fun a ha => ?_) ?_ hnd⟩
  · obtain ⟨q, hq, rfl⟩ := List.mem_map.mp (Multiset.mem_coe.mp ha)
    exact hplaced q hq
  · rw [Multiset.map_coe, Multiset.sum_coe, List.map_map]
    exact hsum

/-! ## From the tree to the receivers -/

section Tree

variable {args : Args} {s : Sender} {root : NodeId} {addr : In6Addr} {peers : List In6Addr}
  {T : RouterTree addr peers}

theorem Sender.Holds.nodup (H : s.Holds root T) : peers.Nodup := by
  rw [← H.peers_eq]
  refine List.Nodup.map_on (fun x hx y hy he => H.inv.addr_inj ?_ ?_ he) H.inv.rcvr_nodup
  · obtain ⟨lf, hlf⟩ := (H.inv.mem_rcvr x).mp hx
    simp [hlf]
  · obtain ⟨lf, hlf⟩ := (H.inv.mem_rcvr y).mp hy
    simp [hlf]

/-- The endpoints of the headers and the unicast entries are the receivers. -/
theorem Sender.Holds.group_perm (H : s.Holds root T) {F : Forest NodeId NodeId}
    (hF : s.heap.Below root F) {h₁ : Heap} {ht₁ : Judy}
    (R : Reduced args s.heap h₁ ht₁ root [] [] F) (G : h₁.Groupable root (args.kept F))
    {gs : List (List (Seg NodeId NodeId))} (hgs : Plan.Groups args h₁.hops (args.kept F) gs) :
    ((gs.map h₁.header).flatMap MdcHdr.endpoints ++
      ((h₁.lvs root).map h₁.member).map Addr.sin6_addr).Perm peers := by
  obtain ⟨-, hok⟩ := hgs.leaves_eq G.live
  have hmdc : (gs.map h₁.header).flatMap MdcHdr.endpoints =
      (gs.map h₁.header).flatMap MdcHdr.receivers := by
    refine List.flatMap_congr fun hd hhd => ?_
    obtain ⟨grp, hg, rfl⟩ := List.mem_map.mp hhd
    exact endpoints_dataHdr (@wellFormed_of_groupOk args h₁ grp (hok grp hg)).1
  have huni : ((h₁.lvs root).map h₁.member).map Addr.sin6_addr = (h₁.lvs root).map h₁.addr := by
    rw [List.map_map]
    exact List.map_congr_left fun x hx => Heap.addr_eq_member ((R.wf.mem_lvs root x).mp hx).1
  rw [hmdc, huni]
  refine ((G.receivers_perm hgs).append_right _).trans ?_
  rw [← List.map_append]
  exact H.peers_perm R hF

end Tree

/-- The sender holds the tree `T`, and the routers of `T` have any settings under which they run
MEADcast and recognise their own address.  If nothing fails, `reduce_tree` and `greedy_grouping`
end for every configuration, and the packets that `tx` sends for the group are delivered: in
whatever order they move and are processed they come to rest, receivers are handed plain copies of
the datagram only, and in the end each of them has exactly one. -/
theorem exactly_once_of_tree (args : Args) {s : Sender} {root : NodeId} {addr : In6Addr}
    {peers : List In6Addr} {T : RouterTree addr peers} (H : s.Holds root T)
    {net : In6Addr → Net} (N : T.Equipped net) (sk : Sock)
    (hsk : ∀ k a, sk.sendError k a = false) (ip : Ipv6Hdr) (u : Udp) {fuel : ℕ} (hf : 3 ≤ fuel)
    (hip : ip.nexthdr = ipprotoUdp) : ∃ h₁ ht₁ h₂ grp M w,
      (∀ n, M ≤ n → reduceTree args n (s.heap, s.ht) root = some (h₁, ht₁)) ∧
      (∀ n, M ≤ n → greedyGrouping args n h₁ resetMergingStats (some root) =
        some (h₂, resetMergingStats, some grp)) ∧
      tx sk fuel grp ip u = some w ∧ T.Delivers net u ↑(w.sent.map fun q => (addr, q)) := by
  have I := H.inv
  obtain ⟨F, hF⟩ := I.wf.exists_forest I.root_par
  obtain ⟨h₁, ht₁, M₁, e₁, R⟩ := reduceTree_spec args I.wf I.tracks I.root_router I.root_par hF
  have G := R.groupable I.wf I.tracks I.root_router I.root_par hF fun x _ => I.allFree x
  obtain ⟨h₂, gs, M₂, hgs, e₂, -⟩ := G.grouped args
  obtain ⟨hL, hok⟩ := hgs.leaves_eq G.live
  have hdes := G.designates hgs fun x hx p hp =>
    H.hops_lt_reduced R ((G.wf.mem_labs G.below x).mp hx).1 hp
  have hleaf : ∀ grp ∈ gs, ∀ sg ∈ grp, ∀ l ∈ sg.leaves, h₁.IsLeaf l := by
    intro grp hg sg hsg l hl
    have hmem := Plan.mem_doneLeaves.mpr ⟨grp, hg, sg, hsg, hl⟩
    rw [hL, Multiset.mem_coe] at hmem
    exact G.wf.isLeaf_of_mem G.below.grown hmem
  obtain ⟨w, htx, hw⟩ := delivers_of_tx N H.nodup hsk hf
    ⟨gs.map h₁.header, (h₁.lvs root).length, (h₁.lvs root).map h₁.member⟩ hip u
    (fun hd hhd => by
      obtain ⟨grp, hg, rfl⟩ := List.mem_map.mp hhd
      exact ⟨(@wellFormed_of_groupOk args h₁ grp (hok grp hg)).2, fun port q hq hdest =>
        H.underway R G.router (hok grp hg) (hdes grp hg) (hleaf grp hg) hq hdest⟩)
    (by
      rw [TxGroup.entries, List.take_of_length_le (by simp)]
      exact H.group_perm hF R G hgs)
  exact ⟨h₁, ht₁, h₂, _, max M₁ M₂, w, fun n hn => e₁ n (by omega), fun n hn => e₂ n (by omega), htx, hw⟩

/-- The routers of a chain above two receivers, with 255 as the bound of router `5`. -/
def forkNet (a : In6Addr) : Net := { Net.sample a with ip6_mdcast_min_dsts := if a = 5 then 255 else 1 }

theorem forkNet_equipped : forkTree.Equipped forkNet where
  enabled _ _ := rfl
  own r _ a := by simp [forkNet, Net.sample]
  routes _ _ _ := rfl
  transmits _ _ _ := rfl

/-- The theorem for this chain after its routers have answered. -/
theorem exactly_once_of_fork : ∃ (s : Sender) (h₁ : Heap) (ht₁ : Judy) (h₂ : Heap) (grp : TxGroup)
    (M : ℕ) (w : Wire), s.Holds 0 forkTree ∧
      (∀ n, M ≤ n → reduceTree Args.default n (s.heap, s.ht) 0 = some (h₁, ht₁)) ∧
      (∀ n, M ≤ n → greedyGrouping Args.default n h₁ resetMergingStats (some 0) =
        some (h₂, resetMergingStats, some grp)) ∧
      tx Sock.sample 3 grp Ipv6Hdr.sample (Udp.bare 7000) = some w ∧
      forkTree.Delivers forkNet (Udp.bare 7000) ↑(w.sent.map fun q => ((1 : In6Addr), q)) := by
  obtain ⟨s₀, -, Z, hp, -⟩ := exists_resting_fork
  obtain ⟨-, s, -, H⟩ := Z.exists_holds Args.default hp forkTree
  obtain ⟨h₁, ht₁, h₂, grp, M, w, h⟩ := exactly_once_of_tree Args.default H forkNet_equipped
    Sock.sample (fun _ _ => rfl) Ipv6Hdr.sample (Udp.bare 7000) le_rfl rfl
  exact ⟨s, h₁, ht₁, h₂, grp, M, w, H, h⟩

end MEADcast
