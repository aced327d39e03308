import MEADcast.Sender.Phase

/-!
# Every published group covers the receivers

In every run in which the routers report constant hop counts in each phase, the group that
is published, by a timeout or before the first one, contains each joined receiver once.

## Main definitions

* `Covers` — a published group contains each of the given members once, and nothing else.

## Main results

* `coverage_of_run` — hop counts are ordered and every published group covers the members.
-/

namespace MEADcast

open ParentMap

/-- The group contains each member either at one non-router position of one header or as
one of the `nuni` unicast entries, and nothing else. -/
structure Covers (g : TxGroup) (members : List Addr) : Prop where
  nuni_eq : g.nuni = g.uni.length
  uni_mem : ∀ a ∈ g.uni, a ∈ members
  nodup : (members.map Addr.sin6_addr).Nodup
  perm : (g.mdc.flatMap MdcHdr.receivers ++ g.uni.map Addr.sin6_addr).Perm
    (members.map Addr.sin6_addr)

namespace Heap

variable {h : Heap} {root : NodeId} {F : Forest NodeId NodeId}

/-- No receiver hangs below the root twice. -/
theorem Wf.nodup_leaves (W : h.Wf) (hroot : h.par root = none) (hF : h.Below root F) :
    (F.leaves ++ h.lvs root).Nodup := by
  have hnd := W.nodup_labs hroot hF
  obtain ⟨hrF, hndF⟩ := List.nodup_cons.mp hnd
  have hpar : ∀ x l, l ∈ h.lvs x → h.par l = some x := fun x l hl => W.lvs_parent hl
  rw [hF.grown.leaves_eq]
  refine List.nodup_append.mpr ⟨List.nodup_flatMap.mpr ⟨fun x _ => W.lvs_nodup x, ?_⟩,
    W.lvs_nodup root, ?_⟩
  · refine hndF.imp fun {x y} hxy => ?_
    intro l hx hy
    exact hxy (Option.some.inj ((hpar x l hx).symm.trans (hpar y l hy)))
  · rintro l hl m hm rfl
    obtain ⟨x, hx, hl⟩ := List.mem_flatMap.mp hl
    obtain rfl := Option.some.inj ((hpar x l hl).symm.trans (hpar root l hm))
    exact hrF hx

end Heap

namespace Sender

variable {args : Args} {s s' : Sender} {root : NodeId} {F : Forest NodeId NodeId}
  {gs : List (List (Seg NodeId NodeId))}

/-- In a rooted tree all receivers hang below the root. -/
theorem Inv.rcvr_perm (I : s.Inv root) (H : Rooted s.heap.par root) (hF : s.heap.Below root F) :
    (F.leaves ++ s.heap.lvs root).Perm s.rcvr := by
  refine (List.perm_ext_iff_of_nodup (I.wf.nodup_leaves I.root_par hF) I.rcvr_nodup).mpr fun l => ?_
  rw [I.mem_rcvr, List.mem_append]
  constructor
  · rintro (hl | hl)
    · exact I.wf.isLeaf_of_mem hF.grown hl
    · exact ((I.wf.mem_lvs root l).mp hl).1
  · intro hl
    obtain ⟨p, hp⟩ := Option.ne_none_iff_exists'.mp (I.leaf_par l hl)
    by_cases hpr : p = root
    · exact Or.inr ((I.wf.mem_lvs root l).mpr ⟨hl, hpr ▸ hp⟩)
    · refine Or.inl ((Heap.Wf.mem_leaves hF l).mpr ⟨p, ?_, (I.wf.mem_lvs p l).mpr ⟨hl, hp⟩⟩)
      refine (I.wf.mem_labs hF p).mpr ⟨I.wf.par_router l p hp, ?_⟩
      rcases (H l p hp).cases_head with rfl | ⟨z, hz, hzr⟩
      · exact absurd I.root_router hl.not_isRouter
      · obtain rfl := Option.some.inj (hp.symm.trans hz)
        exact (hzr.eq_or_sUp).resolve_left hpr

/-- Members have different addresses. -/
theorem Inv.nodup_members (I : s.Inv root) : (s.members.map Addr.sin6_addr).Nodup := by
  rw [members, List.map_map]
  refine List.Nodup.map_on (fun x hx y hy he => ?_) I.rcvr_nodup
  have hsa : ∀ x ∈ s.rcvr, s.heap.sa x = some (s.heap.member x).sin6_addr := by
    intro x hx
    obtain ⟨l, hl⟩ := (I.mem_rcvr x).mp hx
    simp [Heap.sa, Heap.tag_of_node hl, Tag.sa, Heap.member_of_node hl]
  exact I.tracks.inj (hsa x hx) ((hsa y hy).trans (congrArg some he.symm))

/-- The group that `init_txg` publishes covers the members. -/
theorem Inv.covers_unicast (I : s.Inv root) : Covers s.unicastGroup s.members where
  nuni_eq := by simp [unicastGroup]
  uni_mem _ ha := ha
  nodup := I.nodup_members
  perm := List.Perm.refl _

/-- The receivers of the headers of groups are the leaves of the groups. -/
theorem receivers_of_groups {h : Heap} (hgs : ∀ g ∈ gs, segSize g ≤ 32) :
    ((gs.map h.header).flatMap MdcHdr.receivers : Multiset In6Addr) =
      (Plan.doneLeaves gs).map h.addr := by
  induction gs with
  | nil => rfl
  | cons g gs ih =>
      have hg : (h.header g).receivers = (g.flatMap Seg.leaves).map h.addr := by
        rw [Heap.header, receivers_dataHdr (by simpa using hgs g (by simp))]
        simp [List.flatMap_map, List.map_flatMap]
      have hl : ((g.flatMap Seg.leaves : List NodeId) : Multiset NodeId) = segLeaves g := by
        clear hg hgs ih
        induction g with
        | nil => rfl
        | cons s g ih => simp [← ih]
      rw [List.map_cons, List.flatMap_cons, ← Multiset.coe_add, ih fun g hg => hgs g (by simp [hg]),
        hg, Plan.doneLeaves_cons, Multiset.map_add, ← hl, Multiset.map_coe]

/-- A timeout of a rooted tree publishes a group that covers the members. -/
theorem TimedOut.covers (T : TimedOut args s s' root F gs) (I : s.Inv root)
    (H : Rooted s.heap.par root) (hF : s.heap.Below root F) :
    ∃ g, s'.txg = some g ∧ Covers g s'.members := by
  have hleaf : ∀ l ∈ s.rcvr, s.heap.IsLeaf l := fun l hl => (I.mem_rcvr l).mp hl
  have hmem : s'.members = s.members := T.members_eq I hF
  have hp := I.rcvr_perm H hF
  have hsub : ∀ l ∈ args.freed F ++ s.heap.lvs root, l ∈ s.rcvr := by
    intro l hl
    refine hp.subset ?_
    rcases List.mem_append.mp hl with hl | hl
    · exact List.mem_append_left _ ((args.kept_leaves F).subset (List.mem_append_left _ hl))
    · exact List.mem_append_right _ hl
  obtain ⟨hL, hok⟩ := T.groups.leaves_eq (args.kept_live F)
  refine ⟨_, T.txg_eq, ⟨by simp, fun a ha => ?_, hmem ▸ I.nodup_members, ?_⟩⟩
  · obtain ⟨l, hl, rfl⟩ := List.mem_map.mp ha
    rw [hmem]
    exact List.mem_map_of_mem (hsub l hl)
  · have haddr : ∀ ls : List NodeId, (∀ l ∈ ls, l ∈ s.rcvr) →
        (ls.map s.heap.member).map Addr.sin6_addr = ls.map s.heap.addr := by
      intro ls hls
      rw [List.map_map]
      exact List.map_congr_left fun l hl => Heap.addr_eq_member (hleaf l (hls l hl))
    rw [hmem, members, haddr _ fun _ h => h, ← Multiset.coe_eq_coe]
    dsimp only
    rw [haddr _ hsub, ← Multiset.coe_add,
      receivers_of_groups fun g hg => (hok g hg).size_le.trans args.limit_le, hL,
      Multiset.map_coe, Multiset.coe_add, ← List.map_append, Multiset.coe_eq_coe]
    refine List.Perm.map _ (List.Perm.trans ?_ hp)
    rw [← List.append_assoc]
    exact List.Perm.append_right _ (List.perm_append_comm.trans (args.kept_leaves F))

end Sender

/-- In every run with constant hop counts whose responses do not come from the root's own
address, the members are those who joined, hop counts never decrease away from the root, every timeout
completes, and the group that a timeout or `init_txg` publishes covers the members. -/
theorem coverage_of_run (args : Args) (addr : In6Addr) {s₁ s : Sender} {ops : List Op}
    (hinit : Sender.initial.initGroup addr = some (s₁, 0)) (hrun : Run args s₁ ops s)
    (hops : ∀ op ∈ ops, op.NotFrom addr) (hst : Steady (fun _ => none) ops) :
    (∃ l, Joining args s₁ ops s l ∧ s.members = l) ∧
    (∀ x rx p rp, s.heap.node x = some (.router rx) → rx.parent = some p →
      s.heap.node p = some (.router rp) → rp.hops ≤ rx.hops) ∧
    (∃ t, Completes args s .tout t 0) ∧
    (∀ t ret, Completes args s .tout t ret → ∃ g, t.txg = some g ∧ Covers g t.members) ∧
    (s.rcvr ≠ [] → ∃ t, Completes args s .initTxg t 0) ∧
    ∀ t, Completes args s .initTxg t 0 → ∃ g, t.txg = some g ∧ Covers g t.members := by
  have G := (Sender.phased_init hinit).run hrun hst fun pre t op post e _ rsa paddr b he hra => by
    have := hops op (by simp [e])
    subst he
    exact absurd hra this.1
  have I := G.inv
  have hpub := Sender.initTxg_spec I
  refine ⟨Sender.exists_joining hinit hrun hops, fun x rx p rp hx hp hrp => ?_, I.tout_completes args, fun t ret hc => ?_, fun hne => ?_,
    fun t hc => ?_⟩
  · have := G.ordered x p ⟨rx, hx⟩ (by rw [Heap.par_of_node hx]; exact hp)
    rwa [Heap.hops_of_router hx, Heap.hops_of_router hrp] at this
  · obtain ⟨-, F, gs, hF, T⟩ := I.tout hc
    exact T.covers I G.rooted hF
  · obtain ⟨-, e⟩ := hpub.resolve_left fun h => hne h.1
    exact ⟨_, 0, e⟩
  · obtain ⟨fuel, e⟩ := hc
    rcases hpub with ⟨-, h⟩ | ⟨-, h⟩
    · simp [step, h] at e
    · obtain rfl : _ = t := by simpa [step, h] using e
      exact ⟨_, rfl, I.covers_unicast⟩

/-- The theorem at a run with two phases: the group that is published at the end of the second one has a
header for both members. -/
theorem coverage_of_two_phases : ∃ s, Run Args.default
    (((Sender.initial.initGroup 1).get rfl).1)
    [.join 2 0, .join 3 0, .initTxg, .rsp 4 2 1, .tout, .rsp 4 3 2, .rsp 4 2 2] s ∧
    s.members = [⟨3, 0⟩, ⟨2, 0⟩] ∧
    ∃ t g, Completes Args.default s .tout t 0 ∧ t.txg = some g ∧ g.mdc.map MdcHdr.receivers = [[2, 3]] ∧
      g.uni = [] ∧ Covers g t.members := by
  let s₁ : Sender := ((Sender.initial.initGroup 1).get rfl).1
  let ops : List Op := [.join 2 0, .join 3 0, .initTxg, .rsp 4 2 1, .tout, .rsp 4 3 2, .rsp 4 2 2]
  have hsome : (exec Args.default 20 s₁ ops).isSome = true := by decide +kernel
  have hall : (exec Args.default 20 s₁ ops).all (fun s => decide (s.members = [⟨3, 0⟩, ⟨2, 0⟩] ∧
      (step Args.default 20 s .tout).map (fun r => r.1.txg.map fun g =>
        (g.mdc.map MdcHdr.receivers, g.uni)) = some (some ([[2, 3]], [])))) = true := by decide +kernel
  obtain ⟨s, h⟩ := Option.isSome_iff_exists.mp hsome
  rw [h] at hall
  simp only [Option.all_some, decide_eq_true_eq] at hall
  obtain ⟨hm, hg⟩ := hall
  obtain ⟨-, -, ⟨t, ht⟩, hcov, -⟩ := coverage_of_run Args.default 1 rfl (Run.of_exec h)
    (by simp [ops, Op.NotFrom]) (by simp [ops, Steady])
  obtain ⟨⟨t', ret⟩, hstep, htxg⟩ := Option.map_eq_some_iff.mp hg
  obtain ⟨rfl, -⟩ := ht.det ⟨20, hstep⟩
  obtain ⟨g, hg, hc⟩ := hcov t 0 ht
  rw [hg, Option.map_some, Option.some.injEq, Prod.mk.injEq] at htxg
  exact ⟨s, Run.of_exec h, hm, t, g, ht, hg, htxg.1, htxg.2, hc⟩

end MEADcast
