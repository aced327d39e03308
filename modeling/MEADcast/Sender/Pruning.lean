import MEADcast.Sender.Coverage
import MEADcast.Lib.Similar

/-!
# `reduce_tree` is the bottom-up pruning

The list of children is modified while `reduce_tree` walks it.  The outcome is nevertheless
that of the recursive definition `Forest.reduce`, which prunes the children of a router
first and then replaces the router in its place.

## Main definitions

* `Pruned` — how the tree after `reduce_tree` relates to the tree before.

## Main results

* `pruned_of_reduceTree` — every call of `reduce_tree` on a root ends in such a tree.
-/

namespace MEADcast

open ParentMap

/-- The tree below `root` before (`F`) and after (`G`) a call of `reduce_tree`. -/
structure Pruned (args : Args) (h h' : Heap) (ht ht' : Judy) (root : NodeId)
    (F G : Forest NodeId NodeId) : Prop where
  below : h'.Below root G
  -- the recursive definition, up to the order of siblings
  similar : G.Similar (F.reduce args.cuts).2
  root_lvs : (h'.lvs root).Perm (h.lvs root ++ (F.reduce args.cuts).1)
  receivers : (h'.lvs root ++ G.leaves).Perm (h.lvs root ++ F.leaves)
  bound : ∀ x ∈ G.labs,
    args.min_routers ≤ (h'.kids x).length ∨ args.min_leafs ≤ (h'.lvs x).length
  nearest : ∀ x ∈ G.labs ++ (h'.lvs root ++ G.leaves), ∃ p ∈ root :: G.labs,
    h'.par x = some p ∧ Nearest h.par (fun y => h'.node y ≠ none) x p
  counters : ∀ x ∈ root :: G.labs, ∃ r, h'.node x = some (.router r) ∧
    r.nchild = r.child.length ∧ r.fchild = r.child.length ∧ r.nleaf = r.leaf.length ∧
      r.fleaf = r.leaf.length
  kept : ∀ x ∈ G.labs, x ∈ F.labs ∧ h'.tag x = h.tag x
  freed : ∀ x ∈ F.labs, x ∉ G.labs → h'.node x = none
  table : ∀ a v, ht' a = some v ↔
    ht a = some v ∧ ∀ x ∈ F.labs, x ∉ G.labs → v ≠ some x

section Pruned

variable {args : Args} {h h' : Heap} {ht ht' : Judy} {root : NodeId} {F : Forest NodeId NodeId}

/-- The hash table loses the entries of the freed routers. -/
theorem Reduced.table (R : Reduced args h h' ht' root [] [] F) (T : Tracks ht h) (a : In6Addr)
    (v : Option NodeId) : ht' a = some v ↔
      ht a = some v ∧ ∀ x ∈ F.labs, x ∉ (args.kept F).labs → v ≠ some x := by
  rw [R.tracks a v, T a v]
  constructor
  · rintro ⟨n, rfl, hn⟩
    have hne : h'.tag n ≠ none := fun he => by simp [Heap.sa, he] at hn
    have htag := R.tag_of_tag hne
    refine ⟨⟨n, rfl, by rwa [Heap.sa, ← htag]⟩, ?_⟩
    rintro x hx hk he
    obtain rfl := Option.some.inj he
    exact hne (R.tag_gone n hx hk)
  · rintro ⟨⟨n, rfl, hn⟩, hk⟩
    have htag : h'.tag n = h.tag n := by
      refine R.tag_frame n fun hm => ?_
      by_contra hx
      exact hk n hm hx rfl
    exact ⟨n, rfl, by rwa [Heap.sa, htag]⟩

/-- The path to a receiver that is still below the root is a part of its path before. -/
theorem Reduced.paths (R : Reduced args h h' ht' root [] [] F) : ∃ G, h'.Below root G ∧
    ∀ q ∈ G.paths, ∃ p, (p, q.2) ∈ F.paths ∧ q.1.Sublist p :=
  ⟨args.kept F, R.below, F.prune_paths⟩

theorem Reduced.pruned (R : Reduced args h h' ht' root [] [] F) (W : h.Wf) (T : Tracks ht h)
    (hr : h.IsRouter root) (hroot : h.par root = none) (hF : h.Below root F)
    (A : ∀ x ∈ root :: F.labs, h.FreeAt x) : Pruned args h h' ht ht' root F (args.kept F) := by
  have hB := R.below
  have hS := Forest.prune_similar args.cuts F
  have hlv : h'.lvs root = args.freed F ++ h.lvs root := R.lvs_r
  have hkF : ∀ x ∈ (args.kept F).labs, x ∈ F.labs := fun x hx => Forest.mem_labs_of_prune hx
  have hrF : root ∉ F.labs := (List.nodup_cons.mp (W.nodup_labs hroot hF)).1
  have hr' : h'.IsRouter root :=
    (Heap.isRouter_congr (R.tag_frame root fun hm => absurd hm hrF)).mpr hr
  have hrouter : ∀ x ∈ root :: (args.kept F).labs, h'.IsRouter x := by
    intro x hx
    rcases List.mem_cons.mp hx with rfl | hx
    · exact hr'
    · exact R.wf.isRouter_of_mem hB.grown (by rw [hB.tops]; exact List.Subset.refl _) hx
  refine ⟨hB, hS.1, ?_, ?_, ?_, ?_, ?_, ?_, ?_, R.table T⟩
  · rw [hlv]
    exact List.perm_append_comm.trans (hS.2.append_left _)
  · rw [hlv]
    have := (args.kept_leaves F).append_left (h.lvs root)
    rw [← List.append_assoc] at this
    exact (List.perm_append_comm.append_right _).trans this
  · intro x hx
    have hu : (args.kept F).Uncut args.cuts :=
      (Forest.uncut_append _ _).mpr (Forest.prune_uncut args.cuts F)
    have hc := hu.of_mem hB.grown hx
    simp only [Args.cuts, decide_eq_false_iff_not] at hc
    omega
  · intro x hx
    -- every node of the tree has a parent in it
    have hp : ∃ p ∈ root :: (args.kept F).labs, h'.par x = some p := by
      simp only [List.mem_append] at hx
      rcases hx with hx | hx | hx
      · rcases hB.grown.mem_labs hx with hx | ⟨p, hp, hx⟩
        · exact ⟨root, by simp, R.wf.kids_parent (hB.tops ▸ hx)⟩
        · exact ⟨p, by simp [hp], R.wf.kids_parent hx⟩
      · exact ⟨root, by simp, R.wf.lvs_parent hx⟩
      · obtain ⟨p, hp, hx⟩ := (Heap.Wf.mem_leaves hB x).mp hx
        exact ⟨p, by simp [hp], R.wf.lvs_parent hx⟩
    obtain ⟨p, hm, hp⟩ := hp
    refine ⟨p, hm, hp, ?_⟩
    have := R.near x p hp
    simpa only [Heap.node_ne_none_iff] using this
  · intro x hx
    obtain ⟨r, hrx⟩ := hrouter x hx
    have hxF : x ∈ root :: F.labs := by
      rcases List.mem_cons.mp hx with rfl | hx
      · simp
      · simp [hkF x hx]
    have C := R.wf.counted x r hrx
    have hA := R.freeAt x (A x hxF) r hrx
    exact ⟨r, hrx, C.nchild_eq, hA.1.trans C.nchild_eq, C.nleaf_eq, hA.2.trans C.nleaf_eq⟩
  · exact fun x hx => ⟨hkF x hx, R.tag_frame x fun _ => hx⟩
  · intro x hx hk
    by_contra hne
    exact Heap.node_ne_none_iff.mp hne (R.tag_gone x hx hk)

end Pruned

/-- `reduce_tree` on the root of a tree whose free counters equal the list lengths ends in
the tree that the recursive definition gives. -/
theorem pruned_of_reduceTree (args : Args) {h : Heap} {ht : Judy} {root : NodeId}
    {F : Forest NodeId NodeId} (W : h.Wf) (T : Tracks ht h) (hr : h.IsRouter root)
    (hroot : h.par root = none) (hF : h.Below root F) (A : ∀ x ∈ root :: F.labs, h.FreeAt x) :
    ∃ h' ht' G N, (∀ fuel, N ≤ fuel → reduceTree args fuel (h, ht) root = some (h', ht')) ∧
      Pruned args h h' ht ht' root F G := by
  obtain ⟨h', ht', N, e, R⟩ := reduceTree_spec args W T hr hroot hF
  exact ⟨h', ht', args.kept F, N, e, R.pruned W T hr hroot hF A⟩

/-- Joins and three routers' responses: a chain of two routers above one receiver and a router
above another receiver. -/
def chainOps : List Op :=
  [.join 2 0, .join 3 0, .join 4 0, .rsp 5 2 1, .rsp 6 2 2, .rsp 5 3 1, .rsp 7 4 1]

/-- A run whose responses do not come from the root's address `1`, that is from its start to
its end. -/
theorem inv_of_exec {args : Args} {fuel : ℕ} {ops : List Op} {s : Sender}
    (h : exec args fuel (((Sender.initial.initGroup 1).get rfl).1) ops = some s)
    (hops : ∀ op ∈ ops, op.NotFrom 1) (hst : Steady (fun _ => none) ops) : s.Inv 0 := by
  refine ((Sender.phased_init rfl).run (Run.of_exec h) hst ?_).inv
  intro pre t op post e _ rsa paddr b he hra
  have := hops op (e ▸ by simp)
  subst he
  exact absurd hra this.1

theorem chainOps_run : ∃ s,
    exec Args.default 20 (((Sender.initial.initGroup 1).get rfl).1) chainOps = some s ∧
    Run Args.default (((Sender.initial.initGroup 1).get rfl).1) chainOps s ∧ s.Inv 0 := by
  have hsome : (exec Args.default 20 (((Sender.initial.initGroup 1).get rfl).1) chainOps).isSome =
    true := by decide +kernel
  obtain ⟨s, h⟩ := Option.isSome_iff_exists.mp hsome
  exact ⟨s, h, Run.of_exec h,
    inv_of_exec h (by simp [Op.NotFrom, chainOps]) (by simp [Steady, chainOps])⟩

/-- The theorem at a run in which a chain of two routers leads to one receiver. -/
theorem pruned_of_chain : ∃ s root F h' ht' G N,
    Run Args.default (((Sender.initial.initGroup 1).get rfl).1) chainOps s ∧
    s.heap.Below root F ∧
    (∀ fuel, N ≤ fuel → reduceTree Args.default fuel (s.heap, s.ht) root = some (h', ht')) ∧
    Pruned Args.default s.heap h' s.ht ht' root F G := by
  obtain ⟨s, -, hrun, I⟩ := chainOps_run
  obtain ⟨F, hF⟩ := I.wf.exists_forest I.root_par
  obtain ⟨h', ht', G, N, e, P⟩ := pruned_of_reduceTree Args.default I.wf I.tracks I.root_router
    I.root_par hF fun x _ => I.allFree x
  exact ⟨s, 0, F, h', ht', G, N, hrun, hF, e, P⟩

end MEADcast
