import MEADcast.Sender.Pruning

/-!
# The groups partition the receivers

A call of `greedy_grouping` on a tree in which every counter is full and every router has a
neighbour ends, puts every receiver below another router into one header, serves the
receivers of the root by unicast and leaves no counter behind.

## Main definitions

* `Heap.Groupable` — what `greedy_grouping` is called on.
* `Sender.Grows` — a state whose tree is of this kind, with hop counts that grow.

## Main results

* `Reduced.groupable` — `reduce_tree` leaves such a tree.
* `partition_of_greedyGrouping` — the published group is a partition of the receivers.
-/

namespace MEADcast

/-- The trees `F` hang below `root`, the free counters equal the list lengths, and no router
below `root` is without neighbours. -/
structure Heap.Groupable (h : Heap) (root : NodeId) (F : Forest NodeId NodeId) : Prop where
  wf : h.Wf
  router : h.IsRouter root
  root_par : h.par root = none
  below : h.Below root F
  free : ∀ x ∈ root :: F.labs, h.FreeAt x
  occupied : ∀ x ∈ F.labs, h.kids x ≠ [] ∨ h.lvs x ≠ []

section Groupable

variable {args : Args} {h h' : Heap} {ht ht' : Judy} {root : NodeId} {F : Forest NodeId NodeId}

theorem Heap.Groupable.live (T : h.Groupable root F) : F.Live := T.below.grown.live T.occupied

/-- The tree after `reduce_tree`. -/
theorem Reduced.groupable (R : Reduced args h h' ht' root [] [] F) (W : h.Wf) (T : Tracks ht h)
    (hr : h.IsRouter root) (hroot : h.par root = none) (hF : h.Below root F)
    (A : ∀ x ∈ root :: F.labs, h.FreeAt x) : h'.Groupable root (args.kept F) := by
  have P := R.pruned W T hr hroot hF A
  have hrF : root ∉ F.labs := (List.nodup_cons.mp (W.nodup_labs hroot hF)).1
  have hrl : root ∉ F.leaves := fun hm => (W.isLeaf_of_mem hF.grown hm).not_isRouter hr
  refine ⟨R.wf, ?_, by rw [R.par_frame root hrF hrl, hroot], P.below, fun x hx => ?_,
    fun x hx => ?_⟩
  · obtain ⟨r, hr, -⟩ := P.counters root (by simp)
    exact ⟨r, hr⟩
  · obtain ⟨r, hr, h1, h2, h3, h4⟩ := P.counters x hx
    intro r' hr'
    obtain rfl : r = r' := by simpa [hr] using hr'
    exact ⟨h2.trans h1.symm, h4.trans h3.symm⟩
  · have h1 := args.one_le_min_routers
    have h2 := args.one_le_min_leafs
    simp only [← List.length_pos_iff]
    rcases P.bound x hx with hb | hb <;> omega

/-- A router of the forest. -/
theorem Sender.Inv.of_mem_labs {s : Sender} {x : NodeId} (I : s.Inv root) (hF : s.heap.Below root F)
    (hx : x ∈ F.labs) : x < s.heap.next ∧ x ≠ root ∧ s.heap.IsRouter x := by
  obtain ⟨r, hr⟩ := ((I.wf.mem_labs hF x).mp hx).1
  refine ⟨I.wf.lt_next hr, ?_, ⟨r, hr⟩⟩
  rintro rfl
  exact (List.nodup_cons.mp (I.wf.nodup_labs I.root_par hF)).1 hx

/-- A state between two operations in which no router below the root is without neighbours. -/
theorem Sender.Inv.groupable {s : Sender} (I : s.Inv root) (hF : s.heap.Below root F)
    (hocc : ∀ x, x < s.heap.next → x ≠ root → s.heap.IsRouter x →
      s.heap.kids x ≠ [] ∨ s.heap.lvs x ≠ []) : s.heap.Groupable root F := by
  refine ⟨I.wf, I.root_router, I.root_par, hF, fun x _ => I.allFree x, fun x hx => ?_⟩
  obtain ⟨hlt, hne, hr⟩ := I.of_mem_labs hF hx
  exact hocc x hlt hne hr

/-- No router below the root is without neighbours, and hop counts grow away from the root. -/
def Sender.Grows (s : Sender) (root : NodeId) : Prop :=
  ∀ x < s.heap.next, s.heap.IsRouter x → x ≠ root → (s.heap.kids x ≠ [] ∨ s.heap.lvs x ≠ []) ∧
    (s.heap.par x).all fun p => decide (s.heap.hops p < s.heap.hops x)

instance (s : Sender) : Decidable (s.Grows root) :=
  inferInstanceAs (Decidable (∀ x < s.heap.next, s.heap.IsRouter x → x ≠ root → _ ∧ _))

/-- The tree of such a state can be grouped as it is. -/
theorem Sender.Inv.exists_groupable {s : Sender} (I : s.Inv root) (H : s.Grows root) : ∃ F,
    s.heap.Groupable root F ∧
      ∀ x ∈ F.labs, ∀ p, s.heap.par x = some p → s.heap.hops p < s.heap.hops x := by
  obtain ⟨F, hF⟩ := I.wf.exists_forest I.root_par
  refine ⟨F, I.groupable hF fun x hx hne hr => (H x hx hr hne).1, fun x hx p hp => ?_⟩
  obtain ⟨hlt, hne, hr⟩ := I.of_mem_labs hF hx
  have := (H x hlt hr hne).2
  simpa [hp] using this

/-- The tree of this run can be grouped as it is, and hop counts grow away from the root. -/
theorem chainOps_groupable : ∃ s F,
    Run Args.default (((Sender.initial.initGroup 1).get rfl).1) chainOps s ∧
    s.heap.Groupable 0 F ∧ s.heap.kids 0 ≠ [] ∧
    ∀ x ∈ F.labs, ∀ p, s.heap.par x = some p → s.heap.hops p < s.heap.hops x := by
  obtain ⟨s, e, hrun, I⟩ := chainOps_run
  have hall : (exec Args.default 20 (((Sender.initial.initGroup 1).get rfl).1) chainOps).all
      (fun s => decide (s.heap.kids 0 ≠ [] ∧ s.Grows 0)) = true := by
    decide +kernel
  rw [e] at hall
  simp only [Option.all_some, decide_eq_true_eq] at hall
  obtain ⟨hkids, H⟩ := hall
  obtain ⟨F, T, hord⟩ := I.exists_groupable H
  exact ⟨s, F, hrun, T, hkids, hord⟩

/-- A call of `greedy_grouping` in terms of the plan. -/
theorem Heap.Groupable.grouped (T : h.Groupable root F) (args : Args) : ∃ h' gs N,
    Plan.Groups args h.hops F gs ∧
      (∀ fuel, N ≤ fuel → greedyGrouping args fuel h resetMergingStats (some root) =
        some (h', resetMergingStats, some
          { mdc := gs.map h.header
            nuni := (h.lvs root).length
            uni := (h.lvs root).map h.member })) ∧
      (∀ x ∈ root :: F.labs, h'.Spent x) ∧ h'.Wf ∧ h'.tag = h.tag := by
  obtain ⟨h', gs, N, hgs, e, D, S⟩ :=
    greedyGrouping_spent args T.wf T.router T.root_par T.below T.live T.free
  exact ⟨h', gs, N, hgs, e, S, D.wf, D.tag_eq⟩

/-- The receivers in the headers of the groups are those below the routers. -/
theorem Heap.Groupable.receivers_perm (T : h.Groupable root F) {gs : List (List (Seg NodeId NodeId))}
    (hgs : Plan.Groups args h.hops F gs) :
    ((gs.map h.header).flatMap MdcHdr.receivers).Perm (F.leaves.map h.addr) := by
  obtain ⟨hL, hok⟩ := hgs.leaves_eq T.live
  rw [← Multiset.coe_eq_coe,
    Sender.receivers_of_groups fun g hg => (hok g hg).size_le.trans args.limit_le, hL,
    Multiset.map_coe]

/-- Nothing is free at a router whose counters are zero. -/
theorem Heap.Spent.counters (S : h.Spent x) (W : h.Wf) {r : Router}
    (hr : h.node x = some (.router r)) : r.fleaf = 0 ∧ r.fchild = 0 := by
  rw [W.fleaf_eq hr, W.fchild_eq hr, S.1, S.2]
  exact ⟨rfl, rfl⟩

end Groupable

/-- `greedy_grouping` ends, whatever the hop counts are.  Every receiver below another router
is at one position of one header, the receivers of the root are served by unicast, and all
free counters are zero. -/
theorem partition_of_greedyGrouping (args : Args) {h : Heap} {root : NodeId}
    {F : Forest NodeId NodeId} (T : h.Groupable root F) : ∃ h' g N,
    (∀ fuel, N ≤ fuel → greedyGrouping args fuel h resetMergingStats (some root) =
      some (h', resetMergingStats, some g)) ∧
    (F.leaves ++ h.lvs root).Nodup ∧
    (g.mdc.flatMap MdcHdr.receivers).Perm (F.leaves.map h.addr) ∧
    g.uni = (h.lvs root).map h.member ∧ g.nuni = (h.lvs root).length ∧
    ∀ x ∈ root :: F.labs, ∃ r, h'.node x = some (.router r) ∧ r.fleaf = 0 ∧ r.fchild = 0 := by
  obtain ⟨h', gs, N, hgs, e, S, W, htag⟩ := T.grouped args
  refine ⟨h', _, N, e, T.wf.nodup_leaves T.root_par T.below, T.receivers_perm hgs, rfl, rfl,
    fun x hx => ?_⟩
  have hx' : h.IsRouter x := by
    rcases List.mem_cons.mp hx with rfl | hx
    · exact T.router
    · exact ((T.wf.mem_labs T.below x).mp hx).1
  obtain ⟨r, hr⟩ := (Heap.isRouter_congr (congrFun htag x)).mpr hx'
  exact ⟨r, hr, (S x hx).counters W hr⟩

/-- The theorem at a run whose tree was reduced. -/
theorem partition_of_chain : ∃ s h₁ ht₁ F N,
    Run Args.default (((Sender.initial.initGroup 1).get rfl).1) chainOps s ∧
    (∀ fuel, N ≤ fuel → reduceTree Args.default fuel (s.heap, s.ht) 0 = some (h₁, ht₁)) ∧
    h₁.Groupable 0 F ∧ ∃ h' g N, (∀ fuel, N ≤ fuel →
      greedyGrouping Args.default fuel h₁ resetMergingStats (some 0) =
        some (h', resetMergingStats, some g)) ∧
      (g.mdc.flatMap MdcHdr.receivers).Perm (F.leaves.map h₁.addr) := by
  obtain ⟨s, -, hrun, I⟩ := chainOps_run
  obtain ⟨F, hF⟩ := I.wf.exists_forest I.root_par
  obtain ⟨h₁, ht₁, N, e, R⟩ := reduceTree_spec Args.default I.wf I.tracks I.root_router I.root_par hF
  have T := R.groupable I.wf I.tracks I.root_router I.root_par hF fun x _ => I.allFree x
  obtain ⟨h', g, N', e', -, hp, -⟩ := partition_of_greedyGrouping Args.default T
  exact ⟨s, h₁, ht₁, _, N, hrun, e, T, h', g, N', e', hp⟩

end MEADcast
