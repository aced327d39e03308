import MEADcast.Sender.Leaders
import MEADcast.Sender.Partition

/-!
# Designated routers

In the headers that `greedy_grouping` builds, the router in front of a list of receivers is an
ancestor of each of them in the tree.

## Main definitions

* `Heap.Designates` — the router of a segment of nodes is above its receivers.

## Main results

* `designated_of_greedyGrouping` — all segments of all headers are of this kind.
-/

namespace MEADcast

open ParentMap

/-- The router of a segment is not the root and is an ancestor of the receivers; without
merging it is their parent. -/
structure Heap.Designates (h : Heap) (args : Args) (root : NodeId) (sg : Seg NodeId NodeId) :
    Prop where
  router : h.IsRouter sg.router
  ne_root : sg.router ≠ root
  above : ∀ l ∈ sg.leaves, SUp h.par l sg.router
  direct : args.merge_range = 0 → ∀ l ∈ sg.leaves, h.par l = some sg.router

section Designated

variable {args : Args} {h : Heap} {root : NodeId} {F G : Forest NodeId NodeId}

/-- Parents of the routers of a forest. -/
def Heap.parIn (h : Heap) (F : Forest NodeId NodeId) (x : NodeId) : Option NodeId :=
  if x ∈ F.labs then h.par x else none

theorem up_of_parIn {x y : NodeId} (hup : Up (h.parIn F) x y) : Up h.par x y := by
  refine Relation.ReflTransGen.mono (fun a b hab => ?_) x y hup
  simp only [Heap.parIn] at hab
  split at hab
  · exact hab
  · simp at hab

/-- An unfolding hangs where the parent pointers say. -/
theorem Heap.Wf.hangs (W : h.Wf) {p : NodeId} (hg : G.Grown h.kids h.lvs) (ht : G.tops ⊆ h.kids p)
    (hl : G.labs ⊆ F.labs) : Hangs (h.parIn F) h.par p G := by
  induction G generalizing p with
  | nil => trivial
  | node a ls K R ihK ihR =>
      obtain ⟨rfl, hk, hgK, hgR⟩ := hg
      simp only [Forest.labs, List.cons_subset, List.append_subset] at hl
      simp only [Forest.tops, List.cons_subset] at ht
      refine ⟨?_, fun l hm => W.lvs_parent hm, ihK hgK (by rw [hk]; exact List.Subset.refl _) hl.2.1,
        ihR hgR ht.2 hl.2.2⟩
      rw [parIn, if_pos hl.1]
      exact W.kids_parent ht.1

/-- The segments of the groups of a tree whose hop counts grow away from the root. -/
theorem Heap.Groupable.designates (T : h.Groupable root F) {gs : List (List (Seg NodeId NodeId))}
    (hgs : Plan.Groups args h.hops F gs)
    (hord : ∀ x ∈ F.labs, ∀ p, h.par x = some p → h.hops p < h.hops x) :
    ∀ g ∈ gs, ∀ sg ∈ g, h.Designates args root sg := by
  have hH : Hangs (h.parIn F) h.par root F :=
    T.wf.hangs T.below.grown (by rw [T.below.tops]; exact List.Subset.refl _) (List.Subset.refl _)
  have hord' : ∀ a p, h.parIn F a = some p → h.hops p < h.hops a := by
    intro a p hp
    simp only [parIn] at hp
    split at hp
    · exact hord a (by assumption) p hp
    · simp at hp
  intro g hg sg hsg
  obtain ⟨hne, habove, hdirect⟩ := hgs.led T.live hH hord' g hg sg hsg
  have hlab : sg.router ∈ F.labs := by
    by_contra hm
    exact hne (if_neg hm)
  refine ⟨((T.wf.mem_labs T.below _).mp hlab).1, ?_, fun l hl => ?_, hdirect⟩
  · intro he
    exact (List.nodup_cons.mp (T.wf.nodup_labs T.root_par T.below)).1 (he ▸ hlab)
  · obtain ⟨p, hp, hup⟩ := habove l hl
    exact SUp.iff_exists.mpr ⟨p, hp, up_of_parIn hup⟩

/-- More fuel does not change the result. -/
theorem greedyGrouping_unique {h' h₁ : Heap} {mg mg₁ mg₂ : Merging} {s : Option NodeId} {g g₁ : TxGroup}
    {N fuel : ℕ} (hrun : ∀ fuel, N ≤ fuel → greedyGrouping args fuel h mg s = some (h₁, mg₁, some g₁))
    (hend : greedyGrouping args fuel h mg s = some (h', mg₂, some g)) : h₁ = h' ∧ mg₁ = mg₂ ∧ g₁ = g := by
  have hend' := greedyGrouping_keeps (Nat.le_add_left fuel N) _ _ _ _ hend
  rw [hrun (N + fuel) (Nat.le_add_right _ _)] at hend'
  simpa using hend'

end Designated

/-- If hop counts grow from each router to its children, every segment of every header that
`greedy_grouping` builds starts with a router, not the root, that is an ancestor of the
receivers behind it, and their parent if the merge range is zero. -/
theorem designated_of_greedyGrouping (args : Args) {h : Heap} {root : NodeId}
    {F : Forest NodeId NodeId} (T : h.Groupable root F)
    (hord : ∀ x ∈ F.labs, ∀ p, h.par x = some p → h.hops p < h.hops x) : ∃ h' g gs N,
    (∀ fuel, N ≤ fuel → greedyGrouping args fuel h resetMergingStats (some root) =
      some (h', resetMergingStats, some g)) ∧
    g.mdc = gs.map h.header ∧ Plan.doneLeaves gs = ↑F.leaves ∧
    ∀ grp ∈ gs, (h.header grp).segs.map Prod.snd = grp.map (Seg.map h.addr h.addr) ∧
      ∀ sg ∈ grp, h.Designates args root sg := by
  obtain ⟨h', gs, N, hgs, e, -⟩ := T.grouped args
  obtain ⟨hL, hok⟩ := hgs.leaves_eq T.live
  refine ⟨h', _, gs, N, e, rfl, hL, fun grp hg => ⟨?_, T.designates hgs hord grp hg⟩⟩
  have hsz : segSize (grp.map (Seg.map h.addr h.addr)) ≤ 32 := by
    rw [segSize_map]
    exact (hok grp hg).size_le.trans args.limit_le
  rw [Heap.header, (segs_dataHdr hsz).1, map_snd_segPos]

/-- The defaults, but routers with a single leaf are kept and leaves are merged within one hop. -/
def Args.merging : Args :=
  { Args.default with min_leafs := 1, merge_range := 1, one_le_min_leafs := le_rfl }

/-- Router `4` below the root has the children `6`, with the receiver `8`, and `5`, with the receiver
`2`; below `6` is router `7` with the receiver `3`. -/
def sortedOps : List Op :=
  [.join 2 0, .join 3 0, .join 8 0, .rsp 4 2 1, .rsp 5 2 2, .rsp 4 3 1, .rsp 6 3 2, .rsp 7 3 3,
    .rsp 4 8 1, .rsp 6 8 2]

/-- The leaf of router `7` is merged with that of router `6`. -/
theorem sortedOps_grouped : ∃ s h' mg g,
    exec Args.merging 20 (((Sender.initial.initGroup 1).get rfl).1) sortedOps = some s ∧
    s.Inv 0 ∧ s.Grows 0 ∧
    greedyGrouping Args.merging 20 s.heap resetMergingStats (some 0) = some (h', mg, some g) ∧
    g.mdc = [dataHdr [⟨6, [3, 8]⟩, ⟨5, [2]⟩]] := by
  have hsome : (exec Args.merging 20 (((Sender.initial.initGroup 1).get rfl).1) sortedOps).isSome =
    true := by decide +kernel
  obtain ⟨s, e⟩ := Option.isSome_iff_exists.mp hsome
  have hall : (exec Args.merging 20 (((Sender.initial.initGroup 1).get rfl).1) sortedOps).all
      (fun s => decide (s.Grows 0 ∧
        (greedyGrouping Args.merging 20 s.heap resetMergingStats (some 0)).any fun r =>
          r.2.2.any fun g => decide (g.mdc = [dataHdr [⟨6, [3, 8]⟩, ⟨5, [2]⟩]]))) = true := by
    decide +kernel
  rw [e] at hall
  simp only [Option.all_some, decide_eq_true_eq] at hall
  obtain ⟨H, hgrp⟩ := hall
  obtain ⟨⟨h', mg, grp⟩, hend, hany⟩ := (Option.any_eq_true _ _).mp hgrp
  obtain ⟨g, rfl, hmdc⟩ := (Option.any_eq_true _ _).mp hany
  exact ⟨s, h', mg, g, e, inv_of_exec e (by simp [Op.NotFrom, sortedOps]) (by simp [Steady, sortedOps]),
    H, hend, of_decide_eq_true hmdc⟩

/-- The theorem for this tree. -/
theorem designated_of_sorted : ∃ s F,
    Run Args.merging (((Sender.initial.initGroup 1).get rfl).1) sortedOps s ∧
    s.heap.Groupable 0 F ∧ ∃ h' mg g, ∃ gs : List (List (Seg NodeId NodeId)),
    greedyGrouping Args.merging 20 s.heap resetMergingStats (some 0) = some (h', mg, some g) ∧
    g.mdc = [dataHdr [⟨6, [3, 8]⟩, ⟨5, [2]⟩]] ∧ g.mdc = gs.map s.heap.header ∧
    Plan.doneLeaves gs = ↑F.leaves ∧
    ∀ grp ∈ gs, ∀ sg ∈ grp, s.heap.Designates Args.merging 0 sg := by
  obtain ⟨s, h', mg, g, e, I, H, hend, hmdc⟩ := sortedOps_grouped
  obtain ⟨F, T, hord⟩ := I.exists_groupable H
  obtain ⟨h₁, g₁, gs, N, hrun, hgs, hL, hd⟩ := designated_of_greedyGrouping Args.merging T hord
  obtain ⟨-, -, rfl⟩ := greedyGrouping_unique hrun hend
  exact ⟨s, F, Run.of_exec e, T, h', mg, _, gs, hend, hmdc, hgs, hL, fun grp hg => (hd grp hg).2⟩

end MEADcast
