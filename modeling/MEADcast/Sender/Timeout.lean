import MEADcast.Sender.PlanMap
import MEADcast.Sender.GreedySpec
import MEADcast.Sender.ReduceSpec
import MEADcast.Sender.ResetSpec
import MEADcast.Sender.Discover

/-!
# Specification of `tout_handler`

A timeout is processed to its end in every state that satisfies the invariant.  It publishes
the groups of the reduced tree and leaves all receivers that hung below the root as its
direct leaves.

## Main definitions

* `TimedOut` — the state after a timeout.

## Main results

* `toutHandler_spec` — every timeout ends in such a state.
-/

namespace MEADcast

open ParentMap

/-- The trees below the root after `reduce_tree`. -/
def Args.kept {α β : Type*} (args : Args) (F : Forest α β) : Forest α β :=
  (F.prune args.cuts).2.1.append (F.prune args.cuts).2.2

/-- The leaves that `reduce_tree` hands to the root. -/
def Args.freed {α β : Type*} (args : Args) (F : Forest α β) : List β := (F.prune args.cuts).1

theorem Args.kept_live {α β : Type*} (args : Args) (F : Forest α β) : (args.kept F).Live :=
  (Forest.live_append _ _).mpr (Forest.prune_live args.cuts_zero F)

theorem Args.kept_leaves {α β : Type*} (args : Args) (F : Forest α β) :
    (args.freed F ++ (args.kept F).leaves).Perm F.leaves := Forest.prune_leaves _ F

/-- The trees below the root of the reduced heap. -/
theorem Reduced.below {args : Args} {h h' : Heap} {ht : Judy} {root : NodeId}
    {F : Forest NodeId NodeId} (R : Reduced args h h' ht root [] [] F) :
    h'.Below root (args.kept F) :=
  ⟨by rw [R.kids_r]; simp [Args.kept], R.grown⟩

namespace Sender

/-- The state after a timeout; `F` are the trees below the root, `gs` the groups. -/
structure TimedOut (args : Args) (s s' : Sender) (root : NodeId) (F : Forest NodeId NodeId)
    (gs : List (List (Seg NodeId NodeId))) : Prop where
  inv : s'.Inv root
  groups : Plan.Groups args s.heap.hops (args.kept F) gs
  txg_eq : s'.txg = some
    { mdc := gs.map s.heap.header
      nuni := (args.freed F ++ s.heap.lvs root).length
      uni := (args.freed F ++ s.heap.lvs root).map s.heap.member }
  rcvr_eq : s'.rcvr = s.rcvr
  par_gone : ∀ x ∈ F.labs, s'.heap.par x = none
  par_leaf : ∀ l ∈ F.leaves, s'.heap.par l = some root
  par_frame : ∀ x, x ∉ F.labs → x ∉ F.leaves → s'.heap.par x = s.heap.par x
  tag_frame : ∀ x, x ∉ F.labs → s'.heap.tag x = s.heap.tag x
  sa_kept : ∀ x ∈ (args.kept F).labs, s'.heap.sa x = s.heap.sa x
  tag_gone : ∀ x ∈ F.labs, x ∉ (args.kept F).labs → s'.heap.tag x = none

section Timeout

variable {args : Args} {s : Sender} {root : NodeId} {F : Forest NodeId NodeId}

/-- Nodes that hang below the root are routers, its leaves receivers. -/
theorem Inv.below (I : s.Inv root) (hF : s.heap.Below root F) :
    (∀ x ∈ F.labs, s.heap.IsRouter x) ∧ (∀ l ∈ F.leaves, s.heap.IsLeaf l) ∧ root ∉ F.labs ∧
      root ∉ F.leaves := by
  have hl : ∀ l ∈ F.leaves, s.heap.IsLeaf l := fun l hl => I.wf.isLeaf_of_mem hF.grown hl
  refine ⟨fun x hx => ((I.wf.mem_labs hF x).mp hx).1, hl, ?_, fun hm =>
    (hl root hm).not_isRouter I.root_router⟩
  exact (List.nodup_cons.mp (I.wf.nodup_labs I.root_par hF)).1

variable {h₁ h₂ h₃ : Heap} {ht₁ : Judy}

/-- Tags that reducing, grouping and resetting leave alone. -/
theorem tag_of_phases (R : Reduced args s.heap h₁ ht₁ root [] [] F)
    (D : h₁.Drained h₂ {x | x ∈ root :: (args.kept F).labs})
    (Z : WasReset h₂ h₃ root root [] (args.kept F)) {x : NodeId} (hx : x ∉ F.labs) :
    h₃.tag x = s.heap.tag x := by
  rw [Z.tag_frame x fun hm => hx (Forest.mem_labs_of_prune hm), D.tag_eq,
    R.tag_frame x fun hm => absurd hm hx]

/-- Parents after reducing, grouping and resetting. -/
theorem par_of_phases (I : s.Inv root) (hF : s.heap.Below root F)
    (R : Reduced args s.heap h₁ ht₁ root [] [] F)
    (D : h₁.Drained h₂ {x | x ∈ root :: (args.kept F).labs})
    (Z : WasReset h₂ h₃ root root [] (args.kept F)) :
    (∀ x ∈ F.labs, h₃.par x = none) ∧ (∀ l ∈ F.leaves, h₃.par l = some root) ∧
      ∀ x, x ∉ F.labs → x ∉ F.leaves → h₃.par x = s.heap.par x := by
  obtain ⟨hr, hl, -, -⟩ := I.below hF
  have hkl : ∀ x ∈ (args.kept F).labs, x ∈ F.labs := fun x hx => Forest.mem_labs_of_prune hx
  have hll : ∀ l ∈ (args.kept F).leaves, l ∈ F.leaves := fun l hl =>
    (args.kept_leaves F).subset (List.mem_append_right _ hl)
  have hdis : ∀ x ∈ F.labs, x ∉ F.leaves := fun x hx hm => (hl x hm).not_isRouter (hr x hx)
  refine ⟨fun x hx => ?_, fun l hml => ?_, fun x hx hm => ?_⟩
  · by_cases hk : x ∈ (args.kept F).labs
    · exact (Z.gone x hk).2.2.1
    · have hnode : h₁.node x = none := by
        by_contra hne
        exact Heap.node_ne_none_iff.mp hne (R.tag_gone x hx hk)
      rw [Z.par_frame x hk fun hm => hdis x hx (hll x hm), D.par_eq]
      simp [Heap.par, hnode]
  · by_cases hk : l ∈ (args.kept F).leaves
    · exact Z.par_leaf l hk
    · have hfr : l ∈ args.freed F := by
        have := (args.kept_leaves F).symm.subset hml
        exact (List.mem_append.mp this).resolve_right hk
      have hlv : l ∈ h₁.lvs root := by
        rw [R.lvs_r]
        exact List.mem_append_left _ hfr
      rw [Z.par_frame l (fun hm => hdis l (hkl l hm) hml) hk, D.par_eq]
      exact R.wf.lvs_parent hlv
  · rw [Z.par_frame x (fun hk => hx (hkl x hk)) fun hk => hm (hll x hk), D.par_eq,
      R.par_frame x hx hm]

/-- The invariant after reducing, grouping and resetting. -/
theorem inv_of_phases (I : s.Inv root) (hF : s.heap.Below root F)
    (R : Reduced args s.heap h₁ ht₁ root [] [] F)
    (D : h₁.Drained h₂ {x | x ∈ root :: (args.kept F).labs})
    (Z : WasReset h₂ h₃ root root [] (args.kept F)) (A : h₃.FreeAt root) (txg : Option TxGroup) :
    ({ s with heap := h₃, ht := ht₁, txg := txg, mg := resetMergingStats } : Sender).Inv root := by
  obtain ⟨hr, hl, hrF, hrl⟩ := I.below hF
  obtain ⟨p1, p2, p3⟩ := par_of_phases I hF R D Z
  have htag : ∀ x, x ∉ F.labs → h₃.tag x = s.heap.tag x := fun x hx => tag_of_phases R D Z hx
  have hsa : h₃.sa = h₁.sa := by
    rw [Z.sa_eq]
    funext x
    rw [Heap.sa, D.tag_eq, Heap.sa]
  -- a removed router is dead, a kept one is detached and empty
  have hdead : ∀ x ∈ F.labs, x ∉ (args.kept F).labs → h₃.node x = none := by
    intro x hx hk
    rw [← Heap.sa_eq_none, hsa, Heap.sa, R.tag_gone x hx hk]
    rfl
  have hLF : ∀ x, h₃.IsLeaf x ↔ s.heap.IsLeaf x := by
    intro x
    by_cases hx : x ∈ F.labs
    · refine iff_of_false (fun hle => ?_) fun hle => hle.not_isRouter (hr x hx)
      by_cases hk : x ∈ (args.kept F).labs
      · refine hle.not_isRouter ((Z.router_frame x).mpr ((D.isRouter_iff x).mpr ?_))
        exact (Heap.isRouter_congr (R.tag_frame x fun _ => hk)).mpr (hr x hx)
      · obtain ⟨l, hle⟩ := hle
        simp [hdead x hx hk] at hle
    · exact Heap.isLeaf_congr (htag x hx)
  refine ⟨Z.wf, fun x => ?_, I.root_eq, ?_, ?_, ?_, ?_, ?_, I.rcvr_nodup, ?_, I.nrcvr_eq, rfl⟩
  · by_cases hk : x ∈ (args.kept F).labs
    · exact (Z.gone x hk).2.2.2.2
    · by_cases hxr : x = root
      · exact hxr ▸ A
      · exact Z.freeAt x hk (D.freeAt (by simp [hxr, hk]) (R.freeAt x (I.allFree x)))
  · exact (Heap.isRouter_congr (htag root hrF)).mpr I.root_router
  · exact (p3 root hrF hrl).trans I.root_par
  · exact R.tracks.congr hsa
  · intro r hrr hp hne
    by_cases hk : r ∈ (args.kept F).labs
    · obtain ⟨h1, h2, -, h4, -⟩ := Z.gone r hk
      exact ⟨h1, h2, h4⟩
    · have hrF' : r ∉ F.labs := fun hx => by
        obtain ⟨rt, hrt⟩ := hrr
        simp [hdead r hx hk] at hrt
      have hr' := (Heap.isRouter_congr (htag r hrF')).mp hrr
      have hrl' : r ∉ F.leaves := fun hm => (hl r hm).not_isRouter hr'
      obtain ⟨h1, h2, h3⟩ := I.orphan r hr' ((p3 r hrF' hrl').symm.trans hp) hne
      refine ⟨?_, ?_, ?_⟩
      · change h₃.kids r = []
        rw [Z.kids_frame r hne hk, D.kids_eq, R.kids_frame r hne hrF', h1]
      · change h₃.lvs r = []
        rw [Z.lvs_frame r hne hk, D.lvs_eq, R.lvs_frame r hne hrF', h2]
      · rw [← h3]
        exact Heap.hops_congr (htag r hrF')
  · intro l hle
    by_cases hm : l ∈ F.leaves
    · exact fun h => by simp [p2 l hm] at h
    · have hle' := (hLF l).mp hle
      have hlF : l ∉ F.labs := fun hx => hle'.not_isRouter (hr l hx)
      exact fun h => I.leaf_par l hle' ((p3 l hlF hm).symm.trans h)
  · exact fun l => (I.mem_rcvr l).trans (hLF l).symm

/-- Every timeout is processed to its end. -/
theorem toutHandler_spec (args : Args) (I : s.Inv root) : ∃ F s' gs N,
    s.heap.Below root F ∧ (∀ fuel, N ≤ fuel → toutHandler args fuel s = some (s', 0)) ∧
      TimedOut args s s' root F gs := by
  obtain ⟨F, hF⟩ := I.wf.exists_forest I.root_par
  obtain ⟨hr, hl, hrF, hrl⟩ := I.below hF
  obtain ⟨h₁, ht₁, N₁, e₁, R⟩ := reduceTree_spec args I.wf I.tracks I.root_router I.root_par hF
  have hF₁ := R.below
  have htag₁ : ∀ x, x ∉ F.labs → h₁.tag x = s.heap.tag x := fun x hx =>
    R.tag_frame x fun hm => absurd hm hx
  have hroot₁ : h₁.IsRouter root := (Heap.isRouter_congr (htag₁ root hrF)).mpr I.root_router
  have hpar₁ : h₁.par root = none := by rw [R.par_frame root hrF hrl, I.root_par]
  obtain ⟨h₂, gs, N₂, hgs, e₂, D⟩ := greedyGrouping_spec args R.wf hroot₁ hpar₁ hF₁
    (args.kept_live F) fun x _ => R.freeAt x (I.allFree x)
  have hF₂ : h₂.Below root (args.kept F) :=
    ⟨by rw [D.kids_eq]; exact hF₁.tops, by rw [D.kids_eq, D.lvs_eq]; exact hF₁.grown⟩
  obtain ⟨h₃, N₃, e₃, Z, A⟩ := recResetTree_spec D.wf ((D.isRouter_iff root).mpr hroot₁)
    (by rw [D.par_eq, hpar₁]) hF₂
  obtain ⟨p1, p2, p3⟩ := par_of_phases I hF R D Z
  have hkl : ∀ x ∈ (args.kept F).labs, h₁.tag x = s.heap.tag x := fun x hx =>
    R.tag_frame x fun _ => hx
  have hleaf : ∀ l, s.heap.IsLeaf l → h₁.tag l = s.heap.tag l := fun l hle =>
    htag₁ l fun hm => hle.not_isRouter (hr l hm)
  have hgs' : Plan.Groups args s.heap.hops (args.kept F) gs :=
    hgs.congr (args.kept_live F) fun x hx => (Heap.hops_congr (hkl x hx)).symm
  have hL := (hgs.leaves_eq (args.kept_live F)).1
  -- headers and members read the same addresses before and after the reduction
  have haddr : ∀ x, h₁.tag x = s.heap.tag x → h₁.addr x = s.heap.addr x := fun x hx => by
    simp [Heap.addr, Heap.sa, hx]
  have hmdc : gs.map h₁.header = gs.map s.heap.header := by
    refine List.map_congr_left fun g hg => ?_
    refine congrArg dataHdr (List.map_congr_left fun sg hsg => ?_)
    have h1 := haddr _ (hkl _ (hgs.router_mem (args.kept_live F) hg hsg))
    have h2 : ∀ l ∈ sg.leaves, h₁.addr l = s.heap.addr l := by
      intro l hml
      have hmem : l ∈ Plan.doneLeaves gs := Plan.mem_doneLeaves.mpr ⟨g, hg, sg, hsg, hml⟩
      rw [hL, Multiset.mem_coe] at hmem
      exact haddr l (hleaf l (hl l ((args.kept_leaves F).subset (List.mem_append_right _ hmem))))
    simp [Seg.map, h1, List.map_congr_left h2]
  have huni : (h₁.lvs root).map h₁.member =
      (args.freed F ++ s.heap.lvs root).map s.heap.member := by
    have hlv : h₁.lvs root = args.freed F ++ s.heap.lvs root := R.lvs_r
    rw [hlv]
    refine List.map_congr_left fun l hml => ?_
    have hle : s.heap.IsLeaf l := by
      rcases List.mem_append.mp hml with hml | hml
      · exact hl l ((args.kept_leaves F).subset (List.mem_append_left _ hml))
      · exact ((I.wf.mem_lvs root l).mp hml).1
    simp [Heap.member, hleaf l hle]
  have hlen : (h₁.lvs root).length = (args.freed F ++ s.heap.lvs root).length := by rw [R.lvs_r]; rfl
  rw [hmdc, huni, hlen] at e₂
  refine ⟨F, { s with heap := h₃, ht := ht₁, txg := some _, mg := resetMergingStats }, gs,
    max N₁ (max N₂ N₃), hF, fun fuel hf => ?_, ⟨inv_of_phases I hF R D Z A _, hgs', rfl, rfl, p1, p2,
      p3, fun x hx => tag_of_phases R D Z hx, fun x hx => ?_, fun x hx hk => ?_⟩⟩
  · simp only [toutHandler, I.root_eq, e₁ fuel (by omega), I.mg_eq, Option.bind_eq_bind,
      Option.bind_some, e₂ fuel (by omega), e₃ fuel (by omega)]
  · change h₃.sa x = _
    rw [Z.sa_eq, Heap.sa, D.tag_eq, hkl x hx, Heap.sa]
  · have hx' : h₃.sa x = none := by
      rw [Z.sa_eq, Heap.sa, D.tag_eq, R.tag_gone x hx hk]
      rfl
    simpa [Heap.sa] using hx'

end Timeout

end Sender

end MEADcast
