import MEADcast.Sender.Strays
import MEADcast.Sender.Designated
import MEADcast.Sender.Headers

/-!
# The merge range

`is_mergeable` compares a router with the leader that the open segment has before the leaves are
added, and `set_txg_router` may pass the lead to a router closer to the sender afterwards.
A receiver whose parent was within the merge range of the old leader need not be within that of
the new one.

## Main definitions

* `Heap.InRange` — the parents of the receivers of a segment are close to its router.
* `KeepsRange` — a round of the main loop does not pass the lead to a router too far away.

## Main results

* `inRange_of_not_strays` — all segments are in range if the tree has no strays.
* `inRange_iff` — they are if and only if all rounds keep it.
* `out_of_range` — a tree for which a receiver ends up too far away.
-/

namespace MEADcast

open ParentMap OrderedTree

/-- The hop counts of the router of a segment and of the parents of its receivers differ by at
most `k`. -/
def Heap.InRange (h : Heap) (k : ℕ) (sg : Seg NodeId NodeId) : Prop :=
  ∀ l ∈ sg.leaves, ∀ p, h.par l = some p → ((h.hops p : ℤ) - (h.hops sg.router : ℤ)).natAbs ≤ k

/-- The round of the main loop adds leaves of `r` to the open segment. -/
def Joins (args : Args) (h : Heap) (mg : Merging) (g : Packing) (r : NodeId) : Prop :=
  isMergeable args h mg r = some true ∧ ∃ rt, h.node r = some (.router rt) ∧ 0 < rt.fleaf ∧
    (g.n + rt.fleaf ≤ args.limit ∨ args.limit ≤ rt.fleaf ∨ args.split_nodes = true)

/-- The two branches in which `set_txg_router` replaces `cr`: the router `d` that takes its place
is `pcr` or `r`. -/
def Replaces (h : Heap) (mg : Merging) (r d : NodeId) : Prop :=
  ∃ c, mg.cr = some c ∧
    ((mg.pcr = some d ∧ h.hops d < h.hops r ∧ h.hops d < h.hops c) ∨
      (d = r ∧ h.hops r < h.hops c ∧
        ∀ q, mg.pcr = some q → ¬ (h.hops q < h.hops r ∧ h.hops q < h.hops c)))

/-- The receiver `l` stands behind the router of the open segment in the array. -/
def InOpen (h : Heap) (mg : Merging) (g : Packing) (l : NodeId) : Prop :=
  h.IsLeaf l ∧ ∃ j, mg.icr < j ∧ j < g.n ∧ g.addrs[j]? = some (h.addr l)

/-- If leaves of `r` are added to the open segment and `cr` is replaced by `d`, then `r` and the
parents of the receivers in the segment are at most `merge_range` hops further away than `d`. -/
def KeepsRange (args : Args) (h : Heap) (mg : Merging) (g : Packing) (r : NodeId) : Prop :=
  Joins args h mg g r → ∀ d, Replaces h mg r d →
    h.hops r ≤ h.hops d + args.merge_range ∧
    ∀ l, InOpen h mg g l → ∀ p, h.par l = some p → h.hops p ≤ h.hops d + args.merge_range

section MergeRange

variable {args : Args} {h h₀ : Heap} {ht : Judy} {root : NodeId} {F : Forest NodeId NodeId}
  {mg : Merging} {g : Packing} {P : Plan NodeId NodeId}

theorem inRange_iff_ranged {k : ℕ} {sg : Seg NodeId NodeId} (hf : sg.Foremost h.hops h.par) :
    h.InRange k sg ↔ sg.Ranged h.hops h.par k := by
  refine ⟨fun H l hl p hp => ?_, fun H l hl p hp => ?_⟩
  · have := H l hl p hp
    omega
  · have h1 := H l hl p hp
    have h2 := hf l hl p hp
    omega

/-- The leaves the plan deals with are those below the routers. -/
theorem Plan.Visited.spec {α β : Type*} {args : Args} {hops : α → ℕ} {F : Forest α β}
    {P : Plan α β} (V : Plan.Visited args hops F P) (hF : F.Live) :
    P.Ok args ∧ P.leaves = ↑F.leaves := by
  obtain ⟨z, hz, hv⟩ := V
  induction hv with
  | refl =>
      refine ⟨Plan.ok_start hF hz, ?_⟩
      obtain ⟨h1, -, -⟩ := (Spot.resume_spec [] F).2 z hz
      simp [Plan.leaves, Plan.doneLeaves, h1, ctxFree]
  | tail _ e ih =>
      obtain ⟨h1, h2, -⟩ := (Plan.body_spec _ ih.1).1 _ e
      exact ⟨h1, h2.trans ih.2⟩

/-- The array holds the leaves of the open segment behind its router. -/
theorem inOpen_iff (K : Tracks ht h) {l : Last NodeId NodeId} {segs : List (Seg NodeId NodeId)}
    (E : Encodes h args.limit g (segs ++ [l.seg])) (hicr : mg.icr = segSize segs)
    (hleaf : ∀ x ∈ l.seg.leaves, h.IsLeaf x) (x : NodeId) :
    InOpen h mg g x ↔ x ∈ l.seg.leaves := by
  have hn : g.n = segSize segs + 1 + l.seg.leaves.length := by
    rw [E.n_eq]
    simp
    omega
  have hget : ∀ k, k < l.seg.leaves.length →
      g.addrs[segSize segs + 1 + k]? = (l.seg.leaves[k]?).map h.addr := by
    intro k hk
    have htake : (g.addrs.take g.n)[segSize segs + 1 + k]? = g.addrs[segSize segs + 1 + k]? := by
      rw [List.getElem?_take, if_pos (by omega)]
    rw [← htake, E.take_eq, List.getElem?_map, segAddrs_append, segAddrs_cons, segAddrs_nil,
      List.append_nil, List.getElem?_append_right (by rw [length_segAddrs]; omega), length_segAddrs,
      show segSize segs + 1 + k - segSize segs = k + 1 by omega, List.getElem?_cons_succ]
  have hinj : ∀ y ∈ l.seg.leaves, h.IsLeaf x → h.addr x = h.addr y → x = y := by
    intro y hy hx he
    obtain ⟨lx, hx⟩ := hx
    obtain ⟨ly, hy⟩ := hleaf y hy
    rw [Heap.addr_of_node hx, Heap.addr_of_node hy] at he
    refine K.inj (Heap.sa_of_tag (Heap.tag_of_node hx)) ?_
    rw [Heap.sa_of_tag (Heap.tag_of_node hy)]
    exact congrArg some he.symm
  constructor
  · rintro ⟨hx, j, hj, hjn, hja⟩
    obtain ⟨k, rfl⟩ : ∃ k, j = segSize segs + 1 + k := ⟨j - segSize segs - 1, by omega⟩
    rw [hget k (by omega)] at hja
    obtain ⟨y, hy, he⟩ := Option.map_eq_some_iff.mp hja
    have hmem := List.mem_of_getElem? hy
    rw [hinj y hmem hx he.symm]
    exact hmem
  · intro hx
    obtain ⟨k, hk⟩ := List.mem_iff_getElem?.mp hx
    obtain ⟨hlt, -⟩ := List.getElem?_eq_some_iff.mp hk
    exact ⟨hleaf x hx, segSize segs + 1 + k, by omega, by omega, by rw [hget k hlt, hk]; rfl⟩

/-- A round of the main loop keeps the range if and only if that of the plan does. -/
theorem VisitAt.keepsRange_iff (V : VisitAt args h₀ root F h mg g P) (K : Tracks ht h₀)
    (hleaf : ∀ s ∈ P.pack.all, ∀ x ∈ s.leaves, h₀.IsLeaf x) :
    KeepsRange args h mg g P.spot.lab ↔ Plan.Keeps args h₀.hops h₀.par P.spot P.pack := by
  obtain ⟨D, L, H⟩ := V
  obtain ⟨z, pk, done⟩ := P
  dsimp only at L hleaf ⊢
  rw [← D.hops_eq, ← D.par_eq]
  have K' : Tracks ht h := K.congr (funext fun x => by rw [Heap.sa, D.tag_eq, Heap.sa])
  have hr : h.IsRouter z.lab := L.routers _ (L.labs _ (by simp [Spot.labs]))
  have hmerge := isMergeable_spec args L.mrg hr
  have hn : g.n = segSize pk.all := L.enc.n_eq
  obtain ⟨rt, hrt⟩ := hr
  have hfl : rt.fleaf = z.ls.length := by rw [L.wf.fleaf_eq hrt, L.spot.ls]
  -- the same rounds add leaves to the open segment
  have hjoin : Joins args h mg g z.lab ↔
      pk.mergeable args h.hops z.lab = true ∧ z.ls ≠ [] ∧ Plan.Room args h.hops z pk := by
    constructor
    · rintro ⟨hm, rt', hrt', hpos, hroom⟩
      obtain rfl : rt = rt' := by simpa [hrt] using hrt'
      rw [hmerge, Option.some.injEq] at hm
      rw [hfl] at hpos hroom
      exact ⟨hm, List.length_pos_iff.mp hpos, by simpa [Plan.Room, hm, hn] using hroom⟩
    · rintro ⟨hm, hls, hroom⟩
      refine ⟨by rw [hmerge, hm], rt, hrt, by rw [hfl]; exact List.length_pos_iff.mpr hls, ?_⟩
      rw [hfl]
      simpa [Plan.Room, hm, hn] using hroom
  unfold KeepsRange Plan.Keeps
  rw [hjoin]
  cases hl : pk.last with
  | none =>
      have hno : ∀ d, ¬ Replaces h mg z.lab d := by
        rintro d ⟨c, hc, -⟩
        have M := L.mrg
        unfold MergeAt at M
        simp [hl] at M
        simp [M.1] at hc
      exact ⟨fun _ _ _ _ l hl' => by simp at hl', fun _ _ d hd => absurd hd (hno d)⟩
  | some l =>
      have M := L.mrg
      unfold MergeAt at M
      simp only [hl] at M
      obtain ⟨rfl, -, -⟩ := M
      have hall : pk.all = pk.segs ++ [l.seg] := by simp [Pack.all, hl]
      have hrep : ∀ d, Replaces h ⟨some l.seg.router, l.pcr, segSize pk.segs, l.init⟩ z.lab d ↔
          l.successor h.hops z.lab = some d := by
        intro d
        rw [Last.successor_eq_some]
        simp [Replaces]
      have hopen : ∀ x, InOpen h ⟨some l.seg.router, l.pcr, segSize pk.segs, l.init⟩ g x ↔
          x ∈ l.seg.leaves :=
        inOpen_iff K' (by rw [← hall]; exact L.enc) rfl fun x hx =>
          (Heap.isLeaf_congr (congrFun D.tag_eq x)).mpr (hleaf l.seg (by simp [hall]) x hx)
      simp only [hrep, hopen]
      refine ⟨fun H hm hls hroom l' hl' => ?_, fun H hj => H hj.1 hj.2.1 hj.2.2 l rfl⟩
      obtain rfl := Option.some.inj hl'
      exact H ⟨hm, hls, hroom⟩

/-- The groups of a tree are in range if and only if every round keeps the range. -/
theorem Heap.Groupable.inRange_iff_keeps (T : h.Groupable root F) (K : Tracks ht h)
    {gs : List (List (Seg NodeId NodeId))} (hgs : Plan.Groups args h.hops F gs) :
    (∀ grp ∈ gs, ∀ sg ∈ grp, h.InRange args.merge_range sg) ↔
      ∀ h₁ mg g r, Visited args h root h₁ mg g r → KeepsRange args h₁ mg g r := by
  have hH : Hangs (h.parIn F) h.par root F :=
    T.wf.hangs T.below.grown (by rw [T.below.tops]; exact List.Subset.refl _) (List.Subset.refl _)
  obtain ⟨hiff, hfore⟩ := hgs.ranged_iff T.live hH
  have hranged : (∀ grp ∈ gs, ∀ sg ∈ grp, h.InRange args.merge_range sg) ↔
      ∀ grp ∈ gs, ∀ sg ∈ grp, sg.Ranged h.hops h.par args.merge_range :=
    forall₂_congr fun grp hg => forall₂_congr fun sg hs => inRange_iff_ranged (hfore grp hg sg hs)
  have hleaf : ∀ P, Plan.Visited args h.hops F P → ∀ s ∈ P.pack.all, ∀ x ∈ s.leaves, h.IsLeaf x := by
    intro P hP s hs x hx
    have hmem : x ∈ P.leaves := by
      rw [Plan.leaves, Multiset.mem_add, Multiset.mem_add]
      exact Or.inl (Or.inr (mem_segLeaves.mpr ⟨s, hs, hx⟩))
    rw [(hP.spec T.live).2, Multiset.mem_coe] at hmem
    exact T.wf.isLeaf_of_mem T.below.grown hmem
  rw [hranged, hiff]
  constructor
  · intro H h₁ mg g r V
    obtain ⟨P, hP, A, rfl⟩ := V.exists_plan T
    exact (A.keepsRange_iff K (hleaf P hP)).mpr (H P hP)
  · intro H P hP
    obtain ⟨h₁, mg, g, V, A⟩ := exists_visited T hP
    exact (A.keepsRange_iff K (hleaf P hP)).mp (H _ _ _ _ V)

end MergeRange

/-- In the headers that `greedy_grouping` builds the parents of all receivers are within the
merge range of the router in front of them if and only if no round of the main loop passes the
lead to a router that is too far away. -/
theorem inRange_iff (args : Args) {h : Heap} {ht : Judy} {root : NodeId}
    {F : Forest NodeId NodeId} (T : h.Groupable root F) (K : Tracks ht h) : ∃ h' g gs N,
    (∀ fuel, N ≤ fuel → greedyGrouping args fuel h resetMergingStats (some root) =
      some (h', resetMergingStats, some g)) ∧
    g.mdc = gs.map h.header ∧ Plan.doneLeaves gs = ↑F.leaves ∧
    (∀ grp ∈ gs, (h.header grp).segs.map Prod.snd = grp.map (Seg.map h.addr h.addr)) ∧
    ((∀ grp ∈ gs, ∀ sg ∈ grp, h.InRange args.merge_range sg) ↔
      ∀ h₁ mg g₁ r, Visited args h root h₁ mg g₁ r → KeepsRange args h₁ mg g₁ r) := by
  obtain ⟨h', gs, N, hgs, e, -⟩ := T.grouped args
  obtain ⟨hL, hok⟩ := hgs.leaves_eq T.live
  refine ⟨h', _, gs, N, e, rfl, hL, fun grp hg => ?_, T.inRange_iff_keeps K hgs⟩
  rw [Heap.header, (segs_dataHdr (wellFormed_of_groupOk (hok grp hg)).1).1, map_snd_segPos]

end MEADcast
