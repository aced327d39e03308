import MEADcast.Sender.Leaders
import MEADcast.Sender.Partition

/-!
# Receivers that stay together

Without the split flag, the receivers of a router that fit into one packet with the address of
the router are added to a group all at once or not at all, however often the router is visited:
a visit that finds too little space leaves them for a later group.

## Main definitions

* `Spot.bundles` — the lists of free leaves.
* `Together` — leaves stand one behind the other in a segment.

## Main results

* `Plan.Groups.together` — they stay together in the groups of a forest.
* `together_of_greedyGrouping` — and in the headers that `greedy_grouping` builds.
-/

namespace MEADcast

variable {α β : Type*} {args : Args} {hops : α → ℕ} {bs : List β}

/-! ## What is still free -/

/-- The lists of free leaves above and behind the current router. -/
def ctxBundles (ctx : List (Frame α β)) (top : Forest α β) : List (List β) :=
  (ctx.flatMap fun f => f.ls :: f.sibs.bundles) ++ top.bundles

/-- All lists of free leaves. -/
def Spot.bundles (z : Spot α β) : List (List β) := z.ls :: (z.kids.bundles ++ ctxBundles z.ctx z.top)

@[simp] theorem ctxBundles_cons (f : Frame α β) (ctx : List (Frame α β)) (top : Forest α β) :
    ctxBundles (f :: ctx) top = f.ls :: (f.sibs.bundles ++ ctxBundles ctx top) := by
  simp [ctxBundles]

/-- Going down to the first child keeps all lists. -/
theorem mem_bundles_down {a b : α} {ls ms : List β} {L rest top : Forest α β}
    {ctx : List (Frame α β)} : bs ∈ ms :: (L.bundles ++ ctxBundles (⟨a, ls, rest⟩ :: ctx) top) ↔
      bs ∈ ls :: ((Forest.node b ms L rest).bundles ++ ctxBundles ctx top) := by
  simp only [Forest.bundles, ctxBundles_cons, List.mem_cons, List.mem_append]
  tauto

namespace Spot

/-- Descending to the deepest router keeps all lists. -/
theorem mem_bundles_deepest {K : Forest α β} {a : α} {ls : List β} {ctx : List (Frame α β)}
    {top : Forest α β} (h : bs ∈ ls :: (K.bundles ++ ctxBundles ctx top)) :
    bs ∈ (deepest K a ls ctx top).bundles := by
  induction K generalizing a ls ctx with
  | nil => simpa [deepest, bundles] using h
  | node b ms L rest ihL _ =>
      apply ihL
      exact mem_bundles_down.mpr h

/-- Resuming keeps all lists but the empty ones. -/
theorem exists_resume {ctx : List (Frame α β)} {top : Forest α β} (h : bs ∈ ctxBundles ctx top)
    (hne : bs ≠ []) : ∃ z, resume ctx top = some z ∧ bs ∈ z.bundles := by
  induction ctx with
  | nil =>
      cases top with
      | nil => simp [ctxBundles] at h
      | node a ls K rest =>
          refine ⟨_, rfl, mem_bundles_deepest ?_⟩
          simpa [ctxBundles] using h
  | cons f ctx ih =>
      obtain ⟨lab, ls, sibs⟩ := f
      cases sibs with
      | node a ms K rest =>
          rw [ctxBundles_cons] at h
          exact ⟨_, rfl, mem_bundles_deepest (mem_bundles_down.mpr h)⟩
      | nil =>
          simp only [ctxBundles_cons, Forest.bundles, List.nil_append, List.mem_cons] at h
          by_cases hl : ls = []
          · simp only [resume, hl, if_true]
            exact ih (h.resolve_left fun he => hne (he.trans hl))
          · simp only [resume, hl, if_false]
            exact ⟨_, rfl, by simpa [bundles] using h⟩

/-- Starting again keeps all lists but the empty ones. -/
theorem exists_start {z : Spot α β} (h : bs ∈ z.bundles) (hne : bs ≠ []) :
    ∃ z', z.start = some z' ∧ bs ∈ z'.bundles := by
  obtain ⟨lab, ls, kids, ctx, top⟩ := z
  cases kids with
  | node b ms L rest =>
      exact ⟨_, rfl, mem_bundles_deepest (mem_bundles_down.mpr h)⟩
  | nil =>
      simp only [bundles, Forest.bundles, List.nil_append, List.mem_cons] at h
      by_cases hl : ls = []
      · simp only [start, hl, if_true]
        exact exists_resume (h.resolve_left fun he => hne (he.trans hl)) hne
      · simp only [start, hl, if_false]
        exact ⟨_, rfl, by simpa [bundles] using h⟩

end Spot

/-! ## Segments -/

/-- The leaves `bs` stand one behind the other in one of the segments. -/
def Together (bs : List β) (g : List (Seg α β)) : Prop := ∃ s ∈ g, bs <:+: s.leaves

/-- Adding leaves keeps together what is together, and the new leaves, too. -/
theorem Pack.together_add (g : Pack α β) (a : α) (ls : List β) :
    Together ls (g.add args hops a ls).all ∧
      (Together bs g.all → Together bs (g.add args hops a ls).all) := by
  obtain ⟨segs, last⟩ := g
  cases last with
  | some l =>
      have hx := Last.extend_leaves hops l a ls
      constructor
      · exact ⟨(l.extend hops a ls).seg, by simp [add, all], l.seg.leaves, [], by simp [hx]⟩
      · rintro ⟨s, hs, hbs⟩
        simp only [all, Option.map_some, Option.toList_some, List.mem_append,
          List.mem_singleton] at hs
        rcases hs with hs | rfl
        · exact ⟨s, by simp [add, all, hs], hbs⟩
        · exact ⟨(l.extend hops a ls).seg, by simp [add, all], hbs.trans ⟨[], ls, by simp [hx]⟩⟩
  | none =>
      have hall : (add args hops ⟨segs, none⟩ a ls).all = segs ++ [⟨a, ls⟩] := by
        simp only [add]
        split <;> simp [all]
      rw [hall]
      constructor
      · exact ⟨⟨a, ls⟩, by simp, List.infix_refl _⟩
      · rintro ⟨s, hs, hbs⟩
        exact ⟨s, by simpa [all] using Or.inl hs, hbs⟩

/-! ## Rounds -/

namespace Plan

/-- Filling takes all leaves of a router with fewer leaves than a group has addresses, or it takes
none of them and completes the group. -/
theorem fill_small {z : Spot α β} (g : Pack α β) (hsplit : args.split_nodes = false)
    (hlt : z.ls.length < args.limit) (hne : z.ls ≠ []) :
    fill args hops z g = (z, g.ready args hops z.lab, true) ∨ ∃ full, fill args hops z g =
      ({ z with ls := [] }, (g.ready args hops z.lab).add args hops z.lab z.ls, full) := by
  have hno : ¬ (args.limit ≤ z.ls.length ∨ args.split_nodes = true) := by
    rw [hsplit]
    simpa using hlt
  rw [fill_eq, if_neg hne, if_neg hno]
  split
  · exact Or.inl rfl
  · exact Or.inr ⟨_, rfl⟩

/-- Filling keeps leaves together, be they in the group or free. -/
theorem fill_together {z : Spot α β} {g : Pack α β} (G : PackOk args g)
    (hsplit : args.split_nodes = false) (hlt : bs.length < args.limit) (hne : bs ≠ []) :
    ∃ ls g' full, fill args hops z g = ({ z with ls := ls }, g', full) ∧ (full = false → ls = []) ∧
      (Together bs g.all → Together bs g'.all) ∧ (z.ls = bs → ls = bs ∨ Together bs g'.all) := by
  by_cases hz : z.ls = bs
  · subst hz
    rcases fill_small g hsplit hlt hne with e | ⟨full, e⟩
    · exact ⟨z.ls, _, true, e, by simp, by simp, fun _ => Or.inl rfl⟩
    · obtain ⟨h1, h2⟩ :=
        @Pack.together_add _ _ args hops z.ls (g.ready args hops z.lab) z.lab z.ls
      rw [Pack.all_ready] at h2
      exact ⟨[], _, full, e, fun _ => rfl, h2, fun _ => Or.inr h1⟩
  · rcases fill_cases hops z g G with ⟨hl, e⟩ | ⟨-, -, e⟩ | ⟨-, -, taken, rest, full, -, -, -, hf, e⟩
    · exact ⟨z.ls, _, _, e, fun _ => hl, by simp, fun h => absurd h hz⟩
    · exact ⟨z.ls, _, _, e, by simp, by simp, fun h => absurd h hz⟩
    · refine ⟨rest, _, full, e, fun h => (hf h).1, fun h => ?_, fun h => absurd h hz⟩
      exact (Pack.together_add _ z.lab taken).2 (by simpa using h)

/-- The leaves are free or stand together in a segment. -/
def Intact (bs : List β) (P : Plan α β) : Prop :=
  bs ∈ P.spot.bundles ∨ Together bs P.pack.all ∨ ∃ g ∈ P.done, Together bs g

/-- A round keeps leaves together. -/
theorem body_intact {P : Plan α β} (G : PackOk args P.pack) (hsplit : args.split_nodes = false)
    (hlt : bs.length < args.limit) (hne : bs ≠ []) (H : P.Intact bs) :
    (∀ P', body args hops P = .inl P' → P'.Intact bs) ∧
      ∀ gs, body args hops P = .inr gs → ∃ g ∈ gs, Together bs g := by
  obtain ⟨z, g, done⟩ := P
  obtain ⟨ls, g', full, e, hfull, hkeep, htake⟩ := @fill_together _ _ args hops bs z g G hsplit hlt hne
  -- after filling
  have H' : bs ∈ ({ z with ls := ls } : Spot α β).bundles ∨ Together bs g'.all ∨
      ∃ g ∈ done, Together bs g := by
    rcases H with H | H | H
    · rcases List.mem_cons.mp H with h | h
      · rcases htake h.symm with h | h
        · exact Or.inl (List.mem_cons.mpr (Or.inl h.symm))
        · exact Or.inr (Or.inl h)
      · exact Or.inl (List.mem_cons_of_mem _ h)
    · exact Or.inr (Or.inl (hkeep H))
    · exact Or.inr (Or.inr H)
  -- at the end of a group
  have hdone : (bs ∈ ({ z with ls := ls } : Spot α β).bundles ∧
        ∃ z', ({ z with ls := ls } : Spot α β).start = some z' ∧ bs ∈ z'.bundles) ∨
      ∃ g ∈ g'.all :: done, Together bs g := by
    rcases H' with h | h | ⟨g, hg, h⟩
    · exact Or.inl ⟨h, Spot.exists_start h hne⟩
    · exact Or.inr ⟨_, List.mem_cons_self, h⟩
    · exact Or.inr ⟨g, List.mem_cons_of_mem _ hg, h⟩
  refine body_rule e hfull (fun z' hz' => ?_) (fun hno => ?_) (fun b ms L rest hf hkids => ?_)
    fun f ctx hf hkids hctx => ?_
  · rcases hdone with ⟨-, z'', hz'', h⟩ | h
    · obtain rfl := Option.some.inj (hz'.symm.trans hz'')
      exact Or.inl h
    · exact Or.inr (Or.inr h)
  · refine hdone.resolve_left ?_
    rintro ⟨-, z', hz', -⟩
    rw [hno] at hz'
    cases hz'
  · obtain rfl := hfull hf
    rw [Spot.bundles, hkids] at H'
    exact H'.imp_left mem_bundles_down.mpr
  · obtain rfl := hfull hf
    rw [Intact, Pack.all_offer]
    refine H'.imp_left fun h => ?_
    simpa [Spot.bundles, hkids, hctx, hne] using h

/-- In the groups of a forest the leaves of a router that fit into one group stand together. -/
theorem Groups.together {F : Forest α β} {gs : List (List (Seg α β))} (h : Groups args hops F gs)
    (hF : F.Live) (hsplit : args.split_nodes = false) (hlt : bs.length < args.limit)
    (hne : bs ≠ []) (hbs : bs ∈ F.bundles) : ∃ g ∈ gs, Together bs g := by
  obtain ⟨z, hz, hmem⟩ := @Spot.exists_resume α _ bs [] F (by simpa [ctxBundles] using hbs) hne
  unfold Groups at h
  rw [hz] at h
  exact h.invariant (fun P => P.Ok args ∧ P.Intact bs) (fun gs => ∃ g ∈ gs, Together bs g)
    ⟨ok_start hF hz, Or.inl hmem⟩
    (fun P P' H e =>
      ⟨((body_spec P H.1).1 P' e).1, (body_intact H.1.pack hsplit hlt hne H.2).1 P' e⟩)
    fun P gs H e => (body_intact H.1.pack hsplit hlt hne H.2).2 gs e

end Plan

/-- Without the split flag all receivers of a router below the root that fit into one packet
with an address for the router stand one behind the other in a segment of one header.  The
receivers of the root itself are served by unicast. -/
theorem together_of_greedyGrouping (args : Args) (hsplit : args.split_nodes = false) {h : Heap}
    {root : NodeId} {F : Forest NodeId NodeId} (T : h.Groupable root F) : ∃ h' g N,
    (∀ fuel, N ≤ fuel → greedyGrouping args fuel h resetMergingStats (some root) =
      some (h', resetMergingStats, some g)) ∧
    (∀ r ∈ F.labs, h.lvs r ≠ [] → (h.lvs r).length + 1 ≤ min args.max_addrs 32 →
      ∃ hd ∈ g.mdc, ∃ p ∈ hd.segs, (h.lvs r).map h.addr <:+: p.2.leaves) ∧
    g.uni = (h.lvs root).map h.member := by
  obtain ⟨h', gs, N, hgs, e, -⟩ := T.grouped args
  obtain ⟨-, hok⟩ := hgs.leaves_eq T.live
  refine ⟨h', _, N, e, fun r hr hne hle => ?_, rfl⟩
  have hlim := args.limit_eq
  obtain ⟨grp, hgrp, sg, hsg, hinf⟩ :=
    hgs.together T.live hsplit (by omega) hne (T.below.grown.mem_bundles hr)
  have hsz : segSize (grp.map (Seg.map h.addr h.addr)) ≤ 32 := by
    rw [segSize_map]
    exact (hok grp hgrp).size_le.trans args.limit_le
  -- the segment in the header
  have hmem : sg.map h.addr h.addr ∈ (h.header grp).segs.map Prod.snd := by
    rw [Heap.header, (segs_dataHdr hsz).1, map_snd_segPos]
    exact List.mem_map_of_mem hsg
  obtain ⟨p, hp, hps⟩ := List.mem_map.mp hmem
  refine ⟨h.header grp, List.mem_map_of_mem hgrp, p, hp, ?_⟩
  rw [hps]
  exact hinf.map h.addr

/-- The theorem at a run of joins and responses. -/
theorem together_of_chain : ∃ s F,
    Run Args.default (((Sender.initial.initGroup 1).get rfl).1) chainOps s ∧
    s.heap.Groupable 0 F ∧ ∃ h' g N, (∀ fuel, N ≤ fuel →
      greedyGrouping Args.default fuel s.heap resetMergingStats (some 0) =
        some (h', resetMergingStats, some g)) ∧
    ∀ r ∈ F.labs, s.heap.lvs r ≠ [] →
      (s.heap.lvs r).length + 1 ≤ min Args.default.max_addrs 32 →
      ∃ hd ∈ g.mdc, ∃ p ∈ hd.segs, (s.heap.lvs r).map s.heap.addr <:+: p.2.leaves := by
  obtain ⟨s, F, hrun, T, -⟩ := chainOps_groupable
  obtain ⟨h', g, N, e, hg, -⟩ := together_of_greedyGrouping Args.default rfl T
  exact ⟨s, F, hrun, T, h', g, N, e, hg⟩

/-- After a single join the tree is the root with a receiver, for which there is no header. -/
theorem root_is_unicast : ∃ s, Run Args.default (((Sender.initial.initGroup 1).get rfl).1)
      [.join 2 0] s ∧ s.heap.Groupable 0 .nil ∧ s.heap.lvs 0 ≠ [] ∧
    (s.heap.lvs 0).length + 1 ≤ min Args.default.max_addrs 32 ∧ ∃ h' g N,
    (∀ fuel, N ≤ fuel → greedyGrouping Args.default fuel s.heap resetMergingStats (some 0) =
      some (h', resetMergingStats, some g)) ∧
    ¬ ∃ hd ∈ g.mdc, ∃ p ∈ hd.segs, (s.heap.lvs 0).map s.heap.addr <:+: p.2.leaves := by
  have hall : (exec Args.default 20 (((Sender.initial.initGroup 1).get rfl).1) [.join 2 0]).map
      (fun s => decide (s.heap.kids 0 = [] ∧ s.heap.lvs 0 ≠ [] ∧ (s.heap.lvs 0).length + 1 ≤ 10 ∧
        ∀ x < s.heap.next, x ≠ 0 → ¬ s.heap.IsRouter x)) = some true := by
    decide +kernel
  obtain ⟨s, e, hall⟩ := Option.map_eq_some_iff.mp hall
  obtain ⟨hkids, hlvs, hlen, hno⟩ := of_decide_eq_true hall
  have I : s.Inv 0 := inv_of_exec e (by simp [Op.NotFrom]) (by simp [Steady])
  obtain ⟨F, hF⟩ := I.wf.exists_forest I.root_par
  obtain rfl : F = .nil := Forest.tops_eq_nil.mp (hF.tops.trans hkids)
  have T : s.heap.Groupable 0 .nil :=
    I.groupable hF fun x hx hne hr => absurd hr (hno x hx hne)
  obtain ⟨h', gs, N, hgs, e', -⟩ := T.grouped Args.default
  obtain rfl : gs = [] := hgs
  refine ⟨s, Run.of_exec e, T, hlvs, hlen, h', _, N, e', ?_⟩
  rintro ⟨hd, hhd, -⟩
  cases hhd

end MEADcast
