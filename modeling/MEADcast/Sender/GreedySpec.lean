import MEADcast.Sender.PackSpec

/-!
# The grouping refines the plan

The main loop of `greedy_grouping` follows `Plan.body` round by round: the free counters of
the heap are the free lists of the zipper, and the array with the merging variables is the
group being filled.

## Main results

* `greedyGrouping_spec` — the published headers are those of the groups of the plan.
-/

namespace MEADcast

/-- The heap, the array and the merging variables are in the state of the plan that has
reached the spot `z` with the group `pk`; `s` bounds the routers that are touched. -/
structure LoopAt (args : Args) (h : Heap) (root : NodeId) (s : Set NodeId)
    (z : Spot NodeId NodeId) (pk : Pack NodeId NodeId) (mg : Merging) (g : Packing) : Prop where
  wf : h.Wf
  root_par : h.par root = none
  routers : ∀ x ∈ s, h.IsRouter x
  labs : ∀ x ∈ root :: z.labs, x ∈ s
  spot : SpotAt h root z [z.lab]
  enc : Encodes h args.limit g pk.all
  mrg : MergeAt h mg pk
  spent : ∀ x ∈ s, x ∉ root :: z.labs → h.Spent x

section Loop

variable {args : Args} {h h' : Heap} {root : NodeId} {s : Set NodeId} {z : Spot NodeId NodeId}
  {pk : Pack NodeId NodeId} {mg : Merging} {g : Packing}

/-- Taking leaves from the current router. -/
theorem SpotAt.take {front ls : List NodeId} (H : SpotAt h root z front)
    (D : Heap.Drained h h' {z.lab}) (hk : h'.fkids z.lab = h.fkids z.lab)
    (hl : h'.flvs z.lab = ls) : SpotAt h' root { z with ls := ls } front := by
  obtain ⟨h1, h2, h3, ⟨p, hp, hc⟩, hnd⟩ := H
  have hnd' := hnd
  simp only [Spot.labs, List.nodup_cons, List.mem_cons, List.mem_append, not_or] at hnd'
  obtain ⟨⟨hrl, -, -⟩, ⟨hlk, hlc⟩, -⟩ := hnd'
  refine ⟨hl, hk.trans h2, D.grown h3 fun x hx he => hlk (he ▸ hx),
    ⟨p, by rw [D.par_eq, hp], hc.drained D ?_⟩, hnd⟩
  rintro x rfl
  exact ⟨fun he => hrl he.symm, hlc⟩

/-- After all leaves of the current router were taken and the group is complete. -/
theorem SpotAt.exhaust (W : h.Wf) (hroot : h.par root = none) (H : SpotAt h root z [z.lab])
    (hls : z.ls = []) (hR : ∀ x ∈ root :: z.labs, h.IsRouter x) : ∃ h' N,
      (∀ fuel, N ≤ fuel → recBackPropagate fuel h (some z.lab) = some h') ∧
      Heap.Drained h h' {x | x ∈ root :: z.labs} ∧ SpotAt h' root z z.front := by
  obtain ⟨h1, h2, h3, ⟨p, hp, hc⟩, hnd⟩ := H
  have hlab : h.IsRouter z.lab := hR _ (by simp [Spot.labs])
  cases hk : z.kids with
  | node b ms L rest =>
      refine ⟨h, 2, fun fuel hf => ?_, Heap.Drained.refl W _, ?_⟩
      · obtain ⟨fuel, rfl⟩ : ∃ k, fuel = k + 2 := ⟨fuel - 2, by omega⟩
        exact recBackPropagate_of_free W hlab (Or.inr (by simp [h2, hk])) fuel
      · have : z.front = [z.lab] := by simp [Spot.front, hk]
        rw [this]
        exact ⟨h1, h2, h3, ⟨p, hp, hc⟩, hnd⟩
  | nil =>
      have hnd' := hnd
      simp only [Spot.labs, hk, Forest.labs, List.nil_append, List.nodup_cons, List.mem_cons,
        not_or] at hnd'
      obtain ⟨⟨hrl, hrc⟩, hlc, hcn⟩ := hnd'
      obtain ⟨h', N, hN, D, hc'⟩ := recBackPropagate_spec W hroot hlab hp (by simp [h2, hk])
        (by rw [h1, hls]) (fun x hx => hR x (by
          simp only [Spot.labs, List.mem_cons, List.mem_append] at hx ⊢
          tauto)) (List.nodup_cons.mpr ⟨hrc, hcn⟩) hc
      have hls' : z.lab ∉ {x | x = root ∨ x ∈ ctxLabs z.ctx z.top} := by
        rintro (he | he)
        · exact hrl he.symm
        · exact hlc he
      refine ⟨h', N, hN, D.mono ?_, ?_, ?_, ?_, ⟨p, by rw [D.par_eq, hp], ?_⟩, hnd⟩
      · rintro x (hx | hx) <;> simp [Spot.labs, hx]
      · rw [(D.free_frame hls').2, h1]
      · rw [(D.free_frame hls').1, h2]
      · rw [hk]
        trivial
      · simpa [Spot.front, hk, hls] using hc'

/-- `add2txg` at the current router. -/
theorem LoopAt.add (L : LoopAt args h root s z pk mg g) (G : Plan.PackOk args pk) {m : ℕ}
    (hm : m ≤ z.ls.length)
    (hroom : g.n + m + (if pk.last = none then 1 else 0) ≤ args.limit) : ∃ h' mg' g',
      add2txg args h mg g z.lab m = some (h', mg', g') ∧
      Heap.Drained h h' {x | x ∈ root :: z.labs} ∧ LoopAt args h' root s
        { z with ls := z.ls.drop m } (pk.add args h.hops z.lab (z.ls.take m)) mg' g' ∧
      g'.mdc = g.mdc := by
  have hz : z.lab ∈ s := L.labs _ (by simp [Spot.labs])
  obtain ⟨h', mg', g', e, D, hk, hl, E', M', hmdc⟩ := add2txg_spec L.wf L.enc L.mrg
    (L.routers _ hz) G.last_none args.limit_le (by rw [L.spot.ls]; exact hm) hroom
  rw [L.spot.ls] at hl E' M'
  have D' : Heap.Drained h h' {x | x ∈ root :: z.labs} :=
    D.mono (by rintro x rfl; simp [Spot.labs])
  exact ⟨h', mg', g', e, D', ⟨D.wf, by rw [D.par_eq, L.root_par],
    fun x hx => (D.isRouter_iff x).mpr (L.routers x hx), L.labs, L.spot.take D hk hl, E', M',
    fun x hx hn => D'.spent hn (L.spent x hx hn)⟩, hmdc⟩

/-- Closing the last segment unless leaves of the current router can join it. -/
theorem LoopAt.ready (L : LoopAt args h root s z pk mg g) (hops : NodeId → ℕ) :
    LoopAt args h root s z (pk.ready args hops z.lab)
      (if pk.slot args hops z.lab ≠ 0 ∧ mg.cr ≠ none then resetMergingStats else mg) g :=
  { L with
    enc := by rw [Pack.all_ready]; exact L.enc
    mrg := L.mrg.ready args hops z.lab }

/-! ### The branches of the loop over the leaves -/

section Branches

variable {r : NodeId} {rt : Router} {max p fuel : ℕ} {h' h'' : Heap} {mg' : Merging} {g' : Packing}
  (hrt : h.router r = some rt)

include hrt

/-- Nothing is free. -/
theorem leafLoop_none (h0 : rt.fleaf = 0) :
    leafLoop args max p r (fuel + 1) h mg g = some (h, mg, g, false) := by
  simp only [leafLoop, hrt, Option.bind_eq_bind, Option.bind_some, h0, if_true]

variable (h0 : rt.fleaf ≠ 0)

include h0

/-- The leaves do not fit and stay together. -/
theorem leafLoop_skip (hbig : max < g.n + rt.fleaf + p)
    (hsplit : ¬ (max ≤ rt.fleaf ∨ args.split_nodes = true)) :
    leafLoop args max p r (fuel + 1) h mg g = some (h, mg, g, true) := by
  simp only [leafLoop, hrt, Option.bind_eq_bind, Option.bind_some, h0, if_false, hbig, if_true, hsplit]

/-- They do not fit and are split. -/
theorem leafLoop_split (hbig : max < g.n + rt.fleaf + p)
    (hsplit : max ≤ rt.fleaf ∨ args.split_nodes = true) (hroom : g.n + p ≤ max)
    (e : add2txg args h mg g r (max - g.n - p) = some (h', mg', g')) :
    leafLoop args max p r (fuel + 1) h mg g = some (h', mg', g', true) := by
  have h1 : subSize max g.n = some (max - g.n) := by
    rw [subSize, if_pos (by omega)]
  have h2 : subSize (max - g.n) p = some (max - g.n - p) := by
    rw [subSize, if_pos (by omega)]
  simp only [leafLoop, hrt, Option.bind_eq_bind, Option.bind_some, h0, if_false, hbig, if_true, hsplit,
    h1, h2, e]

variable (hfit : ¬ max < g.n + rt.fleaf + p) (e : add2txg args h mg g r rt.fleaf = some (h', mg', g'))

include hfit e

/-- They complete the group. -/
theorem leafLoop_full (hfull : max - 1 ≤ g.n + rt.fleaf + p ∨ args.ok_addrs ≤ g.n + rt.fleaf + p)
    (hback : recBackPropagate fuel h' (some r) = some h'') :
    leafLoop args max p r (fuel + 1) h mg g = some (h'', mg', g', true) := by
  simp only [leafLoop, hrt, Option.bind_eq_bind, Option.bind_some, h0, if_false, hfit, hfull, if_true, e,
    hback]

/-- There is still space behind them. -/
theorem leafLoop_more (hmore : ¬ (max - 1 ≤ g.n + rt.fleaf + p ∨ args.ok_addrs ≤ g.n + rt.fleaf + p)) :
    leafLoop args max p r (fuel + 1) h mg g = some (h', mg', g', false) := by
  have hlt : g.n + rt.fleaf + p < max := by
    push Not at hmore
    omega
  simp only [leafLoop, hrt, Option.bind_eq_bind, Option.bind_some, h0, if_false, hfit, hmore, hlt,
    if_true, e]

end Branches

/-! ### The loop -/

theorem exists_succ_of_lt {n fuel : ℕ} (h : n + 1 ≤ fuel) : ∃ k, fuel = k + 1 ∧ n ≤ k :=
  ⟨fuel - 1, by omega, by omega⟩

/-- The loop over the leaves of the current router fills the group as the plan does. -/
theorem leafLoop_spec (L : LoopAt args h root s z pk mg g) (G : Plan.PackOk args pk) :
    ∃ z' pk' full, Plan.fill args h.hops z pk = (z', pk', full) ∧ z'.labs = z.labs ∧
      ∃ h' mg' g' N, (∀ fuel, N ≤ fuel →
        leafLoop args args.limit (pk.slot args h.hops z.lab) z.lab fuel h
          (if pk.slot args h.hops z.lab ≠ 0 ∧ mg.cr ≠ none then resetMergingStats else mg) g =
            some (h', mg', g', full)) ∧
        Heap.Drained h h' {x | x ∈ root :: z.labs} ∧
        SpotAt h' root z' (if full then z'.front else [z'.lab]) ∧
        Encodes h' args.limit g' pk'.all ∧ MergeAt h' mg' pk' ∧ g'.mdc = g.mdc := by
  have hz : z.lab ∈ s := L.labs _ (by simp [Spot.labs])
  obtain ⟨rt, hrt⟩ := L.routers _ hz
  have hrt' := Heap.router_eq_some.mpr hrt
  have hfl : rt.fleaf = z.ls.length := by rw [L.wf.fleaf_eq hrt, L.spot.ls]
  have hn : g.n = segSize pk.all := L.enc.n_eq
  have hG := G.room
  have hlim := args.two_le_limit
  have hp1 := pk.slot_le args h.hops z.lab
  have hpl : pk.slot args h.hops z.lab =
      if (pk.ready args h.hops z.lab).last = none then 1 else 0 := Pack.slot_eq
  have G₁ : Plan.PackOk args (pk.ready args h.hops z.lab) := G.ready z.lab
  have L₁ := L.ready h.hops
  rw [Plan.fill_eq, ← hn, ← hfl]
  generalize pk.ready args h.hops z.lab = pk₁ at G₁ L₁ hpl ⊢
  generalize pk.slot args h.hops z.lab = p at L₁ hp1 hpl ⊢
  generalize (if p ≠ 0 ∧ mg.cr ≠ none then resetMergingStats else mg) = mg₁ at L₁ ⊢
  by_cases hl : z.ls = []
  · refine ⟨z, pk₁, false, by rw [if_pos hl], rfl, h, mg₁, g, 1, fun fuel hf => ?_,
      Heap.Drained.refl L.wf _, by simpa using L.spot, L₁.enc, L₁.mrg, rfl⟩
    obtain ⟨fuel, rfl, -⟩ := exists_succ_of_lt hf
    exact leafLoop_none hrt' (by rw [hfl, hl, List.length_nil])
  rw [if_neg hl]
  have hpos := List.length_pos_of_ne_nil hl
  have hfl0 : rt.fleaf ≠ 0 := by omega
  by_cases hbig : args.limit < g.n + rt.fleaf + p
  · rw [if_pos hbig]
    by_cases hsplit : args.limit ≤ rt.fleaf ∨ args.split_nodes = true
    · -- as many leaves as fit
      rw [if_pos hsplit]
      obtain ⟨h', mg', g', e, D, L', hmdc⟩ := L₁.add G₁ (m := args.limit - g.n - p)
        (by omega) (by rw [← hpl]; omega)
      refine ⟨{ z with ls := z.ls.drop (args.limit - g.n - p) }, _, true, rfl, rfl, h',
        mg', g', 1, fun fuel hf => ?_, D, ?_, L'.enc, L'.mrg, hmdc⟩
      · obtain ⟨fuel, rfl, -⟩ := exists_succ_of_lt hf
        exact leafLoop_split hrt' hfl0 hbig hsplit (by omega) e
      · have hne : z.ls.drop (args.limit - g.n - p) ≠ [] := by
          rw [← List.length_pos_iff, List.length_drop]
          omega
        have := L'.spot
        simpa [Spot.front, hne] using this
    · rw [if_neg hsplit]
      refine ⟨z, pk₁, true, rfl, rfl, h, mg₁, g, 1, fun fuel hf => ?_, Heap.Drained.refl L.wf _, ?_,
        L₁.enc, L₁.mrg, rfl⟩
      · obtain ⟨fuel, rfl, -⟩ := exists_succ_of_lt hf
        exact leafLoop_skip hrt' hfl0 hbig hsplit
      · have := L.spot
        simpa [Spot.front, hl] using this
  · rw [if_neg hbig]
    obtain ⟨h', mg', g', e, D, L', hmdc⟩ := L₁.add G₁ (m := z.ls.length) le_rfl
      (by rw [← hpl]; omega)
    rw [List.drop_length, List.take_length] at L'
    rw [← hfl] at e
    by_cases hfull : args.limit - 1 ≤ g.n + rt.fleaf + p ∨ args.ok_addrs ≤ g.n + rt.fleaf + p
    · -- the group is complete, and the router with it
      obtain ⟨h'', N, hN, D', hsp⟩ := L'.spot.exhaust L'.wf L'.root_par rfl
        fun x hx => L'.routers x (L'.labs x hx)
      refine ⟨{ z with ls := [] }, _, true, by rw [decide_eq_true hfull], rfl, h'', mg', g', N + 1,
        fun fuel hf => ?_, D.trans D', by simpa using hsp, L'.enc.congr D'.tag_eq,
        L'.mrg.congr D'.tag_eq, hmdc⟩
      obtain ⟨n, rfl, hle⟩ := exists_succ_of_lt hf
      exact leafLoop_full hrt' hfl0 hbig e hfull (hN n hle)
    · refine ⟨{ z with ls := [] }, _, false, by rw [decide_eq_false hfull], rfl, h', mg', g', 1,
        fun fuel hf => ?_, D, by simpa using L'.spot, L'.enc, L'.mrg, hmdc⟩
      obtain ⟨fuel, rfl, -⟩ := exists_succ_of_lt hf
      exact leafLoop_more hrt' hfl0 hbig e hfull

/-- What is known when the main loop leaves a router with a complete group: `next j` is
followed by a start at `z?`. -/
structure FinishAt (args : Args) (h : Heap) (root : NodeId) (s : Set NodeId)
    (z? : Option (Spot NodeId NodeId)) (pk : Pack NodeId NodeId) (g : Packing) : Prop where
  wf : h.Wf
  enc : Encodes h args.limit g pk.all
  flvs_root : h.flvs root = h.lvs root
  spot : ∀ z, z? = some z → SpotAt h root z [z.lab] ∧ ∀ x ∈ root :: z.labs, x ∈ s
  root_spent : z? = none → h.fkids root = []
  spent : ∀ x ∈ s, x ≠ root → (∃ z, z? = some z ∧ x ∈ z.labs) ∨ h.Spent x

/-- The next group starts with an empty array. -/
theorem FinishAt.restart (F : FinishAt args h root s (some z) pk g) (hroot : h.par root = none)
    (hR : ∀ x ∈ s, h.IsRouter x) :
    LoopAt args h root s z Pack.empty resetMergingStats (finishTxg g) := by
  obtain ⟨hsp, hlab⟩ := F.spot z rfl
  refine ⟨F.wf, hroot, hR, hlab, hsp, ?_, ⟨rfl, rfl⟩, fun x hx hn => ?_⟩
  · rw [F.enc.finish]
    exact encodes_empty _ F.enc.length_eq
  · simp only [List.mem_cons, not_or] at hn
    refine (F.spent x hx hn.1).resolve_left ?_
    rintro ⟨z', hz', hx'⟩
    exact hn.2 (Option.some.inj hz' ▸ hx')

/-- Going down to the first free child. -/
theorem SpotAt.down {lab : NodeId} {ls : List NodeId} {b : NodeId} {ms : List NodeId}
    {K rest : Forest NodeId NodeId} {ctx : List (Frame NodeId NodeId)} {top : Forest NodeId NodeId}
    (W : h.Wf) (H : SpotAt h root ⟨lab, ls, .node b ms K rest, ctx, top⟩ [lab]) :
    SpotAt h root ⟨b, ms, K, ⟨lab, ls, rest⟩ :: ctx, top⟩ [b] := by
  obtain ⟨h1, h2, ⟨rfl, g2, g3, g4⟩, ⟨p, hp, hc⟩, hnd⟩ := H
  have hb : h.par b = some lab := W.kids_parent (W.fkids_subset (by rw [h2]; simp))
  refine ⟨rfl, g2.symm, g3, ⟨lab, hb, rfl, h2, h1, g4, p, hp, by simpa using hc⟩, ?_⟩
  exact ((perm_labs_down lab b ls _ K rest ctx top).cons root).nodup_iff.mpr hnd

/-- Going up once the current router is done. -/
theorem SpotAt.up_frame {lab : NodeId} {f : Frame NodeId NodeId} {ctx : List (Frame NodeId NodeId)}
    {top : Forest NodeId NodeId} (W : h.Wf) (hlab : h.IsRouter lab)
    (H : SpotAt h root ⟨lab, [], .nil, f :: ctx, top⟩ [lab]) :
    h.par lab = some f.lab ∧ h.par f.lab ≠ none ∧ ∃ h', backPropagate h lab = some (h', some f.lab) ∧
      Heap.Drained h h' {f.lab} ∧ SpotAt h' root ⟨f.lab, f.ls, f.sibs, ctx, top⟩ [f.lab] := by
  obtain ⟨h1, h2, -, ⟨p, hp, rfl, hk, hl, hg, q, hq, hc⟩, hnd⟩ := H
  dsimp only at h1 h2 hp hnd
  obtain ⟨h', hb, D, hd1, hd2⟩ := backPropagate_spec W hlab hp h2 h1 f.sibs.tops hk
  have hnd' : (root :: (⟨f.lab, f.ls, f.sibs, ctx, top⟩ : Spot NodeId NodeId).labs).Nodup := by
    simp only [Spot.labs, ctxLabs, Forest.labs, List.nil_append, List.nodup_cons, List.mem_cons,
      not_or] at hnd ⊢
    tauto
  have hnd'' := hnd'
  simp only [Spot.labs, List.nodup_cons, List.mem_cons, List.mem_append, not_or] at hnd''
  obtain ⟨⟨hrf, -, -⟩, ⟨hfs, hfc⟩, -⟩ := hnd''
  refine ⟨hp, by simp [hq], h', hb, D, hd2.trans hl, hd1, D.grown hg fun x hx he => hfs (he ▸ hx),
    ⟨q, by rw [D.par_eq, hq], CtxAt.drained (by simpa using hc) D ?_⟩, hnd'⟩
  rintro x rfl
  exact ⟨fun he => hrf he.symm, hfc⟩

/-- Going up to the root once everything below its current child is done. -/
theorem SpotAt.up_root {lab : NodeId} {top : Forest NodeId NodeId} (W : h.Wf)
    (hlab : h.IsRouter lab) (H : SpotAt h root ⟨lab, [], .nil, [], top⟩ [lab]) :
    h.par lab = some root ∧ ∃ h', backPropagate h lab = some (h', some root) ∧
      Heap.Drained h h' {root} ∧ CtxAt h' root [] top root [] ∧ (root :: ctxLabs [] top).Nodup := by
  obtain ⟨h1, h2, -, ⟨p, hp, rfl, hk, hl, hg⟩, hnd⟩ := H
  dsimp only at h1 h2 hp hnd
  obtain ⟨h', hb, D, hd1, hd2⟩ := backPropagate_spec W hlab hp h2 h1 top.tops hk
  simp only [Spot.labs, Forest.labs, List.nil_append, List.nodup_cons, List.mem_cons,
    not_or] at hnd
  exact ⟨hp, h', hb, D, ⟨rfl, hd1, by rw [hd2, D.lvs_eq, hl],
    D.grown hg fun x hx he => hnd.1.2 (he ▸ hx)⟩, List.nodup_cons.mpr ⟨hnd.1.2, hnd.2.2⟩⟩

/-- What `visit` does at a router whose leaves are done. -/
def advance (args : Args) (h : Heap) (mg : Merging) (g : Packing) (r : NodeId) :
    Option (Heap × Merging × Packing × Jump) := do
  let rt ← h.router r
  match if 0 < rt.fchild then rt.getFreeRouter.head? else none with
  | some c => some (h, mg, g, .start c)
  | none =>
    match rt.parent with
    | none => some (h, mg, g, .next r)
    | some pr => do
      let mg := if mg.cr ≠ none ∧ (← isMergeable args h mg pr) = true
        then { mg with pcr := some pr } else mg
      let (h, _) ← backPropagate h r
      let prt ← h.router pr
      if prt.parent = none then some (h, mg, g, .next pr)
      else some (h, mg, g, .start pr)

theorem visit_eq {max fuel : ℕ} {r : NodeId} {full : Bool} {mg' : Merging} {g' : Packing}
    (hm : isMergeable args h mg r = some (pk.mergeable args h.hops r))
    (e : leafLoop args max (pk.slot args h.hops r) r fuel h
      (if pk.slot args h.hops r ≠ 0 ∧ mg.cr ≠ none then resetMergingStats else mg) g =
        some (h', mg', g', full)) :
    visit args max fuel h mg g r =
      if full = true then some (h', mg', g', .next r) else advance args h' mg' g' r := by
  rw [Pack.slot] at e
  simp only [visit, hm, Option.bind_eq_bind, Option.bind_some, e]
  rfl

/-- The counters of a router on the heap. -/
theorem SpotAt.router {front : List NodeId} (W : h.Wf) (H : SpotAt h root z front)
    (hz : h.IsRouter z.lab) : ∃ rt p, h.router z.lab = some rt ∧ rt.getFreeRouter = z.kids.tops ∧
      rt.fchild = z.kids.tops.length ∧ rt.parent = some p ∧ h.par z.lab = some p := by
  obtain ⟨rt, hrt⟩ := hz
  obtain ⟨p, hp, -⟩ := H.up
  have hfree : rt.getFreeRouter = z.kids.tops := by
    rw [← Heap.fkids_of_node hrt]
    exact H.tops
  refine ⟨rt, p, Heap.router_eq_some.mpr hrt, hfree, ?_, ?_, hp⟩
  · rw [W.fchild_eq hrt, Heap.fkids_of_node hrt, hfree]
  · rw [← hp, Heap.par_of_node hrt]
    rfl

section Advance

variable {lab : NodeId} {ctx : List (Frame NodeId NodeId)} {top : Forest NodeId NodeId}

/-- Down to the first free child. -/
theorem LoopAt.advance_down {b : NodeId} {ms : List NodeId} {K rest : Forest NodeId NodeId}
    (L : LoopAt args h root s ⟨lab, [], .node b ms K rest, ctx, top⟩ pk mg g) :
    advance args h mg g lab = some (h, mg, g, .start b) ∧
      LoopAt args h root s ⟨b, ms, K, ⟨lab, [], rest⟩ :: ctx, top⟩ pk mg g := by
  have hlab : lab ∈ s := L.labs _ (by simp [Spot.labs])
  obtain ⟨rt, -, hrt, hfree, hfc, -⟩ := L.spot.router L.wf (L.routers lab hlab)
  dsimp only at hrt hfree hfc
  refine ⟨?_, L.wf, L.root_par, L.routers, fun x hx => L.labs x ?_, L.spot.down L.wf, L.enc, L.mrg,
    fun x hx hn => L.spent x hx ?_⟩
  · simp [advance, hrt, hfree, hfc, Forest.tops]
  · simp only [Spot.labs, ctxLabs, Forest.labs, List.mem_cons, List.mem_append] at hx ⊢
    tauto
  · simp only [Spot.labs, ctxLabs, Forest.labs, List.mem_cons, List.mem_append] at hn ⊢
    tauto

/-- From a child of the root: the group is complete. -/
theorem LoopAt.advance_root (L : LoopAt args h root s ⟨lab, [], .nil, [], top⟩ pk mg g)
    (hc : CtxLive [] top) : ∃ h' mg' N, advance args h mg g lab = some (h', mg', g, .next root) ∧
      Heap.Drained h h' s ∧ (∀ fuel, N ≤ fuel →
        getStart h' fuel (some root) = some ((Spot.resume [] top).map Spot.lab)) ∧
      FinishAt args h' root s (Spot.resume [] top) pk g := by
  have hlab : lab ∈ s := L.labs _ (by simp [Spot.labs])
  have hroot : root ∈ s := L.labs root (by simp)
  obtain ⟨rt, p, hrt, -, hfc, hpar, hp⟩ := L.spot.router L.wf (L.routers lab hlab)
  have hdone : h.Spent lab := ⟨L.spot.tops, L.spot.ls⟩
  obtain ⟨hp', h', hb, D, hc', hR'⟩ := L.spot.up_root L.wf (L.routers lab hlab)
  obtain rfl : p = root := Option.some.inj (hp.symm.trans hp')
  have D' : Heap.Drained h h' s := D.mono (by rintro x rfl; exact hroot)
  obtain ⟨⟨N, hN⟩, hst⟩ := getStart_resume D.wf (by rw [D.par_eq, L.root_par])
    (fun x hx => (D.isRouter_iff x).mpr (L.routers x (L.labs x (by
      simp only [Spot.labs, ctxLabs, List.mem_cons, List.mem_append] at hx ⊢
      tauto)))) hc hR' hc'
  obtain ⟨rp, hrp⟩ := (D.isRouter_iff p).mpr (L.routers p hroot)
  have hrp' : rp.parent = none := by
    rw [← L.root_par, ← D.par_eq, Heap.par_of_node hrp]
    rfl
  have hoff := isMergeable_spec args L.mrg (L.routers p hroot)
  refine ⟨h', if mg.cr ≠ none ∧ pk.mergeable args h.hops p = true then { mg with pcr := some p }
    else mg, N, ?_, D', hN, D.wf, L.enc.congr D.tag_eq, hc'.flvs_root,
    fun z' hz' => ⟨hst z' hz', fun x hx => ?_⟩, (resume_spent hc').1, fun x hx hxr => ?_⟩
  · dsimp only at hrt hfc
    simp only [advance, hrt, hfc, Forest.tops, List.length_nil, lt_irrefl, if_false, hpar, hoff, hb,
      Heap.router_eq_some.mpr hrp, hrp', Option.bind_eq_bind, Option.bind_some, if_true]
  · rcases List.mem_cons.mp hx with rfl | hx
    · exact hroot
    · refine L.labs x ?_
      have := resume_labs hz' hx
      simp only [Spot.labs, ctxLabs, List.mem_cons, List.mem_append] at this ⊢
      tauto
  · have hn : x ∉ ({p} : Set NodeId) := hxr
    by_cases hxt : x ∈ ctxLabs [] top
    · exact (resume_spent hc').2 x hxt
    by_cases hxl : x = lab
    · exact Or.inr (D.spent hn (hxl ▸ hdone))
    refine Or.inr (D.spent hn (L.spent x hx ?_))
    simpa [Spot.labs, hxr, hxl] using hxt

/-- Up to a parent below the root. -/
theorem LoopAt.advance_up {f : Frame NodeId NodeId}
    (L : LoopAt args h root s ⟨lab, [], .nil, f :: ctx, top⟩ pk mg g) : ∃ h' mg',
      advance args h mg g lab = some (h', mg', g, .start f.lab) ∧ Heap.Drained h h' s ∧
      LoopAt args h' root s ⟨f.lab, f.ls, f.sibs, ctx, top⟩ (pk.offer args h.hops f.lab) mg' g := by
  have hlab : lab ∈ s := L.labs _ (by simp [Spot.labs])
  have hf : f.lab ∈ s := L.labs _ (by simp [Spot.labs, ctxLabs])
  obtain ⟨rt, p, hrt, -, hfc, hpar, hp⟩ := L.spot.router L.wf (L.routers lab hlab)
  have hdone : h.Spent lab := ⟨L.spot.tops, L.spot.ls⟩
  obtain ⟨hp', hq, h', hb, D, hsp'⟩ := L.spot.up_frame L.wf (L.routers lab hlab)
  obtain rfl : p = f.lab := Option.some.inj (hp.symm.trans hp')
  have D' : Heap.Drained h h' s := D.mono (by rintro x rfl; exact hf)
  obtain ⟨rp, hrp⟩ := (D.isRouter_iff f.lab).mpr (L.routers f.lab hf)
  have hrp' : rp.parent ≠ none := by
    rw [← D.par_eq, Heap.par_of_node hrp] at hq
    exact hq
  have hoff := isMergeable_spec args L.mrg (L.routers f.lab hf)
  refine ⟨h', if mg.cr ≠ none ∧ pk.mergeable args h.hops f.lab = true then
      { mg with pcr := some f.lab } else mg, ?_, D', D.wf, by rw [D.par_eq, L.root_par],
    fun x hx => (D.isRouter_iff x).mpr (L.routers x hx), fun x hx => L.labs x ?_, hsp', ?_,
    (L.mrg.offer args (L.routers f.lab hf)).congr D.tag_eq, fun x hx hn => ?_⟩
  · dsimp only at hrt hfc
    simp only [advance, hrt, hfc, Forest.tops, List.length_nil, lt_irrefl, if_false, hpar, hoff, hb,
      Heap.router_eq_some.mpr hrp, hrp', Option.bind_eq_bind, Option.bind_some]
  · simp only [Spot.labs, ctxLabs, Forest.labs, List.mem_cons, List.mem_append] at hx ⊢
    tauto
  · rw [Pack.all_offer]
    exact L.enc.congr D.tag_eq
  · have hxf : x ∉ ({f.lab} : Set NodeId) := by
      rintro rfl
      simp [Spot.labs] at hn
    refine D.spent hxf ?_
    by_cases hxl : x = lab
    · exact hxl ▸ hdone
    · refine L.spent x hx ?_
      simp only [Spot.labs, ctxLabs, Forest.labs, List.mem_cons, List.mem_append] at hn ⊢
      tauto

end Advance

/-- One pass through the main loop. -/
theorem visit_spec {done : List (List (Seg NodeId NodeId))} (L : LoopAt args h root s z pk mg g)
    (H : Plan.Ok args ⟨z, pk, done⟩) : ∃ h' mg' g' N, Heap.Drained h h' s ∧ g'.mdc = g.mdc ∧
      match Plan.turn args h.hops z pk with
      | .go z' pk' => (∀ fuel, N ≤ fuel →
          visit args args.limit fuel h mg g z.lab = some (h', mg', g', .start z'.lab)) ∧
          LoopAt args h' root s z' pk' mg' g'
      | .finish z? pk' => ∃ j, (∀ fuel, N ≤ fuel →
          visit args args.limit fuel h mg g z.lab = some (h', mg', g', .next j) ∧
          getStart h' fuel (some j) = some (z?.map Spot.lab)) ∧
          FinishAt args h' root s z? pk' g' := by
  have hk := H.kids_live
  have hc := H.ctx_live
  dsimp only at hk hc
  obtain ⟨z', pk', full, e, hlabs, h', mg', g', N, hN, D₀, hsp, hE, hM, hmdc⟩ :=
    leafLoop_spec L H.pack
  have D : Heap.Drained h h' s := D₀.mono L.labs
  have hspent : ∀ x ∈ s, x ∉ root :: z.labs → h'.Spent x := fun x hx hn =>
    D₀.spent hn (L.spent x hx hn)
  obtain ⟨ls, pk'', full', e', Fl⟩ := Plan.fill_spec h.hops z pk H.pack H.starts
  obtain ⟨rfl, rfl, rfl⟩ : z' = { z with ls := ls } ∧ pk' = pk'' ∧ full = full' := by
    simpa using e.symm.trans e'
  have hz : z.lab ∈ s := L.labs _ (by simp [Spot.labs])
  have hR' : ∀ x ∈ s, h'.IsRouter x := fun x hx => (D.isRouter_iff x).mpr (L.routers x hx)
  have hroot' : h'.par root = none := by rw [D.par_eq, L.root_par]
  have hvisit : ∀ fuel, N ≤ fuel → visit args args.limit fuel h mg g z.lab =
      if full = true then some (h', mg', g', .next z.lab) else advance args h' mg' g' z.lab :=
    fun fuel hf => visit_eq (isMergeable_spec args L.mrg (L.routers _ hz)) (hN fuel hf)
  have hturn : Plan.turn args h.hops z pk =
      if full then .finish ({ z with ls := ls } : Spot NodeId NodeId).start pk'
      else Plan.move args h.hops { z with ls := ls } pk' := by
    unfold Plan.turn
    rw [e]
    cases full <;> rfl
  rw [hturn]
  cases full with
  | true =>
      obtain ⟨⟨N', hN'⟩, hst⟩ := getStart_start (z := { z with ls := ls }) D.wf hroot'
        (fun x hx => hR' x (L.labs x (by rwa [hlabs] at hx))) hk hc hsp
      refine ⟨h', mg', g', max N N', D, hmdc, z.lab,
        fun fuel hf => ⟨hvisit fuel (by omega), hN' fuel (by omega)⟩,
        ⟨D.wf, hE, ?_, fun z' hz' => ⟨hst z' hz', fun x hx => ?_⟩, (start_spent hsp).1,
          fun x hx hxr => ?_⟩⟩
      · obtain ⟨p, -, hc'⟩ := hsp.up
        exact hc'.flvs_root
      · rcases List.mem_cons.mp hx with rfl | hx
        · exact L.labs x (by simp)
        · exact L.labs x (List.mem_cons_of_mem _ (hlabs ▸ start_labs hz' hx))
      · by_cases hxz : x ∈ z.labs
        · exact (start_spent hsp).2 x (by rwa [hlabs])
        · exact Or.inr (hspent x hx (by simp [hxr, hxz]))
  | false =>
      obtain rfl : ls = [] := (Fl.room rfl).1
      have L' : LoopAt args h' root s { z with ls := [] } pk' mg' g' :=
        ⟨D.wf, hroot', hR', by rw [hlabs]; exact L.labs, hsp, hE, hM, by rw [hlabs]; exact hspent⟩
      obtain ⟨lab, ls₀, kids, ctx, top⟩ := z
      cases kids with
      | node b ms K rest =>
          obtain ⟨ha, L''⟩ := L'.advance_down
          exact ⟨h', mg', g', N, D, hmdc, fun fuel hf => (hvisit fuel hf).trans ha, L''⟩
      | nil =>
          cases ctx with
          | nil =>
              obtain ⟨h'', mg'', N', ha, D', hst, F⟩ := L'.advance_root hc
              exact ⟨h'', mg'', g', max N N', D.trans D', hmdc, root, fun fuel hf =>
                ⟨(hvisit fuel (by omega)).trans ha, hst fuel (by omega)⟩, F⟩
          | cons f ctx =>
              obtain ⟨h'', mg'', ha, D', L''⟩ := L'.advance_up
              rw [D.hops_eq] at L''
              exact ⟨h'', mg'', g', N, D.trans D', hmdc,
                fun fuel hf => (hvisit fuel hf).trans ha, L''⟩

/-- The header of a group of nodes. -/
def Heap.header (h : Heap) (g : List (Seg NodeId NodeId)) : MdcHdr :=
  dataHdr (g.map (Seg.map h.addr h.addr))

theorem Heap.header_congr (ht : h'.tag = h.tag) : h'.header = h.header := by
  funext g
  rw [Heap.header, Heap.addr_congr ht, Heap.header]

/-- The main loop publishes the groups of the plan. -/
theorem groupLoop_spec {hops : NodeId → ℕ} {P : Plan NodeId NodeId}
    {gs : List (List (Seg NodeId NodeId))} (X : Loop.Exits (Plan.body args hops) P gs)
    (hh : h.hops = hops) (L : LoopAt args h root s P.spot P.pack mg g) (H : Plan.Ok args P)
    (hmdc : g.mdc = P.done.map h.header) : ∃ h' g' N, (∀ fuel, N ≤ fuel →
      groupLoop args args.limit fuel h mg g (some P.spot.lab) =
        some (h', resetMergingStats, g')) ∧
      Heap.Drained h h' s ∧ h'.flvs root = h'.lvs root ∧ g'.mdc = gs.map h.header ∧
      h'.fkids root = [] ∧ ∀ x ∈ s, x ≠ root → h'.Spent x := by
  induction X generalizing h mg g with
  | @stop P gs e =>
      obtain ⟨z, pk, done⟩ := P
      obtain ⟨h', mg', g', N, D, hg, hm⟩ := visit_spec L H
      dsimp only at hm hmdc
      rw [hh] at hm
      unfold Plan.body at e
      cases ht : Plan.turn args hops z pk with
      | go z' pk' => simp [ht] at e
      | finish z? pk' =>
          cases z? with
          | some z' => simp [ht] at e
          | none =>
              obtain rfl : pk'.all :: done = gs := by simpa [ht] using e
              simp only [ht] at hm
              obtain ⟨j, hv, F⟩ := hm
              have hfin := F.enc.finish
              refine ⟨h', finishTxg g', N + 2, fun fuel hf => ?_, D, F.flvs_root, ?_,
                F.root_spent rfl, fun x hx hxr => (F.spent x hx hxr).resolve_left (by simp)⟩
              · obtain ⟨fuel, rfl⟩ : ∃ k, fuel = k + 2 := ⟨fuel - 2, by omega⟩
                obtain ⟨h1, h2⟩ := hv (fuel + 1) (by omega)
                simp only [groupLoop, Option.bind_eq_bind, h1, Option.bind_some, h2, Option.map_none]
              · rw [hfin, hg, hmdc, List.map_cons, ← Heap.header_congr D.tag_eq]
                rfl
  | @next P P' gs e _ ih =>
      obtain ⟨z, pk, done⟩ := P
      obtain ⟨h', mg', g', N, D, hg, hm⟩ := visit_spec L H
      have H' := ((Plan.body_spec _ H).1 P' e).1
      dsimp only at hm hmdc
      rw [hh] at hm
      have hh' : h'.hops = hops := D.hops_eq.trans hh
      have hhdr := Heap.header_congr D.tag_eq
      unfold Plan.body at e
      cases ht : Plan.turn args hops z pk with
      | go z' pk' =>
          obtain rfl : ⟨z', pk', done⟩ = P' := by simpa [ht] using e
          simp only [ht] at hm
          obtain ⟨hv, L'⟩ := hm
          obtain ⟨h'', g'', N', hN', D', hU, hmdc', hS⟩ :=
            ih hh' L' H' (by rw [hg, hhdr]; exact hmdc)
          refine ⟨h'', g'', max N N' + 1, fun fuel hf => ?_, D.trans D', hU, by rw [hmdc', hhdr], hS⟩
          obtain ⟨fuel, rfl⟩ : ∃ k, fuel = k + 1 := ⟨fuel - 1, by omega⟩
          simp only [groupLoop, Option.bind_eq_bind, hv fuel (by omega), Option.bind_some]
          exact hN' fuel (by omega)
      | finish z? pk' =>
          cases z? with
          | none => simp [ht] at e
          | some z' =>
              obtain rfl : ⟨z', Pack.empty, pk'.all :: done⟩ = P' := by simpa [ht] using e
              simp only [ht] at hm
              obtain ⟨j, hv, F⟩ := hm
              have hfin := F.enc.finish
              have L' := F.restart (by rw [D.par_eq, L.root_par])
                fun x hx => (D.isRouter_iff x).mpr (L.routers x hx)
              obtain ⟨h'', g'', N', hN', D', hU, hmdc', hS⟩ := ih hh' L' H' (by
                rw [hfin, hg, hmdc, hhdr, List.map_cons, ← hhdr]
                rfl)
              refine ⟨h'', g'', max N N' + 1, fun fuel hf => ?_, D.trans D', hU, by rw [hmdc', hhdr],
                hS⟩
              obtain ⟨fuel, rfl⟩ : ∃ k, fuel = k + 1 := ⟨fuel - 1, by omega⟩
              obtain ⟨h1, h2⟩ := hv fuel (by omega)
              simp only [groupLoop, Option.bind_eq_bind, h1, Option.bind_some, h2, Option.map_some]
              exact hN' fuel (by omega)

theorem Heap.addr_eq_member {x : NodeId} (hx : h.IsLeaf x) :
    (h.member x).sin6_addr = h.addr x := by
  obtain ⟨l, hl⟩ := hx
  rw [Heap.member_of_node hl, Heap.addr_of_node hl]
  rfl

/-- The closing loop lists the free leaves of the root. -/
theorem uniLoop_spec {c : List NodeId} (uni : List Addr) (W : h.Wf) (hr : h.IsRouter root)
    (hc : h.flvs root = c) : ∃ h', uniLoop h root c uni = some (h', uni ++ c.map h.member) ∧
      Heap.Drained h h' {root} ∧ h'.fkids root = h.fkids root ∧ h'.flvs root = [] := by
  induction c generalizing h uni with
  | nil => exact ⟨h, by simp [uniLoop], Heap.Drained.refl W _, rfl, hc⟩
  | cons v c ih =>
      obtain ⟨st, hst⟩ := hr
      have hfl : st.fleaf = c.length + 1 := by rw [W.fleaf_eq hst, hc]; rfl
      obtain ⟨lf, hv⟩ := ((W.mem_lvs root v).mp (W.flvs_subset (hc ▸ List.mem_cons_self))).1
      obtain ⟨D, hk, hd⟩ := Heap.drain_spec W hst (Nat.zero_le _) (show 1 ≤ st.fleaf by omega)
      obtain ⟨h', e, D', hk', hl'⟩ := ih (uni ++ [lf.addr]) D.wf ((D.isRouter_iff root).mpr ⟨st, hst⟩)
        (by rw [hd, hc]; rfl)
      refine ⟨h', ?_, D.trans D', hk'.trans hk, hl'⟩
      rw [Heap.member_congr D.tag_eq, ← Heap.member_of_node hv, List.append_assoc] at e
      have h0 : ¬ st.fleaf = 0 := by omega
      simp only [uniLoop, Heap.router_eq_some.mpr hst, Heap.leaf_eq_some.mpr hv, Option.bind_eq_bind,
        Option.bind_some, h0, if_false, ← Heap.member_of_node hv]
      exact e

/-- The first call of `get_start`, and the state in which the main loop begins. -/
theorem loopAt_first {F : Forest NodeId NodeId} (args : Args) (W : h.Wf)
    (hr : h.IsRouter root) (hroot : h.par root = none) (hF : h.Below root F) (hlive : F.Live)
    (hfree : ∀ x ∈ root :: F.labs, h.FreeAt x) :
    (∃ N, ∀ fuel, N ≤ fuel →
      getStart h fuel (some root) = some ((Spot.resume [] F).map Spot.lab)) ∧
    h.flvs root = h.lvs root ∧
    (Spot.resume [] F = none → h.fkids root = [] ∧ ∀ x ∈ F.labs, h.Spent x) ∧
    ∀ z, Spot.resume [] F = some z →
      LoopAt args h root {x | x ∈ root :: F.labs} z .empty resetMergingStats
        { addrs := List.replicate args.limit 0, n := 0, bm := 0, mdc := [] } := by
  have hroots : ∀ x ∈ root :: F.labs, h.IsRouter x := by
    intro x hx
    rcases List.mem_cons.mp hx with rfl | hx
    · exact hr
    · exact ((W.mem_labs hF x).mp hx).1
  obtain ⟨hk0, hl0⟩ := W.free_of_freeAt (hfree root (by simp))
  have hgrown : F.Grown h.fkids h.flvs := hF.grown.congr
    (fun x hx => (W.free_of_freeAt (hfree x (by simp [hx]))).1)
    fun x hx => (W.free_of_freeAt (hfree x (by simp [hx]))).2
  have hctx : CtxAt h root [] F root [] := ⟨rfl, by rw [hk0, ← hF.tops]; rfl, hl0, hgrown⟩
  obtain ⟨hN, hsp⟩ := getStart_resume W hroot
    (show AllRouters h root [] F from hroots) ⟨by simp, hlive⟩ (W.nodup_labs hroot hF) hctx
  obtain ⟨hS1, hS2⟩ := resume_spent hctx
  refine ⟨hN, hl0, fun hz => ⟨hS1 hz, fun x hx => (hS2 x hx).resolve_left (by simp [hz])⟩,
    fun z hz => ⟨W, hroot, hroots, fun x hx => ?_, hsp z hz, encodes_empty _ (by simp), ⟨rfl, rfl⟩,
      fun x hx hn => ?_⟩⟩
  · rcases List.mem_cons.mp hx with rfl | hx
    · exact List.mem_cons_self
    · exact List.mem_cons_of_mem _ (resume_labs hz hx)
  · simp only [List.mem_cons, not_or] at hn
    refine (hS2 x ((List.mem_cons.mp hx).resolve_left hn.1)).resolve_left ?_
    rintro ⟨z', hz', hx'⟩
    exact hn.2 (Option.some.inj (hz.symm.trans hz') ▸ hx')

/-- `greedy_grouping` publishes the groups of the trees below the root, serves the leaves of
the root by unicast and leaves nothing free. -/
theorem greedyGrouping_spent {F : Forest NodeId NodeId} (args : Args) (W : h.Wf)
    (hr : h.IsRouter root) (hroot : h.par root = none) (hF : h.Below root F) (hlive : F.Live)
    (hfree : ∀ x ∈ root :: F.labs, h.FreeAt x) : ∃ h' gs N, Plan.Groups args h.hops F gs ∧
      (∀ fuel, N ≤ fuel → greedyGrouping args fuel h resetMergingStats (some root) =
        some (h', resetMergingStats, some
          { mdc := gs.map h.header
            nuni := (h.lvs root).length
            uni := (h.lvs root).map h.member })) ∧
      Heap.Drained h h' {x | x ∈ root :: F.labs} ∧ ∀ x ∈ root :: F.labs, h'.Spent x := by
  obtain ⟨⟨N, hN⟩, hl0, hnone, hfirst⟩ := loopAt_first args W hr hroot hF hlive hfree
  obtain ⟨gs, hgs, -, -⟩ := Plan.exists_groups args h.hops hlive
  -- the main loop
  obtain ⟨h₁, g₁, N₁, hN₁, D₁, hU₁, hmdc₁, hK₁, hS₁⟩ : ∃ h₁ g₁ N₁, (∀ fuel, N₁ ≤ fuel →
      groupLoop args args.limit fuel h resetMergingStats
        { addrs := List.replicate args.limit 0, n := 0, bm := 0, mdc := [] }
        ((Spot.resume [] F).map Spot.lab) = some (h₁, resetMergingStats, g₁)) ∧
      Heap.Drained h h₁ {x | x ∈ root :: F.labs} ∧ h₁.flvs root = h₁.lvs root ∧
      g₁.mdc = gs.map h.header ∧ h₁.fkids root = [] ∧
      ∀ x ∈ {x | x ∈ root :: F.labs}, x ≠ root → h₁.Spent x := by
    cases hz : Spot.resume [] F with
    | none =>
        obtain ⟨hS1, hS2⟩ := hnone hz
        obtain rfl : gs = [] := by simpa [Plan.Groups, hz] using hgs
        refine ⟨h, { addrs := List.replicate args.limit 0, n := 0, bm := 0, mdc := [] }, 1,
          fun fuel hf => ?_, Heap.Drained.refl W _, hl0, rfl, hS1, fun x hx hxr => ?_⟩
        · obtain ⟨fuel, rfl⟩ : ∃ k, fuel = k + 1 := ⟨fuel - 1, by omega⟩
          rfl
        · exact hS2 x ((List.mem_cons.mp hx).resolve_left hxr)
    | some z =>
        have hX : Loop.Exits (Plan.body args h.hops) ⟨z, .empty, []⟩ gs := by
          simpa [Plan.Groups, hz] using hgs
        exact groupLoop_spec hX rfl (hfirst z hz) (Plan.ok_start hlive hz) rfl
  have hr₁ := (D₁.isRouter_iff root).mpr hr
  obtain ⟨st, hst⟩ := hr₁
  obtain ⟨h₂, e₂, D₂, hK₂, hL₂⟩ := uniLoop_spec [] D₁.wf ⟨st, hst⟩ rfl
  have hfl : st.fleaf = (h.lvs root).length := by
    rw [D₁.wf.fleaf_eq hst, hU₁, D₁.lvs_eq]
  refine ⟨h₂, gs, max N N₁, hgs, fun fuel hf => ?_, D₁.trans (D₂.mono ?_), fun x hx => ?_⟩
  · have hst' : st.getFreeLeaf = h₁.flvs root := (Heap.flvs_of_node hst).symm
    rw [hU₁, D₁.lvs_eq, Heap.member_congr D₁.tag_eq, List.nil_append] at e₂
    have hlim : (if args.max_addrs < bitmapLimit then args.max_addrs else bitmapLimit) =
      args.limit := rfl
    simp only [greedyGrouping, hlim, Option.bind_eq_bind, hN fuel (by omega), Option.bind_some,
      hN₁ fuel (by omega), Heap.router_eq_some.mpr hst, hst', hU₁, D₁.lvs_eq, e₂, hfl, hmdc₁]
  · rintro x rfl
    exact List.mem_cons_self
  · by_cases hxr : x = root
    · subst hxr
      exact ⟨hK₂.trans hK₁, hL₂⟩
    · exact D₂.spent (by simpa using hxr) (hS₁ x hx hxr)

/-- `greedy_grouping` publishes the groups of the trees below the root and serves the leaves
of the root by unicast. -/
theorem greedyGrouping_spec {F : Forest NodeId NodeId} (args : Args) (W : h.Wf)
    (hr : h.IsRouter root) (hroot : h.par root = none) (hF : h.Below root F) (hlive : F.Live)
    (hfree : ∀ x ∈ root :: F.labs, h.FreeAt x) : ∃ h' gs N, Plan.Groups args h.hops F gs ∧
      (∀ fuel, N ≤ fuel → greedyGrouping args fuel h resetMergingStats (some root) =
        some (h', resetMergingStats, some
          { mdc := gs.map h.header
            nuni := (h.lvs root).length
            uni := (h.lvs root).map h.member })) ∧
      Heap.Drained h h' {x | x ∈ root :: F.labs} := by
  obtain ⟨h', gs, N, hgs, e, D, -⟩ := greedyGrouping_spent args W hr hroot hF hlive hfree
  exact ⟨h', gs, N, hgs, e, D⟩

end Loop

end MEADcast
