import MEADcast.Sender.Visits
import MEADcast.Router.Bounds

/-!
# The headers the sender builds

Every header that `greedy_grouping` builds is one that routers can take apart, and what
`md_data_rcv` finds in it are the segments it was built from.  The space that the main loop
reserves for a router is the space that `set_txg_router` takes, so that the array of addresses
is never left.

## Main definitions

* `MdcHdr.Splittable` — the maps and the length of a header fit together.
* `RoundInBounds` — a round of the main loop stays inside the array.
* `MdcHdr.ReadAs` — the segments that `md_data_rcv` finds in a header.

## Main results

* `headers_of_greedyGrouping` — all of this holds for every call.
* `shift_31` — the shift amount of the first position is 31, whatever the array's length is.
-/

namespace MEADcast

/-- A header with at most `max_addrs` and at most 32 addresses: position `0` is a router, behind
each router there is an endpoint, and every router is to be delivered to. -/
structure MdcHdr.Splittable (hd : MdcHdr) (args : Args) : Prop where
  two_le : 2 ≤ hd.dsts.toNat
  le_max : hd.dsts.toNat ≤ min args.max_addrs 32
  first : hd.rtm.getMsbD 0 = true
  endpoint : ∀ p, hd.rtm.getMsbD p = true →
    p < hd.dsts.toNat ∧ p + 1 < hd.dsts.toNat ∧ hd.rtm.getMsbD (p + 1) = false
  dlvm_eq : hd.dlvm = hd.rtm

/-- The round of the main loop that begins at `start` with these values: the number `p` of
positions reserved for the router is the offset that `set_txg_router` returns.  The index it
writes to, the bit it sets and the addresses that are there after the round are in range. -/
def RoundInBounds (args : Args) (h : Heap) (mg : Merging) (g : Packing) (r : NodeId) : Prop :=
  ∃ b p mg₁ mg' l bm, isMergeable args h mg r = some b ∧ p = (if b = true then 0 else 1) ∧
    mg₁ = (if p ≠ 0 ∧ mg.cr ≠ none then resetMergingStats else mg) ∧
    setTxgRouter args h mg₁ g.addrs g.bm r g.n = some (mg', l, bm, p) ∧
    mg'.icr < args.limit ∧ (∃ sh < 32, subSize 31 mg'.icr = some sh) ∧
    g.n + p ≤ args.limit ∧
    ∃ h' mg'' g' leave,
      Fuel.Ends (fun fuel => leafLoop args args.limit p r fuel h mg₁ g) (h', mg'', g', leave) ∧
      g'.addrs.length = args.limit ∧ g'.n ≤ args.limit

/-- `md_data_rcv` finds the segments `g` in the header: whatever fails on the way, it calls
`md_data_fwd` for them in their order, and for all of them if transmissions succeed. -/
structure MdcHdr.ReadAs (hd : MdcHdr) (g : List (Seg In6Addr In6Addr)) : Prop where
  holds : ∀ p ∈ segPos 0 g, hd.Holds p
  calls : ∀ (net : Net) (skb : Skb), skb.md = some hd → ∃ e left t,
    mdDataRcv net .start skb = some (e, left, t) ∧
    t.calls <+: (segPos 0 g).map (fun p => ((p.1 : Int), ((p.1 + p.2.size : ℕ) : Int))) ∧
    (net.Transmits →
      t.calls = (segPos 0 g).map fun p => ((p.1 : Int), ((p.1 + p.2.size : ℕ) : Int)))

section Headers

variable {args : Args} {h : Heap} {root r : NodeId} {F : Forest NodeId NodeId} {mg : Merging}
  {g : Packing} {grp : List (Seg NodeId NodeId)}

/-! ## Headers -/

theorem wellFormed_of_groupOk (G : GroupOk args grp) :
    segSize (grp.map (Seg.map h.addr h.addr)) ≤ 32 ∧ (h.header grp).WellFormed := by
  have hsz : segSize (grp.map (Seg.map h.addr h.addr)) ≤ 32 := by
    rw [segSize_map]
    exact G.size_le.trans args.limit_le
  refine ⟨hsz, wellFormed_dataHdr (by simpa using G.ne_nil) (fun s hs => ?_) hsz⟩
  obtain ⟨t, ht, rfl⟩ := List.mem_map.mp hs
  simpa using G.leaves_ne_nil t ht

theorem splittable_of_groupOk (G : GroupOk args grp) : (h.header grp).Splittable args := by
  obtain ⟨hsz, W⟩ := @wellFormed_of_groupOk args h grp G
  have hd : (h.header grp).dsts.toNat = segSize grp := by
    rw [segSize_map] at hsz
    simp only [Heap.header, dataHdr, setDataHdr, segSize_map, BitVec.toNat_ofNat]
    omega
  have hlt : ∀ p, (h.header grp).rtm.getMsbD p = true → p < (h.header grp).dsts.toNat := by
    intro p hp
    by_contra hle
    simp [W.beyond p (by omega)] at hp
  have h0 := W.endpoint 0 (hlt 0 W.first) W.first
  refine ⟨by omega, ?_, W.first, fun p hp => ⟨hlt p hp, W.endpoint p (hlt p hp) hp⟩, rfl⟩
  rw [hd, ← args.limit_eq]
  exact G.size_le

theorem readAs_of_groupOk (G : GroupOk args grp) :
    (h.header grp).ReadAs (grp.map (Seg.map h.addr h.addr)) := by
  obtain ⟨hsz, W⟩ := @wellFormed_of_groupOk args h grp G
  obtain ⟨hs, hp⟩ := segs_dataHdr hsz
  refine ⟨fun p hm => W.holds (by rw [Heap.header, hs]; exact hm), fun net skb hmd => ?_⟩
  obtain ⟨e, left, t, l, h1, -⟩ := serve_spec net
    (show (skb.hopped (h.header grp)).md = some { h.header grp with hops := (h.header grp).hops + 1 }
      from rfl) (h.header grp).pending .start W.pending_ne_nil
    fun p hp => W.hopped.holds (List.mem_of_mem_filter hp)
  obtain ⟨l', h2, h3, h4⟩ := serve_calls _ _ h1
  have hc : t.calls = l' := h2
  have he : (h.header grp).pending = segPos 0 (grp.map (Seg.map h.addr h.addr)) := hp
  rw [← hc, List.map_map, he] at h3 h4
  exact ⟨e, left, t, by rw [mdDataRcv_serve hmd W, h1], h3, h4⟩

/-! ## Rounds -/

/-- Where `set_txg_router` writes. -/
theorem icr_of_setTxgRouter {l l' : List In6Addr} {bm bm' : BitVec 32} {n s : ℕ} {mg' : Merging}
    (e : setTxgRouter args h mg l bm r n = some (mg', l', bm', s)) :
    (s = 1 ∧ mg'.icr = n) ∨ (s = 0 ∧ mg'.icr = mg.icr) := by
  simp only [setTxgRouter, Option.bind_eq_bind, Option.bind_eq_some_iff] at e
  obtain ⟨rt, -, e⟩ := e
  split at e
  · -- no merging
    simp only [Option.bind_eq_some_iff] at e
    obtain ⟨_, -, _, -, e⟩ := e
    simp only [Option.some.injEq, Prod.mk.injEq] at e
    exact Or.inl ⟨e.2.2.2.symm, by rw [← e.1]⟩
  · cases hc : mg.cr with
    | none =>
        simp only [hc, Option.bind_eq_some_iff] at e
        obtain ⟨_, -, _, -, e⟩ := e
        simp only [Option.some.injEq, Prod.mk.injEq] at e
        exact Or.inl ⟨e.2.2.2.symm, by rw [← e.1]⟩
    | some c =>
        -- whichever router takes the lead, the position stays
        have hlead : ∀ (u : Bool) (rt ct : Router), (if u = true then
              (copyRouter h l { mg with cr := mg.pcr, pcr := none } r).bind fun l =>
                some ({ mg with cr := mg.pcr, pcr := none }, l, bm, 0)
            else if rt.hops < ct.hops then
              (copyRouter h l { mg with cr := some r } r).bind fun l =>
                some ({ mg with cr := some r }, l, bm, 0)
            else some (mg, l, bm, 0)) = some (mg', l', bm', s) → s = 0 ∧ mg'.icr = mg.icr := by
          intro u rt ct e
          split at e
          · simp only [Option.bind_eq_some_iff, Option.some.injEq, Prod.mk.injEq] at e
            obtain ⟨_, -, e⟩ := e
            exact ⟨e.2.2.2.symm, by rw [← e.1]⟩
          · split at e
            · simp only [Option.bind_eq_some_iff, Option.some.injEq, Prod.mk.injEq] at e
              obtain ⟨_, -, e⟩ := e
              exact ⟨e.2.2.2.symm, by rw [← e.1]⟩
            · simp only [Option.some.injEq, Prod.mk.injEq] at e
              exact ⟨e.2.2.2.symm, by rw [← e.1]⟩
        simp only [hc, Option.bind_eq_some_iff] at e
        obtain ⟨ct, -, e⟩ := e
        cases hq : mg.pcr with
        | none =>
            rw [hq] at e
            exact Or.inr (hlead false rt ct (by simpa [hq, hc] using e))
        | some q =>
            rw [hq] at e
            obtain ⟨qt, -, e⟩ := Option.bind_eq_some_iff.mp e
            exact Or.inr (hlead (decide (qt.hops < rt.hops ∧ qt.hops < ct.hops)) rt ct
              (by simpa [hq, hc] using e))

/-- Every round stays inside the array. -/
theorem VisitAt.inBounds {h₀ : Heap} {P : Plan NodeId NodeId}
    (V : VisitAt args h₀ root F h mg g P) : RoundInBounds args h mg g P.spot.lab := by
  obtain ⟨-, L, H⟩ := V
  obtain ⟨z, pk, done⟩ := P
  have G : Plan.PackOk args pk := H.pack
  have hr : h.IsRouter z.lab := L.routers _ (L.labs _ (by simp [Spot.labs]))
  have hroom := G.room
  have hn : g.n = segSize pk.all := L.enc.n_eq
  have hp1 := pk.slot_le args h.hops z.lab
  have hpl : pk.slot args h.hops z.lab =
      if (pk.ready args h.hops z.lab).last = none then 1 else 0 := Pack.slot_eq
  have hall : (pk.ready args h.hops z.lab).all = pk.all := Pack.all_ready
  have L₁ := L.ready h.hops
  have hM := L₁.mrg
  obtain ⟨mg', l, bm, s, e, E', -⟩ := setTxgRouter_spec L₁.enc hM hr
    (G.ready z.lab).last_none args.limit_le fun _ => by omega
  -- the offset is the number of reserved positions
  have hs : s = pk.slot args h.hops z.lab := by
    have h1 : g.n + s = segSize ((pk.ready args h.hops z.lab).add args h.hops z.lab []).all := E'.n_eq
    have h2 := (Pack.add_spec args h.hops (pk.ready args h.hops z.lab) z.lab ([] : List NodeId)).2.1
    rw [hall, ← hpl, List.length_nil] at h2
    omega
  subst hs
  have hicr : mg'.icr < args.limit := by
    rcases icr_of_setTxgRouter e with ⟨-, hi⟩ | ⟨h0, hi⟩
    · omega
    · -- the open segment starts at `icr`
      have hl : (pk.ready args h.hops z.lab).last ≠ none := by
        intro hl
        rw [if_pos hl] at hpl
        omega
      obtain ⟨o, ho⟩ := Option.ne_none_iff_exists'.mp hl
      unfold MergeAt at hM
      simp only [ho] at hM
      have hsz : segSize (pk.ready args h.hops z.lab).all =
          segSize (pk.ready args h.hops z.lab).segs + (o.seg.leaves.length + 1) := by
        simp [Pack.all, ho]
      rw [hi, hM.1]
      dsimp only
      rw [hall] at hsz
      omega
  obtain ⟨ls, pk', full, hf, Fl⟩ := Plan.fill_spec h.hops z pk G H.starts
  obtain ⟨z'', pk'', full', hf', -, h', mg'', g', N, hN, -, -, E'', -⟩ := leafLoop_spec L G
  obtain ⟨-, rfl, rfl⟩ := by simpa using hf'.symm.trans hf
  refine ⟨_, _, _, mg', l, bm, isMergeable_spec args L.mrg hr, rfl, rfl, e, hicr,
    ⟨31 - mg'.icr, by omega, ?_⟩, ?_, h', mg'', g', full', ⟨N, hN⟩, E''.length_eq, ?_⟩
  · have := args.limit_le
    rw [subSize, if_pos (by omega)]
  · change g.n + pk.slot args h.hops z.lab ≤ args.limit
    omega
  · rw [E''.n_eq]
    exact Fl.size_le

end Headers

/-- For every reduced tree and every configuration `greedy_grouping` ends without leaving its
array, and its headers are well formed.  Every round stays inside the array, with a shift amount
below 32.  `md_data_rcv` finds in the headers the segments they were built from. -/
theorem headers_of_greedyGrouping (args : Args) {h : Heap} {root : NodeId}
    {F : Forest NodeId NodeId} (T : h.Groupable root F) :
    ∃ (h' : Heap) (g : TxGroup) (gs : List (List (Seg NodeId NodeId))) (N : ℕ),
    (∀ fuel, N ≤ fuel → greedyGrouping args fuel h resetMergingStats (some root) =
      some (h', resetMergingStats, some g)) ∧
    (∀ h₁ mg g₁ r, Visited args h root h₁ mg g₁ r → RoundInBounds args h₁ mg g₁ r) ∧
    g.mdc = gs.map h.header ∧
    ∀ grp ∈ gs, (h.header grp).Splittable args ∧
      (h.header grp).segs = segPos 0 (grp.map (Seg.map h.addr h.addr)) ∧
      (h.header grp).ReadAs (grp.map (Seg.map h.addr h.addr)) := by
  obtain ⟨h', gs, N, hgs, e, -⟩ := T.grouped args
  obtain ⟨-, hok⟩ := hgs.leaves_eq T.live
  refine ⟨h', _, gs, N, e, fun h₁ mg g₁ r V => ?_, rfl, fun grp hg => ?_⟩
  · obtain ⟨P, -, A, rfl⟩ := V.exists_plan T
    exact A.inBounds
  · have G := hok grp hg
    exact ⟨splittable_of_groupOk G, (segs_dataHdr (wellFormed_of_groupOk G).1).1,
      readAs_of_groupOk G⟩

/-- The theorem at a run of joins and responses. -/
theorem headers_of_chain : ∃ s F,
    Run Args.default (((Sender.initial.initGroup 1).get rfl).1) chainOps s ∧
    s.heap.Groupable 0 F ∧ ∃ h' g N, (∀ fuel, N ≤ fuel →
      greedyGrouping Args.default fuel s.heap resetMergingStats (some 0) =
        some (h', resetMergingStats, some g)) ∧
      ∀ hd ∈ g.mdc, hd.Splittable Args.default := by
  obtain ⟨s, F, hrun, T, -⟩ := chainOps_groupable
  obtain ⟨h', g, gs, N, e, -, hmdc, hall⟩ := headers_of_greedyGrouping Args.default T
  refine ⟨s, F, hrun, T, h', g, N, e, fun hd hm => ?_⟩
  rw [hmdc] at hm
  obtain ⟨grp, hg, rfl⟩ := List.mem_map.mp hm
  exact (hall grp hg).1

/-- With arrays of ten addresses the bit of position `0` is `1 << 31`: when the loop of the same
run is at `start` for the first time, the shift amount in `set_txg_router` is not below ten. -/
theorem shift_31 : ∃ s F r mg' l bm sh,
    Run Args.default (((Sender.initial.initGroup 1).get rfl).1) chainOps s ∧
    s.heap.Groupable 0 F ∧
    Visited Args.default s.heap 0 s.heap resetMergingStats
      { addrs := List.replicate Args.default.limit 0, n := 0, bm := 0, mdc := [] } r ∧
    setTxgRouter Args.default s.heap resetMergingStats (List.replicate Args.default.limit 0) 0 r 0 =
      some (mg', l, bm, 1) ∧
    subSize 31 mg'.icr = some sh ∧ Args.default.limit = 10 ∧ ¬ sh < Args.default.limit := by
  obtain ⟨s, F, hrun, T, hkids, -⟩ := chainOps_groupable
  obtain ⟨hfirst, hat⟩ := T.first Args.default
  cases hz : Spot.resume [] F with
  | none =>
      cases F with
      | nil => exact absurd T.below.tops.symm (by simpa [Forest.tops] using hkids)
      | node a ls K rest => simp [Spot.resume] at hz
  | some z =>
      rw [hz] at hfirst
      obtain ⟨b, p, mg₁, mg', l, bm, hb, rfl, rfl, e, -⟩ := (hat z hz).inBounds
      obtain rfl : false = b := Option.some.inj hb
      rcases icr_of_setTxgRouter e with ⟨-, hi⟩ | ⟨h0, -⟩
      · exact ⟨s, F, z.lab, mg', l, bm, 31, hrun, T, .first hfirst, e, by rw [hi]; rfl, rfl, by decide⟩
      · exact absurd h0 (by decide)

end MEADcast
