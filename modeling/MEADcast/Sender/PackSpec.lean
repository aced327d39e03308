import MEADcast.Sender.WalkSpec
import MEADcast.Sender.Inv

/-!
# Filling a header on the heap

The address array, its length, the bitmap and the merging variables of the grouping
describe a `Pack` of node identifiers, and `add2txg` adds leaves to it as `Pack.add` says.

## Main definitions

* `Encodes` — the array and the bitmap hold a list of segments.
* `MergeAt` — the merging variables describe the last segment.
-/

namespace MEADcast

/-- The address of a live node. -/
def Heap.addr (h : Heap) (x : NodeId) : In6Addr := (h.sa x).getD 0

theorem Heap.addr_of_node {h : Heap} {x : NodeId} {nd : Node} (hx : h.node x = some nd) :
    h.addr x = nd.sa := by
  simp [Heap.addr, Heap.sa, Heap.tag_of_node hx]

theorem Heap.addr_congr {h h' : Heap} (ht : h'.tag = h.tag) : h'.addr = h.addr := by
  funext x
  simp [Heap.addr, Heap.sa, ht]

/-- The array, the length and the bitmap hold a list of segments. -/
structure Encodes (h : Heap) (max : ℕ) (g : Packing) (segs : List (Seg NodeId NodeId)) : Prop where
  length_eq : g.addrs.length = max
  n_eq : g.n = segSize segs
  take_eq : g.addrs.take g.n = (segAddrs segs).map h.addr
  bm_eq : g.bm = segBitmap 0 segs

/-- The merging variables describe the open segment, if there is one. -/
def MergeAt (h : Heap) (mg : Merging) (pk : Pack NodeId NodeId) : Prop :=
  match pk.last with
  | none => mg.cr = none ∧ mg.pcr = none
  | some l => mg = ⟨some l.seg.router, l.pcr, segSize pk.segs, l.init⟩ ∧
      h.IsRouter l.seg.router ∧ ∀ q, l.pcr = some q → h.IsRouter q

section Pack

variable {h h' : Heap} {max : ℕ} {g : Packing} {segs : List (Seg NodeId NodeId)}
  {pk : Pack NodeId NodeId} {mg : Merging} {args : Args} {r : NodeId}

theorem Encodes.congr (E : Encodes h max g segs) (ht : h'.tag = h.tag) :
    Encodes h' max g segs :=
  { E with take_eq := by rw [Heap.addr_congr ht, E.take_eq] }

theorem MergeAt.congr (M : MergeAt h mg pk) (ht : h'.tag = h.tag) : MergeAt h' mg pk := by
  unfold MergeAt at M ⊢
  cases hl : pk.last with
  | none => simpa only [hl] using M
  | some l =>
      simp only [hl] at M ⊢
      obtain ⟨h1, h2, h3⟩ := M
      exact ⟨h1, (Heap.isRouter_congr (congrFun ht _)).mpr h2,
        fun q hq => (Heap.isRouter_congr (congrFun ht _)).mpr (h3 q hq)⟩

/-- Nothing is encoded by a fresh array. -/
theorem encodes_empty {l : List In6Addr} (mdc : List MdcHdr) (hl : l.length = max) :
    Encodes h max ⟨l, 0, 0, mdc⟩ [] := ⟨hl, rfl, rfl, rfl⟩

/-- The finished header. -/
theorem Encodes.finish (E : Encodes h max g segs) : finishTxg g =
    ⟨g.addrs, 0, 0, dataHdr (segs.map (Seg.map h.addr h.addr)) :: g.mdc⟩ := by
  rw [finishTxg, ← @setDataHdr_eq g.addrs _ g.bm (by simpa [← E.n_eq] using E.take_eq)
    (by simpa using E.bm_eq), segSize_map, E.n_eq]

theorem take_set_succ {α : Type*} {l : List α} {k : ℕ} (hk : k < l.length) (a : α) :
    (l.set k a).take (k + 1) = l.take k ++ [a] := by
  rw [List.take_add_one, List.getElem?_set_self hk, List.take_set_of_le le_rfl]
  rfl

/-- A new segment for `a`. -/
theorem Encodes.open (E : Encodes h max g segs) (hroom : g.n < max) (a : NodeId) :
    Encodes h max ⟨g.addrs.set g.n (h.addr a), g.n + 1, g.bm ||| posBit g.n, g.mdc⟩
      (segs ++ [⟨a, []⟩]) where
  length_eq := by rw [List.length_set, E.length_eq]
  n_eq := by simp [E.n_eq]
  take_eq := by
    rw [take_set_succ (by rw [E.length_eq]; exact hroom), E.take_eq]
    simp
  bm_eq := by rw [segBitmap_concat, E.bm_eq, E.n_eq, Nat.zero_add]

/-- Another leader for the last segment. -/
theorem Encodes.lead {a : NodeId} {ls : List NodeId} (E : Encodes h max g (segs ++ [⟨a, ls⟩]))
    (b : NodeId) : Encodes h max { g with addrs := g.addrs.set (segSize segs) (h.addr b) }
      (segs ++ [⟨b, ls⟩]) where
  length_eq := by rw [List.length_set, E.length_eq]
  n_eq := by simp [E.n_eq]
  take_eq := by
    have hn : segSize segs = ((segAddrs segs).map h.addr).length := by simp
    have he := E.take_eq
    simp only [segAddrs_append, segAddrs_cons, segAddrs_nil, List.append_nil, List.map_append,
      List.map_cons] at he ⊢
    rw [List.take_set, he, hn, List.set_append_right _ _ le_rfl]
    simp
  bm_eq := by rw [E.bm_eq, segBitmap_concat, segBitmap_concat]

/-- More leaves for the last segment. -/
theorem Encodes.extend {a : NodeId} {ls : List NodeId}
    (E : Encodes h max g (segs ++ [⟨a, ls⟩])) (l : List In6Addr) (ms : List NodeId) (hl : l.length = max)
    (ht : l.take (g.n + ms.length) = g.addrs.take g.n ++ ms.map h.addr) :
    Encodes h max ⟨l, g.n + ms.length, g.bm, g.mdc⟩ (segs ++ [⟨a, ls ++ ms⟩]) where
  length_eq := hl
  n_eq := by
    rw [E.n_eq]
    simp
    omega
  take_eq := by
    dsimp only
    rw [ht, E.take_eq]
    simp
  bm_eq := by rw [E.bm_eq, segBitmap_concat, segBitmap_concat]

/-! ### Merging -/

theorem isMergeable_spec (args : Args) (M : MergeAt h mg pk) (hr : h.IsRouter r) :
    isMergeable args h mg r = some (pk.mergeable args h.hops r) := by
  obtain ⟨rt, hrt⟩ := hr
  unfold MergeAt at M
  cases hl : pk.last with
  | none =>
      simp only [hl] at M
      simp [isMergeable, M.1, Pack.mergeable, hl]
  | some l =>
      simp only [hl] at M
      obtain ⟨rfl, ⟨ct, hct⟩, -⟩ := M
      simp [isMergeable, Pack.mergeable, hl, Heap.router_eq_some.mpr hrt,
        Heap.router_eq_some.mpr hct, Heap.hops_of_router hrt, Heap.hops_of_router hct]

/-- The open segment is closed unless leaves of `r` can join it. -/
theorem MergeAt.ready (M : MergeAt h mg pk) (args : Args) (hops : NodeId → ℕ) (r : NodeId) :
    MergeAt h (if pk.slot args hops r ≠ 0 ∧ mg.cr ≠ none then resetMergingStats else mg)
      (pk.ready args hops r) := by
  unfold Pack.slot Pack.ready
  split
  · simpa using M
  · simp only [ne_eq, one_ne_zero, not_false_eq_true, true_and]
    by_cases hc : mg.cr = none
    · have hp : mg.pcr = none := by
        unfold MergeAt at M
        cases hl : pk.last with
        | none => simp only [hl] at M; exact M.2
        | some l => simp only [hl] at M; simp [M.1] at hc
      simp [hc, MergeAt, Pack.close, hp]
    · simp [hc, MergeAt, Pack.close, resetMergingStats]

/-- The parent of the router left behind waits to lead the open segment. -/
theorem MergeAt.offer (args : Args) (M : MergeAt h mg pk) (hr : h.IsRouter r) :
    MergeAt h (if mg.cr ≠ none ∧ pk.mergeable args h.hops r = true then { mg with pcr := some r }
      else mg) (pk.offer args h.hops r) := by
  unfold Pack.offer
  by_cases hm : pk.mergeable args h.hops r = true
  · obtain ⟨l, hl⟩ := Option.ne_none_iff_exists'.mp (Pack.last_of_mergeable hm)
    unfold MergeAt at M
    simp only [hl] at M
    obtain ⟨rfl, h2, -⟩ := M
    simp [hm, MergeAt, hl, h2, hr]
  · simpa [hm] using M

/-- The waiting router is passed over unless it lies below both others. -/
theorem not_waiting {γ : Type} {o : Option NodeId} {m n : ℕ} (X Y : Option γ) :
    (∀ q, o = some q → h.IsRouter q) →
    (∀ q, o = some q → ∀ qt, h.node q = some (.router qt) → ¬ (qt.hops < m ∧ qt.hops < n)) →
    (match o with
      | none => Y
      | some q => (h.router q).bind fun qt =>
          if decide (qt.hops < m ∧ qt.hops < n) = true then X else Y) = Y := by
  intro hq hno
  cases ho : o with
  | none => rfl
  | some q =>
      obtain ⟨qt, hqt⟩ := hq q ho
      simp [Heap.router_eq_some.mpr hqt, hno q ho qt hqt]

/-- The branches that start a segment: without merging, and when nothing is open. -/
theorem setTxgRouter_open (E : Encodes h max g pk.all) (hl : pk.last = none) (hcr : mg.cr = none)
    (hpcr : mg.pcr = none) (hr : h.IsRouter r) (hmax : max ≤ 32) (hn : g.n < max) : ∃ mg' l bm,
      setTxgRouter args h mg g.addrs g.bm r g.n = some (mg', l, bm, 1) ∧
      Encodes h max ⟨l, g.n + 1, bm, g.mdc⟩ (pk.add args h.hops r []).all ∧
      MergeAt h mg' (pk.add args h.hops r []) := by
  obtain ⟨rt, hrt⟩ := hr
  have hrt' := Heap.router_eq_some.mpr hrt
  have hbit : setBitmap g.bm g.n = some (g.bm ||| posBit g.n) := by
    simp [setBitmap, subSize, show g.n ≤ 31 by omega, posBit]
  have hw : writeAddr g.addrs g.n rt.sa = some (g.addrs.set g.n (h.addr r)) := by
    rw [writeAddr, if_pos (by rw [E.length_eq]; exact hn), Heap.addr_of_node hrt, Node.sa_router]
  have hE := E.open hn r
  have hall : pk.all = pk.segs := by simp [Pack.all, hl]
  by_cases h0 : args.merge_range = 0
  · refine ⟨{ mg with icr := g.n }, g.addrs.set g.n (h.addr r), g.bm ||| posBit g.n, ?_, ?_, ?_⟩
    · simp [setTxgRouter, hrt', h0, hbit, copyRouter, hcr, hw]
    · rw [Pack.add, hl]
      simp only [h0, if_true]
      rw [hall] at hE
      simpa [Pack.all] using hE
    · simp [MergeAt, Pack.add, hl, h0, hcr, hpcr]
  · refine ⟨⟨some r, mg.pcr, g.n, (rt.hops : ℤ)⟩, g.addrs.set g.n (h.addr r), g.bm ||| posBit g.n,
      ?_, ?_, ?_⟩
    · simp [setTxgRouter, hrt', h0, hbit, copyRouter, hcr, hw]
    · rw [Pack.add, hl]
      simp only [h0, if_false]
      rw [hall] at hE
      simpa [Pack.all] using hE
    · have hn' : g.n = segSize pk.segs := by rw [E.n_eq, hall]
      simp [MergeAt, Pack.add, hl, h0, hpcr, hn', Heap.hops_of_router hrt]
      exact ⟨rt, hrt⟩

section Open

variable {rt ct : Router} {c : NodeId} {l : List In6Addr} {bm : BitVec 32} {n i : ℕ} {init : ℤ}
  (h0 : args.merge_range ≠ 0) (hrt : h.node r = some (.router rt)) (hct : h.node c = some (.router ct))

include h0 hrt hct

/-- The branch in which the waiting router takes the lead of the open segment. -/
theorem setTxgRouter_pcr {q : NodeId} {qt : Router} (hqt : h.node q = some (.router qt))
    (hlt : qt.hops < rt.hops ∧ qt.hops < ct.hops) (hi : i < l.length) :
    setTxgRouter args h ⟨some c, some q, i, init⟩ l bm r n =
      some (⟨some q, none, i, init⟩, l.set i (h.addr q), bm, 0) := by
  have hw : writeAddr l i qt.sa = some (l.set i (h.addr q)) := by
    rw [writeAddr, if_pos hi, Heap.addr_of_node hqt, Node.sa_router]
  simp [setTxgRouter, Heap.router_eq_some.mpr hrt, h0, Heap.router_eq_some.mpr hct,
    Heap.router_eq_some.mpr hqt, hlt, copyRouter, hw]

variable {p : Option NodeId} (hp : ∀ q, p = some q → h.IsRouter q)
  (hno : ∀ q, p = some q → ∀ qt, h.node q = some (.router qt) → ¬ (qt.hops < rt.hops ∧ qt.hops < ct.hops))

include hp hno

/-- The branch in which `r` takes the lead. -/
theorem setTxgRouter_closer (hlt : rt.hops < ct.hops) (hi : i < l.length) :
    setTxgRouter args h ⟨some c, p, i, init⟩ l bm r n =
      some (⟨some r, p, i, init⟩, l.set i (h.addr r), bm, 0) := by
  have hw : writeAddr l i rt.sa = some (l.set i rt.sa) := by
    rw [writeAddr, if_pos hi]
  simp only [setTxgRouter, Heap.router_eq_some.mpr hrt, h0, Heap.router_eq_some.mpr hct,
    Option.bind_eq_bind, Option.bind_some, if_false, Bool.false_eq_true, hlt, if_true, copyRouter,
    Option.getD_some, hw, Heap.addr_of_node hrt, Node.sa_router]
  exact not_waiting _ _ hp hno

/-- The branch in which nothing is written. -/
theorem setTxgRouter_behind (hlt : ¬ rt.hops < ct.hops) :
    setTxgRouter args h ⟨some c, p, i, init⟩ l bm r n = some (⟨some c, p, i, init⟩, l, bm, 0) := by
  simp only [setTxgRouter, Heap.router_eq_some.mpr hrt, h0, Heap.router_eq_some.mpr hct,
    Option.bind_eq_bind, Option.bind_some, if_false, Bool.false_eq_true, hlt]
  exact not_waiting _ _ hp hno

end Open

/-- There is space for the router of the last segment. -/
theorem Encodes.lt_length {s : Seg NodeId NodeId} (E : Encodes h max g (segs ++ [s])) :
    segSize segs < g.addrs.length := by
  have h1 := E.n_eq
  have h2 := congrArg List.length E.take_eq
  simp only [List.length_take, List.length_map, length_segAddrs, segSize_append, segSize_cons,
    segSize_nil] at h1 h2
  omega

/-- What `set_txg_router` writes for router `r`. -/
theorem setTxgRouter_spec (E : Encodes h max g pk.all) (M : MergeAt h mg pk)
    (hr : h.IsRouter r) (hln : args.merge_range = 0 → pk.last = none) (hmax : max ≤ 32)
    (hroom : pk.last = none → g.n < max) : ∃ mg' l bm s,
      setTxgRouter args h mg g.addrs g.bm r g.n = some (mg', l, bm, s) ∧
      Encodes h max ⟨l, g.n + s, bm, g.mdc⟩ (pk.add args h.hops r []).all ∧
      MergeAt h mg' (pk.add args h.hops r []) := by
  unfold MergeAt at M
  cases hl : pk.last with
  | none =>
      simp only [hl] at M
      obtain ⟨mg', l, bm, H⟩ := setTxgRouter_open E hl M.1 M.2 hr hmax (hroom hl)
      exact ⟨mg', l, bm, 1, H⟩
  | some l =>
      obtain ⟨rt, hrt⟩ := hr
      have h0 : args.merge_range ≠ 0 := fun h0 => by simp [hln h0] at hl
      simp only [hl] at M
      obtain ⟨rfl, ⟨ct, hct⟩, hq⟩ := M
      have hall : pk.all = pk.segs ++ [⟨l.seg.router, l.seg.leaves⟩] := by simp [Pack.all, hl]
      rw [hall] at E
      have hi := E.lt_length
      have hadd : (pk.add args h.hops r []) = ⟨pk.segs, some (l.extend h.hops r [])⟩ := by
        simp [Pack.add, hl]
      rw [hadd]
      have hrh := Heap.hops_of_router hrt
      have hch := Heap.hops_of_router hct
      -- the waiting router takes the lead, or `r` does, or nothing changes
      cases hf : l.pcr.filter fun q => h.hops q < h.hops r ∧ h.hops q < h.hops l.seg.router with
      | some q =>
          obtain ⟨hpq, hlt⟩ := Option.filter_eq_some_iff.mp hf
          obtain ⟨qt, hqt⟩ := hq q hpq
          have hext : l.extend h.hops r [] = ⟨⟨q, l.seg.leaves ++ []⟩, none, l.init⟩ := by
            rw [Last.extend, hf]
          simp only [Heap.hops_of_router hqt, hrh, hch, decide_eq_true_eq] at hlt
          rw [hpq, hext]
          refine ⟨_, _, _, _, setTxgRouter_pcr h0 hrt hct hqt hlt hi, ?_, ?_⟩
          · simpa [Pack.all] using E.lead q
          · simpa [MergeAt] using ⟨qt, hqt⟩
      | none =>
          have hno : ∀ q, l.pcr = some q → ∀ qt, h.node q = some (.router qt) →
              ¬ (qt.hops < rt.hops ∧ qt.hops < ct.hops) := by
            intro q hpq qt hqt hlt
            have := Option.filter_eq_none_iff.mp hf q hpq
            simp [Heap.hops_of_router hqt, hrh, hch, hlt.1, hlt.2] at this
          by_cases hlt : rt.hops < ct.hops
          · have hext : l.extend h.hops r [] = ⟨⟨r, l.seg.leaves ++ []⟩, l.pcr, l.init⟩ := by
              rw [Last.extend, hf]
              simp [hrh, hch, hlt]
            rw [hext]
            refine ⟨_, _, _, _, setTxgRouter_closer h0 hrt hct hq hno hlt hi, ?_, ?_⟩
            · simpa [Pack.all] using E.lead r
            · simpa [MergeAt] using ⟨⟨rt, hrt⟩, hq⟩
          · have hext : l.extend h.hops r [] =
                ⟨⟨l.seg.router, l.seg.leaves ++ []⟩, l.pcr, l.init⟩ := by
              rw [Last.extend, hf]
              simp [hrh, hch, hlt]
            rw [hext]
            refine ⟨_, _, _, _, setTxgRouter_behind h0 hrt hct hq hno hlt, ?_, ?_⟩
            · simpa [Pack.all] using E
            · simpa [MergeAt] using ⟨⟨ct, hct⟩, hq⟩

/-! ### Adding leaves -/

/-- The loop of `add2txg` appends the addresses of `m` leaves. -/
theorem copyLeafs_spec {m : ℕ} {c : List NodeId} {k : ℕ} {l : List In6Addr}
    (hc : ∀ x ∈ c, h.IsLeaf x) (hm : m ≤ c.length) (hk : k + m ≤ l.length) :
    ∃ l', copyLeafs h m c k l = some l' ∧ l'.length = l.length ∧
      l'.take (k + m) = l.take k ++ (c.take m).map h.addr := by
  induction m generalizing c k l with
  | zero => exact ⟨l, rfl, rfl, by simp⟩
  | succ m ih =>
      cases c with
      | nil => simp at hm
      | cons v c =>
          obtain ⟨lf, hv⟩ := hc v (by simp)
          have hw : writeAddr l k lf.addr.sin6_addr = some (l.set k (h.addr v)) := by
            rw [writeAddr, if_pos (by omega), Heap.addr_of_node hv]
            rfl
          obtain ⟨l', e, h1, h2⟩ := ih (c := c) (k := k + 1) (l := l.set k (h.addr v))
            (fun x hx => hc x (by simp [hx])) (by simpa using hm) (by simp; omega)
          refine ⟨l', ?_, by simpa using h1, ?_⟩
          · simp only [copyLeafs, Heap.leaf_eq_some.mpr hv, Option.bind_eq_bind,
              Option.bind_some, hw, e]
          · rw [show k + (m + 1) = k + 1 + m by omega, h2, take_set_succ (by omega)]
            simp

/-- Every group grows at its last segment. -/
theorem Pack.add_all {α β : Type*} (args : Args) (hops : α → ℕ) (pk : Pack α β) (r : α) :
    ∃ pre a lv, ∀ ls, (pk.add args hops r ls).all = pre ++ [⟨a, lv ++ ls⟩] := by
  cases hl : pk.last with
  | none =>
      refine ⟨pk.segs, r, [], fun ls => ?_⟩
      simp only [Pack.add, hl]
      split <;> simp [Pack.all]
  | some l =>
      refine ⟨pk.segs, (l.extend hops r []).seg.router, l.seg.leaves, fun ls => ?_⟩
      simp only [Pack.add, hl, Pack.all, Option.map_some, Option.toList_some]
      congr 2
      unfold Last.extend
      split
      · rfl
      · split <;> rfl

/-- The merging variables do not depend on the leaves. -/
theorem MergeAt.add {ls : List NodeId} (M : MergeAt h mg (pk.add args h.hops r [])) :
    MergeAt h mg (pk.add args h.hops r ls) := by
  unfold MergeAt Pack.add at M ⊢
  cases hl : pk.last with
  | none =>
      by_cases h0 : args.merge_range = 0
      · simpa [hl, h0] using M
      · simpa [hl, h0] using M
  | some l =>
      simp only [hl, Last.extend] at M ⊢
      split at M
      · exact M
      · by_cases hlt : h.hops r < h.hops l.seg.router
        · simpa [hlt] using M
        · simpa [hlt] using M

/-- `add2txg` adds the first `m` free leaves of `r`. -/
theorem add2txg_spec (W : h.Wf) (E : Encodes h max g pk.all) (M : MergeAt h mg pk)
    (hr : h.IsRouter r) (hln : args.merge_range = 0 → pk.last = none) (hmax : max ≤ 32) {m : ℕ}
    (hml : m ≤ (h.flvs r).length)
    (hroom : g.n + m + (if pk.last = none then 1 else 0) ≤ max) : ∃ h' mg' g',
      add2txg args h mg g r m = some (h', mg', g') ∧ Heap.Drained h h' {r} ∧
      h'.fkids r = h.fkids r ∧ h'.flvs r = (h.flvs r).drop m ∧
      Encodes h' max g' (pk.add args h.hops r ((h.flvs r).take m)).all ∧
      MergeAt h' mg' (pk.add args h.hops r ((h.flvs r).take m)) ∧ g'.mdc = g.mdc := by
  obtain ⟨mg', l, bm, s, e, E', M'⟩ := setTxgRouter_spec E M hr hln hmax fun hl => by
    simp only [hl, if_true] at hroom
    omega
  obtain ⟨rt, hrt⟩ := hr
  obtain ⟨pre, a, lv, hall⟩ := pk.add_all args h.hops r
  -- one more position for a new segment
  have hs : g.n + s = g.n + (if pk.last = none then 1 else 0) := by
    have h1 : g.n + s = segSize (pk.add args h.hops r []).all := E'.n_eq
    have h2 := (Pack.add_spec args h.hops pk r ([] : List NodeId)).2.1
    rw [h1, h2, E.n_eq, List.length_nil, Nat.add_zero]
  have hfl : rt.getFreeLeaf = h.flvs r := (Heap.flvs_of_node hrt).symm
  have hleaf : ∀ x ∈ h.flvs r, h.IsLeaf x := fun x hx =>
    ((W.mem_lvs r x).mp (W.flvs_subset hx)).1
  obtain ⟨l', e', hlen, htake⟩ := copyLeafs_spec (h := h) (m := m) (c := h.flvs r) (k := g.n + s)
    (l := l) hleaf hml (by have : l.length = max := E'.length_eq; omega)
  have hsub : subSize rt.fleaf m = some (rt.fleaf - m) := by
    rw [subSize, if_pos (by rw [W.fleaf_eq hrt]; exact hml)]
  obtain ⟨D, hd1, hd2⟩ := Heap.drain_spec W hrt (Nat.zero_le _)
    (show m ≤ rt.fleaf by rw [W.fleaf_eq hrt]; exact hml)
  have hml' : ((h.flvs r).take m).length = m := by
    rw [List.length_take]
    omega
  refine ⟨_, mg', { g with addrs := l', n := g.n + m + s, bm := bm }, ?_, D, hd1, hd2, ?_,
    M'.add.congr D.tag_eq, rfl⟩
  · simp [add2txg, e, Heap.router_eq_some.mpr hrt, hfl, e', hsub]
  · have hE := E'
    rw [hall, List.append_nil] at hE
    rw [hall]
    have := hE.extend l' ((h.flvs r).take m) (hlen.trans E'.length_eq)
      (by rw [hml']; exact htake)
    rw [hml'] at this
    rw [show g.n + m + s = g.n + s + m by omega]
    exact this.congr D.tag_eq

end Pack

end MEADcast
