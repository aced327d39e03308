import MEADcast.Sender.PlanSpec
import MEADcast.Sender.TreeSpec
import MEADcast.Sender.Component
import MEADcast.Sender.Grouping

/-!
# The walk of the grouping over the heap

During the grouping the lists of the routers stay as they are, and the free counters shrink.
The free elements of a list are its last ones, so that the counters describe how far the
walk has come.  `SpotAt` relates this to the zipper of `Plan`.

## Main definitions

* `Heap.fkids`, `Heap.flvs` — the free children and the free leaves of a router.
* `CtxAt`, `SpotAt` — a heap whose free lists are those of a zipper.

## Main results

* `getStart_spec`, `recBackPropagate_spec` — the two functions that move over the heap.
-/

namespace MEADcast

namespace Heap

/-- The free child routers of a router. -/
def fkids (h : Heap) (x : NodeId) : List NodeId :=
  match h.router x with
  | some r => r.getFreeRouter
  | none => []

/-- The free leaves of a router. -/
def flvs (h : Heap) (x : NodeId) : List NodeId :=
  match h.router x with
  | some r => r.getFreeLeaf
  | none => []

/-- Nothing of a router is free any more. -/
def Spent (h : Heap) (x : NodeId) : Prop := h.fkids x = [] ∧ h.flvs x = []

end Heap

/-- With exact counters the free elements are the last ones. -/
theorem getFree_eq {l : List NodeId} {n f : ℕ} (hn : n = l.length) (hf : f ≤ n) :
    getFree l n f = l.drop (n - f) ∧ (getFree l n f).length = f := by
  have h : getFree l n f = l.drop (n - f) := by
    unfold getFree
    split
    · rename_i h0
      have : n - f = l.length := by omega
      rw [this, List.drop_length]
    · rfl
  refine ⟨h, ?_⟩
  rw [h, List.length_drop]
  omega

namespace Heap

section Free

variable {h : Heap} {x : NodeId} {r : Router}

theorem fkids_of_node (hx : h.node x = some (.router r)) : h.fkids x = r.getFreeRouter := by
  simp [fkids, router_eq_some.mpr hx]

theorem flvs_of_node (hx : h.node x = some (.router r)) : h.flvs x = r.getFreeLeaf := by
  simp [flvs, router_eq_some.mpr hx]

theorem Wf.fchild_eq (W : h.Wf) (hx : h.node x = some (.router r)) :
    r.fchild = (h.fkids x).length := by
  have C := W.counted x r hx
  rw [fkids_of_node hx]
  exact (getFree_eq C.nchild_eq C.fchild_le).2.symm

theorem Wf.fleaf_eq (W : h.Wf) (hx : h.node x = some (.router r)) :
    r.fleaf = (h.flvs x).length := by
  have C := W.counted x r hx
  rw [flvs_of_node hx]
  exact (getFree_eq C.nleaf_eq C.fleaf_le).2.symm

theorem Wf.fkids_subset (W : h.Wf) {c : NodeId} (hc : c ∈ h.fkids x) : c ∈ h.kids x := by
  cases hr : h.router x with
  | none => simp [fkids, hr] at hc
  | some r =>
      have hx := router_eq_some.mp hr
      have C := W.counted x r hx
      rw [fkids_of_node hx, Router.getFreeRouter, (getFree_eq C.nchild_eq C.fchild_le).1] at hc
      rw [kids_of_node hx]
      exact List.mem_of_mem_drop hc

theorem Wf.flvs_subset (W : h.Wf) {c : NodeId} (hc : c ∈ h.flvs x) : c ∈ h.lvs x := by
  cases hr : h.router x with
  | none => simp [flvs, hr] at hc
  | some r =>
      have hx := router_eq_some.mp hr
      have C := W.counted x r hx
      rw [flvs_of_node hx, Router.getFreeLeaf, (getFree_eq C.nleaf_eq C.fleaf_le).1] at hc
      rw [lvs_of_node hx]
      exact List.mem_of_mem_drop hc

/-- With all elements free, the free lists are the lists. -/
theorem Wf.free_of_freeAt (W : h.Wf) (A : h.FreeAt x) : h.fkids x = h.kids x ∧ h.flvs x = h.lvs x := by
  cases hr : h.router x with
  | none =>
      have hx : ¬ h.IsRouter x := by
        rintro ⟨r, hx⟩
        simp [router_eq_some.mpr hx] at hr
      simp [fkids, flvs, hr, kids_of_not_isRouter hx, lvs_of_not_isRouter hx]
  | some r =>
      have hx := router_eq_some.mp hr
      have C := W.counted x r hx
      obtain ⟨h1, h2⟩ := A r hx
      rw [fkids_of_node hx, flvs_of_node hx, kids_of_node hx, lvs_of_node hx,
        Router.getFreeRouter, Router.getFreeLeaf, (getFree_eq C.nchild_eq C.fchild_le).1,
        (getFree_eq C.nleaf_eq C.fleaf_le).1, h1, h2]
      simp

end Free

/-- The heap `h'` differs from `h` in the free counters of the routers `s` only. -/
structure Drained (h h' : Heap) (s : Set NodeId) : Prop where
  wf : h'.Wf
  par_eq : h'.par = h.par
  kids_eq : h'.kids = h.kids
  lvs_eq : h'.lvs = h.lvs
  tag_eq : h'.tag = h.tag
  next_eq : h'.next = h.next
  frame : ∀ x, x ∉ s → h'.node x = h.node x

namespace Drained

variable {h h' h'' : Heap} {s t : Set NodeId}

theorem refl (W : h.Wf) (s : Set NodeId) : Drained h h s :=
  ⟨W, rfl, rfl, rfl, rfl, rfl, fun _ _ => rfl⟩

theorem trans (D : Drained h h' s) (D' : Drained h' h'' s) : Drained h h'' s where
  wf := D'.wf
  par_eq := D'.par_eq.trans D.par_eq
  kids_eq := D'.kids_eq.trans D.kids_eq
  lvs_eq := D'.lvs_eq.trans D.lvs_eq
  tag_eq := D'.tag_eq.trans D.tag_eq
  next_eq := D'.next_eq.trans D.next_eq
  frame x hx := (D'.frame x hx).trans (D.frame x hx)

theorem mono (D : Drained h h' s) (hst : s ⊆ t) : Drained h h' t :=
  { D with frame := fun x hx => D.frame x fun hs => hx (hst hs) }

theorem isRouter_iff (D : Drained h h' s) (x : NodeId) : h'.IsRouter x ↔ h.IsRouter x :=
  isRouter_congr (congrFun D.tag_eq x)

theorem hops_eq (D : Drained h h' s) : h'.hops = h.hops := by
  funext x
  exact hops_congr (congrFun D.tag_eq x)

theorem free_frame (D : Drained h h' s) {x : NodeId} (hx : x ∉ s) :
    h'.fkids x = h.fkids x ∧ h'.flvs x = h.flvs x := by
  simp [fkids, flvs, router, D.frame x hx]

theorem grown (D : Drained h h' s) {F : Forest NodeId NodeId} (hg : F.Grown h.fkids h.flvs)
    (hF : ∀ x ∈ F.labs, x ∉ s) : F.Grown h'.fkids h'.flvs :=
  hg.congr (fun x hx => (D.free_frame (hF x hx)).1) fun x hx => (D.free_frame (hF x hx)).2

theorem spent (D : Drained h h' s) {x : NodeId} (hx : x ∉ s) (A : h.Spent x) : h'.Spent x := by
  obtain ⟨hk, hl⟩ := D.free_frame hx
  exact ⟨hk.trans A.1, hl.trans A.2⟩

theorem freeAt (D : Drained h h' s) {x : NodeId} (hx : x ∉ s) (A : h.FreeAt x) : h'.FreeAt x := by
  intro r hr
  rw [D.frame x hx] at hr
  exact A r hr

end Drained

/-- Decreasing the two free counters of one router. -/
theorem drain_spec {h : Heap} (W : h.Wf) {x : NodeId} {r : Router}
    (hx : h.node x = some (.router r)) {i j : ℕ} (hi : i ≤ r.fchild) (hj : j ≤ r.fleaf) :
    Drained h (h.set x (.router { r with fchild := r.fchild - i, fleaf := r.fleaf - j })) {x} ∧
      (h.set x (.router { r with fchild := r.fchild - i, fleaf := r.fleaf - j })).fkids x =
        (h.fkids x).drop i ∧
      (h.set x (.router { r with fchild := r.fchild - i, fleaf := r.fleaf - j })).flvs x =
        (h.flvs x).drop j := by
  have C := W.counted x r hx
  have hfc := C.fchild_le
  have hfl := C.fleaf_le
  have R := rewritten_set W { r with fchild := r.fchild - i, fleaf := r.fleaf - j } hx
    rfl rfl rfl ⟨C.nchild_eq, C.nleaf_eq, by dsimp only; omega, by dsimp only; omega⟩
  have hx' : (h.set x (.router { r with fchild := r.fchild - i, fleaf := r.fleaf - j })).node x =
      some (.router { r with fchild := r.fchild - i, fleaf := r.fleaf - j }) := by simp
  refine ⟨⟨R.wf, R.par_eq, R.kids_eq, R.lvs_eq, ?_, R.next_eq, ?_⟩, ?_, ?_⟩
  · rw [R.tag_eq]
    exact Function.update_eq_self_iff.mpr (tag_of_node hx).symm
  · intro y hy
    rw [node_set, if_neg (show ¬ y = x from hy)]
  · rw [fkids_of_node hx', fkids_of_node hx, Router.getFreeRouter, Router.getFreeRouter,
      (getFree_eq C.nchild_eq (by dsimp only; omega)).1, (getFree_eq C.nchild_eq hfc).1,
      List.drop_drop]
    congr 1
    dsimp only
    omega
  · rw [flvs_of_node hx', flvs_of_node hx, Router.getFreeLeaf, Router.getFreeLeaf,
      (getFree_eq C.nleaf_eq (by dsimp only; omega)).1, (getFree_eq C.nleaf_eq hfl).1,
      List.drop_drop]
    congr 1
    dsimp only
    omega

end Heap

/-! ## Zippers on the heap -/

/-- The routers above and behind the current one. -/
def ctxLabs : List (Frame NodeId NodeId) → Forest NodeId NodeId → List NodeId
  | [], top => top.labs
  | f :: ctx, top => f.lab :: (f.sibs.labs ++ ctxLabs ctx top)

/-- The routers that are not done. -/
def Spot.labs (z : Spot NodeId NodeId) : List NodeId :=
  z.lab :: (z.kids.labs ++ ctxLabs z.ctx z.top)

/-- `p` is the innermost router above the current one; its free children are `front` and
those of the zipper.  A router above is a free child of its own parent unless nothing is
left of it.  The leaves of the root are not touched. -/
def CtxAt (h : Heap) (root : NodeId) :
    List (Frame NodeId NodeId) → Forest NodeId NodeId → NodeId → List NodeId → Prop
  | [], top, p, front =>
    p = root ∧ h.fkids root = front ++ top.tops ∧ h.flvs root = h.lvs root ∧
      top.Grown h.fkids h.flvs
  | f :: ctx, top, p, front =>
    p = f.lab ∧ h.fkids p = front ++ f.sibs.tops ∧ h.flvs p = f.ls ∧
      f.sibs.Grown h.fkids h.flvs ∧
      ∃ q, h.par p = some q ∧
        CtxAt h root ctx top q (if front = [] ∧ f.sibs = .nil ∧ f.ls = [] then [] else [p])

/-- The free lists of the heap are those of the zipper; `front` tells whether the current
router is still a free child of its parent. -/
structure SpotAt (h : Heap) (root : NodeId) (z : Spot NodeId NodeId) (front : List NodeId) :
    Prop where
  ls : h.flvs z.lab = z.ls
  tops : h.fkids z.lab = z.kids.tops
  grown : z.kids.Grown h.fkids h.flvs
  up : ∃ p, h.par z.lab = some p ∧ CtxAt h root z.ctx z.top p front
  nodup : (root :: z.labs).Nodup

/-- The current router as a free child of its parent, unless nothing is left of it. -/
def Spot.front (z : Spot NodeId NodeId) : List NodeId :=
  if z.kids = .nil ∧ z.ls = [] then [] else [z.lab]

section Zipper

variable {h h' : Heap} {root p r : NodeId} {ctx : List (Frame NodeId NodeId)}
  {top : Forest NodeId NodeId} {front : List NodeId} {s : Set NodeId}

/-- Draining routers elsewhere does not matter. -/
theorem CtxAt.drained (H : CtxAt h root ctx top p front) (D : Heap.Drained h h' s)
    (hs : ∀ x ∈ s, x ≠ root ∧ x ∉ ctxLabs ctx top) : CtxAt h' root ctx top p front := by
  induction ctx generalizing p front with
  | nil =>
      obtain ⟨rfl, h1, h2, h3⟩ := H
      have hp : p ∉ s := fun hr => (hs p hr).1 rfl
      refine ⟨rfl, ?_, ?_, D.grown h3 fun x hx hxs => (hs x hxs).2 hx⟩
      · rw [(D.free_frame hp).1, h1]
      · rw [(D.free_frame hp).2, D.lvs_eq, h2]
  | cons f ctx ih =>
      obtain ⟨rfl, h1, h2, h3, q, h4, h5⟩ := H
      have hf : f.lab ∉ s := fun hm => (hs _ hm).2 (by simp [ctxLabs])
      refine ⟨rfl, by rw [(D.free_frame hf).1, h1], by rw [(D.free_frame hf).2, h2],
        D.grown h3 fun x hx hxs => (hs x hxs).2 (by simp [ctxLabs, hx]), q,
        by rw [D.par_eq, h4], ih h5 fun x hx => ⟨(hs x hx).1, fun hm => ?_⟩⟩
      exact (hs x hx).2 (by simp [ctxLabs, hm])

/-- The parent of the current router is not the current router. -/
theorem CtxAt.mem (H : CtxAt h root ctx top p front) : p = root ∨ p ∈ ctxLabs ctx top := by
  cases ctx with
  | nil => exact Or.inl H.1
  | cons f ctx => exact Or.inr (by simp [ctxLabs, H.1])

/-- The leaves of the root stay free. -/
theorem CtxAt.flvs_root (H : CtxAt h root ctx top p front) : h.flvs root = h.lvs root := by
  induction ctx generalizing p front with
  | nil => exact H.2.2.1
  | cons f ctx ih =>
      obtain ⟨-, -, -, -, q, -, H⟩ := H
      exact ih H

/-! ### Going down -/

/-- The labels of the zipper stay when the walk goes down to the first child. -/
theorem perm_labs_down (a b : NodeId) (ls ms : List NodeId) (L rest : Forest NodeId NodeId)
    (ctx : List (Frame NodeId NodeId)) (top : Forest NodeId NodeId) :
    (b :: (L.labs ++ ctxLabs (⟨a, ls, rest⟩ :: ctx) top)).Perm
      (a :: ((Forest.node b ms L rest).labs ++ ctxLabs ctx top)) := by
  rw [List.perm_iff_count]
  intro x
  simp only [ctxLabs, Forest.labs, List.count_cons, List.count_append]
  omega

/-- The labels of the zipper at the deepest router. -/
theorem deepest_labs (K : Forest NodeId NodeId) (a : NodeId) (ls : List NodeId)
    (ctx : List (Frame NodeId NodeId)) (top : Forest NodeId NodeId) :
    (Spot.deepest K a ls ctx top).labs.Perm (a :: (K.labs ++ ctxLabs ctx top)) := by
  induction K generalizing a ls ctx with
  | nil => exact List.Perm.refl _
  | node b ms L rest ihL _ =>
      exact (ihL b ms (⟨a, ls, rest⟩ :: ctx)).trans (perm_labs_down a b ls ms L rest ctx top)

theorem deepest_lab (K : Forest NodeId NodeId) (a : NodeId) (ls ls' : List NodeId)
    (ctx ctx' : List (Frame NodeId NodeId)) (top top' : Forest NodeId NodeId) :
    (Spot.deepest K a ls ctx top).lab = (Spot.deepest K a ls' ctx' top').lab := by
  induction K generalizing a ls ls' ctx ctx' with
  | nil => rfl
  | node b ms L rest ihL _ => exact ihL b ms ms _ _

/-- The zipper at the deepest router is where the heap says it is. -/
theorem spotAt_deepest (W : h.Wf) (K : Forest NodeId NodeId) {a : NodeId} {ls : List NodeId}
    (hls : h.flvs a = ls) (htops : h.fkids a = K.tops) (hg : K.Grown h.fkids h.flvs)
    (hup : ∃ p, h.par a = some p ∧ CtxAt h root ctx top p [a])
    (hnd : (root :: a :: (K.labs ++ ctxLabs ctx top)).Nodup) :
    SpotAt h root (Spot.deepest K a ls ctx top) [(Spot.deepest K a ls ctx top).lab] := by
  have hnd' : (root :: (Spot.deepest K a ls ctx top).labs).Nodup :=
    ((deepest_labs K a ls ctx top).symm.cons root).nodup_iff.mp hnd
  induction K generalizing a ls ctx with
  | nil => exact ⟨hls, htops, hg, hup, hnd'⟩
  | node b ms L rest ihL _ =>
      obtain ⟨rfl, h2, h3, h4⟩ := hg
      have hba : h.par b = some a := by
        refine W.kids_parent (W.fkids_subset ?_)
        rw [htops]
        simp
      refine ihL rfl h2.symm h3 ⟨a, hba, rfl, htops, hls, h4, ?_⟩ ?_ hnd'
      · obtain ⟨p, hp, hc⟩ := hup
        exact ⟨p, hp, by simpa using hc⟩
      · exact ((perm_labs_down a b ls _ L rest ctx top).cons root).nodup_iff.mpr hnd

/-- The loop of `get_start` follows the chain of first free children. -/
theorem startLoop_spec (W : h.Wf) (ctx : List (Frame NodeId NodeId))
    (top : Forest NodeId NodeId) :
    ∀ (K : Forest NodeId NodeId) (a : NodeId) (t : Option NodeId), (∀ x ∈ K.labs, h.IsRouter x) →
      K.Grown h.fkids h.flvs → K.Live → ∃ N, ∀ fuel, N ≤ fuel →
        startLoop h fuel a t K.tops.head? = some ((Spot.deepest K a [] ctx top).lab,
          if K = .nil then t else some (Spot.deepest K a [] ctx top).lab) := by
  intro K
  induction K with
  | nil =>
      intro a t _ _ _
      refine ⟨1, fun fuel hf => ?_⟩
      obtain ⟨fuel, rfl⟩ : ∃ k, fuel = k + 1 := ⟨fuel - 1, by omega⟩
      simp [startLoop, Spot.deepest]
  | node b ms L rest ihL _ =>
      intro a t hKR hg hl
      obtain ⟨h1, h2, h3, -⟩ := hg
      obtain ⟨rb, hrb⟩ := hKR b (by simp)
      obtain ⟨N, hN⟩ := ihL b (if 0 < rb.fleaf then some b else t)
        (fun x hx => hKR x (by simp [hx])) h3 hl.2.1
      refine ⟨N + 1, fun fuel hf => ?_⟩
      obtain ⟨fuel, rfl⟩ : ∃ k, fuel = k + 1 := ⟨fuel - 1, by omega⟩
      have hfk : rb.getFreeRouter = L.tops := by rw [h2, Heap.fkids_of_node hrb]
      have hlab : (Spot.deepest (.node b ms L rest) a [] ctx top).lab =
          (Spot.deepest L b [] ctx top).lab := deepest_lab L b ms [] _ _ _ _
      simp only [Forest.tops, List.head?_cons, startLoop, Heap.router_eq_some.mpr hrb,
        Option.bind_eq_bind, Option.bind_some, hfk, hN fuel (by omega), hlab, reduceCtorEq,
        if_false]
      by_cases hL : L = .nil
      · subst hL
        have hms : ms ≠ [] := by simpa using hl.1
        have : 0 < rb.fleaf := by
          rw [W.fleaf_eq hrb, ← h1]
          exact List.length_pos_of_ne_nil hms
        simp [this, Spot.deepest]
      · simp [hL]

/-! ### Finding the next router to start at -/

/-- `get_start` at a router with free children. -/
theorem getStart_node (W : h.Wf) {a : NodeId} (ha : h.IsRouter a) {b : NodeId}
    {ms : List NodeId} {L rest : Forest NodeId NodeId}
    (htops : h.fkids a = (Forest.node b ms L rest).tops)
    (hg : (Forest.node b ms L rest).Grown h.fkids h.flvs) (hl : (Forest.node b ms L rest).Live)
    (hR : ∀ x ∈ (Forest.node b ms L rest).labs, h.IsRouter x)
    (ctx : List (Frame NodeId NodeId)) (top : Forest NodeId NodeId) :
    ∃ N, ∀ fuel, N ≤ fuel →
      getStart h fuel (some a) = some (some (Spot.deepest L b ms ctx top).lab) := by
  obtain ⟨ra, hra⟩ := ha
  obtain ⟨N, hN⟩ := startLoop_spec W ctx top (.node b ms L rest) a
    (if ra.parent ≠ none ∧ 0 < ra.fleaf then some a else none) hR hg hl
  refine ⟨N + 1, fun fuel hf => ?_⟩
  obtain ⟨fuel, rfl⟩ : ∃ k, fuel = k + 1 := ⟨fuel - 1, by omega⟩
  have hfk : ra.getFreeRouter = (Forest.node b ms L rest).tops := by
    rw [← htops, Heap.fkids_of_node hra]
  have hlab : (Spot.deepest (.node b ms L rest) a [] ctx top).lab =
      (Spot.deepest L b ms ctx top).lab := deepest_lab L b ms ms _ _ _ _
  simp only [getStart, Heap.router_eq_some.mpr hra, Option.bind_eq_bind, Option.bind_some, hfk,
    hN fuel (by omega), hlab, reduceCtorEq, if_false]

/-- `get_start` at a router without free children. -/
theorem getStart_nil {a : NodeId} {ra : Router} (hra : h.node a = some (.router ra))
    (htops : h.fkids a = []) (fuel : ℕ) : getStart h (fuel + 2) (some a) =
      if ra.parent ≠ none ∧ 0 < ra.fleaf then some (some a)
      else match ra.parent with
        | none => some none
        | some p => getStart h (fuel + 1) (some p) := by
  have hfk : ra.getFreeRouter = [] := by rw [← htops, Heap.fkids_of_node hra]
  conv_lhs => unfold getStart
  simp only [Heap.router_eq_some.mpr hra, Option.bind_eq_bind, Option.bind_some, hfk,
    List.head?_nil, startLoop]
  split_ifs <;> rfl

/-- Everything the walk may still visit is a router. -/
def AllRouters (h : Heap) (root : NodeId) (ctx : List (Frame NodeId NodeId))
    (top : Forest NodeId NodeId) : Prop := ∀ x ∈ root :: ctxLabs ctx top, h.IsRouter x

/-- `get_start` once the current router and everything below it is done. -/
theorem getStart_resume (W : h.Wf) (hroot : h.par root = none)
    (hR : AllRouters h root ctx top) (hl : CtxLive ctx top)
    (hnd : (root :: ctxLabs ctx top).Nodup) (H : CtxAt h root ctx top p []) :
    (∃ N, ∀ fuel, N ≤ fuel →
      getStart h fuel (some p) = some ((Spot.resume ctx top).map Spot.lab)) ∧
      ∀ z, Spot.resume ctx top = some z → SpotAt h root z [z.lab] := by
  induction ctx generalizing p with
  | nil =>
      obtain ⟨rfl, h1, hU, h2⟩ := H
      have hp := hR p (by simp)
      cases top with
      | nil =>
          refine ⟨⟨2, fun fuel hf => ?_⟩, by simp [Spot.resume]⟩
          obtain ⟨fuel, rfl⟩ : ∃ k, fuel = k + 2 := ⟨fuel - 2, by omega⟩
          obtain ⟨rp, hrp⟩ := hp
          have : rp.parent = none := by rw [← hroot, Heap.par_of_node hrp]; rfl
          rw [getStart_nil hrp (by simpa using h1)]
          simp [this, Spot.resume]
      | node a ls K rest =>
          have hR' : ∀ x ∈ (Forest.node a ls K rest).labs, h.IsRouter x := fun x hx =>
            hR x (List.mem_cons_of_mem _ hx)
          refine ⟨getStart_node W hp h1 h2 hl.2 hR' [] rest, fun z hz => ?_⟩
          obtain rfl := Option.some.inj hz
          obtain ⟨g1, g2, g3, g4⟩ := h2
          have hap : h.par a = some p := W.kids_parent (W.fkids_subset (by rw [h1]; simp))
          exact spotAt_deepest W K g1.symm g2.symm g3
            ⟨p, hap, rfl, by simpa using h1, hU, g4⟩ hnd
  | cons f ctx ih =>
      obtain ⟨lab, fls, sibs⟩ := f
      obtain ⟨rfl, h1, h2, h3, q, h4, h5⟩ := H
      dsimp only at h1 h2 h3 h4 h5
      have hp := hR p (by simp [ctxLabs])
      obtain ⟨hls, hlc⟩ := ctxLive_cons.mp hl
      cases sibs with
      | node a ls K rest =>
          have hR' : ∀ x ∈ (Forest.node a ls K rest).labs, h.IsRouter x := fun x hx =>
            hR x (by simp only [ctxLabs, List.mem_cons, List.mem_append]; tauto)
          refine ⟨getStart_node W hp h1 h3 hls hR' _ top, fun z hz => ?_⟩
          obtain rfl := Option.some.inj hz
          obtain ⟨g1, g2, g3, g4⟩ := h3
          have hap : h.par a = some p := W.kids_parent (W.fkids_subset (by rw [h1]; simp))
          refine spotAt_deepest W K g1.symm g2.symm g3
            ⟨p, hap, rfl, by simpa using h1, h2, g4, q, h4, ?_⟩ ?_
          · simpa using h5
          · exact ((perm_labs_down p a fls ls K rest ctx top).cons root).nodup_iff.mpr hnd
      | nil =>
          obtain ⟨rp, hrp⟩ := hp
          have hpar : rp.parent = some q := by rw [← h4, Heap.par_of_node hrp]; rfl
          have hfl : 0 < rp.fleaf ↔ fls ≠ [] := by
            rw [W.fleaf_eq hrp, h2, List.length_pos_iff]
          have hnd' : (root :: ctxLabs ctx top).Nodup := by
            simp only [ctxLabs, Forest.labs, List.nil_append, List.nodup_cons, List.mem_cons,
              not_or] at hnd
            exact List.nodup_cons.mpr ⟨hnd.1.2, hnd.2.2⟩
          by_cases hf : fls = []
          · subst hf
            have h5' : CtxAt h root ctx top q [] := by simpa using h5
            obtain ⟨⟨N, hN⟩, hz⟩ := ih (fun x hx => hR x (by
              simp only [ctxLabs, Forest.labs, List.nil_append, List.mem_cons] at hx ⊢
              tauto)) hlc hnd' h5'
            refine ⟨⟨N + 2, fun fuel hf => ?_⟩, by simpa [Spot.resume] using hz⟩
            obtain ⟨fuel, rfl⟩ : ∃ k, fuel = k + 2 := ⟨fuel - 2, by omega⟩
            have hfl' : rp.fleaf = 0 := by simpa using hfl
            rw [getStart_nil hrp (by simpa using h1)]
            simp [hpar, hfl', hN (fuel + 1) (by omega), Spot.resume]
          · refine ⟨⟨2, fun fuel hf' => ?_⟩, fun z hz => ?_⟩
            · obtain ⟨fuel, rfl⟩ : ∃ k, fuel = k + 2 := ⟨fuel - 2, by omega⟩
              rw [getStart_nil hrp (by simpa using h1)]
              simp [hpar, hfl.mpr hf, Spot.resume, hf]
            · obtain rfl : ({ lab := p, ls := fls, kids := .nil, ctx := ctx, top := top } :
                  Spot NodeId NodeId) = z := by simpa [Spot.resume, hf] using hz
              refine ⟨h2, by simpa using h1, trivial, ⟨q, h4, by simpa [hf] using h5⟩, ?_⟩
              simpa [Spot.labs, ctxLabs] using hnd

/-- `get_start` at the current router after a group is complete. -/
theorem getStart_start (W : h.Wf) (hroot : h.par root = none) {z : Spot NodeId NodeId}
    (hR : ∀ x ∈ root :: z.labs, h.IsRouter x) (hk : z.kids.Live) (hl : CtxLive z.ctx z.top)
    (H : SpotAt h root z z.front) :
    (∃ N, ∀ fuel, N ≤ fuel →
      getStart h fuel (some z.lab) = some (z.start.map Spot.lab)) ∧
      ∀ z', z.start = some z' → SpotAt h root z' [z'.lab] := by
  obtain ⟨lab, ls, kids, ctx, top⟩ := z
  obtain ⟨h1, h2, h3, ⟨p, hp, hc⟩, hnd⟩ := H
  dsimp only at h1 h2 h3 hp hc hk hl
  have hlab := hR lab (by simp [Spot.labs])
  cases kids with
  | node b ms L rest =>
      have hR' : ∀ x ∈ (Forest.node b ms L rest).labs, h.IsRouter x := fun x hx =>
        hR x (by simp only [Spot.labs, List.mem_cons, List.mem_append]; tauto)
      refine ⟨getStart_node W hlab h2 h3 hk hR' _ top, fun z' hz => ?_⟩
      obtain rfl := Option.some.inj hz
      obtain ⟨g1, g2, g3, g4⟩ := h3
      have hbl : h.par b = some lab := W.kids_parent (W.fkids_subset (by rw [h2]; simp))
      refine spotAt_deepest W L g1.symm g2.symm g3 ⟨lab, hbl, rfl, by simpa using h2, h1, g4, p, hp, ?_⟩ ?_
      · simpa [Spot.front] using hc
      · exact ((perm_labs_down lab b ls ms L rest ctx top).cons root).nodup_iff.mpr hnd
  | nil =>
      obtain ⟨rl, hrl⟩ := hlab
      have hpar : rl.parent = some p := by rw [← hp, Heap.par_of_node hrl]; rfl
      have hfl : 0 < rl.fleaf ↔ ls ≠ [] := by
        rw [W.fleaf_eq hrl, h1, List.length_pos_iff]
      by_cases hls : ls = []
      · subst hls
        have hnd' : (root :: ctxLabs ctx top).Nodup := by
          simp only [Spot.labs, Forest.labs, List.nil_append, List.nodup_cons, List.mem_cons,
            not_or] at hnd
          exact List.nodup_cons.mpr ⟨hnd.1.2, hnd.2.2⟩
        obtain ⟨⟨N, hN⟩, hz⟩ := getStart_resume (p := p) W hroot (fun x hx => hR x (by
          simp only [Spot.labs, Forest.labs, List.nil_append, List.mem_cons] at hx ⊢
          tauto)) hl hnd' (by simpa [Spot.front] using hc)
        refine ⟨⟨N + 2, fun fuel hf => ?_⟩, by simpa [Spot.start] using hz⟩
        obtain ⟨fuel, rfl⟩ : ∃ k, fuel = k + 2 := ⟨fuel - 2, by omega⟩
        have hfl' : rl.fleaf = 0 := by simpa using hfl
        rw [getStart_nil hrl (by simpa using h2)]
        simp [hpar, hfl', hN (fuel + 1) (by omega), Spot.start]
      · refine ⟨⟨2, fun fuel hf' => ?_⟩, fun z' hz => ?_⟩
        · obtain ⟨fuel, rfl⟩ : ∃ k, fuel = k + 2 := ⟨fuel - 2, by omega⟩
          rw [getStart_nil hrl (by simpa using h2)]
          simp [hpar, hfl.mpr hls, Spot.start, hls]
        · obtain rfl : ({ lab := lab, ls := ls, kids := .nil, ctx := ctx, top := top } :
              Spot NodeId NodeId) = z' := by simpa [Spot.start, hls] using hz
          exact ⟨h1, h2, h3, ⟨p, hp, by simpa [Spot.front, hls] using hc⟩, hnd⟩

/-- Resuming reaches routers that are not done. -/
theorem resume_labs {z : Spot NodeId NodeId} (hz : Spot.resume ctx top = some z) :
    z.labs ⊆ ctxLabs ctx top := by
  induction ctx with
  | nil =>
      cases top with
      | nil => simp [Spot.resume] at hz
      | node a ls K rest =>
          obtain rfl := Option.some.inj hz
          exact (deepest_labs K a ls [] rest).subset
  | cons f ctx ih =>
      obtain ⟨lab, fls, sibs⟩ := f
      cases sibs with
      | node a ls K rest =>
          obtain rfl := Option.some.inj hz
          refine List.Subset.trans (deepest_labs K a ls _ top).subset fun x hx => ?_
          simp only [ctxLabs, Forest.labs, List.mem_cons, List.mem_append] at hx ⊢
          tauto
      | nil =>
          by_cases hf : fls = []
          · subst hf
            refine List.Subset.trans (ih (by simpa [Spot.resume] using hz)) fun x hx => ?_
            simp [ctxLabs, hx]
          · obtain rfl : ({ lab := lab, ls := fls, kids := .nil, ctx := ctx, top := top } :
                Spot NodeId NodeId) = z := by simpa [Spot.resume, hf] using hz
            exact List.Subset.refl _

/-- Starting again reaches routers that are not done. -/
theorem start_labs {z z' : Spot NodeId NodeId} (hz : z.start = some z') : z'.labs ⊆ z.labs := by
  obtain ⟨lab, ls, kids, ctx, top⟩ := z
  cases kids with
  | node b ms L rest =>
      obtain rfl := Option.some.inj hz
      refine List.Subset.trans (deepest_labs L b ms _ top).subset fun x hx => ?_
      simp only [Spot.labs, ctxLabs, Forest.labs, List.mem_cons, List.mem_append] at hx ⊢
      tauto
  | nil =>
      by_cases hls : ls = []
      · subst hls
        refine List.Subset.trans (resume_labs (by simpa [Spot.start] using hz)) fun x hx => ?_
        simp [Spot.labs, hx]
      · obtain rfl : ({ lab := lab, ls := ls, kids := .nil, ctx := ctx, top := top } :
            Spot NodeId NodeId) = z' := by simpa [Spot.start, hls] using hz
        exact List.Subset.refl _

/-- Nothing is left of the routers that resuming passes over. -/
theorem resume_spent (H : CtxAt h root ctx top p []) :
    (Spot.resume ctx top = none → h.fkids root = []) ∧
      ∀ x ∈ ctxLabs ctx top, (∃ z, Spot.resume ctx top = some z ∧ x ∈ z.labs) ∨ h.Spent x := by
  induction ctx generalizing p with
  | nil =>
      obtain ⟨rfl, h1, -, -⟩ := H
      cases top with
      | nil => exact ⟨fun _ => h1, by simp [ctxLabs]⟩
      | node a ls K rest =>
          refine ⟨by simp [Spot.resume], fun x hx => Or.inl ⟨_, rfl, ?_⟩⟩
          exact (deepest_labs K a ls [] rest).symm.subset hx
  | cons f ctx ih =>
      obtain ⟨lab, fls, sibs⟩ := f
      obtain ⟨rfl, h1, h2, -, q, -, h5⟩ := H
      dsimp only at h1 h2 h5
      cases sibs with
      | node a ls K rest =>
          refine ⟨by simp [Spot.resume], fun x hx => Or.inl ⟨_, rfl, ?_⟩⟩
          refine (deepest_labs K a ls _ top).symm.subset ?_
          simp only [ctxLabs, Forest.labs, List.mem_cons, List.mem_append] at hx ⊢
          tauto
      | nil =>
          by_cases hf : fls = []
          · subst hf
            obtain ⟨ih1, ih2⟩ := ih (by simpa using h5)
            simp only [Spot.resume, if_true]
            refine ⟨ih1, fun x hx => ?_⟩
            rcases List.mem_cons.mp hx with rfl | hx
            · exact Or.inr ⟨by simpa using h1, h2⟩
            · exact ih2 x (by simpa using hx)
          · simp only [Spot.resume, hf, if_false]
            exact ⟨by simp, fun x hx => Or.inl ⟨_, rfl, hx⟩⟩

/-- Nothing is left of the routers that starting again passes over. -/
theorem start_spent {z : Spot NodeId NodeId} (H : SpotAt h root z z.front) :
    (z.start = none → h.fkids root = []) ∧
      ∀ x ∈ z.labs, (∃ z', z.start = some z' ∧ x ∈ z'.labs) ∨ h.Spent x := by
  obtain ⟨lab, ls, kids, ctx, top⟩ := z
  obtain ⟨h1, h2, -, ⟨p, -, hc⟩, -⟩ := H
  dsimp only at h1 h2 hc
  cases kids with
  | node b ms L rest =>
      refine ⟨by simp [Spot.start], fun x hx => Or.inl ⟨_, rfl, ?_⟩⟩
      refine (deepest_labs L b ms _ top).symm.subset ?_
      simp only [Spot.labs, ctxLabs, Forest.labs, List.mem_cons, List.mem_append] at hx ⊢
      tauto
  | nil =>
      by_cases hls : ls = []
      · subst hls
        obtain ⟨r1, r2⟩ := resume_spent (p := p) (by simpa [Spot.front] using hc)
        simp only [Spot.start, if_true]
        refine ⟨r1, fun x hx => ?_⟩
        rcases List.mem_cons.mp hx with rfl | hx
        · exact Or.inr ⟨h2, h1⟩
        · exact r2 x (by simpa using hx)
      · simp only [Spot.start, hls, if_false]
        exact ⟨by simp, fun x hx => Or.inl ⟨_, rfl, hx⟩⟩

/-! ### Going up -/

/-- `back_propagate` at a router of which nothing is left. -/
theorem backPropagate_spec (W : h.Wf) (hr : h.IsRouter r) (hp : h.par r = some p)
    (hk : h.fkids r = []) (hl : h.flvs r = []) (rest : List NodeId)
    (hfree : h.fkids p = r :: rest) : ∃ h', backPropagate h r = some (h', some p) ∧
      Heap.Drained h h' {p} ∧ h'.fkids p = rest ∧ h'.flvs p = h.flvs p := by
  obtain ⟨rr, hrr⟩ := hr
  obtain ⟨rp, hrp⟩ := W.par_router r p hp
  have hpar : rr.parent = some p := by rw [← hp, Heap.par_of_node hrr]; rfl
  have hfc : rr.fchild = 0 := by rw [W.fchild_eq hrr, hk]; rfl
  have hfl : rr.fleaf = 0 := by rw [W.fleaf_eq hrr, hl]; rfl
  have h1 : 1 ≤ rp.fchild := by rw [W.fchild_eq hrp, hfree]; simp
  obtain ⟨D, hd1, hd2⟩ := Heap.drain_spec W hrp h1 (Nat.zero_le _)
  refine ⟨_, ?_, D, ?_, ?_⟩
  · simp [backPropagate, Heap.router_eq_some.mpr hrr, Heap.router_eq_some.mpr hrp, hpar, hfc, hfl]
  · rw [hd1, hfree]
    rfl
  · rw [hd2]
    rfl

/-- `rec_back_propagate` at a router of which something is left. -/
theorem recBackPropagate_of_free (W : h.Wf) (hr : h.IsRouter r)
    (hfree : h.flvs r ≠ [] ∨ h.fkids r ≠ []) (fuel : ℕ) :
    recBackPropagate (fuel + 2) h (some r) = some h := by
  obtain ⟨rr, hrr⟩ := hr
  have hpos : 0 < rr.fleaf ∨ 0 < rr.fchild := by
    rw [W.fleaf_eq hrr, W.fchild_eq hrr, List.length_pos_iff, List.length_pos_iff]
    exact hfree
  have hb : backPropagate h r = some (h, none) := by
    simp only [backPropagate, Heap.router_eq_some.mpr hrr, Option.bind_eq_bind, Option.bind_some]
    split
    · rfl
    · rw [if_pos hpos]
  simp [recBackPropagate, hb]

/-- `rec_back_propagate` takes a router of which nothing is left from the free children of
its parent, and so on upwards. -/
theorem recBackPropagate_spec (W : h.Wf) (hroot : h.par root = none)
    (hr : h.IsRouter r) (hp : h.par r = some p) (hk : h.fkids r = []) (hl : h.flvs r = [])
    (hR : AllRouters h root ctx top) (hnd : (root :: ctxLabs ctx top).Nodup)
    (H : CtxAt h root ctx top p [r]) : ∃ h' N, (∀ fuel, N ≤ fuel →
      recBackPropagate fuel h (some r) = some h') ∧
      Heap.Drained h h' {x | x = root ∨ x ∈ ctxLabs ctx top} ∧ CtxAt h' root ctx top p [] := by
  induction ctx generalizing h p r with
  | nil =>
      obtain ⟨rfl, h1, hU, h2⟩ := H
      obtain ⟨h', hb, D, hd1, hd2⟩ := backPropagate_spec W hr hp hk hl top.tops h1
      obtain ⟨rp, hrp⟩ := (D.isRouter_iff p).mpr (hR p (by simp))
      have hpar : rp.parent = none := by
        rw [← hroot, ← D.par_eq, Heap.par_of_node hrp]
        rfl
      have hpn : p ∉ top.labs := (List.nodup_cons.mp hnd).1
      refine ⟨h', 3, fun fuel hf => ?_, D.mono (by simp), rfl, by simpa using hd1,
        by rw [hd2, D.lvs_eq, hU], ?_⟩
      · obtain ⟨fuel, rfl⟩ : ∃ k, fuel = k + 3 := ⟨fuel - 3, by omega⟩
        have hb' : backPropagate h' p = some (h', none) := by
          simp [backPropagate, Heap.router_eq_some.mpr hrp, hpar]
        simp only [recBackPropagate, hb, hb', Option.bind_eq_bind, Option.bind_some]
      · exact D.grown h2 fun x hx he => hpn (he ▸ hx)
  | cons f ctx ih =>
      obtain ⟨lab, fls, sibs⟩ := f
      obtain ⟨rfl, h1, h2, h3, q, h4, h5⟩ := H
      dsimp only at h1 h2 h3 h4 h5
      obtain ⟨h', hb, D, hd1, hd2⟩ := backPropagate_spec W hr hp hk hl sibs.tops h1
      have hpr : h'.IsRouter p := (D.isRouter_iff p).mpr (hR p (by simp [ctxLabs]))
      simp only [ctxLabs, List.nodup_cons, List.mem_cons, List.mem_append, not_or,
        List.nodup_append] at hnd
      obtain ⟨⟨hrp, hrs, hrc⟩, ⟨hps, hpc⟩, -, hcn, hdis⟩ := hnd
      have hg' : sibs.Grown h'.fkids h'.flvs := D.grown h3 fun x hx he => hps (he ▸ hx)
      have hc' : CtxAt h' root ctx top q [p] := by
        refine CtxAt.drained (by simpa using h5) D ?_
        rintro x rfl
        exact ⟨fun he => hrp he.symm, hpc⟩
      by_cases hfin : sibs = .nil ∧ fls = []
      · obtain ⟨rfl, rfl⟩ := hfin
        obtain ⟨h'', N, hN, D', hc''⟩ := ih D.wf (by rw [D.par_eq, hroot]) hpr
          (by rw [D.par_eq, h4]) (by simpa using hd1) (by rw [hd2, h2])
          (fun x hx => (D.isRouter_iff x).mpr (hR x (by
            simp only [ctxLabs, List.mem_cons, List.mem_append] at hx ⊢; tauto)))
          (List.nodup_cons.mpr ⟨hrc, hcn⟩) hc'
        have hps' : p ∉ {x | x = root ∨ x ∈ ctxLabs ctx top} := by
          rintro (he | he)
          · exact hrp he.symm
          · exact hpc he
        refine ⟨h'', N + 1, fun fuel hf => ?_, ?_, rfl, ?_, ?_, trivial, q, ?_, by simpa using hc''⟩
        · obtain ⟨fuel, rfl⟩ : ∃ k, fuel = k + 1 := ⟨fuel - 1, by omega⟩
          simp only [recBackPropagate, hb, Option.bind_eq_bind, Option.bind_some]
          exact hN fuel (by omega)
        · refine (D.mono ?_).trans (D'.mono ?_)
          · rintro x rfl
            simp [ctxLabs]
          · rintro x (hx | hx) <;> simp [ctxLabs, hx]
        · rw [(D'.free_frame hps').1, hd1]
          rfl
        · rw [(D'.free_frame hps').2, hd2, h2]
        · rw [D'.par_eq, D.par_eq, h4]
      · have hfr : h'.flvs p ≠ [] ∨ h'.fkids p ≠ [] := by
          rw [hd1, hd2, h2]
          by_contra hne
          push Not at hne
          refine hfin ⟨?_, hne.1⟩
          cases sibs with
          | nil => rfl
          | node => simp at hne
        refine ⟨h', 3, fun fuel hf => ?_, D.mono ?_, rfl, hd1, by rw [hd2, h2], hg', q,
          by rw [D.par_eq, h4], ?_⟩
        · obtain ⟨fuel, rfl⟩ : ∃ k, fuel = k + 3 := ⟨fuel - 3, by omega⟩
          have := recBackPropagate_of_free D.wf hpr hfr fuel
          conv_lhs => unfold recBackPropagate
          simp only [hb, Option.bind_eq_bind, Option.bind_some]
          exact this
        · rintro x rfl
          simp [ctxLabs]
        · rw [if_neg (by simpa using hfin)]
          exact hc'

end Zipper

end MEADcast
