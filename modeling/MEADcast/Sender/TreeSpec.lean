import MEADcast.Sender.HeapView

/-!
# Specifications of the tree operations

The position search is the bounded climb of `ParentMap`, and creating a node is an
allocation followed by an attachment.  Nothing here needs the tree to be free of cycles:
on a cycle the climb, and with it the search, has no result.
-/

namespace MEADcast

open ParentMap

namespace Heap

variable {h h' : Heap}

/-! ## Attaching, detaching and allocating -/

/-- Attaching a router that has no parent keeps the heap well-formed. -/
theorem Relinked.wf_attach {r p : NodeId} (W : h.Wf)
    (R : Relinked h h' (Function.update h.par r (some p))
      (Function.update h.kids p (r :: h.kids p)) h.lvs)
    (hr : h.IsRouter r) (hp : h.IsRouter p) (hrp : r ≠ p) (hpar : h.par r = none) : h'.Wf := by
  have hnot : ∀ x, r ∉ h.kids x := fun x hx => by
    have := W.kids_parent hx
    simp [hpar] at this
  refine R.wf W ?_ W.lvs_nodup ?_ ?_ ?_
  · intro x
    by_cases hx : x = p
    · subst hx
      simpa using ⟨hnot x, W.kids_nodup x⟩
    · simpa [hx] using W.kids_nodup x
  · intro x c
    have hm := W.mem_kids x c
    by_cases hc : c = r
    · subst hc
      by_cases hx : x = p
      · subst hx; simp [hr]
      · simp [hx, hnot x, Ne.symm hx]
    · by_cases hx : x = p
      · subst hx; simp [hc, hm]
      · simp [hx, hc, hm]
  · intro x c
    rw [W.mem_lvs]
    by_cases hc : c = r
    · subst hc
      have : ¬ h.IsLeaf c := fun hl => hl.not_isRouter hr
      simp [this]
    · simp [hc]
  · exact W.par_update_some hp hrp

/-- Attaching a leaf that has no parent keeps the heap well-formed. -/
theorem Relinked.wf_attachLeaf {l p : NodeId} (W : h.Wf)
    (R : Relinked h h' (Function.update h.par l (some p)) h.kids
      (Function.update h.lvs p (l :: h.lvs p)))
    (hl : h.IsLeaf l) (hp : h.IsRouter p) (hlp : l ≠ p) (hpar : h.par l = none) : h'.Wf := by
  have hnot : ∀ x, l ∉ h.lvs x := fun x hx => by
    have := W.lvs_parent hx
    simp [hpar] at this
  refine R.wf W W.kids_nodup ?_ ?_ ?_ ?_
  · intro x
    by_cases hx : x = p
    · subst hx
      simpa using ⟨hnot x, W.lvs_nodup x⟩
    · simpa [hx] using W.lvs_nodup x
  · intro x c
    rw [W.mem_kids]
    by_cases hc : c = l
    · subst hc
      simp [hl.not_isRouter]
    · simp [hc]
  · intro x c
    have hm := W.mem_lvs x c
    by_cases hc : c = l
    · subst hc
      by_cases hx : x = p
      · subst hx; simp [hl]
      · simp [hx, hnot x, Ne.symm hx]
    · by_cases hx : x = p
      · subst hx; simp [hc, hm]
      · simp [hx, hc, hm]
  · exact W.par_update_some hp hlp

/-- Detaching a child router keeps the heap well-formed. -/
theorem Relinked.wf_detach {r : NodeId} (W : h.Wf)
    (R : Relinked h h' (Function.update h.par r none) (fun x => (h.kids x).erase r) h.lvs)
    (hr : h.IsRouter r) : h'.Wf := by
  refine R.wf W (fun x => (W.kids_nodup x).erase r) W.lvs_nodup ?_ ?_ ?_
  · intro x c
    rw [(W.kids_nodup x).mem_erase_iff, W.mem_kids]
    by_cases hc : c = r <;> simp [hc]
  · intro x c
    rw [W.mem_lvs]
    by_cases hc : c = r
    · subst hc
      have : ¬ h.IsLeaf c := fun hl => hl.not_isRouter hr
      simp [this]
    · simp [hc]
  · intro x q hq
    by_cases hx : x = r
    · simp [hx] at hq
    · have hq' : h.par x = some q := by simpa [hx] using hq
      exact ⟨W.par_router x q hq', fun he => W.par_ne x (he ▸ hq')⟩

/-- A freshly allocated node without parent and without lists. -/
theorem Wf.alloc (W : h.Wf) (nd : Node) (hp : nd.parent = none) (hk : nd.kids = [])
    (hl : nd.lvs = []) (hC : ∀ r, nd = .router r → r.Counted) :
    (h.alloc nd).1.Wf ∧ (h.alloc nd).1.par = h.par ∧ (h.alloc nd).1.kids = h.kids ∧
      (h.alloc nd).1.lvs = h.lvs ∧
      (h.alloc nd).1.tag = Function.update h.tag h.next (some nd.tag) := by
  have hfresh : h.node h.next = none := W.fresh _ le_rfl
  have hset : ∀ x, (h.alloc nd).1.node x = (h.set h.next nd).node x := fun x => rfl
  have hpar : (h.alloc nd).1.par = h.par := by
    have : (h.alloc nd).1.par = (h.set h.next nd).par := rfl
    rw [this, par_set, hp]
    exact Function.update_eq_self_iff.mpr (by simp [par, hfresh])
  have hkids : (h.alloc nd).1.kids = h.kids := by
    have : (h.alloc nd).1.kids = (h.set h.next nd).kids := rfl
    rw [this, kids_set, hk]
    exact Function.update_eq_self_iff.mpr (by simp [kids, hfresh])
  have hlvs : (h.alloc nd).1.lvs = h.lvs := by
    have : (h.alloc nd).1.lvs = (h.set h.next nd).lvs := rfl
    rw [this, lvs_set, hl]
    exact Function.update_eq_self_iff.mpr (by simp [lvs, hfresh])
  have htag : (h.alloc nd).1.tag = Function.update h.tag h.next (some nd.tag) := by
    have : (h.alloc nd).1.tag = (h.set h.next nd).tag := rfl
    rw [this, tag_set]
  have hne : ∀ x, h.node x ≠ none → x ≠ h.next := fun x hx hxn => hx (hxn ▸ hfresh)
  have hRold : ∀ x, h.IsRouter x → (h.alloc nd).1.IsRouter x := by
    rintro x ⟨r, hr⟩
    have := hne x (by simp [hr])
    exact ⟨r, by rw [hset, node_set, if_neg this, hr]⟩
  refine ⟨⟨?_, ?_, ?_, ?_, ?_, ?_, ?_, ?_⟩, hpar, hkids, hlvs, htag⟩
  · rw [hkids]; exact W.kids_nodup
  · rw [hlvs]; exact W.lvs_nodup
  · intro x c
    rw [hkids, hpar, W.mem_kids]
    refine and_congr_left fun hc => ?_
    obtain ⟨ndc, hn⟩ := node_of_par hc
    refine (isRouter_congr ?_).symm
    rw [htag, Function.update_of_ne (hne c (by simp [hn]))]
  · intro x c
    rw [hlvs, hpar, W.mem_lvs]
    refine and_congr_left fun hc => ?_
    obtain ⟨ndc, hn⟩ := node_of_par hc
    refine (isLeaf_congr ?_).symm
    rw [htag, Function.update_of_ne (hne c (by simp [hn]))]
  · intro x p hxp
    rw [hpar] at hxp
    exact hRold p (W.par_router x p hxp)
  · intro x; rw [hpar]; exact W.par_ne x
  · exact W.counted.set hC
  · intro x hx
    have hx' : h.next < x := Nat.succ_le_iff.mp hx
    rw [hset, node_set, if_neg hx'.ne']
    exact W.fresh x hx'.le

/-- `create_router` below a router. -/
theorem createRouter_spec (W : h.Wf) (sa : In6Addr) {p : NodeId} (hp : h.IsRouter p) :
    ∃ h', h.createRouter sa (some p) = some (h', h.next) ∧ h'.Wf ∧
      h'.par = Function.update h.par h.next (some p) ∧
      h'.kids = Function.update h.kids p (h.next :: h.kids p) ∧ h'.lvs = h.lvs ∧
      h'.tag = Function.update h.tag h.next (some (.router sa 0)) ∧
      h'.next = h.next + 1 ∧ (h.AllFree → h'.AllFree) := by
  let nd : Node := .router { parent := none, sa := sa, hops := 0, child := [], leaf := [],
                             nchild := 0, fchild := 0, nleaf := 0, fleaf := 0 }
  have hC : ∀ r, nd = .router r → r.Counted := by
    rintro r hr
    obtain rfl := Node.router.inj hr
    exact ⟨rfl, rfl, le_rfl, le_rfl⟩
  have hA : ∀ r, nd = .router r → r.AllFree := by
    rintro r hr
    obtain rfl := Node.router.inj hr
    exact ⟨rfl, rfl⟩
  obtain ⟨W1, hpar, hkids, hlvs, htag⟩ := W.alloc nd rfl rfl rfl hC
  have hpn : p ≠ h.next := by
    rintro rfl
    obtain ⟨r, hr⟩ := hp
    simp [W.fresh _ le_rfl] at hr
  have hp1 : (h.alloc nd).1.IsRouter p :=
    (isRouter_congr (by rw [htag, Function.update_of_ne hpn])).mpr hp
  have hr1 : (h.alloc nd).1.IsRouter h.next :=
    isRouter_iff_tag.mpr ⟨sa, 0, by rw [htag]; simp [nd]⟩
  have hnone : (h.alloc nd).1.par h.next = none := by
    rw [hpar]
    simp [par, W.fresh _ le_rfl]
  obtain ⟨h', e, R⟩ := addRouter_spec W1.counted hr1 hp1 hpn.symm
  refine ⟨h', ?_, R.wf_attach W1 hr1 hp1 hpn.symm hnone, ?_, ?_, ?_, ?_, R.next_eq, ?_⟩
  · simp only [createRouter]
    change ((h.alloc nd).1.addRouter p h.next).bind _ = _
    rw [e]; rfl
  · rw [R.par_eq, hpar]
  · rw [R.kids_eq, hkids]
  · rw [R.lvs_eq, hlvs]
  · rw [R.tag_eq, htag]; rfl
  · exact fun A => R.allFree (A.set hA)

/-- `create_leaf` below a router. -/
theorem createLeaf_spec (W : h.Wf) (addr : Addr) {p : NodeId} (hp : h.IsRouter p) :
    ∃ h', h.createLeaf addr p = some (h', h.next) ∧ h'.Wf ∧
      h'.par = Function.update h.par h.next (some p) ∧ h'.kids = h.kids ∧
      h'.lvs = Function.update h.lvs p (h.next :: h.lvs p) ∧
      h'.tag = Function.update h.tag h.next (some (.leaf addr)) ∧
      h'.next = h.next + 1 ∧ (h.AllFree → h'.AllFree) := by
  -- `add_leaf` overwrites the parent, so the leaf may be allocated without one
  let nd : Node := .leaf { parent := none, addr := addr }
  obtain ⟨W1, hpar, hkids, hlvs, htag⟩ := W.alloc nd rfl rfl rfl (by simp [nd])
  have hpn : p ≠ h.next := by
    rintro rfl
    obtain ⟨r, hr⟩ := hp
    simp [W.fresh _ le_rfl] at hr
  have hp1 : (h.alloc nd).1.IsRouter p :=
    (isRouter_congr (by rw [htag, Function.update_of_ne hpn])).mpr hp
  have hl1 : (h.alloc nd).1.IsLeaf h.next :=
    isLeaf_iff_tag.mpr ⟨addr, by rw [htag]; simp [nd]⟩
  have hnone : (h.alloc nd).1.par h.next = none := by
    rw [hpar]
    simp [par, W.fresh _ le_rfl]
  have hsame : (h.alloc (.leaf { parent := some p, addr := addr })).1.setParent h.next (some p) =
      (h.alloc nd).1.setParent h.next (some p) := by
    simp only [setParent, alloc, nd, set, if_true, Option.bind_eq_bind, Option.bind_some,
      Node.setParent_leaf, Option.some.injEq, mk.injEq, and_true]
    funext j
    by_cases hj : j = h.next <;> simp [hj]
  obtain ⟨h', e, R⟩ := addLeaf_spec W1.counted hl1 hp1 hpn.symm
  refine ⟨h', ?_, R.wf_attachLeaf W1 hl1 hp1 hpn.symm hnone, ?_, ?_, ?_, ?_, R.next_eq, ?_⟩
  · simp only [createLeaf]
    have : (h.alloc (.leaf { parent := some p, addr := addr })).1.addLeaf p h.next = some h' := by
      rw [addLeaf, hsame]; exact e
    change ((h.alloc (.leaf { parent := some p, addr := addr })).1.addLeaf p h.next).bind _ = _
    rw [this]; rfl
  · rw [R.par_eq, hpar]
  · rw [R.kids_eq, hkids]
  · rw [R.lvs_eq, hlvs]
  · rw [R.tag_eq, htag]; rfl
  · exact fun A => R.allFree (A.set (by simp [nd]))

/-! ## Rewriting the counters and the hop count of a router -/

/-- The heap `h'` differs from `h` in the record of router `r` only, and there in neither
the parent nor the lists; `t` is the new tag. -/
structure Rewritten (h h' : Heap) (r : NodeId) (t : Tag) : Prop where
  wf : h'.Wf
  par_eq : h'.par = h.par
  kids_eq : h'.kids = h.kids
  lvs_eq : h'.lvs = h.lvs
  tag_eq : h'.tag = Function.update h.tag r (some t)
  next_eq : h'.next = h.next
  freeAt : ∀ x, x ≠ r → h.FreeAt x → h'.FreeAt x

theorem rewritten_set (W : h.Wf) {r : NodeId} {rt : Router} (rt' : Router)
    (hr : h.node r = some (.router rt)) (hp : rt'.parent = rt.parent)
    (hc : rt'.child = rt.child) (hl : rt'.leaf = rt.leaf) (C : rt'.Counted) :
    Rewritten h (h.set r (.router rt')) r (.router rt'.sa rt'.hops) := by
  have hpar : (h.set r (.router rt')).par = h.par := by
    rw [par_set, Node.parent_router, hp, ← Node.parent_router rt, ← par_of_node hr,
      Function.update_eq_self]
  have hkids : (h.set r (.router rt')).kids = h.kids := by
    rw [kids_set, Node.kids_router, hc, ← Node.kids_router rt, ← kids_of_node hr,
      Function.update_eq_self]
  have hlvs : (h.set r (.router rt')).lvs = h.lvs := by
    rw [lvs_set, Node.lvs_router, hl, ← Node.lvs_router rt, ← lvs_of_node hr,
      Function.update_eq_self]
  have htag : (h.set r (.router rt')).tag = Function.update h.tag r
      (some (.router rt'.sa rt'.hops)) := by
    rw [tag_set, Node.tag_router]
  have hrt : h.IsRouter r := ⟨rt, hr⟩
  have hR : ∀ x, (h.set r (.router rt')).IsRouter x ↔ h.IsRouter x := by
    intro x
    by_cases hx : x = r
    · subst hx
      exact iff_of_true ⟨rt', by simp⟩ hrt
    · exact isRouter_congr (by rw [htag, Function.update_of_ne hx])
  have hL : ∀ x, (h.set r (.router rt')).IsLeaf x ↔ h.IsLeaf x := by
    intro x
    by_cases hx : x = r
    · subst hx
      exact iff_of_false (fun hl => hl.not_isRouter ((hR x).mpr hrt))
        (fun hl => hl.not_isRouter hrt)
    · exact isLeaf_congr (by rw [htag, Function.update_of_ne hx])
  refine ⟨⟨?_, ?_, ?_, ?_, ?_, ?_, ?_, ?_⟩, hpar, hkids, hlvs, htag, rfl, ?_⟩
  · rw [hkids]; exact W.kids_nodup
  · rw [hlvs]; exact W.lvs_nodup
  · intro x c; rw [hkids, hpar, hR]; exact W.mem_kids x c
  · intro x c; rw [hlvs, hpar, hL]; exact W.mem_lvs x c
  · intro x p hp; rw [hpar] at hp; exact (hR p).mpr (W.par_router x p hp)
  · intro x; rw [hpar]; exact W.par_ne x
  · refine W.counted.set fun r' hr' => ?_
    obtain rfl := Node.router.inj hr'
    exact C
  · intro x hx
    rw [node_set, if_neg, W.fresh x hx]
    rintro rfl
    simp [W.fresh x hx] at hr
  · exact fun x hx A => A.set fun he => absurd he hx

/-! ## The position search -/

/-- The loop follows the parent pointers of the heap. -/
theorem pathLoop_sound {b fuel : ℕ} {l n : NodeId} {p : Option NodeId}
    (e : h.pathLoop b fuel l (h.par l) = some (n, p)) :
    ∀ q, p = some q → Climb h.par h.hops b l n q := by
  induction fuel generalizing l with
  | zero => simp [pathLoop] at e
  | succ fuel ih =>
      intro q hq
      subst hq
      cases hl : h.par l with
      | none => simp [hl, pathLoop] at e
      | some m =>
          rw [hl, pathLoop] at e
          cases hm : h.router m with
          | none => simp [hm] at e
          | some rm =>
              have hn := router_eq_some.mp hm
              simp only [hm, Option.bind_eq_bind, Option.bind_some] at e
              have hk : h.hops m = rm.hops := hops_of_router hn
              by_cases hb : rm.hops ≤ b
              · rw [if_pos hb] at e
                obtain ⟨rfl, rfl⟩ : l = n ∧ m = q := by simpa using e
                exact .here hl (hk ▸ hb)
              · rw [if_neg hb] at e
                have hpm : rm.parent = h.par m := (par_of_node hn).symm
                rw [hpm] at e
                exact .up hl (by omega) (ih e q rfl)

/-- With enough iterations the loop finds what the climb finds. -/
theorem pathLoop_complete (W : h.Wf) {b : ℕ} {l n p : NodeId}
    (c : Climb h.par h.hops b l n p) :
    ∃ N, ∀ fuel, N ≤ fuel → h.pathLoop b fuel l (h.par l) = some (n, some p) := by
  induction c with
  | @here l p hp hb =>
      obtain ⟨rp, hrp⟩ := W.par_router l p hp
      refine ⟨1, fun fuel hf => ?_⟩
      obtain ⟨fuel, rfl⟩ : ∃ k, fuel = k + 1 := ⟨fuel - 1, by omega⟩
      have hk : rp.hops ≤ b := hops_of_router hrp ▸ hb
      simp [hp, pathLoop, router_eq_some.mpr hrp, hk]
  | @up l q n p hq hb _ ih =>
      obtain ⟨rq, hrq⟩ := W.par_router l q hq
      obtain ⟨N, hN⟩ := ih
      refine ⟨N + 1, fun fuel hf => ?_⟩
      obtain ⟨fuel, rfl⟩ : ∃ k, fuel = k + 1 := ⟨fuel - 1, by omega⟩
      have hk : ¬ rq.hops ≤ b := by rw [← hops_of_router hrq]; omega
      have hpar : rq.parent = h.par q := (par_of_node hrq).symm
      simp [hq, pathLoop, router_eq_some.mpr hrq, hk, hpar, hN fuel (by omega)]

/-- A node with a parent is found in the list of its parent. -/
theorem getChild_of_mem {v : NodeId} {l : List NodeId} (hv : v ∈ l) : getChild v l = some v := by
  induction l with
  | nil => simp at hv
  | cons x l ih =>
      by_cases hx : x = v
      · simp [getChild, hx]
      · have : v ∈ l := by simpa [Ne.symm hx] using hv
        simpa [getChild, hx] using ih this

/-- After the loop, the search returns the cell of the last node passed. -/
theorem getPathPos_of_loop (W : h.Wf) {b fuel : ℕ} {l n p : NodeId} (hl : h.IsLeaf l)
    (e : h.pathLoop b fuel l (h.par l) = some (n, some p)) :
    h.getPathPos fuel l b = some (some n) := by
  obtain ⟨lf, hl⟩ := hl
  have hn := (pathLoop_sound e p rfl).par_eq
  have hlp : lf.parent = h.par l := (par_of_node hl).symm
  obtain ⟨rp, hrp⟩ := W.par_router n p hn
  obtain ⟨nd, hnd⟩ := node_of_par hn
  cases nd with
  | router rn =>
      have : n ∈ rp.child := by
        rw [← Node.kids_router rp, ← kids_of_node hrp]
        exact (W.mem_kids p n).mpr ⟨⟨rn, hnd⟩, hn⟩
      simp [getPathPos, hl, hlp, e, router_eq_some.mpr hrp, hnd, getChild_of_mem this]
  | leaf ln =>
      have : n ∈ rp.leaf := by
        rw [← Node.lvs_router rp, ← lvs_of_node hrp]
        exact (W.mem_lvs p n).mpr ⟨⟨ln, hnd⟩, hn⟩
      simp [getPathPos, hl, hlp, e, router_eq_some.mpr hrp, hnd, getChild_of_mem this]

/-- The search returns a cell exactly if the climb from the leaf ends; the cell holds the
last node passed, so it is never null. -/
theorem getPathPos_sound (W : h.Wf) {b fuel : ℕ} {l : NodeId} {c : Option NodeId}
    (hl : h.IsLeaf l) (e : h.getPathPos fuel l b = some c) :
    ∃ n p, c = some n ∧ Climb h.par h.hops b l n p := by
  have hl' := hl
  obtain ⟨lf, hlf⟩ := hl
  have hlp : lf.parent = h.par l := (par_of_node hlf).symm
  have e' := e
  simp only [getPathPos, hlf, Node.parent_leaf, hlp, Option.bind_eq_bind, Option.bind_some,
    Option.bind_eq_some_iff] at e'
  obtain ⟨⟨n, p⟩, hloop, p', hp, -⟩ := e'
  dsimp only at hp
  subst hp
  have hc := pathLoop_sound hloop p' rfl
  rw [getPathPos_of_loop W hl' hloop] at e
  exact ⟨n, p', (Option.some.inj e).symm, hc⟩

theorem getPathPos_complete (W : h.Wf) {b : ℕ} {l n p : NodeId} (hl : h.IsLeaf l)
    (c : Climb h.par h.hops b l n p) :
    ∃ N, ∀ fuel, N ≤ fuel → h.getPathPos fuel l b = some (some n) := by
  obtain ⟨N, hN⟩ := pathLoop_complete W c
  exact ⟨N, fun fuel hf => getPathPos_of_loop W hl (hN fuel hf)⟩

end Heap

end MEADcast
