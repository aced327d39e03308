import MEADcast.Sender.TreeSpec
import MEADcast.Sender.Inv
import MEADcast.Sender.Component

/-!
# Reducing the tree

`cutRouter` removes one router and hands its neighbours to its parent; `reduceTree` is the
pruning of `Forest.prune` on the forest below the root.

## Main results

* `Heap.cutRouter_spec` — the views after one router was cut.
* `reduceChilds_spec` — the loop of `reduce_tree` prunes the trees it has not visited yet.
-/

namespace MEADcast

namespace Heap

section Cut

variable {h : Heap} {ht : Judy} {r p : NodeId}

/-- The views after `set_parent` was called on all cells of a list. -/
theorem setParents_spec (C : h.Counted) (p : NodeId) {cs : List NodeId}
    (hcs : ∀ c ∈ cs, h.node c ≠ none) :
    ∃ h', h.setParents cs p = some h' ∧
      Relinked h h' (fun x => if x ∈ cs then some p else h.par x) h.kids h.lvs := by
  induction cs generalizing h with
  | nil => exact ⟨h, rfl, by simp, rfl, rfl, rfl, rfl, C, fun _ A => A⟩
  | cons c cs ih =>
      obtain ⟨nd, hc⟩ := Option.ne_none_iff_exists'.mp (hcs c (by simp))
      have R := relinked_setParent (v := some p) C hc
      have hcs' : ∀ d ∈ cs, (h.set c (nd.setParent (some p))).node d ≠ none := by
        intro d hd
        rw [node_set]
        split
        · simp
        · exact hcs d (by simp [hd])
      obtain ⟨h', e, R'⟩ := ih R.counted hcs'
      refine ⟨h', ?_, ?_⟩
      · simpa [setParents, setParent, hc] using e
      · have := R.trans R'
        rw [R.kids_eq, R.lvs_eq] at this
        convert this using 2
        rename_i x
        by_cases hx : x = c
        · simp [hx, R.par_eq]
        · simp [hx, R.par_eq]

theorem addChilds_of_length {l c : List NodeId} {n : ℕ} (hn : n = l.length) (f : ℕ) :
    addChilds l c n f = (c ++ l, n + c.length, f + c.length) := by
  cases c with
  | nil => simp [addChilds]
  | cons x c =>
      cases l with
      | nil => simp [addChilds, hn]
      | cons y l => simp [addChilds, hn]

/-- Prepending a list to the children of `p`. -/
theorem addChilds_spec (C : h.Counted) {rp : Router} (hp : h.node p = some (.router rp))
    (c : List NodeId) :
    Relinked h (h.set p (.router (rp.setChild (addChilds rp.child c rp.nchild rp.fchild)))) h.par
      (Function.update h.kids p (c ++ h.kids p)) h.lvs := by
  have Cp := C p rp hp
  rw [addChilds_of_length Cp.nchild_eq]
  have R := relinked_setLists
    (rp.setChild (c ++ rp.child, rp.nchild + c.length, rp.fchild + c.length)) C hp rfl rfl
    ⟨by simp [Router.setChild, Cp.nchild_eq, Nat.add_comm], Cp.nleaf_eq,
      by simpa [Router.setChild] using Cp.fchild_le, Cp.fleaf_le⟩
    (fun A => ⟨by simpa [Router.setChild] using A.1, A.2⟩)
  have hl : Function.update h.lvs p rp.leaf = h.lvs := by
    rw [← Node.lvs_router rp, ← lvs_of_node hp, Function.update_eq_self]
  have hk : h.kids p = rp.child := kids_of_node hp
  rw [hk]
  simpa [Router.setChild, hl] using R

/-- Prepending a list to the leaves of `p`. -/
theorem addLeafs_spec (C : h.Counted) {rp : Router} (hp : h.node p = some (.router rp))
    (c : List NodeId) :
    Relinked h (h.set p (.router (rp.setLeaf (addChilds rp.leaf c rp.nleaf rp.fleaf)))) h.par
      h.kids (Function.update h.lvs p (c ++ h.lvs p)) := by
  have Cp := C p rp hp
  rw [addChilds_of_length Cp.nleaf_eq]
  have R := relinked_setLists
    (rp.setLeaf (c ++ rp.leaf, rp.nleaf + c.length, rp.fleaf + c.length)) C hp rfl rfl
    ⟨Cp.nchild_eq, by simp [Router.setLeaf, Cp.nleaf_eq, Nat.add_comm], Cp.fchild_le,
      by simpa [Router.setLeaf] using Cp.fleaf_le⟩
    (fun A => ⟨A.1, by simpa [Router.setLeaf] using A.2⟩)
  have hk : Function.update h.kids p rp.child = h.kids := by
    rw [← Node.kids_router rp, ← kids_of_node hp, Function.update_eq_self]
  have hl : h.lvs p = rp.leaf := lvs_of_node hp
  rw [hl]
  simpa [Router.setLeaf, hk] using R

@[simp] theorem node_free (i j : NodeId) :
    (h.free i).node j = if j = i then none else h.node j := rfl

@[simp] theorem par_free (i : NodeId) : (h.free i).par = Function.update h.par i none := by
  funext j
  by_cases hj : j = i <;> simp [par, hj]

@[simp] theorem kids_free (i : NodeId) : (h.free i).kids = Function.update h.kids i [] := by
  funext j
  by_cases hj : j = i <;> simp [kids, hj]

@[simp] theorem lvs_free (i : NodeId) : (h.free i).lvs = Function.update h.lvs i [] := by
  funext j
  by_cases hj : j = i <;> simp [lvs, hj]

@[simp] theorem tag_free (i : NodeId) : (h.free i).tag = Function.update h.tag i none := by
  funext j
  by_cases hj : j = i <;> simp [tag, hj]

theorem Counted.free (C : h.Counted) (i : NodeId) : (h.free i).Counted := by
  intro x r hr
  rw [node_free] at hr
  split at hr
  · simp at hr
  · exact C x r hr

theorem FreeAt.free {x : NodeId} (A : h.FreeAt x) (i : NodeId) : (h.free i).FreeAt x := by
  intro r hr
  rw [node_free] at hr
  split at hr
  · simp at hr
  · exact A r hr

/-- The heap after `r`, a child of `p`, was cut out. -/
structure Cut (h h' : Heap) (r p : NodeId) : Prop where
  par_eq : h'.par = fun x => if x = r then none else if h.par x = some r then some p else h.par x
  kids_eq : h'.kids = fun x =>
    if x = r then [] else if x = p then h.kids r ++ (h.kids p).erase r else h.kids x
  lvs_eq : h'.lvs = fun x => if x = r then [] else if x = p then h.lvs r ++ h.lvs p else h.lvs x
  tag_eq : h'.tag = Function.update h.tag r none
  next_eq : h'.next = h.next
  counted : h'.Counted
  freeAt : ∀ x, h.FreeAt x → h'.FreeAt x

/-- The second half of `cut_router`: the lists `cs` and `ls` are spliced into `p`. -/
theorem splice_spec (C : h.Counted) (hp : h.IsRouter p) (cs ls : List NodeId)
    (hcs : ∀ c ∈ cs, h.node c ≠ none) (hls : ∀ c ∈ ls, h.node c ≠ none) :
    ∃ h₁ r₁ h₂ h₃ r₃ h', h.setParents cs p = some h₁ ∧ h₁.router p = some r₁ ∧
      h₂ = h₁.set p (.router (r₁.setChild (addChilds r₁.child cs r₁.nchild r₁.fchild))) ∧
      h₂.setParents ls p = some h₃ ∧ h₃.router p = some r₃ ∧
      h' = h₃.set p (.router (r₃.setLeaf (addChilds r₃.leaf ls r₃.nleaf r₃.fleaf))) ∧
      Relinked h h' (fun x => if x ∈ cs ∨ x ∈ ls then some p else h.par x)
        (Function.update h.kids p (cs ++ h.kids p))
        (Function.update h.lvs p (ls ++ h.lvs p)) := by
  obtain ⟨h₁, e₁, R₁⟩ := setParents_spec C p hcs
  obtain ⟨r₁, hr₁⟩ : h₁.IsRouter p := (isRouter_congr (by rw [R₁.tag_eq])).mpr hp
  have R₂ := addChilds_spec R₁.counted hr₁ cs
  have R₁₂ := R₁.trans R₂
  have hls₂ : ∀ c ∈ ls, (h₁.set p (.router
      (r₁.setChild (addChilds r₁.child cs r₁.nchild r₁.fchild)))).node c ≠ none := by
    intro c hc
    rw [node_ne_none_iff, R₁₂.tag_eq, ← node_ne_none_iff]
    exact hls c hc
  obtain ⟨h₃, e₃, R₃⟩ := setParents_spec R₂.counted p hls₂
  have R₁₃ := R₁₂.trans R₃
  obtain ⟨r₃, hr₃⟩ : h₃.IsRouter p := (isRouter_congr (by rw [R₁₃.tag_eq])).mpr hp
  have R := R₁₃.trans (addLeafs_spec R₃.counted hr₃ ls)
  refine ⟨h₁, r₁, _, h₃, r₃, _, e₁, router_eq_some.mpr hr₁, rfl, e₃, router_eq_some.mpr hr₃, rfl, ?_⟩
  rw [R₁₃.par_eq, R₁₃.kids_eq, R₁₃.lvs_eq, R₂.par_eq, R₂.kids_eq, R₂.lvs_eq, R₁.par_eq,
    R₁.kids_eq, R₁.lvs_eq] at R
  convert R using 2
  rename_i x
  by_cases hx : x ∈ ls <;> simp [hx]

/-- `cut_router` on a child of `p`. -/
theorem cutRouter_spec (W : h.Wf) (T : Tracks ht h) (hr : h.IsRouter r)
    (hp : h.par r = some p) (hpr : h.par p ≠ some r) :
    ∃ h' ht', h.cutRouter ht r = some (h', ht') ∧ Cut h h' r p ∧ Tracks ht' h' := by
  have hrp : p ≠ r := by rintro rfl; exact W.par_ne p hp
  have hpR := W.par_router r p hp
  obtain ⟨rt, hrt⟩ := hr
  have hrt_p : rt.parent = some p := by rw [← hp, par_of_node hrt]; rfl
  obtain ⟨h₁, e₁, R₁⟩ := rmRouter_spec W ⟨rt, hrt⟩ hp
  obtain ⟨r₁, hr₁⟩ : h₁.IsRouter r := (isRouter_congr (by rw [R₁.tag_eq])).mpr ⟨rt, hrt⟩
  have hself : ∀ c, h.par c = some r → c ≠ r := by
    rintro c hc rfl
    exact W.par_ne c hc
  have hk : r₁.child = h.kids r := by
    rw [← Node.kids_router r₁, ← kids_of_node hr₁, R₁.kids_eq]
    exact List.erase_of_not_mem fun hm => hself r (W.kids_parent hm) rfl
  have hl : r₁.leaf = h.lvs r := by
    rw [← Node.lvs_router r₁, ← lvs_of_node hr₁, R₁.lvs_eq]
  have hsa : h.sa r = some r₁.sa := by
    rw [sa, ← R₁.tag_eq, tag_of_node hr₁]; rfl
  have hlive : ∀ c, h.par c = some r → (h₁.free r).node c ≠ none := by
    intro c hc
    rw [node_free, if_neg (hself c hc), node_ne_none_iff, R₁.tag_eq, ← node_ne_none_iff]
    obtain ⟨nd, hnd⟩ := node_of_par hc
    simp [hnd]
  have hp₂ : (h₁.free r).IsRouter p := by
    obtain ⟨rp, hrp'⟩ := (isRouter_congr (congrFun R₁.tag_eq p)).mpr hpR
    exact ⟨rp, by rw [node_free, if_neg hrp, hrp']⟩
  obtain ⟨h₂, r₂, h₃, h₄, r₄, h', e₂, hr₂, rfl, e₄, hr₄, rfl, R⟩ :=
    splice_spec (R₁.counted.free r) hp₂ (h.kids r) (h.lvs r)
      (fun c hc => hlive c (W.kids_parent hc)) (fun c hc => hlive c (W.lvs_parent hc))
  have hmem : ∀ x, (x ∈ h.kids r ∨ x ∈ h.lvs r) ↔ h.par x = some r := by
    intro x
    constructor
    · rintro (hx | hx)
      · exact W.kids_parent hx
      · exact W.lvs_parent hx
    · intro hx
      obtain ⟨nd, hnd⟩ := node_of_par hx
      rcases isRouter_or_isLeaf hnd with hR | hL
      · exact Or.inl ((W.mem_kids r x).mpr ⟨hR, hx⟩)
      · exact Or.inr ((W.mem_lvs r x).mpr ⟨hL, hx⟩)
  have herase : ∀ x, x ≠ p → (h.kids x).erase r = h.kids x := by
    intro x hx
    refine List.erase_of_not_mem fun hm => hx ?_
    exact Option.some.inj ((W.kids_parent hm).symm.trans hp)
  refine ⟨_, ht.del r₁.sa, ?_, ⟨?_, ?_, ?_, ?_, ?_, R.counted, ?_⟩, T.delete hsa ?_⟩
  · simp only [cutRouter, freeRouter, router_eq_some.mpr hrt, hrt_p, Option.bind_eq_bind,
      Option.bind_some, e₁, router_eq_some.mpr hr₁, hk, hl, e₂, hr₂, e₄, hr₄]
  · rw [R.par_eq, par_free, R₁.par_eq]
    funext x
    by_cases hx : h.par x = some r
    · simp [hmem x, hx, hself x hx]
    · by_cases hxr : x = r <;> simp [hmem, hx, hxr, W.par_ne r]
  · rw [R.kids_eq, kids_free, R₁.kids_eq]
    funext x
    by_cases hxp : x = p
    · subst hxp; simp [hrp]
    · by_cases hxr : x = r <;> simp [hxp, hxr, herase, hrp.symm]
  · rw [R.lvs_eq, lvs_free, R₁.lvs_eq]
    funext x
    by_cases hxp : x = p
    · subst hxp; simp [hrp]
    · by_cases hxr : x = r <;> simp [hxp, hxr, hrp.symm]
  · rw [R.tag_eq, tag_free, R₁.tag_eq]
  · rw [R.next_eq]
    exact R₁.next_eq
  · exact fun x A => R.freeAt x ((R₁.freeAt x A).free r)
  · funext x
    rw [sa, R.tag_eq, tag_free, R₁.tag_eq]
    by_cases hx : x = r <;> simp [hx, sa]

section Views

variable {h' : Heap} {x c : NodeId}

theorem Cut.kids_parent (K : Cut h h' r p) (hrp : p ≠ r) :
    h'.kids p = h.kids r ++ (h.kids p).erase r := by
  simp [K.kids_eq, hrp]

theorem Cut.lvs_parent (K : Cut h h' r p) (hrp : p ≠ r) : h'.lvs p = h.lvs r ++ h.lvs p := by
  simp [K.lvs_eq, hrp]

theorem Cut.frame (K : Cut h h' r p) (hxr : x ≠ r) (hxp : x ≠ p) :
    h'.kids x = h.kids x ∧ h'.lvs x = h.lvs x := by
  simp [K.kids_eq, K.lvs_eq, hxr, hxp]

/-- Parents stay, but for the neighbours below the node that was cut. -/
theorem Cut.par_iff (K : Cut h h' r p) : h'.par c = some x ↔
    c ≠ r ∧ ((x ≠ r ∧ h.par c = some x) ∨ (x = p ∧ h.par c = some r)) := by
  rw [K.par_eq]
  dsimp only
  by_cases hcr : c = r
  · simp [hcr]
  · by_cases hc : h.par c = some r
    · rw [if_neg hcr, if_pos hc, hc, Option.some.injEq, Option.some.injEq]
      tauto
    · have hx : h.par c = some x → x ≠ r := by
        rintro hx rfl
        exact hc hx
      rw [if_neg hcr, if_neg hc]
      tauto

theorem Cut.mem_kids (K : Cut h h' r p) (W : h.Wf) (hp : h.par r = some p) : c ∈ h'.kids x ↔
    c ≠ r ∧ ((x ≠ r ∧ c ∈ h.kids x) ∨ (x = p ∧ c ∈ h.kids r)) := by
  have hrp : p ≠ r := by rintro rfl; exact W.par_ne p hp
  by_cases hxp : x = p
  · have hself : c ∈ h.kids r → c ≠ r := by
      rintro hc rfl
      exact W.par_ne c (W.kids_parent hc)
    rw [hxp, K.kids_parent hrp, List.mem_append, (W.kids_nodup p).mem_erase_iff]
    tauto
  · by_cases hxr : x = r
    · simp [K.kids_eq, hxr, hrp.symm]
    · have hc : c ∈ h.kids x → c ≠ r := by
        rintro hc rfl
        exact hxp (Option.some.inj ((W.kids_parent hc).symm.trans hp))
      rw [(K.frame hxr hxp).1]
      tauto

theorem Cut.mem_lvs (K : Cut h h' r p) (hrp : p ≠ r) : c ∈ h'.lvs x ↔
    (x ≠ r ∧ c ∈ h.lvs x) ∨ (x = p ∧ c ∈ h.lvs r) := by
  by_cases hxp : x = p
  · rw [hxp, K.lvs_parent hrp, List.mem_append]
    tauto
  · by_cases hxr : x = r
    · simp [K.lvs_eq, hxr, hrp.symm]
    · rw [(K.frame hxr hxp).2]
      tauto

end Views

theorem Cut.wf {h' : Heap} (K : Cut h h' r p) (W : h.Wf) (hr : h.IsRouter r)
    (hp : h.par r = some p) (hpr : h.par p ≠ some r) : h'.Wf := by
  have hrp : p ≠ r := by rintro rfl; exact W.par_ne p hp
  have htag : ∀ x, x ≠ r → h'.tag x = h.tag x := fun x hx => by
    rw [K.tag_eq, Function.update_of_ne hx]
  have hgone : h'.tag r = none := by rw [K.tag_eq, Function.update_self]
  have hR : ∀ x, h'.IsRouter x ↔ x ≠ r ∧ h.IsRouter x := by
    intro x
    by_cases hx : x = r
    · subst hx; simp [isRouter_iff_tag, hgone]
    · simp [hx, isRouter_congr (htag x hx)]
  have hLr : ∀ x, h.IsLeaf x → x ≠ r := by
    rintro x hx rfl
    exact hx.not_isRouter hr
  have hL : ∀ x, h'.IsLeaf x ↔ h.IsLeaf x := by
    intro x
    by_cases hx : x = r
    · subst hx
      exact iff_of_false (by simp [isLeaf_iff_tag, hgone]) fun hl => hl.not_isRouter hr
    · exact isLeaf_congr (htag x hx)
  refine ⟨?_, ?_, ?_, ?_, ?_, ?_, K.counted, ?_⟩
  · intro x
    rw [K.kids_eq]
    dsimp only
    split_ifs
    · exact List.nodup_nil
    · refine List.nodup_append.mpr ⟨W.kids_nodup r, (W.kids_nodup p).erase r, ?_⟩
      rintro a ha b hb rfl
      have h1 := W.kids_parent ha
      have h2 := W.kids_parent (List.mem_of_mem_erase hb)
      exact hrp (Option.some.inj (h2.symm.trans h1))
    · exact W.kids_nodup x
  · intro x
    rw [K.lvs_eq]
    dsimp only
    split_ifs
    · exact List.nodup_nil
    · refine List.nodup_append.mpr ⟨W.lvs_nodup r, W.lvs_nodup p, ?_⟩
      rintro a ha b hb rfl
      exact hrp (Option.some.inj ((W.lvs_parent hb).symm.trans (W.lvs_parent ha)))
    · exact W.lvs_nodup x
  · intro x c
    rw [K.mem_kids W hp, K.par_iff, hR, W.mem_kids, W.mem_kids]
    tauto
  · intro x c
    have hc := hLr c
    rw [K.mem_lvs hrp, K.par_iff, hL, W.mem_lvs, W.mem_lvs]
    tauto
  · intro x q hq
    rw [hR]
    obtain ⟨-, ⟨hqr, h1⟩ | ⟨rfl, -⟩⟩ := K.par_iff.mp hq
    · exact ⟨hqr, W.par_router x q h1⟩
    · exact ⟨hrp, W.par_router r q hp⟩
  · intro x hq
    obtain ⟨-, ⟨-, h1⟩ | ⟨rfl, h1⟩⟩ := K.par_iff.mp hq
    · exact W.par_ne x h1
    · exact hpr h1
  · intro x hx
    by_contra hne
    rw [← ne_eq, node_ne_none_iff, K.tag_eq] at hne
    by_cases hxr : x = r
    · simp [hxr] at hne
    · rw [Function.update_of_ne hxr, ← node_ne_none_iff] at hne
      exact hne (W.fresh x (K.next_eq ▸ hx))

/-- A parent is live. -/
theorem Wf.tag_par (W : h.Wf) {x q : NodeId} (hq : h.par x = some q) : h.tag q ≠ none := by
  obtain ⟨_, _, ht⟩ := isRouter_iff_tag.mp (W.par_router x q hq)
  simp [ht]

/-- After a cut, parents are nearest ancestors among the live nodes. -/
theorem Cut.nearest {h' : Heap} (K : Cut h h' r p) (W : h.Wf) (hr : h.IsRouter r)
    (hp : h.par r = some p) (hpr : h.par p ≠ some r) {x q : NodeId} (hq : h'.par x = some q) :
    ParentMap.Nearest h.par (fun y => h'.tag y ≠ none) x q := by
  have hlive := (K.wf W hr hp hpr).tag_par hq
  obtain ⟨-, ⟨-, h1⟩ | ⟨rfl, h1⟩⟩ := K.par_iff.mp hq
  · exact .here h1 hlive
  · exact .up h1 (by simp [K.tag_eq]) (.here hp hlive)

end Cut

end Heap

/-! ## The recursion -/

/-- The condition under which `reduce_tree` cuts a router. -/
def Args.cuts (args : Args) (nchild nleaf : ℕ) : Bool :=
  decide (nchild < args.min_routers ∧ nleaf < args.min_leafs)

/-- A router without neighbours is always cut. -/
theorem Args.cuts_zero (args : Args) : args.cuts 0 0 = true := by
  have h1 := args.one_le_min_routers
  have h2 := args.one_le_min_leafs
  simp only [cuts, decide_eq_true_eq]
  omega

theorem cellNext_append {i : NodeId} {pre : List NodeId} (hi : i ∉ pre) (l : List NodeId) :
    cellNext (pre ++ i :: l) i = l.head? := by
  induction pre with
  | nil => simp [cellNext]
  | cons x pre ih =>
      have hx : x ≠ i := fun h => hi (by simp [h])
      have hp : i ∉ pre := fun h => hi (by simp [h])
      simp [cellNext, hx, ih hp]

/-- The heap and the table after the trees `F` among the children of `r` were reduced;
`pre` and `post` are the children of `r` before and after them. -/
structure Reduced (args : Args) (h h' : Heap) (ht' : Judy) (r : NodeId) (pre post : List NodeId)
    (F : Forest NodeId NodeId) : Prop where
  wf : h'.Wf
  tracks : Tracks ht' h'
  freeAt : ∀ x, h.FreeAt x → h'.FreeAt x
  kids_r : h'.kids r =
    (F.prune args.cuts).2.1.tops ++ (pre ++ ((F.prune args.cuts).2.2.tops ++ post))
  lvs_r : h'.lvs r = (F.prune args.cuts).1 ++ h.lvs r
  grown : ((F.prune args.cuts).2.1.append (F.prune args.cuts).2.2).Grown h'.kids h'.lvs
  kids_frame : ∀ x, x ≠ r → x ∉ F.labs → h'.kids x = h.kids x
  lvs_frame : ∀ x, x ≠ r → x ∉ F.labs → h'.lvs x = h.lvs x
  par_frame : ∀ x, x ∉ F.labs → x ∉ F.leaves → h'.par x = h.par x
  tag_frame : ∀ x, (x ∈ F.labs →
    x ∈ ((F.prune args.cuts).2.1.append (F.prune args.cuts).2.2).labs) → h'.tag x = h.tag x
  tag_gone : ∀ x ∈ F.labs,
    x ∉ ((F.prune args.cuts).2.1.append (F.prune args.cuts).2.2).labs → h'.tag x = none
  near : ∀ x p, h'.par x = some p → ParentMap.Nearest h.par (fun y => h'.tag y ≠ none) x p

section Reduce

variable {args : Args} {h h₁ h₂ : Heap} {ht ht₁ ht₂ : Judy} {r i : NodeId}
  {pre post ls : List NodeId} {F G K : Forest NodeId NodeId}

/-- Reducing frees nodes and allocates none. -/
theorem Reduced.tag_of_tag (H : Reduced args h h₁ ht₁ r pre post F) {x : NodeId}
    (hx : h₁.tag x ≠ none) : h₁.tag x = h.tag x := by
  refine H.tag_frame x fun hm => ?_
  by_contra hk
  exact hx (H.tag_gone x hm hk)

theorem Reduced.nil (W : h.Wf) (T : Tracks ht h) (hk : h.kids r = pre ++ post) :
    Reduced args h h ht r pre post .nil where
  wf := W
  tracks := T
  freeAt _ A := A
  kids_r := by simp [Forest.prune, hk]
  lvs_r := by simp [Forest.prune]
  grown := trivial
  kids_frame _ _ _ := rfl
  lvs_frame _ _ _ := rfl
  par_frame _ _ _ := rfl
  tag_frame _ _ := rfl
  tag_gone x hx := by simp at hx
  near _ _ hp := .here hp (W.tag_par hp)

/-- Reducing some trees and then the trees after them. -/
theorem Reduced.append (H₁ : Reduced args h h₁ ht₁ r pre (G.tops ++ post) F)
    (H₂ : Reduced args h₁ h₂ ht₂ r
      ((F.prune args.cuts).2.1.tops ++ (pre ++ (F.prune args.cuts).2.2.tops)) post G)
    (hnd : (r :: (F.append G).labs).Nodup) : Reduced args h h₂ ht₂ r pre post (F.append G) := by
  rw [Forest.labs_append] at hnd
  obtain ⟨hr, hnd⟩ := List.nodup_cons.mp hnd
  have hdisj : ∀ x ∈ F.labs, x ∉ G.labs := fun x hx hg => (List.nodup_append.mp hnd).2.2 x hx x hg rfl
  have hne : ∀ x, x ∈ F.labs ∨ x ∈ G.labs → x ≠ r := by
    rintro x hx rfl
    exact hr (List.mem_append.mpr hx)
  have hp := Forest.prune_append args.cuts F G
  have hlab₁ : ∀ x, x ∈ ((F.prune args.cuts).2.1.append (F.prune args.cuts).2.2).labs →
      x ∈ F.labs := fun x => Forest.mem_labs_of_prune
  have hlab₂ : ∀ x, x ∈ ((G.prune args.cuts).2.1.append (G.prune args.cuts).2.2).labs →
      x ∈ G.labs := fun x => Forest.mem_labs_of_prune
  simp only [Forest.labs_append, List.mem_append] at hlab₁ hlab₂
  have hg₁ : ((F.prune args.cuts).2.1.append (F.prune args.cuts).2.2).Grown h₂.kids h₂.lvs := by
    refine H₁.grown.congr (fun x hx => ?_) fun x hx => ?_
    · have hxF := Forest.mem_labs_of_prune hx
      exact H₂.kids_frame x (hne x (Or.inl hxF)) (hdisj x hxF)
    · have hxF := Forest.mem_labs_of_prune hx
      exact H₂.lvs_frame x (hne x (Or.inl hxF)) (hdisj x hxF)
  have hg₂ := H₂.grown
  rw [Forest.grown_append] at hg₁ hg₂
  refine ⟨H₂.wf, H₂.tracks, fun x A => H₂.freeAt x (H₁.freeAt x A), ?_, ?_, ?_, ?_, ?_, ?_, ?_, ?_,
    fun x p hx => (H₂.near x p hx).comp (fun y hy => ?_) H₁.near⟩
  · rw [H₂.kids_r, hp]
    simp
  · rw [H₂.lvs_r, H₁.lvs_r, hp]
    simp
  · rw [hp]
    simp only [Forest.grown_append]
    exact ⟨⟨hg₂.1, hg₁.1⟩, hg₁.2, hg₂.2⟩
  · intro x hx hm
    rw [Forest.labs_append, List.mem_append, not_or] at hm
    rw [H₂.kids_frame x hx hm.2, H₁.kids_frame x hx hm.1]
  · intro x hx hm
    rw [Forest.labs_append, List.mem_append, not_or] at hm
    rw [H₂.lvs_frame x hx hm.2, H₁.lvs_frame x hx hm.1]
  · intro x hx hl
    rw [Forest.labs_append, List.mem_append, not_or] at hx
    rw [Forest.leaves_append, List.mem_append, not_or] at hl
    rw [H₂.par_frame x hx.2 hl.2, H₁.par_frame x hx.1 hl.1]
  · intro x hx
    rw [hp] at hx
    simp only [Forest.labs_append, List.mem_append] at hx
    have h1 := hlab₁ x
    have h2 := hlab₂ x
    have h3 := hdisj x
    rw [H₂.tag_frame x (by simp only [Forest.labs_append, List.mem_append]; tauto),
      H₁.tag_frame x (by simp only [Forest.labs_append, List.mem_append]; tauto)]
  · intro x hx hm
    rw [hp] at hm
    simp only [Forest.labs_append, List.mem_append] at hx hm
    have h1 := hlab₁ x
    have h2 := hlab₂ x
    have h3 := hdisj x
    rcases hx with hx | hx
    · rw [H₂.tag_frame x (by simp only [Forest.labs_append, List.mem_append]; tauto)]
      exact H₁.tag_gone x hx (by simp only [Forest.labs_append, List.mem_append]; tauto)
    · exact H₂.tag_gone x hx (by simp only [Forest.labs_append, List.mem_append]; tauto)
  · rwa [← H₂.tag_of_tag hy]

/-- What the child `i` of `r` looks like once its own children were reduced. -/
theorem Reduced.root_eq (H : Reduced args h h₁ ht₁ i [] [] K)
    (hg : (Forest.node i ls K .nil).Grown h.kids h.lvs) :
    h₁.kids i = ((K.prune args.cuts).2.1.append (K.prune args.cuts).2.2).tops ∧
      h₁.lvs i = (K.prune args.cuts).1 ++ ls := by
  obtain ⟨rfl, -, -, -⟩ := hg
  refine ⟨?_, H.lvs_r⟩
  rw [H.kids_r]
  simp

/-- A child that is not cut. -/
theorem Reduced.keep (hg : (Forest.node i ls K .nil).Grown h.kids h.lvs)
    (hnd : (r :: (Forest.node i ls K .nil).labs).Nodup) (hk : h.kids r = pre ++ i :: post)
    (H : Reduced args h h₁ ht₁ i [] [] K)
    (hc : args.cuts ((K.prune args.cuts).2.1.append (K.prune args.cuts).2.2).tops.length
      ((K.prune args.cuts).1 ++ ls).length = false) :
    Reduced args h h₁ ht₁ r pre post (.node i ls K .nil) := by
  obtain ⟨hki, hli⟩ := H.root_eq hg
  simp only [Forest.labs, List.append_nil, List.nodup_cons, List.mem_cons, not_or] at hnd
  obtain ⟨⟨hri, hrK⟩, hiK, -⟩ := hnd
  have hp : (Forest.node i ls K .nil).prune args.cuts = ([], .nil, .node i
      ((K.prune args.cuts).1 ++ ls) ((K.prune args.cuts).2.1.append (K.prune args.cuts).2.2)
      .nil) := by
    simp only [Forest.prune, hc, Bool.false_eq_true, if_false]
  refine ⟨H.wf, H.tracks, H.freeAt, ?_, ?_, ?_, ?_, ?_, ?_, ?_, ?_, H.near⟩
  · rw [hp, H.kids_frame r hri hrK, hk]
    simp
  · rw [hp, H.lvs_frame r hri hrK]
    simp
  · rw [hp]
    exact ⟨hli.symm, hki.symm, H.grown, trivial⟩
  · intro x hx hm
    simp only [Forest.labs, List.mem_cons, List.mem_append, not_or] at hm
    exact H.kids_frame x hm.1 hm.2.1
  · intro x hx hm
    simp only [Forest.labs, List.mem_cons, List.mem_append, not_or] at hm
    exact H.lvs_frame x hm.1 hm.2.1
  · intro x hx hl
    simp only [Forest.labs, Forest.leaves, List.mem_cons, List.mem_append, not_or] at hx hl
    exact H.par_frame x hx.2.1 hl.2.1
  · intro x hx
    rw [hp] at hx
    simp only [Forest.append, Forest.labs, List.mem_cons, List.append_nil] at hx
    refine H.tag_frame x fun hxK => ?_
    rcases hx (Or.inr hxK) with rfl | hx
    · exact absurd hxK hiK
    · exact hx
  · intro x hx hm
    rw [hp] at hm
    simp only [Forest.append, Forest.labs, List.mem_cons, List.append_nil, not_or] at hx hm
    exact H.tag_gone x (hx.resolve_left hm.1) hm.2

/-- A child that is cut. -/
theorem Reduced.cut (W : h.Wf) (hg : (Forest.node i ls K .nil).Grown h.kids h.lvs)
    (hnd : (r :: (Forest.node i ls K .nil).labs).Nodup) (hk : h.kids r = pre ++ i :: post)
    (hr : h.IsRouter r) (H : Reduced args h h₁ ht₁ i [] [] K)
    (hc : args.cuts ((K.prune args.cuts).2.1.append (K.prune args.cuts).2.2).tops.length
      ((K.prune args.cuts).1 ++ ls).length = true) :
    ∃ h₂ ht₂, h₁.cutRouter ht₁ i = some (h₂, ht₂) ∧
      Reduced args h h₂ ht₂ r pre post (.node i ls K .nil) := by
  obtain ⟨hki, hli⟩ := H.root_eq hg
  obtain ⟨rfl, hKt, hKg, -⟩ := hg
  simp only [Forest.labs, List.append_nil, List.nodup_cons, List.mem_cons, not_or] at hnd
  obtain ⟨⟨hri, hrK⟩, hiK, -⟩ := hnd
  have hikid : i ∈ h.kids r := by simp [hk]
  have hiR := ((W.mem_kids r i).mp hikid).1
  have hip : h.par i = some r := W.kids_parent hikid
  have hleaf : ∀ x, h.IsRouter x → x ∉ K.leaves := fun x hx hl =>
    (W.isLeaf_of_mem hKg hl).not_isRouter hx
  have hipre : i ∉ pre := by
    have := W.kids_nodup r
    rw [hk] at this
    exact fun hm => (List.nodup_append.mp this).2.2 i hm i (by simp) rfl
  have hi₁ : h₁.IsRouter i :=
    (Heap.isRouter_congr (H.tag_frame i fun hm => absurd hm hiK)).mpr hiR
  have hp₁ : h₁.par i = some r := by rw [H.par_frame i hiK (hleaf i hiR), hip]
  have hpr₁ : h₁.par r ≠ some i := by
    rw [H.par_frame r hrK (hleaf r hr)]
    intro hpr
    have : r ∈ h.kids i := (W.mem_kids i r).mpr ⟨hr, hpr⟩
    exact hrK (Forest.mem_labs_of_mem_tops (hKt ▸ this))
  obtain ⟨h₂, ht₂, e, C, T₂⟩ := Heap.cutRouter_spec H.wf H.tracks hi₁ hp₁ hpr₁
  have hp : (Forest.node i (h.lvs i) K .nil).prune args.cuts =
      ((K.prune args.cuts).1 ++ h.lvs i,
        (K.prune args.cuts).2.1.append (K.prune args.cuts).2.2, .nil) := by
    simp only [Forest.prune, hc, if_true, List.nil_append, Forest.append]
  have hlab : ∀ x, x ∈ ((K.prune args.cuts).2.1.append (K.prune args.cuts).2.2).labs → x ∈ K.labs :=
    fun x => Forest.mem_labs_of_prune
  refine ⟨h₂, ht₂, e, C.wf H.wf hi₁ hp₁ hpr₁, T₂, fun x A => C.freeAt x (H.freeAt x A),
    ?_, ?_, ?_, ?_, ?_, ?_, ?_, ?_,
    fun x p hx => (C.nearest H.wf hi₁ hp₁ hpr₁ hx).comp (fun y hy => ?_) H.near⟩
  · rw [hp, C.kids_parent hri, hki, H.kids_frame r hri hrK, hk, List.erase_append_right _ hipre]
    simp
  · rw [hp, C.lvs_parent hri, hli, H.lvs_frame r hri hrK]
  · have hframe : ∀ x ∈ ((K.prune args.cuts).2.1.append (K.prune args.cuts).2.2).labs,
        h₂.kids x = h₁.kids x ∧ h₂.lvs x = h₁.lvs x := fun x hx =>
      C.frame (by rintro rfl; exact hiK (hlab x hx)) (by rintro rfl; exact hrK (hlab x hx))
    rw [hp, Forest.append_nil]
    exact H.grown.congr (fun x hx => (hframe x hx).1) fun x hx => (hframe x hx).2
  · intro x hx hm
    simp only [Forest.labs, List.mem_cons, List.mem_append, not_or] at hm
    rw [(C.frame hm.1 hx).1, H.kids_frame x hm.1 hm.2.1]
  · intro x hx hm
    simp only [Forest.labs, List.mem_cons, List.mem_append, not_or] at hm
    rw [(C.frame hm.1 hx).2, H.lvs_frame x hm.1 hm.2.1]
  · intro x hx hl
    simp only [Forest.labs, Forest.leaves, List.mem_cons, List.mem_append, not_or] at hx hl
    have hpx := H.par_frame x hx.2.1 hl.2.1
    rw [C.par_eq]
    dsimp only
    rw [if_neg hx.1, hpx, if_neg]
    -- the neighbours of `i` are in the tree that was cut
    intro hxi
    obtain ⟨nd, hnd⟩ := Heap.node_of_par hxi
    rcases Heap.isRouter_or_isLeaf hnd with hR | hL
    · exact hx.2.1 (Forest.mem_labs_of_mem_tops (hKt ▸ (W.mem_kids i x).mpr ⟨hR, hxi⟩))
    · exact hl.1 ((W.mem_lvs i x).mpr ⟨hL, hxi⟩)
  · intro x hx
    rw [hp, Forest.append_nil] at hx
    simp only [Forest.labs, List.mem_cons, List.append_nil] at hx
    have hxi : x ≠ i := by
      rintro rfl
      exact hiK (hlab x (hx (Or.inl rfl)))
    rw [C.tag_eq, Function.update_of_ne hxi]
    exact H.tag_frame x fun hxK => hx (Or.inr hxK)
  · intro x hx hm
    rw [hp, Forest.append_nil] at hm
    simp only [Forest.labs, List.mem_cons, List.append_nil] at hx
    rw [C.tag_eq]
    by_cases hxi : x = i
    · rw [hxi, Function.update_self]
    · rw [Function.update_of_ne hxi]
      exact H.tag_gone x (hx.resolve_left hxi) hm
  · rw [C.tag_eq, Function.update_apply] at hy
    split_ifs at hy
    · exact absurd rfl hy
    · exact hy

/-- The call of `reduce_tree` on the child `i` of `r`. -/
theorem Reduced.child {N : ℕ} (H : Reduced args h h₁ ht₁ i [] [] K) (W : h.Wf)
    (hg : (Forest.node i ls K .nil).Grown h.kids h.lvs)
    (hnd : (r :: (Forest.node i ls K .nil).labs).Nodup) (hk : h.kids r = pre ++ i :: post)
    (hr : h.IsRouter r) (e : ∀ fuel, N ≤ fuel →
      reduceChilds args fuel (h, ht) i K.tops.head? = some (h₁, ht₁)) :
    ∃ h₂ ht₂, (∀ fuel, N ≤ fuel → reduceTree args (fuel + 1) (h, ht) i = some (h₂, ht₂)) ∧
      Reduced args h h₂ ht₂ r pre post (.node i ls K .nil) := by
  obtain ⟨hki, hli⟩ := H.root_eq hg
  have hikid : i ∈ h.kids r := by simp [hk]
  have hiK : i ∉ K.labs := by
    have := (List.nodup_cons.mp hnd).2
    simp only [Forest.labs, List.append_nil] at this
    exact (List.nodup_cons.mp this).1
  obtain ⟨rt, hrt⟩ := ((W.mem_kids r i).mp hikid).1
  obtain ⟨rt₁, hrt₁⟩ : h₁.IsRouter i :=
    (Heap.isRouter_congr (H.tag_frame i fun hm => absurd hm hiK)).mpr ⟨rt, hrt⟩
  have hkt : rt.child = K.tops := by
    rw [hg.2.1, Heap.kids_of_node hrt]; rfl
  have C₁ := H.wf.counted i rt₁ hrt₁
  have hnc : rt₁.nchild = ((K.prune args.cuts).2.1.append (K.prune args.cuts).2.2).tops.length := by
    rw [C₁.nchild_eq, ← hki, Heap.kids_of_node hrt₁]; rfl
  have hnl : rt₁.nleaf = ((K.prune args.cuts).1 ++ ls).length := by
    rw [C₁.nleaf_eq, ← hli, Heap.lvs_of_node hrt₁]; rfl
  have hp₁ : rt₁.parent = some r := by
    rw [← W.kids_parent hikid, ← H.par_frame i hiK (fun hl =>
      (W.isLeaf_of_mem hg.2.2.1 hl).not_isRouter ⟨rt, hrt⟩), Heap.par_of_node hrt₁]
    rfl
  cases hc : args.cuts ((K.prune args.cuts).2.1.append (K.prune args.cuts).2.2).tops.length
      ((K.prune args.cuts).1 ++ ls).length with
  | true =>
      obtain ⟨h₂, ht₂, e₂, H₂⟩ := H.cut W hg hnd hk hr hc
      refine ⟨h₂, ht₂, fun fuel hf => ?_, H₂⟩
      have hc' : rt₁.nchild < args.min_routers ∧ rt₁.nleaf < args.min_leafs := by
        simpa [Args.cuts, hnc, hnl] using hc
      simp [reduceTree, Heap.router_eq_some.mpr hrt, hkt, e fuel hf,
        Heap.router_eq_some.mpr hrt₁, hp₁, hc', e₂]
  | false =>
      refine ⟨h₁, ht₁, fun fuel hf => ?_, H.keep hg hnd hk hc⟩
      have hc' : ¬ (rt₁.nchild < args.min_routers ∧ rt₁.nleaf < args.min_leafs) := by
        simpa [Args.cuts, hnc, hnl] using hc
      simp [reduceTree, Heap.router_eq_some.mpr hrt, hkt, e fuel hf,
        Heap.router_eq_some.mpr hrt₁, hp₁, hc']

/-- The loop of `reduce_tree` reduces the remaining children of `r`. -/
theorem reduceChilds_spec (args : Args) (F : Forest NodeId NodeId) :
    ∀ {h : Heap} {ht : Judy} {r : NodeId} (pre : List NodeId), h.Wf → Tracks ht h →
      h.IsRouter r → F.Grown h.kids h.lvs → (r :: F.labs).Nodup → h.kids r = pre ++ F.tops →
      ∃ h' ht' N, (∀ fuel, N ≤ fuel →
        reduceChilds args fuel (h, ht) r F.tops.head? = some (h', ht')) ∧
        Reduced args h h' ht' r pre [] F := by
  induction F with
  | nil =>
      intro h ht r pre W T _ _ _ hk
      refine ⟨h, ht, 1, fun fuel hf => ?_, .nil W T hk⟩
      obtain ⟨fuel, rfl⟩ : ∃ k, fuel = k + 1 := ⟨fuel - 1, by omega⟩
      simp [reduceChilds]
  | node i ls K R ihK ihR =>
      intro h ht r pre W T hr hg hnd hk
      obtain ⟨hl, hKt, hKg, hRg⟩ := hg
      have hg₁ : (Forest.node i ls K .nil).Grown h.kids h.lvs := ⟨hl, hKt, hKg, trivial⟩
      have hnd' := hnd
      simp only [Forest.labs, List.nodup_cons, List.nodup_append, List.mem_cons, List.mem_append,
        not_or] at hnd'
      obtain ⟨⟨hri, hrK, hrR⟩, ⟨hiK, hiR⟩, hKn, hRn, hKR⟩ := hnd'
      have hikid : i ∈ h.kids r := by simp [hk]
      have hi := ((W.mem_kids r i).mp hikid).1
      have hnd₁ : (r :: (Forest.node i ls K .nil).labs).Nodup := by
        simp [hri, hrK, hiK, hKn]
      have hipre : i ∉ pre := by
        have := W.kids_nodup r
        rw [hk] at this
        exact fun hm => (List.nodup_append.mp this).2.2 i hm i (by simp) rfl
      obtain ⟨h₁, ht₁, N₁, e₁, H₁⟩ := ihK [] W T hi hKg
        (List.nodup_cons.mpr ⟨hiK, hKn⟩) (by simp [hKt])
      obtain ⟨h₂, ht₂, e₂, H₂⟩ := H₁.child W hg₁ hnd₁ hk hr e₁
      have hframe : ∀ x ∈ R.labs, x ≠ r ∧ x ∉ (Forest.node i ls K .nil).labs := by
        intro x hx
        refine ⟨by rintro rfl; exact hrR hx, ?_⟩
        simp only [Forest.labs, List.append_nil, List.mem_cons, not_or]
        exact ⟨by rintro rfl; exact hiR hx, fun hm => hKR x hm x hx rfl⟩
      have hRg₂ : R.Grown h₂.kids h₂.lvs := hRg.congr
        (fun x hx => H₂.kids_frame x (hframe x hx).1 (hframe x hx).2)
        (fun x hx => H₂.lvs_frame x (hframe x hx).1 (hframe x hx).2)
      have hr₂ : h₂.IsRouter r := (Heap.isRouter_congr (H₂.tag_frame r fun hm => by
        simp only [Forest.labs, List.append_nil, List.mem_cons] at hm
        rcases hm with hm | hm
        · exact absurd hm hri
        · exact absurd hm hrK)).mpr hr
      obtain ⟨h₃, ht₃, N₃, e₃, H₃⟩ := ihR
        (((Forest.node i ls K .nil).prune args.cuts).2.1.tops ++
          (pre ++ ((Forest.node i ls K .nil).prune args.cuts).2.2.tops))
        H₂.wf H₂.tracks hr₂ hRg₂ (List.nodup_cons.mpr ⟨hrR, hRn⟩) (by rw [H₂.kids_r]; simp)
      refine ⟨h₃, ht₃, N₁ + N₃ + 2, fun fuel hf => ?_, ?_⟩
      · obtain ⟨fuel, rfl⟩ : ∃ k, fuel = k + 2 := ⟨fuel - 2, by omega⟩
        obtain ⟨rr, hrr⟩ := hr
        have hcell : cellNext rr.child i = R.tops.head? := by
          rw [← Node.kids_router rr, ← Heap.kids_of_node hrr, hk]
          exact cellNext_append hipre R.tops
        have e₂' := e₂ fuel (by omega)
        have e₃' := e₃ (fuel + 1) (by omega)
        simp only [Forest.tops, List.head?_cons, reduceChilds, Option.bind_eq_bind,
          Heap.router_eq_some.mpr hrr, Option.bind_some, hcell, e₂', e₃']
      · exact Reduced.append (F := .node i ls K .nil) (by simpa using H₂) H₃ hnd

/-- `reduce_tree` on the root: the root itself is never cut. -/
theorem reduceTree_spec (args : Args) (W : h.Wf) (T : Tracks ht h) (hr : h.IsRouter r)
    (hroot : h.par r = none) (hF : h.Below r F) :
    ∃ h' ht' N, (∀ fuel, N ≤ fuel → reduceTree args fuel (h, ht) r = some (h', ht')) ∧
      Reduced args h h' ht' r [] [] F := by
  have hnd := W.nodup_labs hroot hF
  have hrF := (List.nodup_cons.mp hnd).1
  obtain ⟨h', ht', N, e, H⟩ := reduceChilds_spec args F [] W T hr hF.grown hnd
    (by simp [hF.tops])
  refine ⟨h', ht', N + 1, fun fuel hf => ?_, H⟩
  obtain ⟨fuel, rfl⟩ : ∃ k, fuel = k + 1 := ⟨fuel - 1, by omega⟩
  obtain ⟨rt', hrt'⟩ := (Heap.isRouter_congr (H.tag_frame r fun hm => absurd hm hrF)).mpr hr
  have hp' : rt'.parent = none := by
    have hrl : r ∉ F.leaves := fun hm => (W.isLeaf_of_mem hF.grown hm).not_isRouter hr
    rw [← hroot, ← H.par_frame r hrF hrl, Heap.par_of_node hrt']; rfl
  obtain ⟨rt, hrt⟩ := hr
  have hkt : rt.child = F.tops := by rw [hF.tops, Heap.kids_of_node hrt]; rfl
  simp only [reduceTree, Option.bind_eq_bind, Heap.router_eq_some.mpr hrt, Option.bind_some, hkt,
    e fuel (by omega), Heap.router_eq_some.mpr hrt', hp']

end Reduce

end MEADcast
