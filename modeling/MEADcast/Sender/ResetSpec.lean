import MEADcast.Sender.TreeSpec
import MEADcast.Sender.Inv
import MEADcast.Sender.Component

/-!
# Resetting the tree

`recResetTree` detaches every router below the root, zeroes its counters and its hop
count, and makes every receiver a leaf of the root.

## Main results

* `resetChilds_spec` — the loop of `rec_reset_tree` over the children of a router.
-/

namespace MEADcast

namespace Heap

/-- The heap after the leaves `ls` of `r` were adopted by `s`. -/
structure LeafsReset (h h' : Heap) (s r : NodeId) (ls : List NodeId) : Prop where
  wf : h'.Wf
  par_eq : h'.par = fun x => if x ∈ ls then some s else h.par x
  kids_eq : h'.kids = h.kids
  lvs_eq : h'.lvs = fun x =>
    if x = s then ls.reverse ++ h.lvs s else if x = r then [] else h.lvs x
  tag_eq : h'.tag = h.tag
  freeAt : ∀ x, h.FreeAt x → h'.FreeAt x

section Leafs

variable {h : Heap} {s r : NodeId}

/-- The leaf loop of `rec_reset_tree` adopts the leaves one after the other. -/
theorem resetLeafs_spec (hrs : r ≠ s) (ls : List NodeId) :
    ∀ {h : Heap}, h.Wf → h.IsRouter s → h.lvs r = ls →
      h.IsRouter r → ∃ h' N, (∀ fuel, N ≤ fuel → resetLeafs s r fuel h ls.head? = some h') ∧
        LeafsReset h h' s r ls := by
  induction ls with
  | nil =>
      intro h W hs hl hr
      refine ⟨h, 1, fun fuel hf => ?_, W, by simp, rfl, ?_, rfl, fun _ A => A⟩
      · obtain ⟨fuel, rfl⟩ : ∃ k, fuel = k + 1 := ⟨fuel - 1, by omega⟩
        simp [resetLeafs]
      · funext x
        by_cases hxs : x = s
        · simp [hxs]
        · by_cases hxr : x = r <;> simp [hxs, hxr, hl, hrs]
  | cons l ls ih =>
      intro h W hs hl hr
      have hmem : l ∈ h.lvs r := by simp [hl]
      obtain ⟨hL, hp⟩ := (W.mem_lvs r l).mp hmem
      have hls : l ≠ s := by rintro rfl; exact hL.not_isRouter hs
      have hnd := W.lvs_nodup r
      rw [hl] at hnd
      obtain ⟨hlls, -⟩ := List.nodup_cons.mp hnd
      obtain ⟨h₁, e₁, M⟩ := adopt_spec W hp hs hls
      have W₁ := M.wf W hs hls
      have hs₁ : h₁.IsRouter s := (isRouter_congr (by rw [M.tag_eq])).mpr hs
      have hr₁ : h₁.IsRouter r := (isRouter_congr (by rw [M.tag_eq])).mpr hr
      have hlv : ∀ x, h₁.lvs x = if x = s then l :: h.lvs s else if x = r then ls else h.lvs x := by
        intro x
        have hout : ∀ y, y ≠ r → l ∉ h.lvs y := fun y hy hm =>
          hy (Option.some.inj ((W.lvs_parent hm).symm.trans hp))
        rw [M.lvs_eq, movedLvs]
        by_cases hxs : x = s
        · subst hxs
          simp [hL, List.erase_of_not_mem (hout x hrs.symm)]
        · by_cases hxr : x = r
          · subst hxr; simp [hxs, hl]
          · simp [hxs, hxr, List.erase_of_not_mem (hout x hxr)]
      have hlr₁ : h₁.lvs r = ls := by rw [hlv]; simp [hrs]
      obtain ⟨h', N, e', H⟩ := ih W₁ hs₁ hlr₁ hr₁
      refine ⟨h', N + 1, fun fuel hf => ?_, H.wf, ?_, ?_, ?_, ?_, ?_⟩
      · obtain ⟨fuel, rfl⟩ : ∃ k, fuel = k + 1 := ⟨fuel - 1, by omega⟩
        obtain ⟨rt, hrt⟩ := hr
        have hleaf : rt.leaf = l :: ls := by rw [← hl, lvs_of_node hrt]; rfl
        have hcell : cellNext rt.leaf l = ls.head? := by simp [hleaf, cellNext]
        simp only [List.head?_cons, resetLeafs, Option.bind_eq_bind, router_eq_some.mpr hrt,
          Option.bind_some, hcell, e₁, e' fuel (by omega)]
      · rw [H.par_eq, M.par_eq]
        funext x
        by_cases hx : x = l
        · subst hx; simp
        · simp [hx]
      · rw [H.kids_eq, M.kids_eq]
        funext x
        have hR : ¬ h.IsRouter l := hL.not_isRouter
        have : l ∉ h.kids x := fun hm => hR ((W.mem_kids x l).mp hm).1
        simp [movedKids, hR, List.erase_of_not_mem this]
      · rw [H.lvs_eq]
        funext x
        rw [hlv s]
        by_cases hxs : x = s
        · simp [hxs]
        · by_cases hxr : x = r
          · simp [hxr]
          · simp [hxs, hxr, hlv]
      · rw [H.tag_eq, M.tag_eq]
      · exact fun x A => H.freeAt x (M.freeAt x A)

end Leafs

/-- The heap after the router `i`, which has no children, gave its leaves `ls` to `s` and was
removed. -/
structure Retired (h h' : Heap) (s i : NodeId) (ls : List NodeId) : Prop where
  wf : h'.Wf
  kids_eq : ∀ x, h'.kids x = (h.kids x).erase i
  lvs_eq : ∀ x, h'.lvs x = if x = s then ls.reverse ++ h.lvs s else if x = i then [] else h.lvs x
  par_eq : ∀ x, h'.par x = if x = i then none else if x ∈ ls then some s else h.par x
  tag_eq : ∀ x, x ≠ i → h'.tag x = h.tag x
  router : h'.IsRouter i
  hops_eq : h'.hops i = 0
  sa_eq : h'.sa = h.sa
  freeAt_self : h'.FreeAt i
  freeAt : ∀ x, x ≠ i → h.FreeAt x → h'.FreeAt x

section Retire

variable {h : Heap} {s r i : NodeId} {ls : List NodeId}

/-- The end of a call of `rec_reset_tree` on the child `i` of `r`. -/
theorem retire_spec (W : h.Wf) (hs : h.IsRouter s) (hi : h.IsRouter i) (hsi : s ≠ i)
    (hl : h.lvs i = ls) (hk : h.kids i = []) (hp : h.par i = some r) :
    ∃ r₁ h₂ N r₂ h', h.router i = some r₁ ∧ r₁.parent = some r ∧
      (∀ fuel, N ≤ fuel → resetLeafs s i fuel h r₁.leaf.head? = some h₂) ∧
      h₂.router i = some r₂ ∧
      (h₂.set i (.router { r₂ with nleaf := 0, fleaf := 0, nchild := 0, fchild := 0,
                                   hops := 0 })).rmRouter r i = some h' ∧
      Retired h h' s i ls := by
  obtain ⟨h₂, N, e₂, L⟩ := resetLeafs_spec (Ne.symm hsi) ls W hs hl hi
  obtain ⟨r₁, hr₁⟩ := hi
  have hr₁l : r₁.leaf = ls := by rw [← hl, lvs_of_node hr₁]; rfl
  have hr₁p : r₁.parent = some r := by rw [← hp, par_of_node hr₁]; rfl
  obtain ⟨r₂, hr₂⟩ : h₂.IsRouter i := (isRouter_congr (by rw [L.tag_eq])).mpr ⟨r₁, hr₁⟩
  have hr₂c : r₂.child = [] := by
    rw [← Node.kids_router r₂, ← kids_of_node hr₂, L.kids_eq, hk]
  have hr₂l : r₂.leaf = [] := by
    rw [← Node.lvs_router r₂, ← lvs_of_node hr₂, L.lvs_eq]
    simp [Ne.symm hsi]
  have R := rewritten_set L.wf
    { r₂ with nleaf := 0, fleaf := 0, nchild := 0, fchild := 0, hops := 0 } hr₂ rfl rfl rfl
    ⟨by simp [hr₂c], by simp [hr₂l], le_rfl, le_rfl⟩
  generalize hh₃ : h₂.set i (.router { r₂ with nleaf := 0, fleaf := 0, nchild := 0, fchild := 0,
                                               hops := 0 }) = h₃ at R
  have hi₃ : h₃.IsRouter i :=
    isRouter_iff_tag.mpr ⟨r₂.sa, 0, by rw [R.tag_eq, Function.update_self]⟩
  have A₃ : h₃.FreeAt i := by
    rw [← hh₃]
    intro r' hr'
    simp only [node_set, if_true, Option.some.injEq, Node.router.injEq] at hr'
    subst hr'
    exact ⟨rfl, rfl⟩
  have hi_ls : i ∉ ls := fun hm => by
    rw [← hl] at hm
    exact W.par_ne i (W.lvs_parent hm)
  have hp₃ : h₃.par i = some r := by rw [R.par_eq, L.par_eq]; simp [hi_ls, hp]
  obtain ⟨h', e', D⟩ := rmRouter_spec R.wf hi₃ hp₃
  have htag : ∀ x, h'.tag x = if x = i then some (.router r₂.sa 0) else h.tag x := fun x => by
    rw [D.tag_eq, R.tag_eq, L.tag_eq]
    by_cases hx : x = i <;> simp [hx]
  refine ⟨r₁, h₂, N, r₂, h', router_eq_some.mpr hr₁, hr₁p, by rw [hr₁l]; exact e₂,
    router_eq_some.mpr hr₂, by rw [hh₃]; exact e', D.wf_detach R.wf hi₃, ?_, ?_, ?_, ?_, ?_, ?_, ?_,
    D.freeAt i A₃, fun x hx A => D.freeAt x (R.freeAt x hx (L.freeAt x A))⟩
  · intro x
    rw [D.kids_eq, R.kids_eq, L.kids_eq]
  · intro x
    rw [D.lvs_eq, R.lvs_eq, L.lvs_eq]
  · intro x
    rw [D.par_eq, R.par_eq, L.par_eq]
    by_cases hx : x = i <;> simp [hx]
  · intro x hx
    rw [htag, if_neg hx]
  · exact isRouter_iff_tag.mpr ⟨r₂.sa, 0, by rw [htag, if_pos rfl]⟩
  · rw [hops, htag, if_pos rfl]
  · funext x
    rw [sa, sa, htag]
    by_cases hxi : x = i
    · subst hxi
      rw [if_pos rfl, ← L.tag_eq, tag_of_node hr₂]
      rfl
    · rw [if_neg hxi]

end Retire

end Heap

/-- The heap after the trees `F` among the children of `r` were reset; `post` are the
children of `r` after them, and `s` is the root. -/
structure WasReset (h h' : Heap) (s r : NodeId) (post : List NodeId)
    (F : Forest NodeId NodeId) : Prop where
  wf : h'.Wf
  kids_r : h'.kids r = post
  gone : ∀ x ∈ F.labs, h'.kids x = [] ∧ h'.lvs x = [] ∧ h'.par x = none ∧ h'.hops x = 0 ∧
    h'.FreeAt x
  par_leaf : ∀ l ∈ F.leaves, h'.par l = some s
  lvs_s : ∃ ls, ls.Perm F.leaves ∧ h'.lvs s = ls ++ h.lvs s
  sa_eq : h'.sa = h.sa
  kids_frame : ∀ x, x ≠ r → x ∉ F.labs → h'.kids x = h.kids x
  lvs_frame : ∀ x, x ≠ s → x ∉ F.labs → h'.lvs x = h.lvs x
  par_frame : ∀ x, x ∉ F.labs → x ∉ F.leaves → h'.par x = h.par x
  tag_frame : ∀ x, x ∉ F.labs → h'.tag x = h.tag x
  router_frame : ∀ x, h'.IsRouter x ↔ h.IsRouter x
  freeAt : ∀ x, x ∉ F.labs → h.FreeAt x → h'.FreeAt x

section Reset

variable {h h₁ h₂ : Heap} {s r i : NodeId} {ls post : List NodeId} {F G K : Forest NodeId NodeId}

theorem WasReset.nil (W : h.Wf) (hk : h.kids r = post) : WasReset h h s r post .nil where
  wf := W
  kids_r := hk
  gone x hx := by simp at hx
  par_leaf l hl := by simp at hl
  lvs_s := ⟨[], by simp, by simp⟩
  sa_eq := rfl
  kids_frame _ _ _ := rfl
  lvs_frame _ _ _ := rfl
  par_frame _ _ _ := rfl
  tag_frame _ _ := rfl
  router_frame _ := Iff.rfl
  freeAt _ _ A := A

/-- Resetting some trees and then the trees after them. -/
theorem WasReset.append (H₁ : WasReset h h₁ s r (G.tops ++ post) F)
    (H₂ : WasReset h₁ h₂ s r post G) (hlab : ∀ x ∈ (F.append G).labs, h.IsRouter x)
    (hleaf : ∀ l ∈ (F.append G).leaves, h.IsLeaf l) (hnd : (r :: (F.append G).labs).Nodup)
    (hs : s ∉ F.labs) : WasReset h h₂ s r post (F.append G) := by
  rw [Forest.labs_append] at hnd
  obtain ⟨hr, hnd⟩ := List.nodup_cons.mp hnd
  have hdisj : ∀ x ∈ F.labs, x ∉ G.labs := fun x hx hg =>
    (List.nodup_append.mp hnd).2.2 x hx x hg rfl
  rw [List.mem_append, not_or] at hr
  have hFleaf : ∀ x ∈ F.labs, x ∉ G.leaves := fun x hx hl =>
    (hleaf x (by simp [hl])).not_isRouter (hlab x (by simp [hx]))
  refine ⟨H₂.wf, H₂.kids_r, ?_, ?_, ?_, H₂.sa_eq.trans H₁.sa_eq, ?_, ?_, ?_, ?_, ?_, ?_⟩
  · intro x hx
    rw [Forest.labs_append, List.mem_append] at hx
    rcases hx with hx | hx
    · obtain ⟨hk, hv, hp, hh, A⟩ := H₁.gone x hx
      have hxG := hdisj x hx
      have hxr : x ≠ r := by rintro rfl; exact hr.1 hx
      have hxs : x ≠ s := by rintro rfl; exact hs hx
      refine ⟨by rw [H₂.kids_frame x hxr hxG, hk], by rw [H₂.lvs_frame x hxs hxG, hv],
        by rw [H₂.par_frame x hxG (hFleaf x hx), hp], ?_, H₂.freeAt x hxG A⟩
      rw [Heap.hops_congr (H₂.tag_frame x hxG), hh]
    · exact H₂.gone x hx
  · intro l hl
    rw [Forest.leaves_append, List.mem_append] at hl
    by_cases hlG : l ∈ G.leaves
    · exact H₂.par_leaf l hlG
    · have hlF := H₁.par_leaf l (hl.resolve_right hlG)
      have hlab' : l ∉ G.labs := fun hm =>
        (hleaf l (by simpa using hl)).not_isRouter (hlab l (by simp [hm]))
      rw [H₂.par_frame l hlab' hlG, hlF]
  · obtain ⟨ls₁, p₁, e₁⟩ := H₁.lvs_s
    obtain ⟨ls₂, p₂, e₂⟩ := H₂.lvs_s
    refine ⟨ls₂ ++ ls₁, ?_, by rw [e₂, e₁, List.append_assoc]⟩
    rw [Forest.leaves_append]
    exact (p₂.append p₁).trans List.perm_append_comm
  · intro x hx hm
    rw [Forest.labs_append, List.mem_append, not_or] at hm
    rw [H₂.kids_frame x hx hm.2, H₁.kids_frame x hx hm.1]
  · intro x hx hm
    rw [Forest.labs_append, List.mem_append, not_or] at hm
    rw [H₂.lvs_frame x hx hm.2, H₁.lvs_frame x hx hm.1]
  · intro x hx hl
    rw [Forest.labs_append, List.mem_append, not_or] at hx
    rw [Forest.leaves_append, List.mem_append, not_or] at hl
    rw [H₂.par_frame x hx.2 hl.2, H₁.par_frame x hx.1 hl.1]
  · intro x hm
    rw [Forest.labs_append, List.mem_append, not_or] at hm
    rw [H₂.tag_frame x hm.2, H₁.tag_frame x hm.1]
  · exact fun x => (H₂.router_frame x).trans (H₁.router_frame x)
  · intro x hm A
    rw [Forest.labs_append, List.mem_append, not_or] at hm
    exact H₂.freeAt x hm.2 (H₁.freeAt x hm.1 A)

/-- Once the children of `i` were reset and `i` gave its leaves away, its whole tree is reset. -/
theorem WasReset.node (H : WasReset h h₁ s i [] K) (E : h₁.Retired h₂ s i ls) (W : h.Wf)
    (hg : (Forest.node i ls K .nil).Grown h.kids h.lvs)
    (hnd : (r :: (Forest.node i ls K .nil).labs).Nodup) (hsi : s ∉ (Forest.node i ls K .nil).labs)
    (hk : h.kids r = i :: post) : WasReset h h₂ s r post (.node i ls K .nil) := by
  obtain ⟨hl, hKt, hKg, -⟩ := hg
  simp only [Forest.labs, List.append_nil, List.nodup_cons, List.mem_cons, not_or] at hnd hsi
  obtain ⟨⟨hri, hrK⟩, hiK, -⟩ := hnd
  have hikid : i ∈ h.kids r := by simp [hk]
  obtain ⟨hi, hip⟩ := (W.mem_kids r i).mp hikid
  have hleaf : i ∉ K.leaves := fun hm => (W.isLeaf_of_mem hKg hm).not_isRouter hi
  have hKR : ∀ x ∈ K.labs, h.IsRouter x := fun x hx =>
    W.isRouter_of_mem hKg (by rw [hKt]; exact List.Subset.refl _) hx
  have hi_ls : i ∉ ls := fun hm => by
    rw [hl] at hm
    exact W.par_ne i (W.lvs_parent hm)
  refine ⟨E.wf, ?_, ?_, ?_, ?_, E.sa_eq.trans H.sa_eq, ?_, ?_, ?_, ?_, ?_, ?_⟩
  · rw [E.kids_eq, H.kids_frame r hri hrK, hk]
    simp
  · intro x hx
    simp only [Forest.labs, List.append_nil, List.mem_cons] at hx
    rw [E.kids_eq, E.lvs_eq, E.par_eq]
    by_cases hxi : x = i
    · subst hxi
      simp [H.kids_r, Ne.symm hsi.1, E.hops_eq, E.freeAt_self]
    · have hxK := hx.resolve_left hxi
      obtain ⟨gk, gv, gp, gh, gA⟩ := H.gone x hxK
      have hxs : x ≠ s := by rintro rfl; exact hsi.2 hxK
      have hxls : x ∉ ls := fun hm => by
        rw [hl] at hm
        exact ((W.mem_lvs i x).mp hm).1.not_isRouter (hKR x hxK)
      simp only [gk, gv, gp, hxi, hxs, hxls, if_false, List.erase_nil, true_and]
      exact ⟨(Heap.hops_congr (E.tag_eq x hxi)).trans gh, E.freeAt x hxi gA⟩
  · intro l hlm
    simp only [Forest.leaves, List.append_nil, List.mem_append] at hlm
    have hli : l ≠ i := by
      rintro rfl
      rcases hlm with hm | hm
      · exact hi_ls hm
      · exact hleaf hm
    rw [E.par_eq]
    by_cases hm : l ∈ ls
    · simp [hm, hli]
    · simp [hm, hli, H.par_leaf l (hlm.resolve_left hm)]
  · obtain ⟨ls', hp', e⟩ := H.lvs_s
    refine ⟨ls.reverse ++ ls', ?_, by rw [E.lvs_eq, if_pos rfl, e, List.append_assoc]⟩
    simp only [Forest.leaves, List.append_nil]
    exact (List.reverse_perm ls).append hp'
  · intro x hxr hm
    simp only [Forest.labs, List.append_nil, List.mem_cons, not_or] at hm
    rw [E.kids_eq, H.kids_frame x hm.1 hm.2, List.erase_of_not_mem]
    exact fun hm' => hxr (Option.some.inj ((W.kids_parent hm').symm.trans hip))
  · intro x hxs hm
    simp only [Forest.labs, List.append_nil, List.mem_cons, not_or] at hm
    rw [E.lvs_eq, if_neg hxs, if_neg hm.1, H.lvs_frame x hxs hm.2]
  · intro x hm hlm
    simp only [Forest.labs, Forest.leaves, List.append_nil, List.mem_cons, List.mem_append,
      not_or] at hm hlm
    rw [E.par_eq, if_neg hm.1, if_neg hlm.1, H.par_frame x hm.2 hlm.2]
  · intro x hm
    simp only [Forest.labs, List.append_nil, List.mem_cons, not_or] at hm
    rw [E.tag_eq x hm.1, H.tag_frame x hm.2]
  · intro x
    by_cases hxi : x = i
    · subst hxi
      exact iff_of_true E.router hi
    · rw [← H.router_frame x]
      exact Heap.isRouter_congr (E.tag_eq x hxi)
  · intro x hm A
    simp only [Forest.labs, List.append_nil, List.mem_cons, not_or] at hm
    exact E.freeAt x hm.1 (H.freeAt x hm.2 A)

/-- The loop of `rec_reset_tree` resets the remaining children of `r`. -/
theorem resetChilds_spec (F : Forest NodeId NodeId) :
    ∀ {h : Heap} {r : NodeId}, h.Wf → h.IsRouter s → F.Grown h.kids h.lvs →
      (r :: F.labs).Nodup → s ∉ F.labs → h.kids r = F.tops → h.IsRouter r →
      ∃ h' N, (∀ fuel, N ≤ fuel → resetChilds s fuel h r F.tops.head? = some h') ∧
        WasReset h h' s r [] F := by
  induction F with
  | nil =>
      intro h r W _ _ _ _ hk _
      refine ⟨h, 1, fun fuel hf => ?_, .nil W hk⟩
      obtain ⟨fuel, rfl⟩ : ∃ k, fuel = k + 1 := ⟨fuel - 1, by omega⟩
      simp [resetChilds]
  | node i ls K R ihK ihR =>
      intro h r W hs hg hnd hsn hk hr
      obtain ⟨hl, hKt, hKg, hRg⟩ := hg
      have hg₁ : (Forest.node i ls K .nil).Grown h.kids h.lvs := ⟨hl, hKt, hKg, trivial⟩
      have hnd' := hnd
      simp only [Forest.labs, List.nodup_cons, List.nodup_append, List.mem_cons, List.mem_append,
        not_or] at hnd' hsn
      obtain ⟨⟨hri, hrK, hrR⟩, ⟨hiK, hiR⟩, hKn, hRn, hKR⟩ := hnd'
      obtain ⟨hsi, hsK, hsR⟩ := hsn
      have hikid : i ∈ h.kids r := by simp [hk]
      obtain ⟨hi, hip⟩ := (W.mem_kids r i).mp hikid
      have hil : i ∉ K.leaves := fun hm => (W.isLeaf_of_mem hKg hm).not_isRouter hi
      obtain ⟨h₁, N₁, e₁, H₁⟩ := ihK W hs hKg (List.nodup_cons.mpr ⟨hiK, hKn⟩) hsK hKt.symm hi
      obtain ⟨r₁, h₂, N₂, r₂, h₃, er₁, hp₁, e₂, er₂, e₃, E⟩ := Heap.retire_spec H₁.wf
        ((H₁.router_frame s).mpr hs) ((H₁.router_frame i).mpr hi) hsi
        (by rw [H₁.lvs_frame i (Ne.symm hsi) hiK, ← hl]) H₁.kids_r
        (by rw [H₁.par_frame i hiK hil, hip])
      have H₃ : WasReset h h₃ s r R.tops (.node i ls K .nil) :=
        H₁.node E W hg₁ (by simp [hri, hrK, hiK, hKn]) (by simp [hsi, hsK]) hk
      have hframe : ∀ x ∈ R.labs, x ≠ r ∧ x ≠ s ∧ x ∉ (Forest.node i ls K .nil).labs := by
        intro x hx
        refine ⟨by rintro rfl; exact hrR hx, by rintro rfl; exact hsR hx, ?_⟩
        simp only [Forest.labs, List.append_nil, List.mem_cons, not_or]
        exact ⟨by rintro rfl; exact hiR hx, fun hm => hKR x hm x hx rfl⟩
      have hRg₃ : R.Grown h₃.kids h₃.lvs := hRg.congr
        (fun x hx => H₃.kids_frame x (hframe x hx).1 (hframe x hx).2.2)
        (fun x hx => H₃.lvs_frame x (hframe x hx).2.1 (hframe x hx).2.2)
      obtain ⟨h₄, N₄, e₄, H₄⟩ := ihR H₃.wf ((H₃.router_frame s).mpr hs) hRg₃
        (List.nodup_cons.mpr ⟨hrR, hRn⟩) hsR H₃.kids_r ((H₃.router_frame r).mpr hr)
      refine ⟨h₄, N₁ + N₂ + N₄ + 2, fun fuel hf => ?_, ?_⟩
      · obtain ⟨fuel, rfl⟩ : ∃ k, fuel = k + 2 := ⟨fuel - 2, by omega⟩
        obtain ⟨rr, hrr⟩ := hr
        obtain ⟨ri, hri'⟩ := hi
        have hcell : cellNext rr.child i = R.tops.head? := by
          rw [← Node.kids_router rr, ← Heap.kids_of_node hrr, hk]
          simp [cellNext]
        have hkt : ri.child = K.tops := by rw [hKt, Heap.kids_of_node hri']; rfl
        have e₁' := e₁ fuel (by omega)
        have e₂' := e₂ fuel (by omega)
        have e₄' := e₄ (fuel + 1) (by omega)
        simp only [Forest.tops, List.head?_cons, resetChilds, recResetTree, Option.bind_eq_bind,
          Heap.router_eq_some.mpr hrr, Heap.router_eq_some.mpr hri', Option.bind_some, hcell, hkt,
          e₁', er₁, hp₁, e₂', er₂, e₃, e₄']
      · have hgF : (Forest.node i ls K R).Grown h.kids h.lvs := ⟨hl, hKt, hKg, hRg⟩
        refine WasReset.append (F := .node i ls K .nil) (by simpa using H₃) H₄ (fun x hx => ?_)
          (fun l hl => W.isLeaf_of_mem hgF hl) hnd (by simp [hsi, hsK])
        exact W.isRouter_of_mem hgF (by rw [hk]; simp) hx

/-- `rec_reset_tree` on the root. -/
theorem recResetTree_spec (W : h.Wf) (hs : h.IsRouter s) (hroot : h.par s = none)
    (hF : h.Below s F) : ∃ h' N, (∀ fuel, N ≤ fuel → recResetTree s fuel h s = some h') ∧
      WasReset h h' s s [] F ∧ h'.FreeAt s := by
  have hnd := W.nodup_labs hroot hF
  have hsF := (List.nodup_cons.mp hnd).1
  obtain ⟨h₁, N, e, H⟩ := resetChilds_spec F W hs hF.grown hnd hsF hF.tops.symm hs
  obtain ⟨rt, hrt⟩ := hs
  obtain ⟨r₁, hr₁⟩ := (H.router_frame s).mpr ⟨rt, hrt⟩
  have C := H.wf.counted s r₁ hr₁
  have hc : r₁.child = [] := by
    rw [← Node.kids_router r₁, ← Heap.kids_of_node hr₁, H.kids_r]
  have hnc : r₁.nchild = 0 := by rw [C.nchild_eq, hc, List.length_nil]
  have hfc := C.fchild_le
  have hs₁ : h₁.par s = none := by
    rw [H.par_frame s hsF fun hm => (W.isLeaf_of_mem hF.grown hm).not_isRouter ⟨rt, hrt⟩, hroot]
  have hp₁ : r₁.parent = none := by rw [← hs₁, Heap.par_of_node hr₁]; rfl
  have hkt : rt.child = F.tops := by rw [hF.tops, Heap.kids_of_node hrt]; rfl
  have R := Heap.rewritten_set H.wf { r₁ with fleaf := r₁.nleaf } hr₁ rfl rfl rfl
    ⟨C.nchild_eq, C.nleaf_eq, C.fchild_le, le_rfl⟩
  have A : (h₁.set s (.router { r₁ with fleaf := r₁.nleaf })).FreeAt s := by
    intro r' hr'
    simp only [Heap.node_set, if_true, Option.some.injEq, Node.router.injEq] at hr'
    subst hr'
    exact ⟨by dsimp only; omega, rfl⟩
  have ht : (h₁.set s (.router { r₁ with fleaf := r₁.nleaf })).tag = h₁.tag := by
    rw [R.tag_eq]
    exact Function.update_eq_self_iff.mpr (Heap.tag_of_node hr₁).symm
  refine ⟨_, N + 1, fun fuel hf => ?_, ?_, A⟩
  · obtain ⟨fuel, rfl⟩ : ∃ k, fuel = k + 1 := ⟨fuel - 1, by omega⟩
    simp only [recResetTree, Option.bind_eq_bind, Heap.router_eq_some.mpr hrt, Option.bind_some,
      hkt, e fuel (by omega), Heap.router_eq_some.mpr hr₁, hp₁]
  · refine ⟨R.wf, ?_, ?_, ?_, ?_, ?_, ?_, ?_, ?_, ?_, ?_, ?_⟩
    · rw [R.kids_eq, H.kids_r]
    · intro x hx
      have hxs : x ≠ s := by rintro rfl; exact hsF hx
      obtain ⟨h1, h2, h3, h4, h5⟩ := H.gone x hx
      rw [R.kids_eq, R.lvs_eq, R.par_eq, Heap.hops_congr (congrFun ht x)]
      exact ⟨h1, h2, h3, h4, R.freeAt x hxs h5⟩
    · rw [R.par_eq]; exact H.par_leaf
    · rw [R.lvs_eq]; exact H.lvs_s
    · rw [← H.sa_eq]
      funext x
      rw [Heap.sa, ht, Heap.sa]
    · rw [R.kids_eq]; exact H.kids_frame
    · rw [R.lvs_eq]; exact H.lvs_frame
    · rw [R.par_eq]; exact H.par_frame
    · rw [ht]; exact H.tag_frame
    · exact fun x => (Heap.isRouter_congr (congrFun ht x)).trans (H.router_frame x)
    · intro x hx hA
      by_cases hxs : x = s
      · exact hxs ▸ A
      · exact R.freeAt x hxs (H.freeAt x hx hA)

end Reset

end MEADcast
