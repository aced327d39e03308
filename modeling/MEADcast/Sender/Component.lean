import MEADcast.Sender.HeapView
import MEADcast.Lib.Forest

/-!
# The component of the root is a forest

Whatever hangs below a parentless router can be read off as an ordered forest of node
identifiers, even if the rest of the heap contains cycles.

## Main results

* `Heap.Wf.exists_forest` — the forest below a parentless router.
* `Heap.Wf.nodup_labs`, `Heap.Wf.mem_labs` — it has every router below it exactly once.
-/

namespace MEADcast

open ParentMap

namespace Heap

/-- The forest `F` is what hangs below router `r`. -/
structure Below (h : Heap) (r : NodeId) (F : Forest NodeId NodeId) : Prop where
  tops : F.tops = h.kids r
  grown : F.Grown h.kids h.lvs

namespace Wf

variable {h : Heap} {root : NodeId} {F : Forest NodeId NodeId}

theorem exists_forest (W : h.Wf) (hroot : h.par root = none) : ∃ F, h.Below root F := by
  classical
  let s := Finset.range h.next
  have hs : ∀ x c, c ∈ h.kids x → x ∈ s := by
    intro x c hc
    obtain ⟨r, hr⟩ := W.par_router c x (W.kids_parent hc)
    exact Finset.mem_range.mpr (W.lt_next hr)
  obtain ⟨F, ht, hg⟩ := Forest.exists_grown h.lvs
    (fun x => Up h.par x root) (fun x => (s.filter fun z => Up h.par z x).card)
    (fun x hx c hc => ⟨Up.head (W.kids_parent hc) hx,
      card_below_lt (W.kids_parent hc) (hs x c hc) (not_sUp_self hroot hx)⟩) (Up.refl _ _)
  exact ⟨F, ht, hg⟩

/-- The leaves of an unfolding are receivers. -/
theorem isLeaf_of_mem (W : h.Wf) (hF : F.Grown h.kids h.lvs) {l : NodeId} (hl : l ∈ F.leaves) :
    h.IsLeaf l := by
  rw [hF.leaves_eq, List.mem_flatMap] at hl
  obtain ⟨x, -, hx⟩ := hl
  exact ((W.mem_lvs x l).mp hx).1

/-- The nodes of an unfolding of children of a router are routers. -/
theorem isRouter_of_mem (W : h.Wf) (hF : F.Grown h.kids h.lvs) {r : NodeId}
    (htop : F.tops ⊆ h.kids r) {x : NodeId} (hx : x ∈ F.labs) : h.IsRouter x := by
  rcases hF.mem_labs hx with hx | ⟨y, -, hx⟩
  · exact ((W.mem_kids r x).mp (htop hx)).1
  · exact ((W.mem_kids y x).mp hx).1

/-- Every node of an unfolding hangs below one of its top nodes. -/
theorem up_tops (W : h.Wf) (hF : F.Grown h.kids h.lvs) {y : NodeId} (hy : y ∈ F.labs) :
    ∃ t ∈ F.tops, Up h.par y t := by
  induction F with
  | nil => simp at hy
  | node a ls K R ihK ihR =>
      obtain ⟨-, h2, h3, h4⟩ := hF
      simp only [Forest.labs, List.mem_cons, List.mem_append] at hy
      rcases hy with rfl | hy | hy
      · exact ⟨y, by simp, Up.refl _ _⟩
      · obtain ⟨t, ht, hyt⟩ := ihK h3 hy
        exact ⟨a, by simp, hyt.tail (W.kids_parent (h2 ▸ ht))⟩
      · obtain ⟨t, ht, hyt⟩ := ihR h4 hy
        exact ⟨t, by simp [ht], hyt⟩

/-- The labels of an unfolding below `x` differ from each other if `x` is on no cycle. -/
theorem nodup_labs_of_tops (W : h.Wf) (hF : F.Grown h.kids h.lvs) {x : NodeId}
    (hx : ¬ SUp h.par x x) (htop : ∀ t ∈ F.tops, h.par t = some x) (hnd : F.tops.Nodup) :
    F.labs.Nodup := by
  induction F generalizing x with
  | nil => exact List.nodup_nil
  | node a ls K R ihK ihR =>
      obtain ⟨-, h2, h3, h4⟩ := hF
      obtain ⟨hanR, hndR⟩ := List.nodup_cons.mp hnd
      have hax : h.par a = some x := htop a (by simp)
      have ha : ¬ SUp h.par a a := fun hs => hx (sUp_self_of_up hs (Up.head hax (Up.refl _ _)))
      have htK : ∀ t ∈ K.tops, h.par t = some a := fun t ht => W.kids_parent (h2 ▸ ht)
      have htR : ∀ t ∈ R.tops, h.par t = some x := fun t ht => htop t (by simp [ht])
      -- a node below a sibling `t` of `a` is not below `a`
      have hsib : ∀ y ∈ R.labs, ¬ Up h.par y a := by
        intro y hy hya
        obtain ⟨t, ht, hyt⟩ := W.up_tops h4 hy
        have hta : t ≠ a := fun he => hanR (he ▸ ht)
        rcases hyt.total hya with h' | h'
        · rcases h'.cases_head with h' | ⟨z, hz, hza⟩
          · exact hta h'
          · obtain rfl := Option.some.inj ((htR t ht).symm.trans hz)
            exact hx (Relation.TransGen.tail' hza hax)
        · rcases h'.cases_head with h' | ⟨z, hz, hzt⟩
          · exact hta h'.symm
          · obtain rfl := Option.some.inj (hax.symm.trans hz)
            exact hx (Relation.TransGen.tail' hzt (htR t ht))
      have hupK : ∀ y ∈ K.labs, SUp h.par y a := by
        intro y hy
        obtain ⟨t, ht, hyt⟩ := W.up_tops h3 hy
        exact Relation.TransGen.tail' hyt (htK t ht)
      refine List.nodup_cons.mpr ⟨?_, List.nodup_append.mpr ⟨ihK h3 ha htK ?_,
        ihR h4 hx htR hndR, ?_⟩⟩
      · intro hmem
        rcases List.mem_append.mp hmem with hm | hm
        · exact ha (hupK a hm)
        · exact hsib a hm (Up.refl _ _)
      · rw [h2]
        exact W.kids_nodup a
      · rintro y hy z hz rfl
        exact hsib y hz (Up.of_sUp (hupK y hy))

theorem nodup_labs (W : h.Wf) (hroot : h.par root = none) (hF : h.Below root F) :
    (root :: F.labs).Nodup := by
  have hloop : ¬ SUp h.par root root := not_sUp_self hroot (Up.refl _ _)
  have htop : ∀ t ∈ F.tops, h.par t = some root := fun t ht => W.kids_parent (hF.tops ▸ ht)
  refine List.nodup_cons.mpr ⟨fun hm => ?_, ?_⟩
  · obtain ⟨t, ht, hup⟩ := W.up_tops hF.grown hm
    exact hloop (Relation.TransGen.tail' hup (htop t ht))
  · refine W.nodup_labs_of_tops hF.grown hloop htop ?_
    rw [hF.tops]
    exact W.kids_nodup root

/-- The labels are the routers below the root. -/
theorem mem_labs (W : h.Wf) (hF : h.Below root F) (y : NodeId) :
    y ∈ F.labs ↔ h.IsRouter y ∧ SUp h.par y root := by
  constructor
  · intro hy
    obtain ⟨t, ht, hup⟩ := W.up_tops hF.grown hy
    have htop := W.kids_parent (hF.tops ▸ ht)
    exact ⟨W.isRouter_of_mem hF.grown (by rw [hF.tops]; exact List.Subset.refl _) hy,
      Relation.TransGen.tail' hup htop⟩
  · rintro ⟨hr, hup⟩
    induction hup using Relation.TransGen.head_induction_on with
    | @single y hy =>
        exact Forest.mem_labs_of_mem_tops (hF.tops ▸ (W.mem_kids root y).mpr ⟨hr, hy⟩)
    | @head y z hyz _ ih =>
        exact hF.grown.kids_subset (ih (W.par_router y z hyz)) ((W.mem_kids z y).mpr ⟨hr, hyz⟩)

/-- The leaves are the receivers below a child of the root. -/
theorem mem_leaves (hF : h.Below root F) (l : NodeId) :
    l ∈ F.leaves ↔ ∃ x ∈ F.labs, l ∈ h.lvs x := by
  rw [hF.grown.leaves_eq, List.mem_flatMap]

end Wf

end Heap

end MEADcast
