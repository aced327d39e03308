import MEADcast.Sender.Inv
import MEADcast.Sender.Rx
import MEADcast.Sender.Topology

/-!
# Specification of `update_topo`

An accepted response acts on the heap as `Topo.place` says, a rejected one changes
nothing, and a response is processed to its end exactly if the position search ends.
-/

namespace MEADcast

open ParentMap

namespace Heap

/-- The edges and hop counts of a heap. -/
def topo (h : Heap) : Topo NodeId where
  par := h.par
  hops := h.hops
  kids := h.kids
  lvs := h.lvs

/-- The heap after router `r` was placed above `n` on the path of `l`. -/
structure Placed (h h' : Heap) (sa : In6Addr) (b : ℕ) (l r n p : NodeId) : Prop where
  wf : h'.Wf
  allFree : h.AllFree → h'.AllFree
  topo_eq : h'.topo = h.topo.place l b r n p
  tag_eq : h'.tag = Function.update h.tag r (some (.router sa b))

section SetHops

variable {h : Heap} {r : NodeId} {rt : Router}

/-- Overwriting a hop count changes nothing else. -/
theorem setHops_spec (W : h.Wf) (hr : h.node r = some (.router rt)) (b : ℕ) :
    let h' := h.set r (.router { rt with hops := b })
    h'.Wf ∧ h'.par = h.par ∧ h'.kids = h.kids ∧ h'.lvs = h.lvs ∧
      h'.tag = Function.update h.tag r (some (.router rt.sa b)) ∧ (h.AllFree → h'.AllFree) := by
  intro h'
  have C := W.counted r rt hr
  have R := rewritten_set W { rt with hops := b } hr rfl rfl rfl
    ⟨C.nchild_eq, C.nleaf_eq, C.fchild_le, C.fleaf_le⟩
  refine ⟨R.wf, R.par_eq, R.kids_eq, R.lvs_eq, R.tag_eq, fun A => A.set fun r' hr' => ?_⟩
  obtain rfl := Node.router.inj hr'
  exact A r rt hr

theorem hops_update {h' : Heap} {sa : In6Addr} {b : ℕ}
    (ht : h'.tag = Function.update h.tag r (some (.router sa b))) :
    h'.hops = Function.update h.hops r b := by
  funext x
  by_cases hx : x = r <;> simp [hops, ht, hx]

end SetHops

section Place

variable {h : Heap} {l n p r : NodeId} {b : ℕ}

/-- The last node a climb passes is the leaf it starts from, or a router. -/
theorem climb_kind (W : h.Wf) (hl : h.IsLeaf l) {key : NodeId → ℕ}
    (c : Climb h.par key b l n p) : (n = l ∧ h.IsLeaf n) ∨ (n ≠ l ∧ h.IsRouter n) := by
  rcases c.up_node.cases_head with rfl | ⟨z, hz, hzn⟩
  · exact Or.inl ⟨rfl, hl⟩
  · have hn : h.IsRouter n := by
      rcases Relation.ReflTransGen.cases_tail hzn with rfl | ⟨y, -, hy⟩
      · exact W.par_router _ _ hz
      · exact W.par_router _ _ hy
    exact Or.inr ⟨fun hnl => hl.not_isRouter (hnl ▸ hn), hn⟩

/-- Attaching `r` where needed, moving `n` below it and recording the hop count, in any
order, is a placement. -/
theorem placed_of_moved {h₁ h₂ h' : Heap} {sa : In6Addr}
    (hpar : h₁.par = Function.update h.par r (some ((h.par r).getD p)))
    (hkids : ∀ x, h₁.kids x = (if x = p ∧ h.par r = none then [r] else []) ++ h.kids x)
    (hlvs : h₁.lvs = h.lvs) (hkind : (n = l ∧ h₁.IsLeaf n) ∨ (n ≠ l ∧ h₁.IsRouter n))
    (M : Moved h₁ h₂ r n) (hpar' : h'.par = h₂.par) (hkids' : h'.kids = h₂.kids)
    (hlvs' : h'.lvs = h₂.lvs) (htag : h'.tag = Function.update h.tag r (some (.router sa b)))
    (W : h'.Wf) (A : h.AllFree → h'.AllFree) : Placed h h' sa b l r n p where
  wf := W
  allFree := A
  tag_eq := htag
  topo_eq := by
    refine Topo.ext ?_ ?_ ?_ ?_
    · change h'.par = _
      rw [hpar', M.par_eq, hpar]; rfl
    · exact hops_update htag
    · change h'.kids = _
      funext x
      rw [hkids', M.kids_eq, movedKids, hkids]
      rcases hkind with ⟨rfl, hL⟩ | ⟨hnl, hR⟩
      · simp only [Topo.place, topo, hL.not_isRouter, and_false, if_false, ne_eq, not_true,
          List.nil_append]
        rfl
      · by_cases hx : x = r <;>
          simp only [Topo.place, topo, hR, hnl, hx, and_self, if_true, ne_eq, not_false_eq_true,
            List.cons_append, List.nil_append, false_and, if_false] <;> rfl
    · change h'.lvs = _
      funext x
      rw [hlvs', M.lvs_eq, movedLvs, hlvs]
      rcases hkind with ⟨rfl, hL⟩ | ⟨hnl, hR⟩
      · by_cases hx : x = r <;> simp [Topo.place, topo, hL, hx]
      · have hL : ¬ h₁.IsLeaf n := fun hl => hl.not_isRouter hR
        simp [Topo.place, topo, hL, hnl]

variable {rt : Router}

/-- `update_topo` on a router that is in the tree: only `adopt` moves something. -/
theorem adopt_placed (W : h.Wf) (hl : h.IsLeaf l) (hr : h.node r = some (.router rt))
    (hrp : rt.parent ≠ none)
    (c : Climb h.par (Function.update h.hops r b) b l n p) :
    ∃ h', (h.set r (.router { rt with hops := b })).adopt r (some n) = some (h', 0) ∧
      Placed h h' rt.sa b l r n p := by
  obtain ⟨W₁, hpar, hkids, hlvs, htag, hA⟩ := setHops_spec W hr b
  generalize hh₁ : h.set r (.router { rt with hops := b }) = h₁ at *
  have hl₁ : h₁.IsLeaf l := by
    refine (isLeaf_congr ?_).mpr hl
    rw [htag, Function.update_of_ne]
    rintro rfl
    exact hl.not_isRouter ⟨rt, hr⟩
  have hr₁ : h₁.IsRouter r := isRouter_iff_tag.mpr ⟨rt.sa, b, by rw [htag]; simp⟩
  have c₁ : Climb h₁.par h₁.hops b l n p := by rwa [hpar, hops_update htag]
  have hnr : n ≠ r := by
    rintro rfl
    rcases c.eq_or_lt_key with rfl | hlt
    · exact hl.not_isRouter ⟨rt, hr⟩
    · simp at hlt
  obtain ⟨h₂, e, M⟩ := adopt_spec W₁ c₁.par_eq hr₁ hnr
  obtain ⟨q, hq⟩ := Option.ne_none_iff_exists'.mp hrp
  have hrq : h.par r = some q := by rw [par_of_node hr]; exact hq
  refine ⟨h₂, e, placed_of_moved ?_ ?_ hlvs (climb_kind W₁ hl₁ c₁) M rfl rfl rfl ?_
    (M.wf W₁ hr₁ hnr) fun A => M.allFree (hA A)⟩
  · rw [hpar, hrq, Option.getD_some, ← hrq, Function.update_eq_self]
  · intro x; simp [hkids, hrq]
  · rw [M.tag_eq, htag]

/-- `update_topo` on a router that is known but not in the tree: it is attached first. -/
theorem attach_placed (W : h.Wf) (hl : h.IsLeaf l) (hr : h.node r = some (.router rt))
    (hrp : rt.parent = none) (hk : h.kids r = []) (hv : h.lvs r = [])
    (c : Climb h.par (Function.update h.hops r b) b l n p) :
    ∃ h₁ h', (h.set r (.router { rt with hops := b })).addRouter p r = some h₁ ∧
      h₁.adopt r (some n) = some (h', 0) ∧ Placed h h' rt.sa b l r n p := by
  obtain ⟨W₁, hpar, hkids, hlvs, htag, hA⟩ := setHops_spec W hr b
  generalize hh₁ : h.set r (.router { rt with hops := b }) = h₁ at *
  have hrl : l ≠ r := by
    rintro rfl
    exact hl.not_isRouter ⟨rt, hr⟩
  have hl₁ : h₁.IsLeaf l := by
    refine (isLeaf_congr ?_).mpr hl
    rw [htag, Function.update_of_ne hrl]
  have hr₁ : h₁.IsRouter r := isRouter_iff_tag.mpr ⟨rt.sa, b, by rw [htag]; simp⟩
  have c₁ : Climb h₁.par h₁.hops b l n p := by rwa [hpar, hops_update htag]
  have hnp := c₁.par_eq
  have hp₁ : h₁.IsRouter p := W₁.par_router n p hnp
  have hrn : h.par r = none := by rw [par_of_node hr]; exact hrp
  have hr_p : r ≠ p := by
    rintro rfl
    rcases climb_kind W₁ hl₁ c₁ with ⟨-, hn⟩ | ⟨-, hn⟩
    · have : n ∈ h₁.lvs r := (W₁.mem_lvs r n).mpr ⟨hn, hnp⟩
      simp [hlvs, hv] at this
    · have : n ∈ h₁.kids r := (W₁.mem_kids r n).mpr ⟨hn, hnp⟩
      simp [hkids, hk] at this
  have hnr : n ≠ r := by
    rintro rfl
    simp [hpar, hrn] at hnp
  obtain ⟨h₂, e₂, R₂⟩ := addRouter_spec W₁.counted hr₁ hp₁ hr_p
  have W₂ := R₂.wf_attach W₁ hr₁ hp₁ hr_p (by rw [hpar, hrn])
  have hr₂ : h₂.IsRouter r := (isRouter_congr (by rw [R₂.tag_eq])).mpr hr₁
  have hn₂ : h₂.par n = some p := by rw [R₂.par_eq, Function.update_of_ne hnr, hnp]
  obtain ⟨h₃, e₃, M⟩ := adopt_spec W₂ hn₂ hr₂ hnr
  refine ⟨h₂, h₃, e₂, e₃, placed_of_moved ?_ ?_ ?_ ?_ M rfl rfl rfl ?_ (M.wf W₂ hr₂ hnr)
    fun A => M.allFree (R₂.allFree (hA A))⟩
  · rw [R₂.par_eq, hpar, hrn, Option.getD_none]
  · intro x
    by_cases hx : x = p
    · subst hx; simp [R₂.kids_eq, hkids, hrn]
    · simp [R₂.kids_eq, hkids, hx]
  · rw [R₂.lvs_eq, hlvs]
  · rcases climb_kind W₁ hl₁ c₁ with ⟨e, hn⟩ | ⟨e, hn⟩
    · exact Or.inl ⟨e, (isLeaf_congr (by rw [R₂.tag_eq])).mpr hn⟩
    · exact Or.inr ⟨e, (isRouter_congr (by rw [R₂.tag_eq])).mpr hn⟩
  · rw [M.tag_eq, R₂.tag_eq, htag]

/-- `update_topo` on an unknown router: it is created by `insert`. -/
theorem insert_placed (W : h.Wf) (hl : h.IsLeaf l) (sa : In6Addr)
    (c : Climb h.par h.hops b l n p) :
    ∃ h₁ rt, h.insert sa (some n) = some (h₁, some h.next) ∧
      h₁.node h.next = some (.router rt) ∧
      Placed h (h₁.set h.next (.router { rt with hops := b })) sa b l h.next n p := by
  have hfresh := W.fresh h.next le_rfl
  have hnone : h.par h.next = none := by simp [par, hfresh]
  have hnp := c.par_eq
  have hp : h.IsRouter p := W.par_router n p hnp
  obtain ⟨nd, hnd⟩ := node_of_par hnp
  have hnr : n ≠ h.next := by
    rintro rfl
    simp [hfresh] at hnd
  have hndp : nd.parent = some p := by rw [← par_of_node hnd, hnp]
  obtain ⟨h₂, e₂, W₂, hpar, hkids, hlvs, htag, -, hA⟩ := createRouter_spec W sa hp
  have hr₂ : h₂.IsRouter h.next := isRouter_iff_tag.mpr ⟨sa, 0, by rw [htag]; simp⟩
  have hn₂ : h₂.par n = some p := by rw [hpar, Function.update_of_ne hnr, hnp]
  obtain ⟨h₃, e₃, M⟩ := adopt_spec W₂ hn₂ hr₂ hnr
  have W₃ := M.wf W₂ hr₂ hnr
  obtain ⟨rt, hrt⟩ : h₃.IsRouter h.next := (isRouter_congr (by rw [M.tag_eq])).mpr hr₂
  have hsa : rt.sa = sa := by
    have ht := tag_of_node hrt
    rw [M.tag_eq, htag, Function.update_self] at ht
    exact (show rt.sa = sa ∧ rt.hops = 0 by simpa using ht.symm).1
  obtain ⟨W₄, hpar₄, hkids₄, hlvs₄, htag₄, hA₄⟩ := setHops_spec W₃ hrt b
  refine ⟨h₃, rt, ?_, hrt, placed_of_moved ?_ ?_ hlvs ?_ M hpar₄ hkids₄ hlvs₄ ?_ W₄
    fun A => hA₄ (M.allFree (hA A))⟩
  · simp [insert, hnd, hndp, e₂, e₃]
  · rw [hpar, hnone, Option.getD_none]
  · intro x
    by_cases hx : x = p
    · subst hx; simp [hkids, hnone]
    · simp [hkids, hx]
  · have hold : h₂.tag n = h.tag n := by rw [htag, Function.update_of_ne hnr]
    rcases climb_kind W hl c with ⟨e, hn⟩ | ⟨e, hn⟩
    · exact Or.inl ⟨e, (isLeaf_congr hold).mpr hn⟩
    · exact Or.inr ⟨e, (isRouter_congr hold).mpr hn⟩
  · rw [htag₄, M.tag_eq, htag, hsa, Function.update_idem]

/-- A placement keeps the kind of every node, apart from creating `r`. -/
theorem Placed.tag_of_ne {h' : Heap} {sa : In6Addr} (P : Placed h h' sa b l r n p) {x : NodeId}
    (hx : x ≠ r) : h'.tag x = h.tag x := by
  rw [P.tag_eq, Function.update_of_ne hx]

theorem Placed.isRouter {h' : Heap} {sa : In6Addr} (P : Placed h h' sa b l r n p) :
    h'.IsRouter r := isRouter_iff_tag.mpr ⟨sa, b, by rw [P.tag_eq, Function.update_self]⟩

theorem Placed.isLeaf_iff {h' : Heap} {sa : In6Addr} (P : Placed h h' sa b l r n p)
    (hr : ¬ h.IsLeaf r) (x : NodeId) : h'.IsLeaf x ↔ h.IsLeaf x := by
  by_cases hx : x = r
  · subst hx
    exact iff_of_false (fun hl => hl.not_isRouter P.isRouter) hr
  · exact isLeaf_congr (P.tag_of_ne hx)

theorem Placed.par_eq {h' : Heap} {sa : In6Addr} (P : Placed h h' sa b l r n p) :
    h'.par = placed h.par r n p := congrArg Topo.par P.topo_eq

theorem Placed.hops_eq {h' : Heap} {sa : In6Addr} (P : Placed h h' sa b l r n p) :
    h'.hops = Function.update h.hops r b := congrArg Topo.hops P.topo_eq

theorem Placed.kids_eq {h' : Heap} {sa : In6Addr} (P : Placed h h' sa b l r n p) :
    h'.kids = (h.topo.place l b r n p).kids := congrArg Topo.kids P.topo_eq

theorem Placed.lvs_eq {h' : Heap} {sa : In6Addr} (P : Placed h h' sa b l r n p) :
    h'.lvs = (h.topo.place l b r n p).lvs := congrArg Topo.lvs P.topo_eq

end Place

end Heap

namespace Sender

/-! ## Responses -/

/-- The response passes the checks of `update_topo`: the peer address is that of the
receiver `l`, and the responding address is not that of a receiver. -/
structure Admits (s : Sender) (rsa paddr : In6Addr) (l : NodeId) : Prop where
  isLeaf : s.heap.IsLeaf l
  peer : s.heap.sa l = some paddr
  router : ∀ x, s.heap.sa x = some rsa → s.heap.IsRouter x

/-- The node of the responding router: the known one, or the one `insert` will create. -/
def routerId (s : Sender) (rsa : In6Addr) : NodeId :=
  match s.ht rsa with
  | some (some r) => r
  | _ => s.heap.next

/-- The heap on which `update_topo` searches the position: the hop count of a known router
is already overwritten. -/
def searchHeap (s : Sender) (rsa : In6Addr) (hops : ℕ) : Heap :=
  match s.ht rsa with
  | some (some r) =>
    match s.heap.router r with
    | some rt => s.heap.set r (.router { rt with hops := hops })
    | none => s.heap
  | _ => s.heap

/-- The state after an accepted response. -/
structure Accepted (s s' : Sender) (root : NodeId) (rsa : In6Addr) (b : ℕ) (l n p : NodeId) :
    Prop where
  climb : Climb s.heap.par (Function.update s.heap.hops (s.routerId rsa) b) b l n p
  placed : s.heap.Placed s'.heap rsa b l (s.routerId rsa) n p
  inv : s'.Inv root
  rcvr_eq : s'.rcvr = s.rcvr
  txg_eq : s'.txg = s.txg

section UpdateTopo

variable {s s' : Sender} {root l n p : NodeId} {rsa paddr : In6Addr} {b fuel : ℕ} {ret : Int}

/-- The address of a known router, or an unknown address with its future node. -/
theorem routerId_cases (I : s.Inv root) (ha : s.Admits rsa paddr l) :
    (s.ht rsa = none ∧ s.routerId rsa = s.heap.next ∧ s.searchHeap rsa b = s.heap) ∨
      ∃ r rt, s.ht rsa = some (some r) ∧ s.routerId rsa = r ∧
        s.heap.node r = some (.router rt) ∧ rt.sa = rsa ∧
        s.searchHeap rsa b = s.heap.set r (.router { rt with hops := b }) := by
  cases hv : s.ht rsa with
  | none => exact Or.inl ⟨rfl, by simp [routerId, hv], by simp [searchHeap, hv]⟩
  | some v =>
      have hvn : v ≠ none := fun h => I.tracks.ne_null (h ▸ hv)
      obtain ⟨r, rfl⟩ := Option.ne_none_iff_exists'.mp hvn
      have hsa := I.tracks.sa_of_get hv
      obtain ⟨rt, hrt⟩ := ha.router r hsa
      refine Or.inr ⟨r, rt, rfl, by simp [routerId, hv], hrt, ?_, ?_⟩
      · rw [Heap.sa_of_tag (Heap.tag_of_node hrt)] at hsa
        exact Option.some.inj hsa
      · simp [searchHeap, hv, Heap.router_eq_some.mpr hrt]

/-- The searched heap is well-formed and differs in one hop count only. -/
theorem searchHeap_spec (I : s.Inv root) (ha : s.Admits rsa paddr l) :
    (s.searchHeap rsa b).Wf ∧ (s.searchHeap rsa b).par = s.heap.par ∧
      (∀ x, x ≠ s.routerId rsa → (s.searchHeap rsa b).hops x = s.heap.hops x) ∧
      (s.searchHeap rsa b).IsLeaf l := by
  rcases routerId_cases (b := b) I ha with ⟨-, -, hs⟩ | ⟨r, rt, -, hr, hrt, -, hs⟩
  · rw [hs]
    exact ⟨I.wf, rfl, fun _ _ => rfl, ha.isLeaf⟩
  · obtain ⟨W, hpar, -, -, htag, -⟩ := Heap.setHops_spec I.wf hrt b
    rw [hs, hr]
    refine ⟨W, hpar, fun x hx => ?_, ?_⟩
    · rw [Heap.hops_update htag, Function.update_of_ne hx]
    · refine (Heap.isLeaf_congr ?_).mpr ha.isLeaf
      rw [htag, Function.update_of_ne]
      rintro rfl
      exact ha.isLeaf.not_isRouter ⟨rt, hrt⟩

/-- The climb on the searched heap, in terms of the state before the response. -/
theorem climb_searchHeap (I : s.Inv root) (ha : s.Admits rsa paddr l) :
    Climb (s.searchHeap rsa b).par (s.searchHeap rsa b).hops b l n p ↔
      Climb s.heap.par (Function.update s.heap.hops (s.routerId rsa) b) b l n p := by
  rcases routerId_cases (b := b) I ha with ⟨-, hid, hs⟩ | ⟨r, rt, -, hr, hrt, -, hs⟩
  · have hnext : ∀ z, SUp s.heap.par l z → z ≠ s.heap.next := by
      rintro z hz rfl
      obtain ⟨y, -, hy⟩ := Relation.TransGen.tail'_iff.mp hz
      obtain ⟨r, hr⟩ := I.wf.par_router _ _ hy
      simp [I.wf.fresh _ le_rfl] at hr
    rw [hs, hid]
    constructor
    · refine fun c => c.congr (fun _ _ => rfl) fun z hz => ?_
      rw [Function.update_of_ne (hnext z hz)]
    · refine fun c => c.congr (fun _ _ => rfl) fun z hz => ?_
      rw [Function.update_of_ne (hnext z hz)]
  · obtain ⟨-, hpar, -, -, htag, -⟩ := Heap.setHops_spec I.wf hrt b
    rw [hs, hr, hpar, Heap.hops_update htag]

/-- The responding router is neither a receiver nor, unless its address is, the root. -/
theorem routerId_not_isLeaf (I : s.Inv root) (ha : s.Admits rsa paddr l) :
    ¬ s.heap.IsLeaf (s.routerId rsa) := by
  rcases routerId_cases (b := 0) I ha with ⟨-, hid, -⟩ | ⟨r, rt, -, hr, hrt, -, -⟩
  · rw [hid]
    rintro ⟨lf, hlf⟩
    simp [I.wf.fresh _ le_rfl] at hlf
  · rw [hr]
    exact fun hl => hl.not_isRouter ⟨rt, hrt⟩

theorem routerId_ne_root (I : s.Inv root) (ha : s.Admits rsa paddr l)
    (hne : s.heap.sa root ≠ some rsa) : s.routerId rsa ≠ root := by
  rcases routerId_cases (b := 0) I ha with ⟨-, hid, -⟩ | ⟨r, rt, hv, hr, -, -, -⟩
  · rw [hid]
    rintro rfl
    obtain ⟨r, hr⟩ := I.root_router
    simp [I.wf.fresh _ le_rfl] at hr
  · rw [hr]
    rintro rfl
    exact hne (I.tracks.sa_of_get hv)

/-- A placement keeps the invariant if the table gains the entry of the router. -/
theorem inv_of_placed (I : s.Inv root) (ha : s.Admits rsa paddr l)
    (hne : s.heap.sa root ≠ some rsa)
    (c : Climb s.heap.par (Function.update s.heap.hops (s.routerId rsa) b) b l n p) {h' : Heap}
    (P : s.heap.Placed h' rsa b l (s.routerId rsa) n p) {ht' : Judy} (T : Tracks ht' h') :
    ({ s with heap := h', ht := ht' } : Sender).Inv root := by
  have hrl := routerId_not_isLeaf I ha
  have hrr := routerId_ne_root I ha hne
  generalize s.routerId rsa = r at *
  have hL := P.isLeaf_iff hrl
  have hnp := c.par_eq
  have hnroot : n ≠ root := by
    rintro rfl
    simp [I.root_par] at hnp
  refine ⟨P.wf, P.allFree I.allFree, I.root_eq, ?_, ?_, T, ?_, ?_, I.rcvr_nodup, ?_, I.nrcvr_eq,
    I.mg_eq⟩
  · exact (Heap.isRouter_congr (P.tag_of_ne hrr.symm)).mpr I.root_router
  · change h'.par root = none
    rw [P.par_eq, placed, Function.update_of_ne hnroot.symm, Function.update_of_ne hrr.symm, I.root_par]
  · intro x hx hpx hxr
    change h'.par x = none at hpx
    rw [P.par_eq, placed] at hpx
    have hxn : x ≠ n := by rintro rfl; simp at hpx
    have hxr' : x ≠ r := by
      rintro rfl
      simp [Function.update_of_ne hxn] at hpx
    rw [Function.update_of_ne hxn, Function.update_of_ne hxr'] at hpx
    have hR := (Heap.isRouter_congr (P.tag_of_ne hxr')).mp hx
    obtain ⟨hk, hv, hh⟩ := I.orphan x hR hpx hxr
    have hxp : x ≠ p := by
      rintro rfl
      rcases Heap.climb_kind I.wf ha.isLeaf c with ⟨-, hn⟩ | ⟨-, hn⟩
      · have : n ∈ s.heap.lvs x := (I.wf.mem_lvs x n).mpr ⟨hn, hnp⟩
        simp [hv] at this
      · have : n ∈ s.heap.kids x := (I.wf.mem_kids x n).mpr ⟨hn, hnp⟩
        simp [hk] at this
    refine ⟨?_, ?_, ?_⟩
    · change h'.kids x = []
      rw [P.kids_eq]
      simp [Topo.place, Heap.topo, hxr', hxp, hk]
    · change h'.lvs x = []
      rw [P.lvs_eq]
      simp [Topo.place, Heap.topo, hxr', hv]
    · change h'.hops x = 0
      rw [P.hops_eq, Function.update_of_ne hxr', hh]
  · intro x hx
    change h'.par x ≠ none
    have hxL := (hL x).mp hx
    have hxr : x ≠ r := by rintro rfl; exact hrl hxL
    rw [P.par_eq, placed]
    by_cases hxn : x = n
    · simp [hxn]
    · rw [Function.update_of_ne hxn, Function.update_of_ne hxr]
      exact I.leaf_par x hxL
  · intro x
    rw [I.mem_rcvr]
    exact (hL x).symm

/-- If the position search finds the cell of `n`, the response is processed to its end. -/
theorem updateTopo_of_pos (I : s.Inv root) (ha : s.Admits rsa paddr l)
    (hne : s.heap.sa root ≠ some rsa)
    (c : Climb s.heap.par (Function.update s.heap.hops (s.routerId rsa) b) b l n p)
    (hpos : (s.searchHeap rsa b).getPathPos fuel l b = some (some n)) :
    ∃ s', s.updateTopo fuel rsa paddr b = some (s', 0) ∧ s.Accepted s' root rsa b l n p := by
  have hpeer := I.tracks.get ha.peer
  obtain ⟨lf, hlf⟩ := ha.isLeaf
  rcases routerId_cases (b := b) I ha with ⟨hv, hid, hs⟩ | ⟨r, rt, hv, hr, hrt, hsa, hs⟩
  · rw [hs] at hpos
    have c' := (climb_searchHeap I ha).mpr c
    rw [hs] at c'
    obtain ⟨h₁, rt, e, hrt, P⟩ := Heap.insert_placed I.wf ha.isLeaf rsa c'
    generalize hh' : h₁.set s.heap.next (.router { rt with hops := b }) = h' at P
    have T : Tracks ((s.ht.ins rsa).1.put rsa (some s.heap.next)) h' := by
      refine I.tracks.insert hv (Heap.sa_eq_none.mpr (I.wf.fresh _ le_rfl)) ?_
      funext x
      by_cases hx : x = s.heap.next <;> simp [Heap.sa, P.tag_eq, hx, Tag.sa]
    rw [← hid] at P
    refine ⟨{ s with heap := h', ht := (s.ht.ins rsa).1.put rsa (some s.heap.next) }, ?_, c, P,
      inv_of_placed I ha hne c P T, rfl, rfl⟩
    have hins : s.ht.ins rsa = ((s.ht.ins rsa).1, none) := by simp [Judy.ins, hv]
    simp only [updateTopo, hpeer, hlf, Option.bind_eq_bind, Option.bind_some]
    rw [hins]
    simp [hpos, e, Heap.router_eq_some.mpr hrt, hh']
  · subst hsa
    have hins : s.ht.ins rt.sa = (s.ht, some r) := by simp [Judy.ins, hv]
    rw [hs] at hpos
    rw [hr] at c
    have T : ∀ h', s.heap.Placed h' rt.sa b l r n p → Tracks s.ht h' := by
      intro h' P
      refine I.tracks.congr ?_
      funext x
      by_cases hx : x = r
      · subst hx
        simp [Heap.sa, P.tag_eq, Heap.tag_of_node hrt, Tag.sa]
      · rw [Heap.sa, P.tag_of_ne hx, Heap.sa]
    have hne' : ∀ h', s.heap.Placed h' rt.sa b l r n p →
        s.Accepted { s with heap := h' } root rt.sa b l n p := by
      intro h' P
      have c' := c
      have P' := P
      rw [← hr] at c' P'
      exact ⟨c', P', inv_of_placed I ha hne c' P' (T h' P), rfl, rfl⟩
    have hrroot : r ≠ root := hr ▸ routerId_ne_root I ha hne
    have hpar : s.heap.par r = rt.parent := Heap.par_of_node hrt
    by_cases hrp : rt.parent = none
    · obtain ⟨hk, hv', -⟩ := I.orphan r ⟨rt, hrt⟩ (hpar.trans hrp) hrroot
      obtain ⟨h₁, h', e₁, e₂, P⟩ := Heap.attach_placed I.wf ha.isLeaf hrt hrp hk hv' c
      refine ⟨{ s with heap := h' }, ?_, hne' h' P⟩
      have C := I.wf.counted r rt hrt
      have hnl : rt.nleaf = 0 := by
        rw [C.nleaf_eq, ← Node.lvs_router rt, ← Heap.lvs_of_node hrt, hv', List.length_nil]
      have hnc : rt.nchild = 0 := by
        rw [C.nchild_eq, ← Node.kids_router rt, ← Heap.kids_of_node hrt, hk, List.length_nil]
      have hpn : (s.heap.set r (.router { rt with hops := b })).par n = some p := by
        rw [(Heap.setHops_spec I.wf hrt b).2.1]
        exact c.par_eq
      obtain ⟨nd, hnd⟩ := Heap.node_of_par hpn
      have hndp : nd.parent = some p := by rw [← Heap.par_of_node hnd, hpn]
      simp only [updateTopo, hpeer, hlf, Option.bind_eq_bind, Option.bind_some]
      rw [hins]
      simp only [hrt, Option.bind_some, hpos, if_pos (And.intro hrp (And.intro hnl hnc)), hnd,
        hndp, e₁, e₂]
    · obtain ⟨h', e, P⟩ := Heap.adopt_placed I.wf ha.isLeaf hrt hrp c
      refine ⟨{ s with heap := h' }, ?_, hne' h' P⟩
      simp only [updateTopo, hpeer, hlf, Option.bind_eq_bind, Option.bind_some]
      rw [hins]
      simp only [hrt, Option.bind_some, hpos, hrp, false_and, if_false, e]

/-- A response that fails a check changes nothing. -/
theorem updateTopo_rejected (I : s.Inv root) (ha : ∀ l, ¬ s.Admits rsa paddr l) :
    s.updateTopo fuel rsa paddr b = some (s, -1) := by
  cases hp : s.ht paddr with
  | none => simp [updateTopo, hp]
  | some v =>
      have hvn : v ≠ none := fun h => I.tracks.ne_null (h ▸ hp)
      obtain ⟨l, rfl⟩ := Option.ne_none_iff_exists'.mp hvn
      have hl := I.tracks.sa_of_get hp
      cases hn : s.heap.node l with
      | none => simp [Heap.sa_eq_none.mpr hn] at hl
      | some nd =>
          cases nd with
          | router r => simp [updateTopo, hp, hn]
          | leaf lf =>
              have hx : ∃ x, s.heap.sa x = some rsa ∧ ¬ s.heap.IsRouter x := by
                by_contra hx
                push Not at hx
                exact ha l ⟨⟨lf, hn⟩, hl, hx⟩
              obtain ⟨x, hx, hxr⟩ := hx
              have hv := I.tracks.get hx
              cases hxn : s.heap.node x with
              | none => simp [Heap.sa_eq_none.mpr hxn] at hx
              | some nx =>
                  cases nx with
                  | router r => exact absurd ⟨r, hxn⟩ hxr
                  | leaf lx => simp [updateTopo, hp, hn, Judy.ins, hv, hxn]

/-- Without a result of the position search there is no result of `update_topo`. -/
theorem updateTopo_of_pos_none (I : s.Inv root) (ha : s.Admits rsa paddr l)
    (hpos : (s.searchHeap rsa b).getPathPos fuel l b = none) :
    s.updateTopo fuel rsa paddr b = none := by
  have hpeer := I.tracks.get ha.peer
  obtain ⟨lf, hlf⟩ := ha.isLeaf
  rcases routerId_cases (b := b) I ha with ⟨hv, -, hs⟩ | ⟨r, rt, hv, -, hrt, -, hs⟩
  · rw [hs] at hpos
    simp [updateTopo, hpeer, hlf, Judy.ins, hv, hpos]
  · rw [hs] at hpos
    simp [updateTopo, hpeer, hlf, Judy.ins, hv, hrt, hpos]

/-- A response that passes the checks and is processed to its end is accepted. -/
theorem updateTopo_sound (I : s.Inv root) (ha : s.Admits rsa paddr l)
    (hne : s.heap.sa root ≠ some rsa)
    (e : s.updateTopo fuel rsa paddr b = some (s', ret)) :
    ret = 0 ∧ ∃ n p, s.Accepted s' root rsa b l n p := by
  obtain ⟨W, -, -, hl⟩ := searchHeap_spec (b := b) I ha
  cases hpos : (s.searchHeap rsa b).getPathPos fuel l b with
  | none => simp [updateTopo_of_pos_none I ha hpos] at e
  | some c =>
      obtain ⟨n, p, rfl, hc⟩ := Heap.getPathPos_sound W hl hpos
      have hc' := (climb_searchHeap I ha).mp hc
      obtain ⟨s'', e', A⟩ := updateTopo_of_pos I ha hne hc' hpos
      obtain ⟨rfl, rfl⟩ : s'' = s' ∧ 0 = ret := by simpa [e'] using e
      exact ⟨rfl, n, p, A⟩

/-- If the climb ends, so does the response. -/
theorem updateTopo_complete (I : s.Inv root) (ha : s.Admits rsa paddr l)
    (hne : s.heap.sa root ≠ some rsa)
    (c : Climb s.heap.par (Function.update s.heap.hops (s.routerId rsa) b) b l n p) :
    ∃ N, ∀ fuel, N ≤ fuel → ∃ s', s.updateTopo fuel rsa paddr b = some (s', 0) ∧
      s.Accepted s' root rsa b l n p := by
  obtain ⟨W, -, -, hl⟩ := searchHeap_spec (b := b) I ha
  obtain ⟨N, hN⟩ := Heap.getPathPos_complete W hl ((climb_searchHeap I ha).mpr c)
  exact ⟨N, fun fuel hf => updateTopo_of_pos I ha hne c (hN fuel hf)⟩

/-- Every response that is processed to its end either changes nothing or is accepted. -/
theorem updateTopo_cases (I : s.Inv root) (hne : s.heap.sa root ≠ some rsa)
    (e : s.updateTopo fuel rsa paddr b = some (s', ret)) :
    (s' = s ∧ ret = -1 ∧ ∀ l, ¬ s.Admits rsa paddr l) ∨
      ret = 0 ∧ ∃ l n p, s.Admits rsa paddr l ∧ s.Accepted s' root rsa b l n p := by
  by_cases ha : ∃ l, s.Admits rsa paddr l
  · obtain ⟨l, ha⟩ := ha
    obtain ⟨hret, n, p, A⟩ := updateTopo_sound I ha hne e
    exact Or.inr ⟨hret, l, n, p, ha, A⟩
  · push Not at ha
    obtain ⟨rfl, rfl⟩ : s = s' ∧ -1 = ret := by
      simpa [updateTopo_rejected I ha] using e
    exact Or.inl ⟨rfl, rfl, ha⟩

end UpdateTopo

end Sender

end MEADcast
