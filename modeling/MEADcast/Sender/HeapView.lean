import MEADcast.Sender.Tree
import MEADcast.Lib.ParentMap

/-!
# Views of the heap and its well-formedness

The proofs about the tree read a heap through four functions: the parent, the child list
and the leaf list of a node, and its tag, which is everything that moving nodes around
leaves alone.  `Heap.Wf` states that lists and parent pointers describe the same edges and
that the length counters are exact.  It does not exclude cycles.

Each operation has one specification lemma that gives the views of its result.
-/

namespace MEADcast

/-- The part of a node that survives every change of the tree's shape. -/
inductive Tag where
  | router (sa : In6Addr) (hops : ℕ)
  | leaf (addr : Addr)
  deriving DecidableEq

namespace Node

/-- The child list of a router. -/
def kids : Node → List NodeId
  | leaf _ => []
  | router r => r.child

/-- The leaf list of a router. -/
def lvs : Node → List NodeId
  | leaf _ => []
  | router r => r.leaf

/-- Address and hop count of a router, or address and port of a receiver. -/
def tag : Node → Tag
  | leaf l => .leaf l.addr
  | router r => .router r.sa r.hops

@[simp] theorem parent_router (r : Router) : (Node.router r).parent = r.parent := rfl
@[simp] theorem parent_leaf (l : Leaf) : (Node.leaf l).parent = l.parent := rfl
@[simp] theorem kids_router (r : Router) : (Node.router r).kids = r.child := rfl
@[simp] theorem kids_leaf (l : Leaf) : (Node.leaf l).kids = [] := rfl
@[simp] theorem lvs_router (r : Router) : (Node.router r).lvs = r.leaf := rfl
@[simp] theorem lvs_leaf (l : Leaf) : (Node.leaf l).lvs = [] := rfl
@[simp] theorem tag_router (r : Router) : (Node.router r).tag = .router r.sa r.hops := rfl
@[simp] theorem tag_leaf (l : Leaf) : (Node.leaf l).tag = .leaf l.addr := rfl
@[simp] theorem sa_router (r : Router) : (Node.router r).sa = r.sa := rfl
@[simp] theorem sa_leaf (l : Leaf) : (Node.leaf l).sa = l.addr.sin6_addr := rfl
@[simp] theorem setParent_router (p : Option NodeId) (r : Router) :
    (Node.router r).setParent p = .router { r with parent := p } := rfl
@[simp] theorem setParent_leaf (p : Option NodeId) (l : Leaf) :
    (Node.leaf l).setParent p = .leaf { l with parent := p } := rfl

end Node

/-- The address in a tag. -/
def Tag.sa : Tag → In6Addr
  | router sa _ => sa
  | leaf a => a.sin6_addr

@[simp] theorem Node.sa_eq_tag (nd : Node) : nd.tag.sa = nd.sa := by cases nd <;> rfl

namespace Router

/-- The length counters are exact and the free counters do not exceed them. -/
structure Counted (r : Router) : Prop where
  nchild_eq : r.nchild = r.child.length
  nleaf_eq : r.nleaf = r.leaf.length
  fchild_le : r.fchild ≤ r.nchild
  fleaf_le : r.fleaf ≤ r.nleaf

/-- Every list element is free. -/
def AllFree (r : Router) : Prop := r.fchild = r.nchild ∧ r.fleaf = r.nleaf

end Router

namespace Heap

/-- Parent pointer of a node. -/
def par (h : Heap) (x : NodeId) : Option NodeId := (h.node x).bind Node.parent

/-- Child list of a node. -/
def kids (h : Heap) (x : NodeId) : List NodeId := (h.node x).elim [] Node.kids

/-- Leaf list of a node. -/
def lvs (h : Heap) (x : NodeId) : List NodeId := (h.node x).elim [] Node.lvs

/-- Tag of a node. -/
def tag (h : Heap) (x : NodeId) : Option Tag := (h.node x).map Node.tag

/-- A live router. -/
def IsRouter (h : Heap) (x : NodeId) : Prop := ∃ r, h.node x = some (.router r)

/-- A live leaf. -/
def IsLeaf (h : Heap) (x : NodeId) : Prop := ∃ l, h.node x = some (.leaf l)

/-- Hop count of a router, `0` for everything else. -/
def hops (h : Heap) (x : NodeId) : ℕ :=
  match h.tag x with
  | some (.router _ k) => k
  | _ => 0

instance (h : Heap) (x : NodeId) : Decidable (h.IsRouter x) :=
  match hx : h.node x with
  | some (.router r) => isTrue ⟨r, hx⟩
  | some (.leaf _) => isFalse fun ⟨_, hr⟩ => by simp [hx] at hr
  | none => isFalse fun ⟨_, hr⟩ => by simp [hx] at hr

instance (h : Heap) (x : NodeId) : Decidable (h.IsLeaf x) :=
  match hx : h.node x with
  | some (.leaf l) => isTrue ⟨l, hx⟩
  | some (.router _) => isFalse fun ⟨_, hr⟩ => by simp [hx] at hr
  | none => isFalse fun ⟨_, hr⟩ => by simp [hx] at hr

section Views

variable {h : Heap} {x : NodeId}

theorem node_of_par {p : NodeId} (hp : h.par x = some p) : ∃ nd, h.node x = some nd := by
  cases hn : h.node x with
  | none => simp [par, hn] at hp
  | some nd => exact ⟨nd, rfl⟩

theorem isRouter_or_isLeaf {nd : Node} (hx : h.node x = some nd) : h.IsRouter x ∨ h.IsLeaf x := by
  cases nd with
  | leaf l => exact Or.inr ⟨l, hx⟩
  | router r => exact Or.inl ⟨r, hx⟩

theorem par_of_node {nd : Node} (hx : h.node x = some nd) : h.par x = nd.parent := by
  simp [par, hx]

theorem kids_of_node {nd : Node} (hx : h.node x = some nd) : h.kids x = nd.kids := by
  simp [kids, hx]

theorem lvs_of_node {nd : Node} (hx : h.node x = some nd) : h.lvs x = nd.lvs := by
  simp [lvs, hx]

theorem tag_of_node {nd : Node} (hx : h.node x = some nd) : h.tag x = some nd.tag := by
  simp [tag, hx]

theorem hops_of_router {r : Router} (hx : h.node x = some (.router r)) : h.hops x = r.hops := by
  simp [hops, tag, hx]

theorem router_eq_some {r : Router} : h.router x = some r ↔ h.node x = some (.router r) := by
  unfold router
  split
  · rename_i r' hr
    simp [hr]
  · rename_i hne
    simp only [reduceCtorEq, false_iff]
    exact fun hx => hne r hx

theorem leaf_eq_some {l : Leaf} : h.leaf x = some l ↔ h.node x = some (.leaf l) := by
  unfold leaf
  split
  · rename_i r' hr
    simp [hr]
  · rename_i hne
    simp only [reduceCtorEq, false_iff]
    exact fun hx => hne l hx

theorem isRouter_iff_tag : h.IsRouter x ↔ ∃ sa k, h.tag x = some (.router sa k) := by
  constructor
  · rintro ⟨r, hr⟩
    exact ⟨r.sa, r.hops, by simp [tag, hr]⟩
  · rintro ⟨sa, k, ht⟩
    cases hn : h.node x with
    | none => simp [tag, hn] at ht
    | some nd =>
        cases nd with
        | leaf l => simp [tag, hn] at ht
        | router r => exact ⟨r, hn⟩

theorem isLeaf_iff_tag : h.IsLeaf x ↔ ∃ a, h.tag x = some (.leaf a) := by
  constructor
  · rintro ⟨l, hl⟩
    exact ⟨l.addr, by simp [tag, hl]⟩
  · rintro ⟨a, ht⟩
    cases hn : h.node x with
    | none => simp [tag, hn] at ht
    | some nd =>
        cases nd with
        | leaf l => exact ⟨l, hn⟩
        | router r => simp [tag, hn] at ht

theorem IsLeaf.not_isRouter (hl : h.IsLeaf x) : ¬ h.IsRouter x := by
  obtain ⟨l, hl⟩ := hl
  rintro ⟨r, hr⟩
  simp [hl] at hr

theorem kids_of_not_isRouter (hx : ¬ h.IsRouter x) : h.kids x = [] := by
  cases hn : h.node x with
  | none => simp [kids, hn]
  | some nd =>
      cases nd with
      | leaf l => simp [kids, hn]
      | router r => exact absurd ⟨r, hn⟩ hx

theorem lvs_of_not_isRouter (hx : ¬ h.IsRouter x) : h.lvs x = [] := by
  cases hn : h.node x with
  | none => simp [lvs, hn]
  | some nd =>
      cases nd with
      | leaf l => simp [lvs, hn]
      | router r => exact absurd ⟨r, hn⟩ hx

/-- Kinds are part of the tag. -/
theorem isRouter_congr {h' : Heap} (ht : h'.tag x = h.tag x) : h'.IsRouter x ↔ h.IsRouter x := by
  rw [isRouter_iff_tag, isRouter_iff_tag, ht]

theorem isLeaf_congr {h' : Heap} (ht : h'.tag x = h.tag x) : h'.IsLeaf x ↔ h.IsLeaf x := by
  rw [isLeaf_iff_tag, isLeaf_iff_tag, ht]

theorem hops_congr {h' : Heap} (ht : h'.tag x = h.tag x) : h'.hops x = h.hops x := by
  simp only [hops, ht]

/-- A node is live exactly if it has a tag. -/
theorem node_ne_none_iff : h.node x ≠ none ↔ h.tag x ≠ none := by
  simp [tag]

end Views

section Set

variable {h : Heap} {i : NodeId} {nd : Node}

@[simp] theorem node_set (j : NodeId) :
    (h.set i nd).node j = if j = i then some nd else h.node j := rfl

@[simp] theorem next_set : (h.set i nd).next = h.next := rfl

@[simp] theorem par_set : (h.set i nd).par = Function.update h.par i nd.parent := by
  funext j
  by_cases hj : j = i <;> simp [par, hj]

@[simp] theorem kids_set : (h.set i nd).kids = Function.update h.kids i nd.kids := by
  funext j
  by_cases hj : j = i <;> simp [kids, hj]

@[simp] theorem lvs_set : (h.set i nd).lvs = Function.update h.lvs i nd.lvs := by
  funext j
  by_cases hj : j = i <;> simp [lvs, hj]

@[simp] theorem tag_set : (h.set i nd).tag = Function.update h.tag i (some nd.tag) := by
  funext j
  by_cases hj : j = i <;> simp [tag, hj]

end Set

/-! ## Well-formed heaps -/

/-- The counters of every router are exact. -/
def Counted (h : Heap) : Prop := ∀ x r, h.node x = some (.router r) → r.Counted

/-- If `x` is a router, its free counters equal its length counters. -/
def FreeAt (h : Heap) (x : NodeId) : Prop := ∀ r, h.node x = some (.router r) → r.AllFree

/-- All free counters equal the length counters. -/
def AllFree (h : Heap) : Prop := ∀ x, h.FreeAt x

/-- Parent pointers and lists describe the same edges, no cell occurs twice, the counters
are exact, and identifiers from `next` on are unused. -/
structure Wf (h : Heap) : Prop where
  kids_nodup : ∀ x, (h.kids x).Nodup
  lvs_nodup : ∀ x, (h.lvs x).Nodup
  mem_kids : ∀ x c, c ∈ h.kids x ↔ h.IsRouter c ∧ h.par c = some x
  mem_lvs : ∀ x c, c ∈ h.lvs x ↔ h.IsLeaf c ∧ h.par c = some x
  par_router : ∀ x p, h.par x = some p → h.IsRouter p
  par_ne : ∀ x, h.par x ≠ some x
  counted : h.Counted
  fresh : ∀ x, h.next ≤ x → h.node x = none

namespace Wf

variable {h : Heap} (W : h.Wf)

include W

theorem lt_next {x : NodeId} {nd : Node} (hx : h.node x = some nd) : x < h.next := by
  by_contra hlt
  rw [W.fresh x (not_lt.mp hlt)] at hx
  simp at hx

theorem kids_parent {x c : NodeId} (hc : c ∈ h.kids x) : h.par c = some x :=
  ((W.mem_kids x c).mp hc).2

theorem lvs_parent {x c : NodeId} (hc : c ∈ h.lvs x) : h.par c = some x :=
  ((W.mem_lvs x c).mp hc).2

/-- Giving a node a router as parent keeps all parents routers. -/
theorem par_update_some {c p : NodeId} (hp : h.IsRouter p) (hcp : c ≠ p) (x q : NodeId)
    (hq : Function.update h.par c (some p) x = some q) : h.IsRouter q ∧ q ≠ x := by
  by_cases hx : x = c
  · subst hx
    obtain rfl : p = q := by simpa using hq
    exact ⟨hp, hcp.symm⟩
  · have hq' : h.par x = some q := by simpa [hx] using hq
    exact ⟨W.par_router x q hq', fun he => W.par_ne x (he ▸ hq')⟩

end Wf

/-! ## Moving a node -/

/-- The child lists after router `c` moved below `p`. -/
def movedKids (h : Heap) (p c : NodeId) (x : NodeId) : List NodeId :=
  if x = p ∧ h.IsRouter c then c :: (h.kids x).erase c else (h.kids x).erase c

/-- The leaf lists after leaf `c` moved below `p`. -/
def movedLvs (h : Heap) (p c : NodeId) (x : NodeId) : List NodeId :=
  if x = p ∧ h.IsLeaf c then c :: (h.lvs x).erase c else (h.lvs x).erase c

theorem mem_movedKids {h : Heap} (W : h.Wf) {p c x y : NodeId} :
    y ∈ h.movedKids p c x ↔
      (x = p ∧ y = c ∧ h.IsRouter c) ∨ (y ≠ c ∧ y ∈ h.kids x) := by
  unfold movedKids
  split
  · rename_i hx
    rw [List.mem_cons, (W.kids_nodup x).mem_erase_iff]
    tauto
  · rename_i hx
    rw [(W.kids_nodup x).mem_erase_iff]
    tauto

theorem mem_movedLvs {h : Heap} (W : h.Wf) {p c x y : NodeId} :
    y ∈ h.movedLvs p c x ↔
      (x = p ∧ y = c ∧ h.IsLeaf c) ∨ (y ≠ c ∧ y ∈ h.lvs x) := by
  unfold movedLvs
  split
  · rename_i hx
    rw [List.mem_cons, (W.lvs_nodup x).mem_erase_iff]
    tauto
  · rename_i hx
    rw [(W.lvs_nodup x).mem_erase_iff]
    tauto

/-- The heap `h'` differs from `h` in its edges only, which `par'`, `kids'` and `lvs'`
give, and its counters fit the new lists. -/
structure Relinked (h h' : Heap) (par' : NodeId → Option NodeId)
    (kids' lvs' : NodeId → List NodeId) : Prop where
  par_eq : h'.par = par'
  kids_eq : h'.kids = kids'
  lvs_eq : h'.lvs = lvs'
  tag_eq : h'.tag = h.tag
  next_eq : h'.next = h.next
  counted : h'.Counted
  freeAt : ∀ x, h.FreeAt x → h'.FreeAt x

theorem Relinked.trans {h h' h'' : Heap} {par' par'' : NodeId → Option NodeId}
    {kids' lvs' kids'' lvs'' : NodeId → List NodeId} (H : Relinked h h' par' kids' lvs')
    (H' : Relinked h' h'' par'' kids'' lvs'') : Relinked h h'' par'' kids'' lvs'' where
  par_eq := H'.par_eq
  kids_eq := H'.kids_eq
  lvs_eq := H'.lvs_eq
  tag_eq := H'.tag_eq.trans H.tag_eq
  next_eq := H'.next_eq.trans H.next_eq
  counted := H'.counted
  freeAt := fun x hf => H'.freeAt x (H.freeAt x hf)

theorem Relinked.allFree {h h' : Heap} {par' : NodeId → Option NodeId}
    {kids' lvs' : NodeId → List NodeId} (H : Relinked h h' par' kids' lvs')
    (A : h.AllFree) : h'.AllFree := fun x => H.freeAt x (A x)

/-- Rearranged edges form a well-formed heap if the new lists and parents fit. -/
theorem Relinked.wf {h h' : Heap} {par' : NodeId → Option NodeId}
    {kids' lvs' : NodeId → List NodeId} (R : Relinked h h' par' kids' lvs') (W : h.Wf)
    (hk : ∀ x, (kids' x).Nodup) (hl : ∀ x, (lvs' x).Nodup)
    (mk : ∀ x c, c ∈ kids' x ↔ h.IsRouter c ∧ par' c = some x)
    (ml : ∀ x c, c ∈ lvs' x ↔ h.IsLeaf c ∧ par' c = some x)
    (pr : ∀ x p, par' x = some p → h.IsRouter p ∧ p ≠ x) : h'.Wf := by
  have hR : ∀ x, h'.IsRouter x ↔ h.IsRouter x := fun x => isRouter_congr (by rw [R.tag_eq])
  have hL : ∀ x, h'.IsLeaf x ↔ h.IsLeaf x := fun x => isLeaf_congr (by rw [R.tag_eq])
  refine ⟨?_, ?_, ?_, ?_, ?_, ?_, R.counted, ?_⟩
  · rw [R.kids_eq]; exact hk
  · rw [R.lvs_eq]; exact hl
  · intro x c
    rw [R.kids_eq, R.par_eq, hR]
    exact mk x c
  · intro x c
    rw [R.lvs_eq, R.par_eq, hL]
    exact ml x c
  · intro x p hp
    rw [R.par_eq] at hp
    exact (hR p).mpr (pr x p hp).1
  · intro x hx
    rw [R.par_eq] at hx
    exact (pr x x hx).2 rfl
  · intro x hx
    by_contra hne
    rw [← ne_eq, node_ne_none_iff, R.tag_eq, ← node_ne_none_iff] at hne
    exact hne (W.fresh x (R.next_eq ▸ hx))

/-- What a heap looks like after `c`, with its subtree, moved below `p`. -/
abbrev Moved (h h' : Heap) (p c : NodeId) : Prop :=
  Relinked h h' (Function.update h.par c (some p)) (h.movedKids p c) (h.movedLvs p c)

/-- Moving a node keeps the heap well-formed, wherever it is moved. -/
theorem Moved.wf {h h' : Heap} {p c : NodeId} (M : Moved h h' p c) (W : h.Wf)
    (hp : h.IsRouter p) (hcp : c ≠ p) : h'.Wf := by
  refine Relinked.wf M W ?_ ?_ ?_ ?_ ?_
  · intro x
    rw [movedKids]
    split
    · exact List.nodup_cons.mpr ⟨(W.kids_nodup x).not_mem_erase, (W.kids_nodup x).erase c⟩
    · exact (W.kids_nodup x).erase c
  · intro x
    rw [movedLvs]
    split
    · exact List.nodup_cons.mpr ⟨(W.lvs_nodup x).not_mem_erase, (W.lvs_nodup x).erase c⟩
    · exact (W.lvs_nodup x).erase c
  · intro x y
    rw [mem_movedKids W, W.mem_kids]
    by_cases hy : y = c
    · subst hy; simp [eq_comm, and_comm]
    · simp [hy]
  · intro x y
    rw [mem_movedLvs W, W.mem_lvs]
    by_cases hy : y = c
    · subst hy; simp [eq_comm, and_comm]
    · simp [hy]
  · exact W.par_update_some hp hcp

end Heap

/-! ## `adopt` -/

theorem rmChild_of_mem {v : NodeId} {l : List NodeId} (hl : l.Nodup) (hv : v ∈ l) (n f : ℕ) :
    rmChild v l n f = (l.erase v, n - 1, f - 1) := by
  cases l with
  | nil => simp at hv
  | cons x tl =>
      obtain ⟨hx, -⟩ := List.nodup_cons.mp hl
      by_cases hvt : v ∈ tl
      · have hne : x ≠ v := by rintro rfl; exact hx hvt
        simp [rmChild, hvt, List.erase_cons_tail, hne]
      · obtain rfl : v = x := by simpa [hvt] using hv
        simp [rmChild, hvt]

theorem addChild_of_length {l : List NodeId} {n : ℕ} (hn : n = l.length) (c : NodeId) (f : ℕ) :
    addChild l c n f = (c :: l, n + 1, f + 1) := by
  cases l with
  | nil => simp [addChild]
  | cons x l => simp [addChild, hn]

namespace Heap

section Primitive

variable {h : Heap} {p c : NodeId} {nd : Node} {rp : Router}

theorem rmRouter_eq (hc : h.node c = some nd) (hp : h.node p = some (.router rp)) (hcp : c ≠ p) :
    h.rmRouter p c = some ((h.set c (nd.setParent none)).set p
      (.router (rp.setChild (rmChild c rp.child rp.nchild rp.fchild)))) := by
  have hr : (h.set c (nd.setParent none)).router p = some rp :=
    router_eq_some.mpr (by simp [hcp.symm, hp])
  simp [rmRouter, setParent, hc, hr]

theorem rmLeaf_eq (hc : h.node c = some nd) (hp : h.node p = some (.router rp)) (hcp : c ≠ p) :
    h.rmLeaf p c = some ((h.set c (nd.setParent none)).set p
      (.router (rp.setLeaf (rmChild c rp.leaf rp.nleaf rp.fleaf)))) := by
  have hr : (h.set c (nd.setParent none)).router p = some rp :=
    router_eq_some.mpr (by simp [hcp.symm, hp])
  simp [rmLeaf, setParent, hc, hr]

theorem addRouter_eq (hc : h.node c = some nd) (hp : h.node p = some (.router rp)) (hcp : c ≠ p) :
    h.addRouter p c = some ((h.set c (nd.setParent (some p))).set p
      (.router (rp.setChild (addChild rp.child c rp.nchild rp.fchild)))) := by
  have hr : (h.set c (nd.setParent (some p))).router p = some rp :=
    router_eq_some.mpr (by simp [hcp.symm, hp])
  simp [addRouter, setParent, hc, hr]

theorem addLeaf_eq (hc : h.node c = some nd) (hp : h.node p = some (.router rp)) (hcp : c ≠ p) :
    h.addLeaf p c = some ((h.set c (nd.setParent (some p))).set p
      (.router (rp.setLeaf (addChild rp.leaf c rp.nleaf rp.fleaf)))) := by
  have hr : (h.set c (nd.setParent (some p))).router p = some rp :=
    router_eq_some.mpr (by simp [hcp.symm, hp])
  simp [addLeaf, setParent, hc, hr]

end Primitive

/-- Rewriting the list triple of one router keeps all other counters. -/
theorem Counted.set {h : Heap} (C : h.Counted) {i : NodeId} {nd : Node}
    (hi : ∀ r, nd = .router r → r.Counted) : (h.set i nd).Counted := by
  intro x r hr
  rw [node_set] at hr
  by_cases hx : x = i
  · rw [if_pos hx] at hr
    exact hi r (Option.some.inj hr)
  · rw [if_neg hx] at hr
    exact C x r hr

theorem FreeAt.set {h : Heap} {x : NodeId} (A : h.FreeAt x) {i : NodeId} {nd : Node}
    (hi : x = i → ∀ r, nd = .router r → r.AllFree) : (h.set i nd).FreeAt x := by
  intro r hr
  rw [node_set] at hr
  by_cases hx : x = i
  · rw [if_pos hx] at hr
    exact hi hx r (Option.some.inj hr)
  · rw [if_neg hx] at hr
    exact A r hr

theorem AllFree.set {h : Heap} (A : h.AllFree) {i : NodeId} {nd : Node}
    (hi : ∀ r, nd = .router r → r.AllFree) : (h.set i nd).AllFree :=
  fun x => (A x).set fun _ => hi

/-- Changing a parent pointer keeps the counters. -/
theorem Counted.setParent {h : Heap} (C : h.Counted) {c : NodeId} {nd : Node} {p : Option NodeId}
    (hc : h.node c = some nd) : (h.set c (nd.setParent p)).Counted := by
  refine C.set fun r hr => ?_
  cases nd with
  | leaf l => simp at hr
  | router rc =>
      obtain rfl := Node.router.inj hr
      have := C c rc hc
      exact ⟨this.nchild_eq, this.nleaf_eq, this.fchild_le, this.fleaf_le⟩

theorem FreeAt.setParent {h : Heap} {x : NodeId} (A : h.FreeAt x) {c : NodeId} {nd : Node}
    {p : Option NodeId} (hc : h.node c = some nd) : (h.set c (nd.setParent p)).FreeAt x := by
  refine A.set fun hx r hr => ?_
  cases nd with
  | leaf l => simp at hr
  | router rc =>
      obtain rfl := Node.router.inj hr
      exact A rc (hx ▸ hc)

theorem kids_setParent (nd : Node) (p : Option NodeId) : (nd.setParent p).kids = nd.kids := by
  cases nd <;> rfl

theorem lvs_setParent (nd : Node) (p : Option NodeId) : (nd.setParent p).lvs = nd.lvs := by
  cases nd <;> rfl

theorem tag_setParent (nd : Node) (p : Option NodeId) : (nd.setParent p).tag = nd.tag := by
  cases nd <;> rfl

theorem parent_setParent (nd : Node) (p : Option NodeId) : (nd.setParent p).parent = p := by
  cases nd <;> rfl

section Spec

variable {h : Heap} {p c : NodeId}

/-- The views after the parent pointer of one node was written. -/
theorem relinked_setParent {nd : Node} {v : Option NodeId} (C : h.Counted)
    (hc : h.node c = some nd) :
    Relinked h (h.set c (nd.setParent v)) (Function.update h.par c v) h.kids h.lvs where
  par_eq := by rw [par_set, parent_setParent]
  kids_eq := by rw [kids_set, kids_setParent, ← kids_of_node hc, Function.update_eq_self]
  lvs_eq := by rw [lvs_set, lvs_setParent, ← lvs_of_node hc, Function.update_eq_self]
  tag_eq := by rw [tag_set, tag_setParent, ← tag_of_node hc, Function.update_eq_self]
  next_eq := rfl
  counted := C.setParent hc
  freeAt _ A := A.setParent hc

/-- The views after the lists of one router were written. -/
theorem relinked_setLists {rp : Router} (rp' : Router) (C : h.Counted)
    (hp : h.node p = some (.router rp)) (hparent : rp'.parent = rp.parent)
    (htag : (Node.router rp').tag = (Node.router rp).tag) (hC : rp'.Counted)
    (hA : rp.AllFree → rp'.AllFree) :
    Relinked h (h.set p (.router rp')) h.par (Function.update h.kids p rp'.child)
      (Function.update h.lvs p rp'.leaf) where
  par_eq := by
    rw [par_set, Node.parent_router, hparent, ← Node.parent_router rp, ← par_of_node hp,
      Function.update_eq_self]
  kids_eq := by rw [kids_set, Node.kids_router]
  lvs_eq := by rw [lvs_set, Node.lvs_router]
  tag_eq := by rw [tag_set, htag, ← tag_of_node hp, Function.update_eq_self]
  next_eq := rfl
  counted := C.set fun r hr => by
    obtain rfl := Node.router.inj hr
    exact hC
  freeAt x A := A.set fun hx r hr => by
    obtain rfl := Node.router.inj hr
    exact hA (A rp (hx ▸ hp))

/-- The views after a node's parent pointer and then the lists of its new or old parent
were written. -/
theorem relinked_set {nd : Node} {rp : Router} (rp' : Router) {v : Option NodeId}
    (C : h.Counted) (hc : h.node c = some nd) (hp : h.node p = some (.router rp)) (hcp : c ≠ p)
    (hparent : rp'.parent = rp.parent) (htag : (Node.router rp').tag = (Node.router rp).tag)
    (hC : rp'.Counted) (hA : rp.AllFree → rp'.AllFree) :
    Relinked h ((h.set c (nd.setParent v)).set p (.router rp')) (Function.update h.par c v)
      (Function.update h.kids p rp'.child) (Function.update h.lvs p rp'.leaf) := by
  have R₁ := relinked_setParent (v := v) C hc
  have hp₁ : (h.set c (nd.setParent v)).node p = some (.router rp) := by
    rw [node_set, if_neg hcp.symm, hp]
  have R₂ := R₁.trans (relinked_setLists rp' R₁.counted hp₁ hparent htag hC hA)
  rwa [R₁.par_eq, R₁.kids_eq, R₁.lvs_eq] at R₂

/-- `add_router` on a router that is in no list. -/
theorem addRouter_spec (C : h.Counted) (hc : h.IsRouter c) (hp : h.IsRouter p) (hcp : c ≠ p) :
    ∃ h', h.addRouter p c = some h' ∧
      Relinked h h' (Function.update h.par c (some p))
        (Function.update h.kids p (c :: h.kids p)) h.lvs := by
  obtain ⟨rc, hc⟩ := hc
  obtain ⟨rp, hp⟩ := hp
  have Cp := C p rp hp
  refine ⟨_, addRouter_eq hc hp hcp, ?_⟩
  rw [addChild_of_length Cp.nchild_eq]
  have key := relinked_set (rp.setChild (c :: rp.child, rp.nchild + 1, rp.fchild + 1))
    (v := some p) C hc hp hcp rfl rfl
    ⟨by simp [Router.setChild, Cp.nchild_eq], Cp.nleaf_eq,
      by simpa [Router.setChild] using Cp.fchild_le, Cp.fleaf_le⟩
    (fun A => ⟨by simpa [Router.setChild] using A.1, A.2⟩)
  have hl : Function.update h.lvs p rp.leaf = h.lvs := by
    rw [← Node.lvs_router rp, ← lvs_of_node hp, Function.update_eq_self]
  have hk : h.kids p = rp.child := kids_of_node hp
  rw [hk]
  simpa [Router.setChild, hl] using key

/-- `add_leaf` on a leaf that is in no list. -/
theorem addLeaf_spec (C : h.Counted) (hc : h.IsLeaf c) (hp : h.IsRouter p) (hcp : c ≠ p) :
    ∃ h', h.addLeaf p c = some h' ∧
      Relinked h h' (Function.update h.par c (some p)) h.kids
        (Function.update h.lvs p (c :: h.lvs p)) := by
  obtain ⟨rc, hc⟩ := hc
  obtain ⟨rp, hp⟩ := hp
  have Cp := C p rp hp
  refine ⟨_, addLeaf_eq hc hp hcp, ?_⟩
  rw [addChild_of_length Cp.nleaf_eq]
  have key := relinked_set (rp.setLeaf (c :: rp.leaf, rp.nleaf + 1, rp.fleaf + 1))
    (v := some p) C hc hp hcp rfl rfl
    ⟨Cp.nchild_eq, by simp [Router.setLeaf, Cp.nleaf_eq], Cp.fchild_le,
      by simpa [Router.setLeaf] using Cp.fleaf_le⟩
    (fun A => ⟨A.1, by simpa [Router.setLeaf] using A.2⟩)
  have hk : Function.update h.kids p rp.child = h.kids := by
    rw [← Node.kids_router rp, ← kids_of_node hp, Function.update_eq_self]
  have hl : h.lvs p = rp.leaf := lvs_of_node hp
  rw [hl]
  simpa [Router.setLeaf, hk] using key

/-- Erasing an element from the only list that holds it. -/
theorem erase_eq_update {f : NodeId → List NodeId} (hf : ∀ x, c ∈ f x → x = p) :
    (fun x => (f x).erase c) = Function.update f p ((f p).erase c) := by
  funext x
  by_cases hx : x = p
  · subst hx; simp
  · rw [Function.update_of_ne hx, List.erase_of_not_mem (fun hc => hx (hf x hc))]

/-- `rm_router` on a child of `p`. -/
theorem rmRouter_spec (W : h.Wf) (hc : h.IsRouter c) (hp : h.par c = some p) :
    ∃ h', h.rmRouter p c = some h' ∧
      Relinked h h' (Function.update h.par c none) (fun x => (h.kids x).erase c) h.lvs := by
  have hcp : c ≠ p := by rintro rfl; exact W.par_ne c hp
  have hmem : c ∈ h.kids p := (W.mem_kids p c).mpr ⟨hc, hp⟩
  have hf : ∀ x, c ∈ h.kids x → x = p := fun x hx =>
    (Option.some.inj (hp.symm.trans (W.kids_parent hx))).symm
  obtain ⟨rc, hc⟩ := hc
  obtain ⟨rp, hrp⟩ := W.par_router c p hp
  have Cp := W.counted p rp hrp
  have hk : h.kids p = rp.child := kids_of_node hrp
  have hnd := W.kids_nodup p
  rw [hk] at hmem hnd
  have hpos := List.length_pos_of_mem hmem
  have hlen := List.length_erase_of_mem hmem
  have hn := Cp.nchild_eq
  have hfn := Cp.fchild_le
  refine ⟨_, rmRouter_eq hc hrp hcp, ?_⟩
  rw [rmChild_of_mem hnd hmem]
  have key := relinked_set (rp.setChild (rp.child.erase c, rp.nchild - 1, rp.fchild - 1))
    (v := none) W.counted hc hrp hcp rfl rfl
    ⟨by simp only [Router.setChild]; omega, Cp.nleaf_eq,
      by simp only [Router.setChild]; omega, Cp.fleaf_le⟩
    (fun A => ⟨by have := A.1; simp only [Router.setChild]; omega, A.2⟩)
  have hl : Function.update h.lvs p rp.leaf = h.lvs := by
    rw [← Node.lvs_router rp, ← lvs_of_node hrp, Function.update_eq_self]
  rw [erase_eq_update hf, hk]
  simpa [Router.setChild, hl] using key

/-- `rm_leaf` on a leaf of `p`. -/
theorem rmLeaf_spec (W : h.Wf) (hc : h.IsLeaf c) (hp : h.par c = some p) :
    ∃ h', h.rmLeaf p c = some h' ∧
      Relinked h h' (Function.update h.par c none) h.kids (fun x => (h.lvs x).erase c) := by
  have hcp : c ≠ p := by rintro rfl; exact W.par_ne c hp
  have hmem : c ∈ h.lvs p := (W.mem_lvs p c).mpr ⟨hc, hp⟩
  have hf : ∀ x, c ∈ h.lvs x → x = p := fun x hx =>
    (Option.some.inj (hp.symm.trans (W.lvs_parent hx))).symm
  obtain ⟨rc, hc⟩ := hc
  obtain ⟨rp, hrp⟩ := W.par_router c p hp
  have Cp := W.counted p rp hrp
  have hk : h.lvs p = rp.leaf := lvs_of_node hrp
  have hnd := W.lvs_nodup p
  rw [hk] at hmem hnd
  have hpos := List.length_pos_of_mem hmem
  have hlen := List.length_erase_of_mem hmem
  have hn := Cp.nleaf_eq
  have hfn := Cp.fleaf_le
  refine ⟨_, rmLeaf_eq hc hrp hcp, ?_⟩
  rw [rmChild_of_mem hnd hmem]
  have key := relinked_set (rp.setLeaf (rp.leaf.erase c, rp.nleaf - 1, rp.fleaf - 1))
    (v := none) W.counted hc hrp hcp rfl rfl
    ⟨Cp.nchild_eq, by simp only [Router.setLeaf]; omega, Cp.fchild_le,
      by simp only [Router.setLeaf]; omega⟩
    (fun A => ⟨A.1, by have := A.2; simp only [Router.setLeaf]; omega⟩)
  have hl : Function.update h.kids p rp.child = h.kids := by
    rw [← Node.kids_router rp, ← kids_of_node hrp, Function.update_eq_self]
  rw [erase_eq_update hf, hk]
  simpa [Router.setLeaf, hl] using key

/-- `adopt` on a node with a parent moves it below `p`. -/
theorem adopt_spec (W : h.Wf) {q : NodeId} (hq : h.par c = some q) (hp : h.IsRouter p)
    (hcp : c ≠ p) : ∃ h', h.adopt p (some c) = some (h', 0) ∧ Moved h h' p c := by
  obtain ⟨nd, hc⟩ := node_of_par hq
  have hpar : nd.parent = some q := by rw [← hq, par_of_node hc]
  cases nd with
  | router rc =>
      have hR : h.IsRouter c := ⟨rc, hc⟩
      have hL : ¬ h.IsLeaf c := fun hl => hl.not_isRouter hR
      obtain ⟨h1, e1, R1⟩ := rmRouter_spec W hR hq
      have hR1 : ∀ x, h1.IsRouter x ↔ h.IsRouter x := fun x => isRouter_congr (by rw [R1.tag_eq])
      obtain ⟨h2, e2, R2⟩ := addRouter_spec R1.counted ((hR1 c).mpr hR) ((hR1 p).mpr hp) hcp
      refine ⟨h2, ?_, ?_⟩
      · rw [Node.parent_router] at hpar
        simp [adopt, hc, hpar, e1, e2]
      · have hk : Function.update h1.kids p (c :: h1.kids p) = h.movedKids p c := by
          funext x
          by_cases hx : x = p
          · subst hx; simp [movedKids, hR, R1.kids_eq]
          · simp [movedKids, hx, R1.kids_eq]
        have hl : h1.lvs = h.movedLvs p c := by
          funext x
          have : c ∉ h.lvs x := fun hx => hL ((W.mem_lvs x c).mp hx).1
          simp [movedLvs, hL, R1.lvs_eq, List.erase_of_not_mem this]
        have := R1.trans R2
        rwa [R1.par_eq, Function.update_idem, hk, hl] at this
  | leaf lc =>
      have hL : h.IsLeaf c := ⟨lc, hc⟩
      have hR : ¬ h.IsRouter c := hL.not_isRouter
      obtain ⟨h1, e1, R1⟩ := rmLeaf_spec W hL hq
      have hR1 : h1.IsRouter p := (isRouter_congr (by rw [R1.tag_eq])).mpr hp
      have hL1 : h1.IsLeaf c := (isLeaf_congr (by rw [R1.tag_eq])).mpr hL
      obtain ⟨h2, e2, R2⟩ := addLeaf_spec R1.counted hL1 hR1 hcp
      refine ⟨h2, ?_, ?_⟩
      · rw [Node.parent_leaf] at hpar
        simp [adopt, hc, hpar, e1, e2]
      · have hl : Function.update h1.lvs p (c :: h1.lvs p) = h.movedLvs p c := by
          funext x
          by_cases hx : x = p
          · subst hx; simp [movedLvs, hL, R1.lvs_eq]
          · simp [movedLvs, hx, R1.lvs_eq]
        have hk : h1.kids = h.movedKids p c := by
          funext x
          have : c ∉ h.kids x := fun hx => hR ((W.mem_kids x c).mp hx).1
          simp [movedKids, hR, R1.kids_eq, List.erase_of_not_mem this]
        have := R1.trans R2
        rwa [R1.par_eq, Function.update_idem, hk, hl] at this

end Spec

end Heap

end MEADcast
