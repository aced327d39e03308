import MEADcast.Lib.ParentMap
import Mathlib.Data.List.Nodup

/-!
# Trees with ordered children

A tree is given by the parent and by the list of children of each node.  A walk that starts at the
end of the leftmost path, serves a node when it first comes to it and goes up when there is nothing
left below has no choice for most pairs of nodes: this module says which node it may serve first.

## Main definitions

* `Family` — the parents and the children agree.
* `Leftmost` — the nodes that are reached from a top node by first children.
* `Ahead` — a walk may serve the first node before the second one, which is not above it.
-/

namespace OrderedTree

open ParentMap

variable {ι : Type*}

/-- Below `root` the children of a node are different, and the node is their parent. -/
structure Family (kids : ι → List ι) (par : ι → Option ι) (root : ι) : Prop where
  root_par : par root = none
  nodup (x : ι) : (kids x).Nodup
  par_eq {x y : ι} (hx : x = root ∨ par x ≠ none) (hy : y ∈ kids x) : par y = some x

/-- First children lead to the node from a child of `root`. -/
inductive Leftmost (kids : ι → List ι) (root : ι) : ι → Prop
  | top {x : ι} (h : x ∈ kids root) : Leftmost kids root x
  | first {x y : ι} (hx : Leftmost kids root x) (h : (kids x).head? = some y) : Leftmost kids root y

/-- The node `a` stands in an earlier branch than `p`; or `p` is below `a`, but not behind a leftmost
path, which is walked from below. -/
inductive Ahead (kids : ι → List ι) (par : ι → Option ι) (root a p : ι) : Prop
  | branch (u x y : ι) (hxy : [x, y].Sublist (kids u)) (ha : Up par a x) (hp : Up par p y)
  | below (y : ι) (hy : par y = some a) (hp : Up par p y) (hno : ¬ Leftmost kids root y)

variable {kids : ι → List ι} {par : ι → Option ι} {root x y c : ι} {l : List ι}

/-- A leftmost node is the first child of a leftmost node. -/
theorem Leftmost.of_child (H : Family kids par root) (h : Leftmost kids root y)
    (hp : par x ≠ none) (hy : par y = some x) : Leftmost kids root x ∧ (kids x).head? = some y := by
  have hne : ∀ {z}, Leftmost kids root z → par z ≠ none := by
    intro z hz
    induction hz with
    | top h => simp [H.par_eq (Or.inl rfl) h]
    | first _ h ih => simp [H.par_eq (Or.inr ih) (List.mem_of_mem_head? h)]
  cases h with
  | top h =>
      obtain rfl := Option.some.inj (hy.symm.trans (H.par_eq (Or.inl rfl) h))
      exact absurd H.root_par hp
  | first hx h =>
      obtain rfl := Option.some.inj (hy.symm.trans (H.par_eq (Or.inr (hne hx))
        (List.mem_of_mem_head? h)))
      exact ⟨hx, h⟩

/-- A later child is not leftmost. -/
theorem Family.not_leftmost (H : Family kids par root) (hp : par x ≠ none)
    (hs : c :: l <:+ kids x) (hy : y ∈ l) : ¬ Leftmost kids root y := by
  intro h
  have hmem : y ∈ kids x := hs.subset (List.mem_cons_of_mem _ hy)
  obtain ⟨-, hhead⟩ := h.of_child H hp (H.par_eq (Or.inr hp) hmem)
  have hnd := H.nodup x
  obtain ⟨pre, he⟩ := hs
  rw [← he] at hhead hnd
  cases pre with
  | nil =>
      obtain rfl : c = y := by simpa using hhead
      exact (List.nodup_cons.mp hnd).1 hy
  | cons z pre =>
      obtain rfl : z = y := by simpa using hhead
      exact (List.nodup_cons.mp hnd).1 (by simp [hy])

theorem sublist_of_suffix (hs : c :: l <:+ kids x) (hy : y ∈ l) : [c, y].Sublist (kids x) :=
  (List.cons_sublist_cons.mpr (List.singleton_sublist.mpr hy)).trans hs.sublist

end OrderedTree
