import MEADcast.Lib.ParentMap

/-!
# Topologies and the meaning of a discovery response

What `update_topo` does to the tree can be said without pointers, cells and counters, over
any type of node names: find the place of the responding router on the path of the
receiver, put the router there if it is nowhere yet, and move the node above which it
belongs below it.  The heap refines this with node identifiers as names, and, through
the hash table, with addresses as names.

## Main definitions

* `Topo` — parents, hop counts, child lists and leaf lists of named nodes.
* `Topo.place` — the effect of an accepted response once its place is found.
* `Topo.Rsp` — an accepted response.
* `Topo.Listed` — child and leaf lists agree with the parents.
* `Topo.Alike` — equality up to the order of the leaves of one node.
-/

namespace MEADcast

open ParentMap

/-- A topology: nodes that are not part of the tree have no parent, no neighbours and hop
count `0`. -/
@[ext] structure Topo (ι : Type*) where
  par : ι → Option ι
  hops : ι → ℕ
  kids : ι → List ι
  lvs : ι → List ι

namespace Topo

variable {ι : Type*} [DecidableEq ι]

/-- Router `r` with hop count `b` is put below `p`, unless it has a parent already, and
`n`, a child of `p`, is moved below `r`.  The receiver `l` tells whether `n` is a leaf. -/
def place (T : Topo ι) (l : ι) (b : ℕ) (r n p : ι) : Topo ι where
  par := placed T.par r n p
  hops := Function.update T.hops r b
  kids x := (if x = r ∧ n ≠ l then [n] else []) ++
    ((if x = p ∧ T.par r = none then [r] else []) ++ T.kids x).erase n
  lvs x := (if x = r ∧ n = l then [n] else []) ++ (T.lvs x).erase n

/-- The response of router `r` for receiver `l` with hop count `b` is accepted and turns
`T` into `T'`. -/
def Rsp (T : Topo ι) (r l : ι) (b : ℕ) (T' : Topo ι) : Prop :=
  ∃ n p, Climb T.par (Function.update T.hops r b) b l n p ∧ T' = T.place l b r n p

/-- A response has at most one result. -/
theorem Rsp.det {T T₁ T₂ : Topo ι} {r l : ι} {b : ℕ} (h₁ : T.Rsp r l b T₁)
    (h₂ : T.Rsp r l b T₂) : T₁ = T₂ := by
  obtain ⟨n, p, c, rfl⟩ := h₁
  obtain ⟨n', p', c', rfl⟩ := h₂
  obtain ⟨rfl, rfl⟩ := c.det c'
  rfl

/-- The children and leaves of a node are the nodes with that parent, each listed once. -/
structure Listed (T : Topo ι) (leaf : ι → Prop) : Prop where
  kids_nodup : ∀ x, (T.kids x).Nodup
  lvs_nodup : ∀ x, (T.lvs x).Nodup
  mem_kids : ∀ x c, c ∈ T.kids x ↔ ¬ leaf c ∧ T.par c = some x
  mem_lvs : ∀ x c, c ∈ T.lvs x ↔ leaf c ∧ T.par c = some x

/-- The two topologies differ in the order of the leaves of `root` only. -/
structure Alike (T T' : Topo ι) (root : ι) : Prop where
  par_eq : T.par = T'.par
  hops_eq : T.hops = T'.hops
  kids_eq : T.kids = T'.kids
  lvs_eq : ∀ x, x ≠ root → T.lvs x = T'.lvs x
  lvs_perm : (T.lvs root).Perm (T'.lvs root)

/-- The same response keeps two topologies alike. -/
theorem Alike.rsp {T T' T₁ T₁' : Topo ι} {root r l : ι} {b : ℕ} (h : T.Alike T' root)
    (h₁ : T.Rsp r l b T₁) (h₁' : T'.Rsp r l b T₁') : T₁.Alike T₁' root := by
  obtain ⟨n, p, c, rfl⟩ := h₁
  obtain ⟨n', p', c', rfl⟩ := h₁'
  rw [← h.par_eq, ← h.hops_eq] at c'
  obtain ⟨rfl, rfl⟩ := c.det c'
  constructor
  · simp only [place, h.par_eq]
  · simp only [place, h.hops_eq]
  · simp only [place, h.kids_eq, h.par_eq]
  · intro x hx
    simp only [place, h.lvs_eq x hx]
  · exact (h.lvs_perm.erase n).append_left _

end Topo

end MEADcast
