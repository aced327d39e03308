import MEADcast.Sender.List

/-!
# Tree modification (`tree.c`, first half)

Creation, removal and movement of nodes, and the search for the position of a router
on the path of a receiver.  A function that loops takes the number of iterations it may
use; running out of them is a failed run, so that a result is always one the source
computes.
-/

namespace MEADcast

namespace Heap

/-- `create_leaf` for a non-null parent. -/
def createLeaf (h : Heap) (addr : Addr) (p : NodeId) : Option (Heap × NodeId) := do
  let (h, l) := h.alloc (.leaf { parent := some p, addr := addr })
  let h ← h.addLeaf p l
  some (h, l)

/-- `create_router`: without a parent the new router is a root. -/
def createRouter (h : Heap) (sa : In6Addr) (p : Option NodeId) : Option (Heap × NodeId) := do
  let (h, r) := h.alloc (.router
    { parent := none, sa := sa, hops := 0, child := [], leaf := [],
      nchild := 0, fchild := 0, nleaf := 0, fleaf := 0 })
  match p with
  | none => some (h, r)
  | some p => do
    let h ← h.addRouter p r
    some (h, r)

/-- `free_router`: unlink `r`, delete its hash table entry, free it, and hand its two
lists to the caller. -/
def freeRouter (h : Heap) (ht : Judy) (r : NodeId) :
    Option (Heap × Judy × List NodeId × List NodeId) := do
  let p ← (← h.router r).parent
  let h ← h.rmRouter p r
  let rt ← h.router r
  some (h.free r, ht.del rt.sa, rt.child, rt.leaf)

/-- `cut_router`: free `r` and splice its children and leaves into its parent. -/
def cutRouter (h : Heap) (ht : Judy) (r : NodeId) : Option (Heap × Judy) := do
  let p ← (← h.router r).parent
  let (h, ht, childs, leafs) ← h.freeRouter ht r
  let h ← h.setParents childs p
  let pr ← h.router p
  let h := h.set p (.router (pr.setChild (addChilds pr.child childs pr.nchild pr.fchild)))
  let h ← h.setParents leafs p
  let pr ← h.router p
  let h := h.set p (.router (pr.setLeaf (addChilds pr.leaf leafs pr.nleaf pr.fleaf)))
  some (h, ht)

/-- `adopt`: move the node of cell `c` with its whole subtree below `p`.  The second
component is the return value; `-1` leaves the tree alone. -/
def adopt (h : Heap) (p : NodeId) (c : Option NodeId) : Option (Heap × Int) :=
  match c with
  | none => some (h, -1)
  | some c => do
    let n ← h.node c
    match n.parent, n with
    | none, _ => some (h, -1)
    | some r, .router _ => do
      let h ← h.rmRouter r c
      let h ← h.addRouter p c
      some (h, 0)
    | some r, .leaf _ => do
      let h ← h.rmLeaf r c
      let h ← h.addLeaf p c
      some (h, 0)

/-- `insert`: create a router for `sa` below the parent of `c` and let it adopt `c`. -/
def insert (h : Heap) (sa : In6Addr) (c : Option NodeId) : Option (Heap × Option NodeId) :=
  match c with
  | none => some (h, none)
  | some c => do
    let n ← h.node c
    let (h, p) ← h.createRouter sa n.parent
    let (h, ret) ← h.adopt p (some c)
    some (h, if ret = 0 then some p else none)

/-- The `while (p)` loop of `get_path_pos`: the last node passed and the router the
search stops at. -/
def pathLoop (h : Heap) (hops : ℕ) : ℕ → NodeId → Option NodeId → Option (NodeId × Option NodeId)
  | 0, _, _ => none
  | _ + 1, n, none => some (n, none)
  | fuel + 1, n, some p => do
    let r ← h.router p
    if r.hops ≤ hops then some (n, some p)
    else pathLoop h hops fuel p r.parent

/-- `get_path_pos`: the cell above which a router with `hops` hops belongs on the path
of leaf `l`.  Dereferencing a null `p` fails the run; a null result is `some none`. -/
def getPathPos (fuel : ℕ) (h : Heap) (l : NodeId) (hops : ℕ) : Option (Option NodeId) := do
  let lf ← h.node l
  let (n, p) ← h.pathLoop hops fuel l lf.parent
  let p ← p
  let r ← h.router p
  let nd ← h.node n
  match nd with
  | .router _ => some (getChild n r.child)
  | .leaf _ => some (getChild n r.leaf)

end Heap

end MEADcast
