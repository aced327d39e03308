import MEADcast.Sender.Node

/-!
# Child lists (`list.c`)

Each router owns two lists, of child routers and of leaves, each with a length and a
counter of free elements.  `addChild`, `addChilds` and `rmChild` work on one such
triple; the functions named after `add_router`, `rm_leaf` and so on apply them to the
fields of a router on the heap.
-/

namespace MEADcast

/-- `get_child`: the cell of `l` that holds `n`. -/
def getChild (n : NodeId) (l : List NodeId) : Option NodeId := l.find? (· = n)

/-- The successor of the cell that holds `v`: `i->n` for the cell `i` with `i->v = v`. -/
def cellNext : List NodeId → NodeId → Option NodeId
  | [], _ => none
  | x :: l, v => if x = v then l.head? else cellNext l v

/-- `add_child`, without its `set_parent`: prepend a cell. -/
def addChild (l : List NodeId) (c : NodeId) (n f : ℕ) : List NodeId × ℕ × ℕ :=
  (c :: (if n ≠ 0 then l else []), n + 1, f + 1)

/-- `add_childs`, without its `set_parent`s: prepend a whole list. -/
def addChilds (l : List NodeId) (c : List NodeId) (n f : ℕ) : List NodeId × ℕ × ℕ :=
  if c = [] then (l, n, f)
  else (c ++ (if n ≠ 0 then l else []), n + c.length, f + c.length)

/-- `rm_child`: the cells behind the head are searched first, then the head.  Nothing
changes when no cell holds `v`. -/
def rmChild (v : NodeId) (l : List NodeId) (n f : ℕ) : List NodeId × ℕ × ℕ :=
  match l with
  | [] => (l, n, f)
  | x :: tl =>
    if v ∈ tl then (x :: tl.erase v, n - 1, f - 1)
    else if x = v then (tl, n - 1, f - 1)
    else (l, n, f)

/-- `get_free`: the list from its first free cell on, `[]` being `NULL`. -/
def getFree (l : List NodeId) (n f : ℕ) : List NodeId :=
  if f = 0 ∨ n < f then [] else l.drop (n - f)

namespace Router

/-- `get_free_leaf`. -/
def getFreeLeaf (r : Router) : List NodeId := getFree r.leaf r.nleaf r.fleaf

/-- `get_free_router`. -/
def getFreeRouter (r : Router) : List NodeId := getFree r.child r.nchild r.fchild

/-- Replace the child list and its two counters. -/
def setChild (r : Router) (t : List NodeId × ℕ × ℕ) : Router :=
  { r with child := t.1, nchild := t.2.1, fchild := t.2.2 }

/-- Replace the leaf list and its two counters. -/
def setLeaf (r : Router) (t : List NodeId × ℕ × ℕ) : Router :=
  { r with leaf := t.1, nleaf := t.2.1, fleaf := t.2.2 }

end Router

namespace Heap

/-- `set_parent` on the node a cell holds. -/
def setParent (h : Heap) (c : NodeId) (p : Option NodeId) : Option Heap := do
  let nd ← h.node c
  some (h.set c (nd.setParent p))

/-- The `set_parent` calls of `add_childs`. -/
def setParents (h : Heap) (cs : List NodeId) (p : NodeId) : Option Heap :=
  cs.foldlM (fun h c => h.setParent c (some p)) h

/-- `add_router`. -/
def addRouter (h : Heap) (p c : NodeId) : Option Heap := do
  let h ← h.setParent c (some p)
  let r ← h.router p
  some (h.set p (.router (r.setChild (addChild r.child c r.nchild r.fchild))))

/-- `add_leaf`. -/
def addLeaf (h : Heap) (p c : NodeId) : Option Heap := do
  let h ← h.setParent c (some p)
  let r ← h.router p
  some (h.set p (.router (r.setLeaf (addChild r.leaf c r.nleaf r.fleaf))))

/-- `rm_router`: clear the parent of `c`, then unlink its cell. -/
def rmRouter (h : Heap) (p c : NodeId) : Option Heap := do
  let h ← h.setParent c none
  let r ← h.router p
  some (h.set p (.router (r.setChild (rmChild c r.child r.nchild r.fchild))))

/-- `rm_leaf`: clear the parent of `c`, then unlink its cell. -/
def rmLeaf (h : Heap) (p c : NodeId) : Option Heap := do
  let h ← h.setParent c none
  let r ← h.router p
  some (h.set p (.router (r.setLeaf (rmChild c r.leaf r.nleaf r.fleaf))))

end Heap

end MEADcast
