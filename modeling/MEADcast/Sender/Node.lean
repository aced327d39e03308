import MEADcast.Header

/-!
# Nodes, heap and sender state

The sender keeps routers and receivers as heap nodes that point at each other.  A
pointer is a node identifier, `none` is `NULL`, and reading through a dangling or null
pointer is a failed run: every function that follows a pointer returns an `Option`.
A singly linked list of `struct child` cells is the list of the nodes its cells hold.

## Main definitions

* `Router`, `Leaf`, `Node` — the two kinds of tree nodes.
* `Heap` — live nodes and the next identifier `malloc` hands out.
* `Judy` — the hash table from addresses to node pointers.
* `Sender` — the global state of the discovery thread.
-/

namespace MEADcast

/-- A heap address.  Identifiers are never reused, so a freed one stays invalid. -/
abbrev NodeId := ℕ

/-- `struct router`, with its `struct node` part inlined. -/
structure Router where
  parent : Option NodeId
  sa : In6Addr
  hops : ℕ
  child : List NodeId
  leaf : List NodeId
  nchild : ℕ
  fchild : ℕ
  nleaf : ℕ
  fleaf : ℕ
  deriving DecidableEq, Repr

/-- `struct leaf`: a parent pointer and the receiver's address and port. -/
structure Leaf where
  parent : Option NodeId
  addr : Addr
  deriving DecidableEq, Repr

/-- `struct node` together with the record that its `type` field selects. -/
inductive Node where
  | leaf (l : Leaf)
  | router (r : Router)
  deriving DecidableEq, Repr

namespace Node

/-- `n->parent`. -/
def parent : Node → Option NodeId
  | leaf l => l.parent
  | router r => r.parent

/-- `n->parent = p`. -/
def setParent (p : Option NodeId) : Node → Node
  | leaf l => leaf { l with parent := p }
  | router r => router { r with parent := p }

/-- The IPv6 address a node carries. -/
def sa : Node → In6Addr
  | leaf l => l.addr.sin6_addr
  | router r => r.sa

end Node

/-- The heap: live nodes, and the identifier the next allocation returns. -/
structure Heap where
  node : NodeId → Option Node
  next : NodeId

namespace Heap

/-- Overwrite one node. -/
def set (h : Heap) (i : NodeId) (nd : Node) : Heap :=
  { h with node := fun j => if j = i then some nd else h.node j }

/-- `free`: the node is no longer live. -/
def free (h : Heap) (i : NodeId) : Heap :=
  { h with node := fun j => if j = i then none else h.node j }

/-- `malloc` followed by the initialisation of the node. -/
def alloc (h : Heap) (nd : Node) : Heap × NodeId :=
  ({ node := fun j => if j = h.next then some nd else h.node j, next := h.next + 1 }, h.next)

/-- `get_router`: read a live router. -/
def router (h : Heap) (i : NodeId) : Option Router :=
  match h.node i with
  | some (.router r) => some r
  | _ => none

/-- `get_leaf`: read a live leaf. -/
def leaf (h : Heap) (i : NodeId) : Option Leaf :=
  match h.node i with
  | some (.leaf l) => some l
  | _ => none

end Heap

/-- The Judy array: an entry holds a word, `none` being the word `0`. -/
abbrev Judy := In6Addr → Option (Option NodeId)

namespace Judy

/-- `JHSI`: find or create the entry of `key`; a new entry holds `0`. -/
def ins (ht : Judy) (key : In6Addr) : Judy × Option NodeId :=
  match ht key with
  | some pv => (ht, pv)
  | none => (fun a => if a = key then some none else ht a, none)

/-- Write the word of an entry through the pointer `JHSI` returned. -/
def put (ht : Judy) (key : In6Addr) (v : Option NodeId) : Judy :=
  fun a => if a = key then some v else ht a

/-- `JHSD`: delete the entry of `key`. -/
def del (ht : Judy) (key : In6Addr) : Judy :=
  fun a => if a = key then none else ht a

end Judy

/-- `struct tx_group`: MEADcast headers and the receivers that are served by unicast. -/
structure TxGroup where
  mdc : List MdcHdr
  nuni : ℕ
  uni : List Addr
  deriving DecidableEq, Repr

/-- The static merging variables of `tree.c`. -/
structure Merging where
  cr : Option NodeId
  pcr : Option NodeId
  icr : ℕ
  init_hops : ℤ
  deriving DecidableEq, Repr

/-- Everything the discovery thread owns: the heap, the hash table, the root, the list
of receivers (most recent first), the published group and the merging variables. -/
structure Sender where
  heap : Heap
  ht : Judy
  root : Option NodeId
  rcvr : List NodeId
  nrcvr : ℕ
  txg : Option TxGroup
  mg : Merging

/-- The state of the process before `main` runs. -/
def Sender.initial : Sender where
  heap := { node := fun _ => none, next := 0 }
  ht := fun _ => none
  root := none
  rcvr := []
  nrcvr := 0
  txg := none
  mg := { cr := none, pcr := none, icr := 0, init_hops := 0 }

/-- The grouping parameters, as `parse_opt` lets them through: each field that
`_parse_int` checks carries its bound.  `ok_addrs` is unconstrained since its default,
four fifths of `max_addrs`, may be below the bound that the option checks. -/
structure Args where
  max_addrs : ℕ
  ok_addrs : ℕ
  min_leafs : ℕ
  min_routers : ℕ
  split_nodes : Bool
  merge_range : ℕ
  two_le_max_addrs : 2 ≤ max_addrs
  one_le_min_leafs : 1 ≤ min_leafs
  one_le_min_routers : 1 ≤ min_routers

/-- The defaults of `argp.c`. -/
def Args.default : Args where
  max_addrs := 10
  ok_addrs := 8
  min_leafs := 2
  min_routers := 1
  split_nodes := false
  merge_range := 0
  two_le_max_addrs := by decide
  one_le_min_leafs := by decide
  one_le_min_routers := by decide

end MEADcast
