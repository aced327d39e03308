import MEADcast.Sender.Tree

/-!
# Group membership (`group.c`)

Creation of the root, joining receivers, and the group that is published before the
first discovery phase.  `init_group` is the only function that creates the hash table,
so that its null check is the one on the root.
-/

namespace MEADcast

namespace Sender

/-- `_join`: the entry for a new member, or `none` if the address is already present. -/
def entryForJoin (s : Sender) (sa : In6Addr) : Option Judy :=
  match s.ht.ins sa with
  | (_, some _) => none
  | (ht, none) => some ht

/-- `init_group`. -/
def initGroup (s : Sender) (addr : In6Addr) : Option (Sender × Int) :=
  match s.root with
  | some _ => some (s, -1)
  | none =>
    match s.entryForJoin addr with
    | none => some (s, -1)
    | some ht => do
      let (h, root) ← s.heap.createRouter addr none
      some ({ s with heap := h, ht := ht.put addr (some root), root := some root }, 0)

/-- `join`: a new leaf below the root, prepended to the list of receivers. -/
def join (s : Sender) (addr : In6Addr) (port : BitVec 16) : Option (Sender × Int) :=
  match s.root with
  | none => some (s, -1)
  | some root =>
    match s.entryForJoin addr with
    | none => some (s, -1)
    | some ht => do
      let (h, l) ← s.heap.createLeaf { sin6_addr := addr, port := port } root
      some ({ s with
        heap := h
        ht := ht.put addr (some l)
        rcvr := l :: s.rcvr
        nrcvr := s.nrcvr + 1 }, 0)

/-- `init_txg`: every receiver is served by unicast. -/
def initTxg (s : Sender) : Option (Sender × Int) :=
  match s.rcvr with
  | [] => some (s, -1)
  | _ :: _ => do
    let uni ← s.rcvr.mapM fun l => do some (← s.heap.leaf l).addr
    some ({ s with txg := some { mdc := [], nuni := s.nrcvr, uni := uni } }, 0)

end Sender

end MEADcast
