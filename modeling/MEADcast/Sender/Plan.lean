import MEADcast.Sender.Node
import MEADcast.Segments
import MEADcast.Lib.Forest
import MEADcast.Lib.Loop

/-!
# What the grouping computes

`greedy_grouping` walks over the tree below the root and packs leaves into segments, each
led by one router, and segments into groups.  Stated on forests it needs no counters: the
free leaves and children of a router are what is still there.  The position in the forest
is a zipper, so that each step is local.

## Main definitions

* `Spot` — the router under consideration and all that is still free.
* `Pack` — the segments of the group being filled.
* `Plan.body` — one pass through the main loop.
-/

namespace MEADcast

/-- A router above the current one, with its free leaves and its free children after the
one that leads to the current router. -/
structure Frame (α β : Type*) where
  lab : α
  ls : List β
  sibs : Forest α β

/-- The current router, its free leaves and children, the routers above it, the innermost
first, and the trees behind it below the root. -/
structure Spot (α β : Type*) where
  lab : α
  ls : List β
  kids : Forest α β
  ctx : List (Frame α β)
  top : Forest α β

/-- The segment to which the leaves of further routers may be added: the router that may
lead it once another leaf is added, and the hop count of its first router. -/
structure Last (α β : Type*) where
  seg : Seg α β
  pcr : Option α
  init : ℕ

/-- The group being filled: the segments in order, the last one possibly open. -/
structure Pack (α β : Type*) where
  segs : List (Seg α β)
  last : Option (Last α β)

/-- The state of the main loop; the groups that are complete come last one first. -/
structure Plan (α β : Type*) where
  spot : Spot α β
  pack : Pack α β
  done : List (List (Seg α β))

variable {α β : Type*}

/-- The last segment after it got leaves of `a`: the nearest of its router, the waiting
router and `a` leads it, the waiting one before `a`. -/
def Last.extend (hops : α → ℕ) (l : Last α β) (a : α) (ls : List β) :
    Last α β :=
  match l.pcr.filter fun q => hops q < hops a ∧ hops q < hops l.seg.router with
  | some q => ⟨⟨q, l.seg.leaves ++ ls⟩, none, l.init⟩
  | none =>
    if hops a < hops l.seg.router then ⟨⟨a, l.seg.leaves ++ ls⟩, l.pcr, l.init⟩
    else ⟨⟨l.seg.router, l.seg.leaves ++ ls⟩, l.pcr, l.init⟩

namespace Pack

/-- The group without segments. -/
def empty : Pack α β := ⟨[], none⟩

/-- All segments in order. -/
def all (g : Pack α β) : List (Seg α β) := g.segs ++ (g.last.map Last.seg).toList

/-- The number of addresses. -/
def size (g : Pack α β) : ℕ := (g.all.map Seg.size).sum

/-- No more leaves are added to the last segment. -/
def close (g : Pack α β) : Pack α β := ⟨g.all, none⟩

/-- The last segment may get leaves of `a`. -/
def mergeable (args : Args) (hops : α → ℕ) (g : Pack α β) (a : α) : Bool :=
  match g.last with
  | none => false
  | some l => decide (((l.init : ℤ) - (hops a : ℤ)).natAbs ≤ args.merge_range ∧
      ((hops l.seg.router : ℤ) - (hops a : ℤ)).natAbs ≤ args.merge_range)

/-- Add leaves of `a`. -/
def add (args : Args) (hops : α → ℕ) (g : Pack α β) (a : α) (ls : List β) : Pack α β :=
  match g.last with
  | some l => ⟨g.segs, some (l.extend hops a ls)⟩
  | none =>
    if args.merge_range = 0 then ⟨g.segs ++ [⟨a, ls⟩], none⟩
    else ⟨g.segs, some ⟨⟨a, ls⟩, none, hops a⟩⟩

/-- If `a`, the parent of the router left behind, can take part in the last segment, it may
lead it from the next leaf on. -/
def offer (args : Args) (hops : α → ℕ) (g : Pack α β) (a : α) : Pack α β :=
  if g.mergeable args hops a then ⟨g.segs, g.last.map fun l => { l with pcr := some a }⟩ else g

end Pack

/-- The size limit of a group. -/
def Args.limit (args : Args) : ℕ :=
  if args.max_addrs < bitmapLimit then args.max_addrs else bitmapLimit

namespace Spot

/-- The router at the end of the chain of first free children that starts at `a`, whose
free children are given first. -/
def deepest : Forest α β → α → List β → List (Frame α β) → Forest α β → Spot α β
  | .nil, a, ls, ctx, top => ⟨a, ls, .nil, ctx, top⟩
  | .node b ms L rest, a, ls, ctx, top => deepest L b ms (⟨a, ls, rest⟩ :: ctx) top

/-- Where the grouping starts again once the current router and everything below it is
done: below the next sibling, else at the parent if it has free leaves, else further up. -/
def resume : List (Frame α β) → Forest α β → Option (Spot α β)
  | [], .nil => none
  | [], .node a ls K rest => some (deepest K a ls [] rest)
  | f :: ctx, top =>
    match f.sibs with
    | .node a ls K rest => some (deepest K a ls ({ f with sibs := rest } :: ctx) top)
    | .nil => if f.ls = [] then resume ctx top else some ⟨f.lab, f.ls, .nil, ctx, top⟩

/-- Where the grouping starts again after the current router was visited. -/
def start (z : Spot α β) : Option (Spot α β) :=
  match z.kids with
  | .node b ms L rest => some (deepest L b ms (⟨z.lab, z.ls, rest⟩ :: z.ctx) z.top)
  | .nil => if z.ls = [] then resume z.ctx z.top else some z

end Spot

/-- How one pass through the main loop ends: at the next router with the same group, or
with a complete group and the place where the next group starts. -/
inductive Turn (α β : Type*) where
  | go (z : Spot α β) (g : Pack α β)
  | finish (z : Option (Spot α β)) (g : Pack α β)

namespace Plan

/-- Add free leaves of the current router; the flag tells whether the group is complete. -/
def fill (args : Args) (hops : α → ℕ) (z : Spot α β) (g : Pack α β) :
    Spot α β × Pack α β × Bool :=
  let p := if g.mergeable args hops z.lab then 0 else 1
  let g := if g.mergeable args hops z.lab then g else g.close
  if z.ls = [] then (z, g, false)
  else if args.limit < g.size + z.ls.length + p then
    if args.limit ≤ z.ls.length ∨ args.split_nodes = true then
      let m := args.limit - g.size - p
      ({ z with ls := z.ls.drop m }, g.add args hops z.lab (z.ls.take m), true)
    else (z, g, true)
  else
    ({ z with ls := [] }, g.add args hops z.lab z.ls,
      decide (args.limit - 1 ≤ g.size + z.ls.length + p ∨
        args.ok_addrs ≤ g.size + z.ls.length + p))

/-- Leave the current router, whose leaves are done: for its first free child, else for its
parent. -/
def move (args : Args) (hops : α → ℕ) (z : Spot α β) (g : Pack α β) : Turn α β :=
  match z.kids with
  | .node b ms L rest => .go ⟨b, ms, L, ⟨z.lab, z.ls, rest⟩ :: z.ctx, z.top⟩ g
  | .nil =>
    match z.ctx with
    | [] => .finish (Spot.resume [] z.top) g
    | f :: ctx => .go ⟨f.lab, f.ls, f.sibs, ctx, z.top⟩ (g.offer args hops f.lab)

/-- One pass through the main loop. -/
def turn (args : Args) (hops : α → ℕ) (z : Spot α β) (g : Pack α β) : Turn α β :=
  match fill args hops z g with
  | (z, g, true) => .finish z.start g
  | (z, g, false) => move args hops z g

/-- The main loop: the groups, the last one first. -/
def body (args : Args) (hops : α → ℕ) (P : Plan α β) : Plan α β ⊕ List (List (Seg α β)) :=
  match turn args hops P.spot P.pack with
  | .go z g => .inl ⟨z, g, P.done⟩
  | .finish (some z) g => .inl ⟨z, .empty, g.all :: P.done⟩
  | .finish none g => .inr (g.all :: P.done)

/-- The groups for the trees below the root. -/
def Groups (args : Args) (hops : α → ℕ) (F : Forest α β) (gs : List (List (Seg α β))) : Prop :=
  match Spot.resume [] F with
  | none => gs = []
  | some z => Loop.Exits (body args hops) ⟨z, .empty, []⟩ gs

/-- The states that the main loop comes to. -/
def Visited (args : Args) (hops : α → ℕ) (F : Forest α β) (P : Plan α β) : Prop :=
  ∃ z, Spot.resume [] F = some z ∧ Loop.Visits (body args hops) ⟨z, .empty, []⟩ P

theorem Visited.next {args : Args} {hops : α → ℕ} {F : Forest α β} {P P' : Plan α β}
    (V : Visited args hops F P) (e : body args hops P = .inl P') : Visited args hops F P' := by
  obtain ⟨z, hz, hv⟩ := V
  exact ⟨z, hz, hv.tail e⟩

end Plan

end MEADcast
