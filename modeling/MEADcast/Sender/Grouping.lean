import MEADcast.Sender.Rx

/-!
# Grouping (`tree.c`, second half)

`reduceTree` removes routers with few neighbours, `greedyGrouping` packs the receivers
into MEADcast headers, `recResetTree` puts every receiver back below the root.

The local variables of `greedy_grouping` are the record `Packing`.  An array access out
of bounds, a shift by more than the width and a wrapping subtraction fail the run.
-/

namespace MEADcast

/-! ## Reducing the tree -/

mutual

/-- `reduce_tree`. -/
def reduceTree (args : Args) : ℕ → Heap × Judy → NodeId → Option (Heap × Judy)
  | 0, _, _ => none
  | fuel + 1, t, r => do
    let rt ← t.1.router r
    let t ← reduceChilds args fuel t r rt.child.head?
    let rt ← t.1.router r
    match rt.parent with
    | none => some t
    | some _ =>
      if rt.nchild < args.min_routers ∧ rt.nleaf < args.min_leafs then t.1.cutRouter t.2 r
      else some t

/-- The loop of `reduce_tree` from cell `j` on.  The successor is read before the
recursive call, which may unlink the cell. -/
def reduceChilds (args : Args) : ℕ → Heap × Judy → NodeId → Option NodeId → Option (Heap × Judy)
  | 0, _, _, _ => none
  | _ + 1, t, _, none => some t
  | fuel + 1, t, r, some i => do
    let rt ← t.1.router r
    let j := cellNext rt.child i
    let t ← reduceTree args fuel t i
    reduceChilds args fuel t r j

end

/-! ## Choosing the next router -/

/-- The `while (c)` loop of `get_start`: the last router reached, and the last one with
free leaves. -/
def startLoop (h : Heap) : ℕ → NodeId → Option NodeId → Option NodeId →
    Option (NodeId × Option NodeId)
  | 0, _, _, _ => none
  | _ + 1, r, s, none => some (r, s)
  | fuel + 1, _, s, some r => do
    let rt ← h.router r
    startLoop h fuel r (if 0 < rt.fleaf then some r else s) rt.getFreeRouter.head?

/-- `get_start`. -/
def getStart (h : Heap) : ℕ → Option NodeId → Option (Option NodeId)
  | 0, _ => none
  | _ + 1, none => some none
  | fuel + 1, some r => do
    let rt ← h.router r
    let s := if rt.parent ≠ none ∧ 0 < rt.fleaf then some r else none
    let (r, s) ← startLoop h fuel r s rt.getFreeRouter.head?
    match s with
    | some s => some (some s)
    | none => do
      match (← h.router r).parent with
      | none => some none
      | some p => getStart h fuel (some p)

/-- `back_propagate`: the parent whose counter was updated, if any. -/
def backPropagate (h : Heap) (r : NodeId) : Option (Heap × Option NodeId) := do
  let rt ← h.router r
  match rt.parent with
  | none => some (h, none)
  | some p =>
    if 0 < rt.fleaf ∨ 0 < rt.fchild then some (h, none)
    else do
      let pt ← h.router p
      some (h.set p (.router { pt with fchild := pt.fchild - 1 }), some p)

/-- `rec_back_propagate`. -/
def recBackPropagate : ℕ → Heap → Option NodeId → Option Heap
  | 0, _, _ => none
  | _ + 1, h, none => some h
  | fuel + 1, h, some r => do
    let (h, r) ← backPropagate h r
    recBackPropagate fuel h r

/-! ## Filling one header -/

/-- `reset_merging_stats`. -/
def resetMergingStats : Merging := { cr := none, pcr := none, icr := 0, init_hops := 0 }

/-- `is_mergeable`. -/
def isMergeable (args : Args) (h : Heap) (mg : Merging) (r : NodeId) : Option Bool :=
  match mg.cr with
  | none => some false
  | some c => do
    let rt ← h.router r
    let ct ← h.router c
    some (decide ((mg.init_hops - (rt.hops : ℤ)).natAbs ≤ args.merge_range ∧
      ((ct.hops : ℤ) - (rt.hops : ℤ)).natAbs ≤ args.merge_range))

/-- The locals of `greedy_grouping`: the address array, its length `n`, the router
bitmap and the headers finished so far. -/
structure Packing where
  addrs : List In6Addr
  n : ℕ
  bm : BitVec 32
  mdc : List MdcHdr

/-- `l[k] = a` on an array. -/
def writeAddr (l : List In6Addr) (k : ℕ) (a : In6Addr) : Option (List In6Addr) :=
  if k < l.length then some (l.set k a) else none

/-- A `size_t` subtraction that must not wrap. -/
def subSize (a b : ℕ) : Option ℕ := if b ≤ a then some (a - b) else none

/-- Set the bit of position `i`, counted from the most significant bit. -/
def setBitmap (bm : BitVec 32) (i : ℕ) : Option (BitVec 32) := do
  let sh ← subSize 31 i
  some (bm ||| (1#32 <<< sh))

/-- `set_txg_router` from the label `copy` on: the address of the closest router, or of
`r`, goes to index `icr`. -/
def copyRouter (h : Heap) (l : List In6Addr) (mg : Merging) (r : NodeId) :
    Option (List In6Addr) := do
  let tmp ← h.router (mg.cr.getD r)
  writeAddr l mg.icr tmp.sa

/-- `set_txg_router`: the offset `0` when the leaves of `r` are merged, `1` when `r`
gets a position of its own. -/
def setTxgRouter (args : Args) (h : Heap) (mg : Merging) (l : List In6Addr) (bm : BitVec 32)
    (r : NodeId) (n : ℕ) : Option (Merging × List In6Addr × BitVec 32 × ℕ) := do
  let rt ← h.router r
  if args.merge_range = 0 then do
    let mg := { mg with icr := n }
    let bm ← setBitmap bm mg.icr
    some (mg, ← copyRouter h l mg r, bm, 1)
  else match mg.cr with
    | none => do
      let mg := { mg with cr := some r, icr := n, init_hops := rt.hops }
      let bm ← setBitmap bm mg.icr
      some (mg, ← copyRouter h l mg r, bm, 1)
    | some c => do
      let ct ← h.router c
      let usePcr ← match mg.pcr with
        | none => some false
        | some q => do
          let qt ← h.router q
          some (decide (qt.hops < rt.hops ∧ qt.hops < ct.hops))
      if usePcr then do
        let mg := { mg with cr := mg.pcr, pcr := none }
        some (mg, ← copyRouter h l mg r, bm, 0)
      else if rt.hops < ct.hops then do
        let mg := { mg with cr := some r }
        some (mg, ← copyRouter h l mg r, bm, 0)
      else some (mg, l, bm, 0)

/-- The loop of `add2txg`: copy the addresses of `m` leaves from cell `c` on to the
indices from `k` on. -/
def copyLeafs (h : Heap) : ℕ → List NodeId → ℕ → List In6Addr → Option (List In6Addr)
  | 0, _, _, l => some l
  | _ + 1, [], _, _ => none
  | m + 1, v :: c, k, l => do
    let lf ← h.leaf v
    let l ← writeAddr l k lf.addr.sin6_addr
    copyLeafs h m c (k + 1) l

/-- `add2txg`: append `m` free leaves of `r`. -/
def add2txg (args : Args) (h : Heap) (mg : Merging) (g : Packing) (r : NodeId) (m : ℕ) :
    Option (Heap × Merging × Packing) := do
  let (mg, l, bm, s) ← setTxgRouter args h mg g.addrs g.bm r g.n
  let rt ← h.router r
  let l ← copyLeafs h m rt.getFreeLeaf (g.n + s) l
  let f ← subSize rt.fleaf m
  some (h.set r (.router { rt with fleaf := f }), mg, { g with addrs := l, n := g.n + m + s, bm := bm })

/-- `finish_txg`: the header of the current group is prepended to the list. -/
def finishTxg (g : Packing) : Packing :=
  { addrs := g.addrs, n := 0, bm := 0, mdc := setDataHdr g.addrs g.n g.bm :: g.mdc }

/-! ## The main loop -/

/-- The `while (r->fleaf > 0)` loop; the flag tells whether it left by `goto next`. -/
def leafLoop (args : Args) (max p : ℕ) (r : NodeId) : ℕ → Heap → Merging → Packing →
    Option (Heap × Merging × Packing × Bool)
  | 0, _, _, _ => none
  | fuel + 1, h, mg, g => do
    let rt ← h.router r
    if rt.fleaf = 0 then some (h, mg, g, false)
    else
      let m := g.n + rt.fleaf + p
      if max < m then
        if max ≤ rt.fleaf ∨ args.split_nodes = true then do
          let m ← subSize (← subSize max g.n) p
          let (h, mg, g) ← add2txg args h mg g r m
          some (h, mg, g, true)
        else some (h, mg, g, true)
      else if max - 1 ≤ m ∨ args.ok_addrs ≤ m then do
        let (h, mg, g) ← add2txg args h mg g r rt.fleaf
        let h ← recBackPropagate fuel h (some r)
        some (h, mg, g, true)
      else if m < max then do
        let (h, mg, g) ← add2txg args h mg g r rt.fleaf
        some (h, mg, g, false)
      else leafLoop args max p r fuel h mg g

/-- Where one pass through the body of the outer loop ends: at `goto start` or at
`goto next`, with the router `r` holds then. -/
inductive Jump where
  | start (r : NodeId)
  | next (r : NodeId)

/-- The body of the outer loop from `start` to the jump that leaves it. -/
def visit (args : Args) (max fuel : ℕ) (h : Heap) (mg : Merging) (g : Packing) (r : NodeId) :
    Option (Heap × Merging × Packing × Jump) := do
  let mergeable ← isMergeable args h mg r
  let p := if mergeable then 0 else 1
  let mg := if p ≠ 0 ∧ mg.cr ≠ none then resetMergingStats else mg
  let (h, mg, g, leave) ← leafLoop args max p r fuel h mg g
  if leave then some (h, mg, g, .next r)
  else do
    let rt ← h.router r
    match if 0 < rt.fchild then rt.getFreeRouter.head? else none with
    | some c => some (h, mg, g, .start c)
    | none =>
      match rt.parent with
      | none => some (h, mg, g, .next r)
      | some pr => do
        let mg := if mg.cr ≠ none ∧ (← isMergeable args h mg pr) = true
          then { mg with pcr := some pr } else mg
        let (h, _) ← backPropagate h r
        let prt ← h.router pr
        if prt.parent = none then some (h, mg, g, .next pr)
        else some (h, mg, g, .start pr)

/-- The outer loop with its two labels. -/
def groupLoop (args : Args) (max : ℕ) : ℕ → Heap → Merging → Packing → Option NodeId →
    Option (Heap × Merging × Packing)
  | 0, _, _, _, _ => none
  | _ + 1, h, mg, g, none => some (h, mg, g)
  | fuel + 1, h, mg, g, some r => do
    let (h, mg, g, j) ← visit args max fuel h mg g r
    match j with
    | .start r => groupLoop args max fuel h mg g (some r)
    | .next r => do
      let g := finishTxg g
      let r ← getStart h fuel (some r)
      groupLoop args max fuel h resetMergingStats g r

/-- The closing loop: the free leaves of the root go to `uni`. -/
def uniLoop (h : Heap) (s : NodeId) : List NodeId → List Addr → Option (Heap × List Addr)
  | [], uni => some (h, uni)
  | v :: c, uni => do
    let st ← h.router s
    if st.fleaf = 0 then some (h, uni)
    else do
      let lf ← h.leaf v
      uniLoop (h.set s (.router { st with fleaf := st.fleaf - 1 })) s c (uni ++ [lf.addr])

/-- `greedy_grouping`. -/
def greedyGrouping (args : Args) (fuel : ℕ) (h : Heap) (mg : Merging) (s : Option NodeId) :
    Option (Heap × Merging × Option TxGroup) :=
  match s with
  | none => some (h, mg, none)
  | some s => do
    let max := if args.max_addrs < bitmapLimit then args.max_addrs else bitmapLimit
    let r ← getStart h fuel (some s)
    let (h, mg, g) ← groupLoop args max fuel h mg
      { addrs := List.replicate max 0, n := 0, bm := 0, mdc := [] } r
    let st ← h.router s
    let (h, uni) ← uniLoop h s st.getFreeLeaf []
    some (h, mg, some { mdc := g.mdc, nuni := st.fleaf, uni := uni })

/-! ## Resetting the tree -/

/-- The leaf loop of `rec_reset_tree` from cell `i` on: each leaf is adopted by `s`. -/
def resetLeafs (s r : NodeId) : ℕ → Heap → Option NodeId → Option Heap
  | 0, _, _ => none
  | _ + 1, h, none => some h
  | fuel + 1, h, some i => do
    let rt ← h.router r
    let j := cellNext rt.leaf i
    let (h, _) ← h.adopt s (some i)
    resetLeafs s r fuel h j

mutual

/-- `rec_reset_tree`. -/
def recResetTree (s : NodeId) : ℕ → Heap → NodeId → Option Heap
  | 0, _, _ => none
  | fuel + 1, h, r => do
    let rt ← h.router r
    let h ← resetChilds s fuel h r rt.child.head?
    let rt ← h.router r
    match rt.parent with
    | none => some (h.set r (.router { rt with fleaf := rt.nleaf }))
    | some p => do
      let h ← resetLeafs s r fuel h rt.leaf.head?
      let rt ← h.router r
      let h := h.set r (.router
        { rt with nleaf := 0, fleaf := 0, nchild := 0, fchild := 0, hops := 0 })
      h.rmRouter p r

/-- The child loop of `rec_reset_tree` from cell `i` on. -/
def resetChilds (s : NodeId) : ℕ → Heap → NodeId → Option NodeId → Option Heap
  | 0, _, _, _ => none
  | _ + 1, h, _, none => some h
  | fuel + 1, h, r, some i => do
    let rt ← h.router r
    let j := cellNext rt.child i
    let h ← recResetTree s fuel h i
    resetChilds s fuel h r j

end

end MEADcast
