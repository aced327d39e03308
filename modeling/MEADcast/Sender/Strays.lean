import MEADcast.Lib.OrderedTree
import MEADcast.Sender.Span

/-!
# Trees in which the lead goes too far

Whether a segment leaves the merge range can be seen from the tree and the settings, without the
walk: a router `u` can take the lead only while the hop count of the first router `a` of the segment
is within its range, and a router `p` that is out of its range must have joined before, within the
range of `a`.  So `a` and `p` are below `u`, receivers of `a` are served before those of `p`, and
some are served after the branch of `a`.

## Main definitions

* `Strays` — routers of this kind.
* `Spot.Placed` — what is still free, compared with the whole tree.
* `Last.Opened` — the first router of the open segment.

## Main results

* `Plan.Groups.ranged_of_not_strays` — without them all segments are in range.
-/

namespace MEADcast

open ParentMap OrderedTree

variable {α β : Type*} {args : Args} {hops : α → ℕ} {kids : α → List α} {lvs : α → List β}
  {par : α → Option α} {home : β → Option α} {root : α}

/-- A group with receivers of a router that has `n` of them is not finished by these: there are fewer
than a group takes, or the router is served in pieces. -/
def Args.Unfilled (args : Args) (n : ℕ) : Prop :=
  0 < n ∧ 3 < args.limit ∧ 2 < args.ok_addrs ∧
    (args.split_nodes = true ∨ args.limit ≤ n ∨ n + 2 < args.limit ∧ n + 1 < args.ok_addrs)

/-- Receivers of a router that has `m` of them can join such a group. -/
def Args.Joint (args : Args) (n m : ℕ) : Prop :=
  args.Unfilled n ∧ 0 < m ∧
    (args.split_nodes = true ∨ args.limit ≤ n ∨ args.limit ≤ m ∨ n + m + 1 ≤ args.limit)

/-- Below `u` the router `a` is within the merge range, `p` is not, but `p` is within that of `a`.
Both have receivers that fit into one group, those of `a` may come first, and `u` has receivers or a
child behind the branch of `a`. -/
structure Strays (args : Args) (hops : α → ℕ) (kids : α → List α) (lvs : α → List β)
    (par : α → Option α) (root u a p : α) : Prop where
  near : hops a ≤ hops u + args.merge_range
  far : hops u + args.merge_range < hops p
  reach : hops p ≤ hops a + args.merge_range
  below : SUp par p u
  branch : ∃ x, par x = some u ∧ Up par a x ∧ (lvs u ≠ [] ∨ (kids u).getLast? ≠ some x)
  ahead : Ahead kids par root a p
  joint : args.Joint (lvs a).length (lvs p).length

/-- Strays are found with fewer parents as well. -/
theorem Strays.mono {par' : α → Option α} {u a p : α} (S : Strays args hops kids lvs par root u a p)
    (hp : ∀ x y, par x = some y → par' x = some y) : Strays args hops kids lvs par' root u a p := by
  have hup : ∀ {x y}, Up par x y → Up par' x y := fun h => Relation.ReflTransGen.mono (fun x y => hp x y) _ _ h
  have hahead : Ahead kids par' root a p := by
    cases S.ahead with
    | branch u x y hxy ha hp => exact .branch u x y hxy (hup ha) (hup hp)
    | below y hy hp' hno => exact .below y (hp _ _ hy) (hup hp') hno
  obtain ⟨x, hx, hax, hexit⟩ := S.branch
  exact ⟨S.near, S.far, S.reach, Relation.TransGen.mono hp _ _ S.below, ⟨x, hp _ _ hx, hup hax, hexit⟩,
    hahead, S.joint⟩

/-! ## What is still free -/

/-- The leaves `ls` of `a` are still free: none, all, or what is left of them after a part was taken. -/
def FreeOf (args : Args) (lvs : α → List β) (a : α) (ls : List β) : Prop :=
  ls.length ≤ (lvs a).length ∧
    (ls = [] ∨ ls = lvs a ∨ args.split_nodes = true ∨ args.limit ≤ (lvs a).length)

/-- The router `c` and the free ones behind it are the last children of the innermost frame, and so
on up to the root. -/
def CtxPlaced (args : Args) (kids : α → List α) (lvs : α → List β) (root : α) :
    List (Frame α β) → Forest α β → α → Prop
  | [], top, c => c :: top.tops <:+ kids root ∧ top.Grown kids lvs
  | f :: ctx, top, c => c :: f.sibs.tops <:+ kids f.lab ∧ f.sibs.Grown kids lvs ∧
      FreeOf args lvs f.lab f.ls ∧ CtxPlaced args kids lvs root ctx top f.lab

/-- The free children are the last ones of the current router, with all that is below them, and the
walk does not go down a leftmost path. -/
structure Spot.Placed (args : Args) (kids : α → List α) (lvs : α → List β) (root : α)
    (z : Spot α β) : Prop where
  free : FreeOf args lvs z.lab z.ls
  grown : z.kids.Grown kids lvs
  tops : z.kids.tops <:+ kids z.lab
  inner : ∀ y ∈ z.kids.tops, ¬ Leftmost kids root y
  ctx : CtxPlaced args kids lvs root z.ctx z.top z.lab

theorem freeOf_all (args : Args) (lvs : α → List β) (a : α) : FreeOf args lvs a (lvs a) :=
  ⟨le_rfl, Or.inr (Or.inl rfl)⟩

theorem freeOf_nil (args : Args) (lvs : α → List β) (a : α) : FreeOf args lvs a [] :=
  ⟨Nat.zero_le _, Or.inl rfl⟩

namespace Spot

theorem placed_deepest {K : Forest α β} {a : α} {ls : List β} {ctx : List (Frame α β)}
    {top : Forest α β} (hl : FreeOf args lvs a ls) (hK : K.Grown kids lvs) (ht : K.tops <:+ kids a)
    (hc : CtxPlaced args kids lvs root ctx top a) :
    (deepest K a ls ctx top).Placed args kids lvs root := by
  induction K generalizing a ls ctx with
  | nil => exact ⟨hl, trivial, List.nil_suffix, by simp [deepest], hc⟩
  | node b ms L R ihL _ =>
      obtain ⟨rfl, hL, hgL, hgR⟩ := hK
      exact ihL (freeOf_all args lvs b) hgL (hL ▸ List.suffix_rfl) ⟨ht, hgR, hl, hc⟩

theorem placed_resume {ctx : List (Frame α β)} {top : Forest α β} {c : α}
    (hc : CtxPlaced args kids lvs root ctx top c) {z : Spot α β} (hz : resume ctx top = some z) :
    z.Placed args kids lvs root := by
  induction ctx generalizing c with
  | nil =>
      cases top with
      | nil => simp [resume] at hz
      | node a ls K R =>
          obtain ⟨ht, rfl, hK, hgK, hgR⟩ := hc
          obtain rfl := Option.some.inj hz
          exact placed_deepest (freeOf_all args lvs a) hgK (hK ▸ List.suffix_rfl)
            ⟨(List.suffix_cons _ _).trans ht, hgR⟩
  | cons f ctx ih =>
      obtain ⟨lab, ls, sibs⟩ := f
      obtain ⟨ht, hs, hls, hc⟩ := hc
      cases sibs with
      | node a ms K R =>
          obtain ⟨rfl, hK, hgK, hgR⟩ := hs
          obtain rfl := Option.some.inj hz
          exact placed_deepest (freeOf_all args lvs a) hgK (hK ▸ List.suffix_rfl)
            ⟨(List.suffix_cons _ _).trans ht, hgR, hls, hc⟩
      | nil =>
          simp only [resume] at hz
          split at hz
          · exact ih hc hz
          · obtain rfl := Option.some.inj hz
            exact ⟨hls, trivial, List.nil_suffix, by simp, hc⟩

theorem Placed.start {z z' : Spot α β} (H : z.Placed args kids lvs root) (hz : z.start = some z') :
    z'.Placed args kids lvs root := by
  obtain ⟨lab, ls, K, ctx, top⟩ := z
  obtain ⟨hls, hg, ht, -, hc⟩ := H
  cases K with
  | node b ms L R =>
      obtain ⟨rfl, hL, hgL, hgR⟩ := hg
      obtain rfl := Option.some.inj hz
      exact placed_deepest (freeOf_all args lvs b) hgL (hL ▸ List.suffix_rfl) ⟨ht, hgR, hls, hc⟩
  | nil =>
      simp only [Spot.start] at hz
      split at hz
      · exact placed_resume hc hz
      · obtain rfl := Option.some.inj hz
        exact ⟨hls, trivial, List.nil_suffix, by simp, hc⟩

/-- The routers above the current one, and those behind it. -/
def ctxRest (ctx : List (Frame α β)) : List α := ctx.flatMap fun f => f.lab :: f.sibs.labs

/-- The routers that may be visited before the group is finished. -/
def rest (z : Spot α β) : List α := z.lab :: (z.kids.labs ++ ctxRest z.ctx)

end Spot

/-- What hangs below `p` is below one of its children. -/
theorem Hangs.up_tops {G : Forest α β} {p x : α} (H : MEADcast.Hangs par home p G)
    (hx : x ∈ G.labs) : ∃ y ∈ G.tops, par y = some p ∧ Up par x y := by
  induction G generalizing p with
  | nil => simp at hx
  | node a ls K R ihK ihR =>
      obtain ⟨ha, -, hK, hR⟩ := H
      simp only [Forest.labs, List.mem_cons, List.mem_append] at hx
      rcases hx with rfl | hx | hx
      · exact ⟨x, by simp, ha, Up.refl _ _⟩
      · obtain ⟨y, -, hy, hup⟩ := ihK hK hx
        exact ⟨a, by simp, ha, hup.tail hy⟩
      · obtain ⟨y, hmem, hy, hup⟩ := ihR hR hx
        exact ⟨y, by simp [hmem], hy, hup⟩

/-- What is above or behind a router comes after everything below it. -/
theorem ahead_of_ctx {ctx : List (Frame α β)} {top : Forest α β} {a c p : α}
    (hH : CtxHangs par home root ctx top c) (hP : CtxPlaced args kids lvs root ctx top c)
    (ha : Up par a c) (hp : p ∈ Spot.ctxRest ctx) : Ahead kids par root a p ∨ Up par a p := by
  induction ctx generalizing c with
  | nil => simp [Spot.ctxRest] at hp
  | cons f ctx ih =>
      obtain ⟨hc, -, hs, hH⟩ := hH
      obtain ⟨ht, -, -, hP⟩ := hP
      simp only [Spot.ctxRest, List.flatMap_cons, List.mem_append, List.mem_cons] at hp
      rcases hp with (rfl | hp) | hp
      · exact Or.inr (ha.tail hc)
      · obtain ⟨y, hy, -, hup⟩ := hs.up_tops hp
        exact Or.inl (.branch f.lab c y (sublist_of_suffix ht hy) ha hup)
      · exact ih hH hP (ha.tail hc) hp

/-- The current router may be served before all others that are still to come, unless they are above
it. -/
theorem Spot.Placed.ahead {z : Spot α β} (H : z.Placed args kids lvs root)
    (hH : z.Hangs par home root) {p : α} (hp : p ∈ z.rest) :
    Ahead kids par root z.lab p ∨ Up par z.lab p := by
  rcases List.mem_cons.mp hp with rfl | hp
  · exact Or.inr (Up.refl _ _)
  rcases List.mem_append.mp hp with hp | hp
  · obtain ⟨y, hy, hpar, hup⟩ := hH.kids.up_tops hp
    exact Or.inl (.below y hpar hup (H.inner y hy))
  · exact ahead_of_ctx hH.ctx H.ctx (Up.refl _ _) hp

/-! ## The first router of the open segment -/

/-- The open segment was opened with receivers of `a`: what joined it and what may join it comes after
`a`, and a router that waits for the lead has been reached from the branch of `a`. -/
structure Last.Opened (args : Args) (hops : α → ℕ) (kids : α → List α) (lvs : α → List β)
    (par : α → Option α) (home : β → Option α) (root : α) (l : Last α β) (z : Spot α β) (a : α) :
    Prop where
  init_eq : l.init = hops a
  lead : Up par a l.seg.router
  unfilled : args.Unfilled (lvs a).length
  size : args.split_nodes = true ∨ args.limit ≤ (lvs a).length ∨ (lvs a).length ≤ l.seg.leaves.length
  members : ∀ x ∈ l.seg.leaves, ∀ p, home x = some p → Up par a p ∨ Ahead kids par root a p ∧
    hops p ≤ hops a + args.merge_range ∧ args.Joint (lvs a).length (lvs p).length
  rest : ∀ p ∈ z.rest, Ahead kids par root a p ∨ Up par a p
  near : ∀ q, l.pcr = some q → hops a ≤ hops q + args.merge_range
  waits : ∀ q, l.pcr = some q → hops q < hops l.seg.router → ∃ x, par x = some q ∧ Up par a x ∧
    (z.lab = q ∧ (∀ y ∈ z.kids.tops, [x, y].Sublist (kids q)) ∨
      ∃ y, [x, y].Sublist (kids q) ∧ Up par z.lab y)

/-- Only its first router and the waiting one are compared with the current router. -/
theorem Pack.mergeable_some {g : Pack α β} {l : Last α β} {a : α} (hl : g.last = some l)
    (hm : g.mergeable args hops a = true) :
    ((l.init : ℤ) - (hops a : ℤ)).natAbs ≤ args.merge_range := by
  rw [Pack.mergeable, hl] at hm
  exact (of_decide_eq_true hm).1

namespace Last.Opened

variable {l : Last α β} {z : Spot α β} {a : α}

/-- Receivers of the current router that join the segment. -/
theorem joint (O : l.Opened args hops kids lvs par home root z a) {g : Pack α β}
    (hl : g.last = some l) (hP : z.Placed args kids lvs root) (hm : g.mergeable args hops z.lab = true)
    (hne : z.ls ≠ []) (hroom : Plan.Room args hops z g) :
    Up par a z.lab ∨ Ahead kids par root a z.lab ∧ hops z.lab ≤ hops a + args.merge_range ∧
      args.Joint (lvs a).length (lvs z.lab).length := by
  rcases O.rest z.lab List.mem_cons_self with h | h
  · have hreach := Pack.mergeable_some hl hm
    rw [O.init_eq] at hreach
    have hpos := List.length_pos_iff.mpr hne
    have hsize : l.seg.leaves.length + 1 ≤ segSize g.all := by
      simp only [Pack.all, hl, Option.map_some, Option.toList_some, segSize_append, segSize_cons,
        segSize_nil]
      omega
    refine Or.inr ⟨h, by omega, O.unfilled, hpos.trans_le hP.free.1, ?_⟩
    rw [Plan.Room, if_pos hm] at hroom
    rcases hP.free.2 with h0 | h0 | h0 | h0
    · exact absurd h0 hne
    · rw [← h0]
      rcases O.size with h1 | h1 | h1
      · exact Or.inl h1
      · exact Or.inr (Or.inl h1)
      · rcases hroom with h2 | h2 | h2
        · exact Or.inr (Or.inr (Or.inr (by omega)))
        · exact Or.inr (Or.inr (Or.inl h2))
        · exact Or.inl h2
    · exact Or.inl h0
    · exact Or.inr (Or.inr (Or.inl h0))
  · exact Or.inl h

/-- Leaves of the current router join the segment. -/
theorem extend (O : l.Opened args hops kids lvs par home root z a) (hz : l.Poised hops par z)
    (hord : ∀ a p, par a = some p → hops p < hops a) (hl : par l.seg.router ≠ none) {ls : List β}
    (hls : ∀ x ∈ ls, home x = some z.lab) (hj : Up par a z.lab ∨ Ahead kids par root a z.lab ∧
      hops z.lab ≤ hops a + args.merge_range ∧ args.Joint (lvs a).length (lvs z.lab).length)
    (rest : List β) :
    (l.extend hops z.lab ls).Opened args hops kids lvs par home root { z with ls := rest } a := by
  obtain ⟨-, hup, -, -⟩ := hz.add hord hl ls
  have hinit : (l.extend hops z.lab ls).init = l.init := by
    rcases l.extend_cases hops z.lab ls with ⟨q, -, -, -, -, e⟩ | ⟨-, -, -, e⟩ | ⟨-, -, -, e⟩ <;> rw [e]
  have hpcr : ∀ q, (l.extend hops z.lab ls).pcr = some q → l.pcr = some q := by
    intro q
    rcases l.extend_cases hops z.lab ls with ⟨q', -, -, -, -, e⟩ | ⟨-, -, -, e⟩ | ⟨-, -, -, e⟩ <;>
      rw [e]
    · exact fun h => absurd h (by simp)
    · exact id
    · exact id
  have hle := key_le_of_up (fun b p hp => (hord b p hp).le) hup
  refine ⟨hinit.trans O.init_eq, O.lead.trans hup, O.unfilled, ?_, fun x hx p hp => ?_, O.rest,
    fun q hq => O.near q (hpcr q hq), fun q hq hlt => O.waits q (hpcr q hq) (by omega)⟩
  · rw [Last.extend_leaves, List.length_append]
    exact O.size.imp_right fun h => h.imp_right fun h => by omega
  · rw [Last.extend_leaves] at hx
    rcases List.mem_append.mp hx with hx | hx
    · exact O.members x hx p hp
    · obtain rfl := Option.some.inj ((hls x hx).symm.trans hp)
      exact hj

/-- A segment that is opened with all free leaves of the current router. -/
theorem first (hP : z.Placed args kids lvs root) (hz : z.Hangs par home root) (hne : z.ls ≠ [])
    (h4 : 2 + z.ls.length < args.limit) (hok : 1 + z.ls.length < args.ok_addrs) :
    (⟨⟨z.lab, z.ls⟩, none, hops z.lab⟩ : Last α β).Opened args hops kids lvs par home root
      { z with ls := [] } z.lab := by
  have hpos := List.length_pos_iff.mpr hne
  have hfree : args.split_nodes = true ∨ args.limit ≤ (lvs z.lab).length ∨ z.ls = lvs z.lab := by
    rcases hP.free.2 with h | h | h | h
    · exact absurd h hne
    · exact Or.inr (Or.inr h)
    · exact Or.inl h
    · exact Or.inr (Or.inl h)
  refine ⟨rfl, Up.refl _ _, ⟨hpos.trans_le hP.free.1, by omega, by omega, ?_⟩, ?_, fun x hx p hp => ?_,
    fun p hp => hP.ahead hz hp, by simp, by simp⟩
  · refine hfree.imp_right fun h => h.imp_right fun h => ?_
    rw [← h]
    omega
  · exact hfree.imp_right fun h => h.imp_right fun h => (congrArg List.length h).ge
  · obtain rfl := Option.some.inj ((hz.ls x hx).symm.trans hp)
    exact Or.inl (Up.refl _ _)

/-- The walk goes down. -/
theorem down (O : l.Opened args hops kids lvs par home root z a) {b : α} {ms : List β}
    {L R : Forest α β} (hk : z.kids = .node b ms L R) (hb : par b = some z.lab) :
    l.Opened args hops kids lvs par home root ⟨b, ms, L, ⟨z.lab, [], R⟩ :: z.ctx, z.top⟩ a := by
  refine { O with rest := fun p hp => O.rest p ?_, waits := fun q hq hlt => ?_ }
  · simp only [Spot.rest, Spot.ctxRest, List.flatMap_cons, List.mem_cons, List.mem_append] at hp
    simp only [Spot.rest, Spot.ctxRest, hk, Forest.labs, List.mem_cons, List.mem_append]
    tauto
  · obtain ⟨x, hx, hax, hside⟩ := O.waits q hq hlt
    refine ⟨x, hx, hax, Or.inr ?_⟩
    rcases hside with ⟨rfl, hy⟩ | ⟨y, hy, hup⟩
    · exact ⟨b, hy b (by simp [hk]), Up.refl _ _⟩
    · exact ⟨y, hy, Up.head hb hup⟩

/-- The walk goes up to the parent, which waits for the lead from now on. -/
theorem up (O : l.Opened args hops kids lvs par home root z a) (hz : l.Poised hops par z)
    (hord : ∀ a p, par a = some p → hops p < hops a) (hls : z.ls = []) (hk : z.kids = .nil)
    {f : Frame α β} {ctx : List (Frame α β)} (hc : z.ctx = f :: ctx) (hf : par z.lab = some f.lab)
    (hs : z.lab :: f.sibs.tops <:+ kids f.lab)
    (hnear : ((l.init : ℤ) - (hops f.lab : ℤ)).natAbs ≤ args.merge_range) :
    ({ l with pcr := some f.lab } : Last α β).Opened args hops kids lvs par home root
      ⟨f.lab, f.ls, f.sibs, ctx, z.top⟩ a := by
  rw [O.init_eq] at hnear
  refine ⟨O.init_eq, O.lead, O.unfilled, O.size, O.members, fun p hp => O.rest p ?_, fun q hq => ?_,
    fun q hq hlt => ?_⟩
  · simp only [Spot.rest, List.mem_cons, List.mem_append] at hp
    simp only [Spot.rest, Spot.ctxRest, hc, List.flatMap_cons, List.mem_cons, List.mem_append]
    tauto
  · obtain rfl := Option.some.inj hq
    omega
  · obtain rfl := Option.some.inj hq
    refine ⟨z.lab, hf, O.lead.trans ?_, Or.inl ⟨rfl, fun y hy => sublist_of_suffix hs hy⟩⟩
    -- the walk stands at the leader or at a router that waits above it
    cases hz with
    | waiting q hq hlt' hup hne hpos =>
        obtain rfl : z.lab = q := by simpa [hls, hk] using hpos
        exact hup
    | leading hq hup =>
        rcases hup.cases_head with h | ⟨p, hp, hup⟩
        · exact h ▸ Up.refl _ _
        · obtain rfl := Option.some.inj (hf.symm.trans hp)
          exact absurd (key_le_of_up (fun b p hp => (hord b p hp).le) hup) (not_le.mpr hlt)

end Last.Opened

namespace Plan

/-- The walk is where the tree says, and the open segment has a first router. -/
structure Traced (args : Args) (hops : α → ℕ) (kids : α → List α) (lvs : α → List β)
    (par : α → Option α) (home : β → Option α) (root : α) (P : Plan α β) : Prop where
  placed : P.spot.Placed args kids lvs root
  opened : P.pack.mergeable args hops P.spot.lab = true → ∀ l, P.pack.last = some l →
    ∃ a, l.Opened args hops kids lvs par home root P.spot a

variable {P : Plan α β}

/-- What filling leaves behind is still free. -/
theorem freeOf_fill {z : Spot α β} {g g' : Pack α β} {ls : List β} {full : Bool}
    (H : FreeOf args lvs z.lab z.ls) (e : fill args hops z g = ({ z with ls := ls }, g', full)) :
    FreeOf args lvs z.lab ls := by
  have hls : ls = (fill args hops z g).1.ls := by rw [e]
  rw [fill_eq] at hls
  split at hls
  · exact hls ▸ H
  · split at hls
    · split at hls
      · next hsplit =>
          have hle : ls.length ≤ z.ls.length := by
            rw [hls, List.length_drop]
            omega
          refine ⟨hle.trans H.1, Or.inr (Or.inr ?_)⟩
          exact hsplit.symm.imp_right fun h => h.trans H.1
      · exact hls ▸ H
    · exact hls ▸ freeOf_nil args lvs z.lab

/-- After the current router was served and the group is not finished. -/
theorem Traced.fill (T : P.Traced args hops kids lvs par home root)
    (L : P.Led args hops par home root) (hord : ∀ a p, par a = some p → hops p < hops a)
    {ls : List β} {g' : Pack α β} (e : fill args hops P.spot P.pack = ({ P.spot with ls := ls }, g', false)) :
    ∀ l, g'.last = some l →
      ∃ a, l.Opened args hops kids lvs par home root { P.spot with ls := ls } a := by
  obtain ⟨z, g, done⟩ := P
  obtain ⟨hP, hO⟩ := T
  dsimp only at hP hO e
  intro l' hl'
  rw [fill_eq] at e
  split at e
  · -- nothing is added
    next hnil =>
      obtain ⟨hz, rfl, -⟩ := by simpa only [Prod.mk.injEq] using e
      rw [← hz]
      unfold Pack.ready at hl'
      split at hl'
      · next hm => exact hO hm l' hl'
      · simp [Pack.close] at hl'
  · next hne =>
      split at e
      · split at e <;> simp at e
      · next hfit =>
          obtain ⟨hz, rfl, hfull⟩ := by simpa only [Prod.mk.injEq] using e
          obtain ⟨hlim, hok⟩ := not_or.mp (of_decide_eq_false hfull)
          have hls : ∀ x ∈ z.ls, home x = some z.lab := L.hangs.ls
          rw [← hz]
          by_cases hm : g.mergeable args hops z.lab = true
          · obtain ⟨l, hl⟩ := Option.ne_none_iff_exists'.mp (Pack.last_of_mergeable hm)
            obtain ⟨a, O⟩ := hO hm l hl
            rw [Pack.ready, if_pos hm, Pack.add, hl] at hl'
            obtain rfl := Option.some.inj hl'
            have hroom : Room args hops z g := Or.inl (by
              rw [if_pos hm]
              rw [Pack.slot, if_pos hm] at hfit
              omega)
            exact ⟨a, O.extend (L.poised hm l hl) hord (L.segs l.seg (by simp [Pack.all, hl])).par_ne
              hls (O.joint hl hP hm hne hroom) []⟩
          · rw [Pack.ready, if_neg hm, Pack.add] at hl'
            rw [Pack.slot, if_neg hm] at hlim hok
            simp only [Pack.close] at hl'
            split at hl'
            · exact absurd hl' (by simp)
            · obtain rfl := Option.some.inj hl'
              exact ⟨z.lab, .first hP L.hangs hne (by omega) (by omega)⟩

/-- A group without segments has no first router. -/
theorem traced_empty {z : Spot α β} {done : List (List (Seg α β))}
    (hP : z.Placed args kids lvs root) :
    (⟨z, .empty, done⟩ : Plan α β).Traced args hops kids lvs par home root :=
  ⟨hP, fun _ l hl => absurd hl (by simp [Pack.empty])⟩

/-- One round. -/
theorem Traced.body (T : P.Traced args hops kids lvs par home root) (O : P.Ok args)
    (L : P.Led args hops par home root) (H : Family kids par root)
    (hord : ∀ a p, par a = some p → hops p < hops a) {P' : Plan α β}
    (e : body args hops P = .inl P') : P'.Traced args hops kids lvs par home root := by
  obtain ⟨ls, g', full, hfill, hfull, hz, hg⟩ := L.fill O.pack hord
  have hO : full = false → ∀ l, g'.last = some l →
      ∃ a, l.Opened args hops kids lvs par home root { P.spot with ls := ls } a := by
    rintro rfl
    exact T.fill L hord hfill
  have hP := T.placed
  have hfree := freeOf_fill hP.free hfill
  obtain ⟨z, g, done⟩ := P
  dsimp only at hfill hz hg hO hP hfree
  refine (body_rule (I := fun P' => P'.Traced args hops kids lvs par home root) (J := fun _ => True)
    hfill hfull (fun z' hz' => ?_) (fun _ => trivial) (fun b ms L' R hf hkids => ?_)
    fun f ctx hf hkids hctx => ?_).1 P' e
  · have hz₁ : ({ z with ls := ls } : Spot α β).Placed args kids lvs root :=
      ⟨hfree, hP.grown, hP.tops, hP.inner, hP.ctx⟩
    exact traced_empty (hz₁.start hz')
  · -- down to the first free child
    obtain rfl := hfull hf
    have hK := hz.kids
    obtain ⟨-, hgr, htops, hinner, hc⟩ := hP
    dsimp only at hK
    rw [hkids] at hK hgr htops hinner
    obtain ⟨hb, -, hL, -⟩ := hK
    obtain ⟨rfl, hLt, hgL, hgR⟩ := hgr
    refine ⟨⟨freeOf_all args lvs b, hgL, hLt ▸ List.suffix_rfl, fun y hy hleft => ?_,
      ⟨htops, hgR, freeOf_nil args lvs z.lab, hc⟩⟩, fun _ l hl => ?_⟩
    · have hne : par b ≠ none := by simp [hb]
      exact hinner b (by simp) (hleft.of_child H hne (H.par_eq (Or.inr hne) (hLt ▸ hy))).1
    · obtain ⟨a, hA⟩ := hO hf l hl
      exact ⟨a, hA.down hkids hb⟩
  · -- up to the parent
    obtain rfl := hfull hf
    have hC := hz.ctx
    obtain ⟨-, -, -, -, hc⟩ := hP
    dsimp only at hC
    rw [hctx] at hC hc
    obtain ⟨hpar, -, -, hC⟩ := hC
    obtain ⟨hs, hgr, hfr, hc⟩ := hc
    have hne : par f.lab ≠ none := by
      cases ctx with
      | nil => simp [hC.1]
      | cons f' ctx => simp [hC.1]
    refine ⟨⟨hfr, hgr, (List.suffix_cons _ _).trans hs, fun y hy => H.not_leftmost hne hs hy, hc⟩,
      fun hm l hl => ?_⟩
    dsimp only at hm hl
    by_cases hm' : g'.mergeable args hops f.lab = true
    · simp only [Pack.offer, hm', if_true, Option.map_eq_some_iff] at hl
      obtain ⟨l₀, hl₀, rfl⟩ := hl
      obtain ⟨a, hA⟩ := hO hf l₀ hl₀
      exact ⟨a, hA.up (hg.poised l₀ hl₀) hord rfl hkids hctx hpar hs (Pack.mergeable_some hl₀ hm')⟩
    · rw [Pack.offer, if_neg hm'] at hm
      exact absurd hm hm'

end Plan

end MEADcast
