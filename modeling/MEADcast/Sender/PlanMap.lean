import MEADcast.Sender.PlanSpec

/-!
# Renaming the nodes of a plan

The grouping looks at the shape of the forest, the order of the leaves and the hop counts
of the routers, never at their names.  Hence renaming the nodes renames the groups, and
hop counts of other routers do not matter.

## Main results

* `Plan.Groups.map` — renaming the nodes.
* `Plan.Groups.congr` — only the hop counts of routers in the forest matter.
-/

namespace MEADcast

variable {α β γ δ : Type*} {args : Args} {hops : α → ℕ} {hops' : γ → ℕ}

/-- Rename the nodes of a frame. -/
def Frame.map (f : α → γ) (k : β → δ) (x : Frame α β) : Frame γ δ :=
  ⟨f x.lab, x.ls.map k, x.sibs.map f k⟩

/-- Rename the nodes of a spot. -/
def Spot.map (f : α → γ) (k : β → δ) (z : Spot α β) : Spot γ δ :=
  ⟨f z.lab, z.ls.map k, z.kids.map f k, z.ctx.map (Frame.map f k), z.top.map f k⟩

/-- Rename the nodes of the open segment. -/
def Last.map (f : α → γ) (k : β → δ) (l : Last α β) : Last γ δ :=
  ⟨l.seg.map f k, l.pcr.map f, l.init⟩

/-- Rename the nodes of a group. -/
def Pack.map (f : α → γ) (k : β → δ) (g : Pack α β) : Pack γ δ :=
  ⟨g.segs.map (Seg.map f k), g.last.map (Last.map f k)⟩

/-- Rename the nodes in the outcome of a pass. -/
def Turn.map (f : α → γ) (k : β → δ) : Turn α β → Turn γ δ
  | .go z g => .go (z.map f k) (g.map f k)
  | .finish z g => .finish (z.map (Spot.map f k)) (g.map f k)

/-- Rename the nodes of groups. -/
def mapGroups (f : α → γ) (k : β → δ) (gs : List (List (Seg α β))) : List (List (Seg γ δ)) :=
  gs.map (List.map (Seg.map f k))

/-- Rename the nodes of a plan. -/
def Plan.map (f : α → γ) (k : β → δ) (P : Plan α β) : Plan γ δ :=
  ⟨P.spot.map f k, P.pack.map f k, mapGroups f k P.done⟩

section Map

variable (f : α → γ) (k : β → δ)

namespace Spot

theorem map_deepest (K : Forest α β) (a : α) (ls : List β) (ctx : List (Frame α β))
    (top : Forest α β) : (deepest K a ls ctx top).map f k =
      deepest (K.map f k) (f a) (ls.map k) (ctx.map (Frame.map f k)) (top.map f k) := by
  induction K generalizing a ls ctx with
  | nil => rfl
  | node b ms L rest ihL _ => exact ihL b ms (⟨a, ls, rest⟩ :: ctx)

theorem map_resume (ctx : List (Frame α β)) (top : Forest α β) :
    (resume ctx top).map (Spot.map f k) =
      resume (ctx.map (Frame.map f k)) (top.map f k) := by
  induction ctx with
  | nil =>
      cases top with
      | nil => rfl
      | node a ls K rest => simp [resume, map_deepest]
  | cons x ctx ih =>
      obtain ⟨lab, ls, sibs⟩ := x
      cases sibs with
      | node a ms K rest => simp [resume, map_deepest, Frame.map]
      | nil =>
          by_cases hls : ls = []
          · simpa [resume, hls, Frame.map] using ih
          · simp [resume, hls, Frame.map, Spot.map]

theorem map_start (z : Spot α β) : z.start.map (Spot.map f k) = (z.map f k).start := by
  obtain ⟨lab, ls, kids, ctx, top⟩ := z
  cases kids with
  | node b ms L rest => exact congrArg some (map_deepest f k L b ms (⟨lab, ls, rest⟩ :: ctx) top)
  | nil =>
      by_cases hls : ls = []
      · simpa [start, hls, Spot.map] using map_resume f k ctx top
      · simp [start, hls, Spot.map]

end Spot

variable (hh : ∀ a, hops' (f a) = hops a)

include hh

theorem Last.map_extend (l : Last α β) (a : α) (ls : List β) :
    (l.extend hops a ls).map f k = (l.map f k).extend hops' (f a) (ls.map k) := by
  obtain ⟨seg, pcr, init⟩ := l
  have hlead : ∀ pcr : Option α, Last.map f k
      (if hops a < hops seg.router then ⟨⟨a, seg.leaves ++ ls⟩, pcr, init⟩
        else ⟨⟨seg.router, seg.leaves ++ ls⟩, pcr, init⟩) =
      if hops a < hops seg.router then ⟨⟨f a, seg.leaves.map k ++ ls.map k⟩, pcr.map f, init⟩
        else ⟨⟨f seg.router, seg.leaves.map k ++ ls.map k⟩, pcr.map f, init⟩ := by
    intro pcr
    split <;> simp [Last.map, Seg.map]
  cases pcr with
  | none =>
      simp only [extend, Last.map, Option.map_none, Option.filter_none, Seg.map_router, hh,
        Seg.map_leaves]
      exact hlead none
  | some q =>
      by_cases hq : hops q < hops a ∧ hops q < hops seg.router
      · simp only [extend, Last.map, Option.map_some, Option.filter_some, Seg.map_router, hh, hq,
          and_self, decide_true, if_true, Seg.map_leaves, Option.map_none]
        simp [Seg.map]
      · simp only [extend, Last.map, Option.map_some, Option.filter_some, Seg.map_router, hh, hq,
          decide_false, Bool.false_eq_true, if_false, Seg.map_leaves]
        exact hlead (some q)

namespace Pack

theorem map_mergeable (g : Pack α β) (a : α) :
    (g.map f k).mergeable args hops' (f a) = g.mergeable args hops a := by
  obtain ⟨segs, last⟩ := g
  cases last <;> simp [mergeable, Pack.map, Last.map, hh]

omit hh in
theorem map_all (g : Pack α β) : (g.map f k).all = g.all.map (Seg.map f k) := by
  obtain ⟨segs, last⟩ := g
  cases last <;> simp [all, Pack.map, Last.map]

omit hh in
theorem map_size (g : Pack α β) : (g.map f k).size = g.size := by
  rw [size_eq, size_eq, map_all, segSize_map]

omit hh in
theorem map_close (g : Pack α β) : (g.map f k).close = g.close.map f k := by
  simp [close, Pack.map, ← map_all]

theorem map_add (g : Pack α β) (a : α) (ls : List β) :
    (g.map f k).add args hops' (f a) (ls.map k) = (g.add args hops a ls).map f k := by
  obtain ⟨segs, last⟩ := g
  cases last with
  | some l => simp [add, Pack.map, Last.map_extend f k hh]
  | none =>
      by_cases h0 : args.merge_range = 0
      · simp [add, Pack.map, h0, Seg.map]
      · simp [add, Pack.map, h0, Seg.map, Last.map, hh]

theorem map_offer (g : Pack α β) (a : α) :
    (g.map f k).offer args hops' (f a) = (g.offer args hops a).map f k := by
  unfold offer
  rw [map_mergeable f k hh]
  obtain ⟨segs, last⟩ := g
  split
  · cases last <;> simp [Pack.map, Last.map]
  · rfl

end Pack

namespace Plan

variable (args) in
theorem map_fill (z : Spot α β) (g : Pack α β) :
    fill args hops' (z.map f k) (g.map f k) = ((fill args hops z g).1.map f k,
      (fill args hops z g).2.1.map f k, (fill args hops z g).2.2) := by
  have hg : (if g.mergeable args hops z.lab then g.map f k else (g.map f k).close) =
      (if g.mergeable args hops z.lab then g else g.close).map f k := by
    split
    · rfl
    · exact Pack.map_close f k g
  have hm : (g.map f k).mergeable args hops' (z.map f k).lab = g.mergeable args hops z.lab :=
    Pack.map_mergeable f k hh g z.lab
  unfold fill
  simp only [hm, hg, Pack.map_size]
  -- the group after the last segment is closed, and the position a new segment takes
  generalize (if g.mergeable args hops z.lab then g else g.close) = g₁
  generalize (if g.mergeable args hops z.lab then 0 else 1) = p
  by_cases hl : z.ls = []
  · simp [hl, Spot.map]
  have hl' : (z.map f k).ls ≠ [] := by simp [Spot.map, hl]
  have hlen : (z.map f k).ls.length = z.ls.length := by simp [Spot.map]
  have hadd : ∀ ls : List β, (g₁.map f k).add args hops' (z.map f k).lab (ls.map k) =
      (g₁.add args hops z.lab ls).map f k := Pack.map_add f k hh g₁ z.lab
  simp only [hl, hl', if_false, hlen]
  by_cases hbig : args.limit < g₁.size + z.ls.length + p
  · by_cases hs : args.limit ≤ z.ls.length ∨ args.split_nodes = true
    · simp only [hbig, hs, if_true, ← hadd, List.map_take]
      simp only [Spot.map, List.map_drop]
    · simp only [hbig, hs, if_true, if_false]
  · simp only [hbig, if_false, ← hadd]
    rfl

theorem map_move (z : Spot α β) (g : Pack α β) :
    move args hops' (z.map f k) (g.map f k) = (move args hops z g).map f k := by
  obtain ⟨lab, ls, kids, ctx, top⟩ := z
  cases kids with
  | node b ms L rest => simp [move, Spot.map, Turn.map, Frame.map]
  | nil =>
      cases ctx with
      | nil =>
          simp only [move, Spot.map, Turn.map, Spot.map_resume, Forest.map, List.map_nil]
      | cons x ctx => simp [move, Spot.map, Turn.map, Frame.map, Pack.map_offer f k hh]

variable (args) in
theorem map_turn (z : Spot α β) (g : Pack α β) :
    turn args hops' (z.map f k) (g.map f k) = (turn args hops z g).map f k := by
  have hf := map_fill args f k hh z g
  unfold turn
  rw [hf]
  obtain ⟨z', g', full⟩ := fill args hops z g
  cases full with
  | true => simp [Turn.map, Spot.map_start]
  | false => exact map_move f k hh z' g'

theorem map_body (P : Plan α β) :
    body args hops' (P.map f k) = (body args hops P).map (Plan.map f k) (mapGroups f k) := by
  obtain ⟨z, g, done⟩ := P
  have ht := map_turn args f k hh z g
  unfold body
  dsimp only [Plan.map]
  rw [ht]
  cases hturn : turn args hops z g with
  | go z' g' => simp [Turn.map, Plan.map]
  | finish z? g' =>
      cases z? with
      | none => simp [Turn.map, mapGroups, Pack.map_all]
      | some z' =>
          have hall := Pack.map_all f k g'
          simp only [Turn.map, Option.map_some, Plan.map, mapGroups, Sum.map_inl, List.map_cons,
            hall]
          rfl

variable (hops') in
/-- Renaming the nodes renames the groups. -/
theorem Groups.map {F : Forest α β} {gs : List (List (Seg α β))} (H : Groups args hops F gs) :
    Groups args hops' (F.map f k) (mapGroups f k gs) := by
  have hr := Spot.map_resume f k ([] : List (Frame α β)) F
  rw [List.map_nil] at hr
  unfold Groups at H ⊢
  rw [← hr]
  cases hz : Spot.resume [] F with
  | none =>
      simp only [hz] at H
      subst H
      rfl
  | some z =>
      simp only [hz] at H
      exact Loop.Exits.map (f := Plan.map f k) (map_body f k hh) H

end Plan

end Map

/-- A forest has one sequence of groups. -/
theorem Plan.Groups.det {F : Forest α β} {gs gs' : List (List (Seg α β))}
    (H : Groups args hops F gs) (H' : Groups args hops F gs') : gs = gs' := by
  unfold Groups at H H'
  cases hz : Spot.resume [] F with
  | none =>
      simp only [hz] at H H'
      rw [H, H']
  | some z =>
      simp only [hz] at H H'
      exact H.det H'

/-- Only the hop counts of the routers in the forest matter. -/
theorem Plan.Groups.congr {F : Forest α β} {gs : List (List (Seg α β))} {key : α → ℕ}
    (hF : F.Live) (H : Groups args hops F gs) (hh : ∀ a ∈ F.labs, key a = hops a) :
    Groups args key F gs := by
  obtain ⟨G, hG⟩ := F.exists_attach (p := fun a => a ∈ F.labs) fun _ ha => ha
  have hGl : G.Live := by
    rw [← hG] at hF
    exact (Forest.live_map _ _ G).mp hF
  obtain ⟨gs', H', -, -⟩ := exists_groups args (fun a : {a // a ∈ F.labs} => hops a.1) hGl
  have h1 := H'.map hops Subtype.val id fun _ => rfl
  have h2 := H'.map key Subtype.val id fun a => hh a.1 a.2
  rw [hG] at h1 h2
  rw [H.det h1]
  exact h2

/-- The routers of the groups are routers of the forest. -/
theorem Plan.Groups.router_mem {F : Forest α β} {gs : List (List (Seg α β))} (hF : F.Live)
    (H : Groups args hops F gs) {g : List (Seg α β)} (hg : g ∈ gs) {s : Seg α β} (hs : s ∈ g) :
    s.router ∈ F.labs := by
  obtain ⟨G, hG⟩ := F.exists_attach (p := fun a => a ∈ F.labs) fun _ ha => ha
  have hGl : G.Live := by
    rw [← hG] at hF
    exact (Forest.live_map _ _ G).mp hF
  obtain ⟨gs', H', -, -⟩ := exists_groups args (fun a : {a // a ∈ F.labs} => hops a.1) hGl
  have h1 := H'.map hops Subtype.val id fun _ => rfl
  rw [hG] at h1
  obtain rfl := H.det h1
  simp only [mapGroups, List.mem_map] at hg
  obtain ⟨g', -, rfl⟩ := hg
  obtain ⟨s', -, rfl⟩ := List.mem_map.mp hs
  exact s'.router.2

/-- The groups of a forest partition its leaves. -/
theorem Plan.Groups.leaves_eq {F : Forest α β} {gs : List (List (Seg α β))} (hF : F.Live)
    (H : Groups args hops F gs) : doneLeaves gs = ↑F.leaves ∧ ∀ g ∈ gs, GroupOk args g := by
  obtain ⟨gs', H', h⟩ := exists_groups args hops hF
  rw [H.det H']
  exact h

end MEADcast
