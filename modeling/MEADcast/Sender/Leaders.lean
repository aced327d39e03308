import MEADcast.Sender.PlanSpec
import MEADcast.Lib.ParentMap

/-!
# Who leads a segment

While a segment is open, the router that leads it changes: the walk goes up and down, and a
router passed on the way up may take the lead when leaves are added further down.  All this
time the leader is above every leaf of the segment, provided that hop counts grow away from
the root.  The parents of routers and leaves are two functions here.

## Main definitions

* `Spot.Hangs` — the zipper agrees with the parents.
* `Seg.Led` — the router of a segment is above its leaves.
* `Last.Poised` — where the walk stands with respect to the open segment.

## Main results

* `Plan.Groups.led` — every segment of every group is led by a router above its leaves.
-/

namespace MEADcast

open ParentMap

variable {α β : Type*} {args : Args} {hops : α → ℕ} {par : α → Option α} {home : β → Option α}
  {root : α}

/-! ## The zipper and the parents -/

/-- The trees hang below `p`. -/
def Hangs (par : α → Option α) (home : β → Option α) : α → Forest α β → Prop
  | _, .nil => True
  | p, .node a ls K R =>
    par a = some p ∧ (∀ l ∈ ls, home l = some a) ∧ Hangs par home a K ∧ Hangs par home p R

/-- The router `c` hangs below the innermost frame, each frame below the next one and the
last one below the root. -/
def CtxHangs (par : α → Option α) (home : β → Option α) (root : α) :
    List (Frame α β) → Forest α β → α → Prop
  | [], top, c => par c = some root ∧ Hangs par home root top
  | f :: ctx, top, c => par c = some f.lab ∧ (∀ l ∈ f.ls, home l = some f.lab) ∧
      Hangs par home f.lab f.sibs ∧ CtxHangs par home root ctx top f.lab

/-- Routers and leaves of the zipper hang where `par` and `home` say. -/
structure Spot.Hangs (par : α → Option α) (home : β → Option α) (root : α) (z : Spot α β) :
    Prop where
  ls : ∀ l ∈ z.ls, home l = some z.lab
  kids : MEADcast.Hangs par home z.lab z.kids
  ctx : CtxHangs par home root z.ctx z.top z.lab

namespace Spot

theorem Hangs.par_ne {z : Spot α β} (H : z.Hangs par home root) : par z.lab ≠ none := by
  obtain ⟨lab, ls, kids, ctx, top⟩ := z
  cases ctx with
  | nil => simp [H.ctx.1]
  | cons f ctx => simp [H.ctx.1]

theorem hangs_deepest {K : Forest α β} {a : α} {ls : List β} {ctx : List (Frame α β)}
    {top : Forest α β} (hl : ∀ l ∈ ls, home l = some a) (hK : MEADcast.Hangs par home a K)
    (hc : CtxHangs par home root ctx top a) : (deepest K a ls ctx top).Hangs par home root := by
  induction K generalizing a ls ctx with
  | nil => exact ⟨hl, trivial, hc⟩
  | node b ms L R ihL _ =>
      obtain ⟨hb, hms, hL, hR⟩ := hK
      exact ihL hms hL ⟨hb, hl, hR, hc⟩

theorem hangs_resume {ctx : List (Frame α β)} {top : Forest α β} {c : α}
    (hc : CtxHangs par home root ctx top c) {z : Spot α β} (hz : resume ctx top = some z) :
    z.Hangs par home root := by
  induction ctx generalizing c with
  | nil =>
      cases top with
      | nil => simp [resume] at hz
      | node a ls K R =>
          obtain ⟨-, ha, hls, hK, hR⟩ := hc
          obtain rfl := Option.some.inj hz
          exact hangs_deepest hls hK ⟨ha, hR⟩
  | cons f ctx ih =>
      obtain ⟨lab, ls, sibs⟩ := f
      obtain ⟨-, hls, hs, hc⟩ := hc
      cases sibs with
      | node a ms K R =>
          obtain ⟨ha, hms, hK, hR⟩ := hs
          obtain rfl := Option.some.inj hz
          exact hangs_deepest hms hK ⟨ha, hls, hR, hc⟩
      | nil =>
          simp only [resume] at hz
          split at hz
          · exact ih hc hz
          · obtain rfl := Option.some.inj hz
            exact ⟨hls, trivial, hc⟩

theorem Hangs.start {z z' : Spot α β} (H : z.Hangs par home root) (hz : z.start = some z') :
    z'.Hangs par home root := by
  obtain ⟨lab, ls, kids, ctx, top⟩ := z
  obtain ⟨hls, hk, hc⟩ := H
  cases kids with
  | node b ms L R =>
      obtain ⟨hb, hms, hL, hR⟩ := hk
      obtain rfl := Option.some.inj hz
      exact hangs_deepest hms hL ⟨hb, hls, hR, hc⟩
  | nil =>
      simp only [Spot.start] at hz
      split at hz
      · exact hangs_resume hc hz
      · obtain rfl := Option.some.inj hz
        exact ⟨hls, trivial, hc⟩

end Spot

/-! ## The open segment -/

/-- The router `d` is above the leaf `l`. -/
def Leads (par : α → Option α) (home : β → Option α) (d : α) (l : β) : Prop :=
  ∃ p, home l = some p ∧ Up par p d

/-- The router of a segment is not the root and is above the leaves of the segment; if
nothing is merged it is their parent. -/
structure Seg.Led (args : Args) (par : α → Option α) (home : β → Option α) (s : Seg α β) :
    Prop where
  par_ne : par s.router ≠ none
  above : ∀ l ∈ s.leaves, Leads par home s.router l
  direct : args.merge_range = 0 → ∀ l ∈ s.leaves, home l = some s.router

/-- Where the walk stands with respect to the open segment.  Either a router waits to take
the lead, and the walk is at it or on the way down to leaves; or the walk is at the leader
or below it. -/
inductive Last.Poised (hops : α → ℕ) (par : α → Option α) (l : Last α β) (z : Spot α β) : Prop
  | waiting (q : α) (hq : l.pcr = some q) (hlt : hops q < hops l.seg.router)
      (hup : Up par l.seg.router q) (hne : par q ≠ none)
      (hz : z.lab = q ∨ SUp par z.lab q ∧ (z.ls ≠ [] ∨ z.kids ≠ .nil))
  | leading (hq : ∀ q, l.pcr = some q → hops l.seg.router ≤ hops q)
      (hz : Up par z.lab l.seg.router)

/-! ### Adding leaves -/

/-- The router that takes the lead when leaves of `a` are added, unless the leader stays. -/
def Last.successor (hops : α → ℕ) (l : Last α β) (a : α) : Option α :=
  match l.pcr.filter fun q => hops q < hops a ∧ hops q < hops l.seg.router with
  | some q => some q
  | none => if hops a < hops l.seg.router then some a else none

/-- The waiting router takes the lead, or `a` does, or the leader stays. -/
theorem Last.extend_cases (hops : α → ℕ) (l : Last α β) (a : α) (ls : List β) :
    (∃ q, l.pcr = some q ∧ hops q < hops a ∧ hops q < hops l.seg.router ∧
      l.successor hops a = some q ∧
      l.extend hops a ls = ⟨⟨q, l.seg.leaves ++ ls⟩, none, l.init⟩) ∨
    ((∀ q, l.pcr = some q → hops q < hops a → hops l.seg.router ≤ hops q) ∧
      hops a < hops l.seg.router ∧ l.successor hops a = some a ∧
      l.extend hops a ls = ⟨⟨a, l.seg.leaves ++ ls⟩, l.pcr, l.init⟩) ∨
    ((∀ q, l.pcr = some q → hops q < hops a → hops l.seg.router ≤ hops q) ∧
      hops l.seg.router ≤ hops a ∧ l.successor hops a = none ∧
      l.extend hops a ls = ⟨⟨l.seg.router, l.seg.leaves ++ ls⟩, l.pcr, l.init⟩) := by
  cases hf : l.pcr.filter fun q => hops q < hops a ∧ hops q < hops l.seg.router with
  | some q =>
      obtain ⟨hq, hlt⟩ := Option.filter_eq_some_iff.mp hf
      simp only [decide_eq_true_eq] at hlt
      exact Or.inl ⟨q, hq, hlt.1, hlt.2, by rw [successor, hf], by rw [extend, hf]⟩
  | none =>
      have hno : ∀ q, l.pcr = some q → hops q < hops a → hops l.seg.router ≤ hops q := by
        intro q hq h1
        have := Option.filter_eq_none_iff.mp hf q hq
        simp only [decide_eq_true_eq, not_and, not_lt] at this
        exact this h1
      refine Or.inr ?_
      by_cases hlt : hops a < hops l.seg.router
      · exact Or.inl ⟨hno, hlt, by rw [successor, hf]; simp [hlt], by rw [extend, hf]; simp [hlt]⟩
      · exact Or.inr ⟨hno, by omega, by rw [successor, hf]; simp [hlt],
          by rw [extend, hf]; simp [hlt]⟩

/-- Who takes the lead. -/
theorem Last.successor_eq_some {l : Last α β} {a d : α} :
    l.successor hops a = some d ↔
      (l.pcr = some d ∧ hops d < hops a ∧ hops d < hops l.seg.router) ∨
      (d = a ∧ hops a < hops l.seg.router ∧
        ∀ q, l.pcr = some q → ¬ (hops q < hops a ∧ hops q < hops l.seg.router)) := by
  rcases l.extend_cases hops a [] with ⟨q, hq, h1, h2, hs, -⟩ | ⟨hno, hlt, hs, -⟩ | ⟨hno, hle, hs, -⟩
  · rw [hs, Option.some.injEq]
    constructor
    · rintro rfl
      exact Or.inl ⟨hq, h1, h2⟩
    · rintro (⟨hd, -⟩ | ⟨-, -, hno⟩)
      · exact Option.some.inj (hq.symm.trans hd)
      · exact absurd ⟨h1, h2⟩ (hno q hq)
  · rw [hs, Option.some.injEq]
    constructor
    · rintro rfl
      refine Or.inr ⟨rfl, hlt, fun q hq hlt' => ?_⟩
      exact absurd (hno q hq hlt'.1) (by omega)
    · rintro (⟨hd, h1, h2⟩ | ⟨rfl, -, -⟩)
      · exact absurd (hno d hd h1) (by omega)
      · rfl
  · rw [hs]
    constructor
    · simp
    · rintro (⟨hd, h1, h2⟩ | ⟨-, hlt, -⟩)
      · exact absurd (hno d hd h1) (by omega)
      · omega

/-- After leaves of the current router were added, the walk is at the leader or below it, and
the leader is above the one before. -/
theorem Last.Poised.add {l : Last α β} {z : Spot α β} (H : l.Poised hops par z)
    (hord : ∀ a p, par a = some p → hops p < hops a) (hl : par l.seg.router ≠ none)
    (ls : List β) : par (l.extend hops z.lab ls).seg.router ≠ none ∧
      Up par l.seg.router (l.extend hops z.lab ls).seg.router ∧
      Up par z.lab (l.extend hops z.lab ls).seg.router ∧
      ∀ q, (l.extend hops z.lab ls).pcr = some q →
        hops (l.extend hops z.lab ls).seg.router ≤ hops q := by
  have hle : ∀ {a b}, Up par a b → hops b ≤ hops a := fun h =>
    key_le_of_up (fun a p hp => (hord a p hp).le) h
  cases H with
  | waiting q hq hlt hup hne hz =>
      rcases l.extend_cases hops z.lab ls with ⟨q', hq', -, -, -, e⟩ | ⟨hno, hlt', -, e⟩ |
          ⟨hno, hle', -, -⟩
      · obtain rfl := Option.some.inj (hq.symm.trans hq')
        rw [e]
        refine ⟨hne, hup, ?_, by simp⟩
        rcases hz with hz | hz
        · rw [hz]
          exact Up.refl _ _
        · exact Up.of_sUp hz.1
      · -- the current router is the one that waits
        have hzq : z.lab = q := by
          refine hz.resolve_right fun hz => ?_
          obtain ⟨p, hp, hpq⟩ := SUp.iff_exists.mp hz.1
          have h1 := hord _ _ hp
          have h2 := hle hpq
          have h3 := hno q hq (by omega)
          omega
        rw [e]
        dsimp only
        rw [hzq]
        refine ⟨hne, hup, Up.refl _ _, fun q' hq' => ?_⟩
        rw [Option.some.inj (hq.symm.trans hq')]
      · -- the waiting router is closer than the leader and not further away than `z.lab`
        exfalso
        rcases hz with hz | hz
        · rw [hz] at hle'
          omega
        · obtain ⟨p, hp, hpq⟩ := SUp.iff_exists.mp hz.1
          have h1 := hord _ _ hp
          have h2 := hle hpq
          have h3 := hno q hq (by omega)
          omega
  | leading hq hz =>
      have hza := hle hz
      rcases l.extend_cases hops z.lab ls with ⟨q', hq', -, hlt, -, -⟩ | ⟨-, hlt', -, -⟩ |
          ⟨-, -, -, e⟩
      · exact absurd (hq q' hq') (by omega)
      · omega
      · rw [e]
        exact ⟨hl, Up.refl _ _, hz, hq⟩

/-- Every segment is led, and the walk stands at or below the leader of the open one, or below
the router that waits. -/
structure Pack.Led (args : Args) (hops : α → ℕ) (par : α → Option α) (home : β → Option α)
    (g : Pack α β) (z : Spot α β) : Prop where
  segs : ∀ s ∈ g.all, s.Led args par home
  poised : ∀ l, g.last = some l → l.Poised hops par z

/-- Adding leaves of the current router keeps all segments led. -/
theorem Pack.Led.add {g : Pack α β} {z : Spot α β} (H : g.Led args hops par home z)
    (hord : ∀ a p, par a = some p → hops p < hops a)
    (hln : args.merge_range = 0 → g.last = none) (hz : par z.lab ≠ none) {ls : List β}
    (hls : ∀ l ∈ ls, home l = some z.lab) (rest : List β) :
    (g.add args hops z.lab ls).Led args hops par home { z with ls := rest } := by
  have hnew : (⟨z.lab, ls⟩ : Seg α β).Led args par home :=
    ⟨hz, fun l hl => ⟨z.lab, hls l hl, Up.refl _ _⟩, fun _ => hls⟩
  obtain ⟨segs, last⟩ := g
  cases last with
  | none =>
      have hsegs : ∀ s ∈ segs, s.Led args par home := fun s hs => H.segs s (by simp [Pack.all, hs])
      by_cases h0 : args.merge_range = 0
      · refine ⟨fun s hs => ?_, fun l hl => ?_⟩
        · simp only [Pack.add, h0, if_true, Pack.all, Option.map_none, Option.toList_none,
            List.append_nil, List.mem_append, List.mem_singleton] at hs
          rcases hs with hs | rfl
          · exact hsegs s hs
          · exact hnew
        · simp [Pack.add, h0] at hl
      · refine ⟨fun s hs => ?_, fun l hl => ?_⟩
        · simp only [Pack.add, h0, if_false, Pack.all, Option.map_some, Option.toList_some,
            List.mem_append, List.mem_singleton] at hs
          rcases hs with hs | rfl
          · exact hsegs s hs
          · exact hnew
        · simp only [Pack.add, h0, if_false, Option.some.injEq] at hl
          subst hl
          exact .leading (by simp) (Up.refl _ _)
  | some l =>
      have h0 : args.merge_range ≠ 0 := fun h0 => by simpa using hln h0
      have hL := H.segs l.seg (by simp [Pack.all])
      obtain ⟨hne, hup, hzup, hq⟩ := (H.poised l rfl).add hord hL.par_ne ls
      refine ⟨fun s hs => ?_, fun l' hl' => ?_⟩
      · simp only [Pack.add, Pack.all, Option.map_some, Option.toList_some, List.mem_append,
          List.mem_singleton] at hs
        rcases hs with hs | rfl
        · exact H.segs s (by simp [Pack.all, hs])
        · refine ⟨hne, fun x hx => ?_, fun h => absurd h h0⟩
          rw [Last.extend_leaves, List.mem_append] at hx
          rcases hx with hx | hx
          · obtain ⟨p, hp, hpl⟩ := hL.above x hx
            exact ⟨p, hp, hpl.trans hup⟩
          · exact ⟨z.lab, hls x hx, hzup⟩
      · simp only [Pack.add, Option.some.injEq] at hl'
        subst hl'
        exact .leading hq hzup

namespace Plan

/-- The zipper agrees with the parents in the next pass, too. -/
theorem hangs_body {P P' : Plan α β} (H : P.spot.Hangs par home root) (G : PackOk args P.pack)
    (e : body args hops P = .inl P') : P'.spot.Hangs par home root := by
  obtain ⟨z, g, done⟩ := P
  dsimp only at H G
  obtain ⟨ls, g', full, hfill, hsub, hfull⟩ : ∃ ls g' full,
      fill args hops z g = ({ z with ls := ls }, g', full) ∧ ls ⊆ z.ls ∧ (full = false → ls = []) := by
    rcases fill_cases hops z g G with ⟨hl, e⟩ | ⟨-, -, e⟩ | ⟨-, -, taken, rest, full, hl, -, -, hf, e⟩
    · exact ⟨z.ls, _, _, e, List.Subset.refl _, fun _ => hl⟩
    · exact ⟨z.ls, _, _, e, List.Subset.refl _, by simp⟩
    · exact ⟨rest, _, full, e, by simp [hl], fun h => (hf h).1⟩
  have hz : ({ z with ls := ls } : Spot α β).Hangs par home root :=
    ⟨fun l hl => H.ls l (hsub hl), H.kids, H.ctx⟩
  refine (body_rule (I := fun P' => P'.spot.Hangs par home root) (J := fun _ => True) hfill hfull
    (fun z' hz' => hz.start hz') (fun _ => trivial) (fun b ms L rest _ hkids => ?_)
    fun f ctx _ hkids hctx => ?_).1 P' e
  · obtain ⟨hb, hms, hL, hR⟩ := hkids ▸ H.kids
    exact ⟨hms, hL, hb, by simp, hR, H.ctx⟩
  · obtain ⟨-, hls, hs, hc⟩ := hctx ▸ H.ctx
    exact ⟨hls, hs, hc⟩

/-- The first state agrees with the parents. -/
theorem hangs_first {F : Forest α β} {z : Spot α β} (hH : Hangs par home root F)
    (hz : Spot.resume [] F = some z) : z.Hangs par home root := by
  cases F with
  | nil => simp [Spot.resume] at hz
  | node a ls K R =>
      have hc : CtxHangs par home root [] (Forest.node a ls K R) a := ⟨hH.1, hH⟩
      exact Spot.hangs_resume hc hz

/-- What is kept from one pass to the next: the zipper agrees with the parents, all segments
are led, and the walk is well placed for merging if it can merge. -/
structure Led (args : Args) (hops : α → ℕ) (par : α → Option α) (home : β → Option α) (root : α)
    (P : Plan α β) : Prop where
  hangs : P.spot.Hangs par home root
  segs : ∀ s ∈ P.pack.all, s.Led args par home
  poised : P.pack.mergeable args hops P.spot.lab = true →
    ∀ l, P.pack.last = some l → l.Poised hops par P.spot
  done : ∀ g ∈ P.done, ∀ s ∈ g, s.Led args par home

variable {P : Plan α β}

/-- Filling keeps all segments led. -/
theorem Led.fill (H : P.Led args hops par home root) (G : PackOk args P.pack)
    (hord : ∀ a p, par a = some p → hops p < hops a) : ∃ ls g' full,
      fill args hops P.spot P.pack = ({ P.spot with ls := ls }, g', full) ∧
      (full = false → ls = []) ∧ ({ P.spot with ls := ls } : Spot α β).Hangs par home root ∧
      g'.Led args hops par home { P.spot with ls := ls } := by
  obtain ⟨z, g, done⟩ := P
  obtain ⟨hz, hsegs, hp, -⟩ := H
  dsimp only at hz hsegs hp G
  have H₁ : (g.ready args hops z.lab).Led args hops par home z := by
    unfold Pack.ready
    split
    · rename_i hm
      exact ⟨hsegs, hp hm⟩
    · exact ⟨by simpa using hsegs, by simp [Pack.close]⟩
  rcases fill_cases hops z g G with ⟨hl, e⟩ | ⟨-, -, e⟩ | ⟨-, -, taken, rest, full, hl, -, -, hf, e⟩
  · exact ⟨z.ls, _, _, e, fun _ => hl, hz, H₁⟩
  · exact ⟨z.ls, _, _, e, by simp, hz, H₁⟩
  · refine ⟨rest, _, full, e, fun h => (hf h).1,
      ⟨fun l hm => hz.ls l (by simp [hl, hm]), hz.kids, hz.ctx⟩, ?_⟩
    exact H₁.add hord (G.ready z.lab).last_none hz.par_ne
      (fun l hm => hz.ls l (by simp [hl, hm])) rest

/-- One pass keeps all segments led. -/
theorem Led.body (H : P.Led args hops par home root) (O : P.Ok args)
    (hord : ∀ a p, par a = some p → hops p < hops a) :
    (∀ P', body args hops P = .inl P' → P'.Led args hops par home root) ∧
      ∀ gs, body args hops P = .inr gs → ∀ g ∈ gs, ∀ s ∈ g, s.Led args par home := by
  obtain ⟨ls, g', full, e, hfull, hz, hg⟩ := H.fill O.pack hord
  have hd := H.done
  have hk := O.kids_live
  obtain ⟨z, g, done⟩ := P
  dsimp only at e hz hg hd hk
  have hdone : ∀ g₀ ∈ g'.all :: done, ∀ s ∈ g₀, s.Led args par home := by
    intro g₀ hg₀
    rcases List.mem_cons.mp hg₀ with rfl | hg₀
    · exact hg.segs
    · exact hd g₀ hg₀
  refine body_rule e hfull (fun z' hz' => ?_) (fun _ => hdone) (fun b ms L rest hf hkids => ?_)
    fun f ctx hf hkids hctx => ?_
  · exact ⟨hz.start hz', by simp, by simp [Pack.empty], hdone⟩
  · -- down to the first free child
    obtain rfl := hfull hf
    obtain ⟨lab, ls₀, kids, ctx, top⟩ := z
    subst hkids
    obtain ⟨-, ⟨hb, hms, hL, hR⟩, hctx⟩ := hz
    refine ⟨⟨hms, hL, hb, by simp, hR, hctx⟩, hg.segs, fun _ l hl => ?_, hd⟩
    cases hg.poised l hl with
    | waiting q hq hlt hup hne hz =>
        refine .waiting q hq hlt hup hne (Or.inr ⟨?_, hk.1⟩)
        rcases hz with rfl | hz
        · exact SUp.iff_exists.mpr ⟨lab, hb, Up.refl _ _⟩
        · exact Relation.TransGen.head hb hz.1
    | leading hq hz => exact .leading hq (Up.head hb hz)
  · -- up to the parent, which may wait for the lead
    obtain rfl := hfull hf
    obtain ⟨lab, ls₀, kids, ctx', top⟩ := z
    subst hkids hctx
    obtain ⟨-, -, hp, hfl, hs, hc⟩ := hz
    dsimp only at hp
    have hz' : (⟨f.lab, f.ls, f.sibs, ctx, top⟩ : Spot α β).Hangs par home root :=
      ⟨hfl, hs, hc⟩
    refine ⟨hz', by rw [Pack.all_offer]; exact hg.segs, fun hm l hl => ?_, hd⟩
    dsimp only at hm hl
    by_cases hm' : g'.mergeable args hops f.lab = true
    · simp only [Pack.offer, hm', if_true, Option.map_eq_some_iff] at hl
      obtain ⟨l₀, hl₀, rfl⟩ := hl
      have hle := hord _ _ hp
      cases hg.poised l₀ hl₀ with
      | waiting q hq hlt hup hne hz =>
          obtain rfl : lab = q := by simpa using hz
          exact .waiting f.lab rfl (by dsimp only; omega) (hup.tail hp) hz'.par_ne (Or.inl rfl)
      | leading hq hz =>
          dsimp only at hz
          rcases hz.cases_head with hz | ⟨p, hp', hz⟩
          · exact .waiting f.lab rfl (by dsimp only; rw [← hz]; omega)
              (Up.head (hz ▸ hp) (Up.refl _ _)) hz'.par_ne (Or.inl rfl)
          · obtain rfl := Option.some.inj (hp.symm.trans hp')
            refine .leading (fun q hq => ?_) hz
            obtain rfl := Option.some.inj hq
            exact key_le_of_up (fun a p hp => (hord a p hp).le) hz
    · rw [Pack.offer, if_neg hm'] at hm
      exact absurd hm hm'

/-- In a forest whose hop counts grow away from the root, every segment of every group is led
by a router above its leaves. -/
theorem Groups.led {F : Forest α β} {gs : List (List (Seg α β))} (h : Groups args hops F gs)
    (hF : F.Live) (hH : Hangs par home root F)
    (hord : ∀ a p, par a = some p → hops p < hops a) :
    ∀ g ∈ gs, ∀ s ∈ g, s.Led args par home := by
  unfold Groups at h
  cases hz : Spot.resume [] F with
  | none =>
      rw [hz] at h
      simp [h]
  | some z =>
      rw [hz] at h
      exact h.invariant (fun P => P.Ok args ∧ P.Led args hops par home root)
        (fun gs => ∀ g ∈ gs, ∀ s ∈ g, s.Led args par home)
        ⟨ok_start hF hz, hangs_first hH hz, by simp, by simp [Pack.empty], by simp⟩
        (fun P P' H e => ⟨((body_spec P H.1).1 P' e).1, (H.2.body H.1 hord).1 P' e⟩)
        fun P gs H e => (H.2.body H.1 hord).2 gs e

end Plan

end MEADcast
