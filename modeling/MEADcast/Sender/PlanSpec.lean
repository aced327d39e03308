import MEADcast.Sender.Plan
import Mathlib.Algebra.Order.Group.Multiset
import Mathlib.Data.Prod.Lex
import Mathlib.Tactic.Abel

/-!
# Correctness of the grouping

Every leaf below the root ends up in exactly one segment, every group respects the size
limit, and the main loop ends.  The argument is one invariant of the loop, `Plan.Ok`, one
conserved multiset, `Plan.leaves`, and one measure.

## Main definitions

* `Pack.ready`, `Pack.slot` — the group and the position of a router whose leaves come next.
* `Plan.Ok` — what every pass of the loop keeps.

## Main results

* `Plan.fill_cases`, `Plan.body_rule` — what a pass does, for all invariants of the loop.
* `Plan.exists_groups` — the groups exist and partition the leaves.
-/

namespace MEADcast

variable {α β : Type*} {args : Args} {hops : α → ℕ}

/-! ## What is still free -/

/-- The free leaves of a frame. -/
def Frame.free (f : Frame α β) : Multiset β := ↑f.ls + ↑f.sibs.leaves

/-- The free leaves above and behind the current router. -/
def ctxFree (ctx : List (Frame α β)) (top : Forest α β) : Multiset β :=
  (ctx.map Frame.free).sum + ↑top.leaves

/-- All free leaves. -/
def Spot.free (z : Spot α β) : Multiset β := ↑z.ls + ↑z.kids.leaves + ctxFree z.ctx z.top

/-- The number of routers above and behind the current one. -/
def ctxRouters (ctx : List (Frame α β)) (top : Forest α β) : ℕ :=
  (ctx.map fun f => f.sibs.labs.length + 1).sum + top.labs.length

/-- The number of routers that are not done. -/
def Spot.routers (z : Spot α β) : ℕ := z.kids.labs.length + 1 + ctxRouters z.ctx z.top

/-- Everything above and behind the current router is live. -/
def CtxLive (ctx : List (Frame α β)) (top : Forest α β) : Prop :=
  (∀ f ∈ ctx, f.sibs.Live) ∧ top.Live

@[simp] theorem ctxFree_cons (f : Frame α β) (ctx : List (Frame α β)) (top : Forest α β) :
    ctxFree (f :: ctx) top = f.free + ctxFree ctx top := by
  simp [ctxFree, add_assoc]

@[simp] theorem ctxRouters_cons (f : Frame α β) (ctx : List (Frame α β)) (top : Forest α β) :
    ctxRouters (f :: ctx) top = f.sibs.labs.length + 1 + ctxRouters ctx top := by
  simp [ctxRouters, add_assoc]

theorem ctxLive_cons {f : Frame α β} {ctx : List (Frame α β)} {top : Forest α β} :
    CtxLive (f :: ctx) top ↔ f.sibs.Live ∧ CtxLive ctx top := by
  simp [CtxLive, and_assoc]

namespace Spot

/-- Descending to the deepest router loses nothing and ends at a router with leaves. -/
theorem deepest_spec (K : Forest α β) (a : α) (ls : List β) (ctx : List (Frame α β))
    (top : Forest α β) :
    (deepest K a ls ctx top).free = ↑ls + ↑K.leaves + ctxFree ctx top ∧
      (deepest K a ls ctx top).routers = K.labs.length + 1 + ctxRouters ctx top ∧
      (K.Live → CtxLive ctx top → (ls ≠ [] ∨ K ≠ .nil) →
        (deepest K a ls ctx top).kids = .nil ∧
          CtxLive (deepest K a ls ctx top).ctx (deepest K a ls ctx top).top ∧
          (deepest K a ls ctx top).ls ≠ []) := by
  induction K generalizing a ls ctx with
  | nil =>
      refine ⟨rfl, rfl, fun _ hc hl => ⟨rfl, hc, hl.resolve_right (by simp)⟩⟩
  | node b ms L rest ihL _ =>
      obtain ⟨h1, h2, h3⟩ := ihL b ms (⟨a, ls, rest⟩ :: ctx)
      refine ⟨?_, ?_, fun hK hc _ => ?_⟩
      · rw [deepest, h1]
        simp only [ctxFree_cons, Frame.free, Forest.leaves, ← Multiset.coe_add]
        abel
      · rw [deepest, h2]
        simp only [ctxRouters_cons, Forest.labs, List.length_cons, List.length_append]
        omega
      · exact h3 hK.2.1 (ctxLive_cons.mpr ⟨hK.2.2, hc⟩) hK.1

/-- Resuming loses nothing but routers that are done. -/
theorem resume_spec (ctx : List (Frame α β)) (top : Forest α β) :
    (resume ctx top = none → ctxFree ctx top = 0) ∧
      ∀ z, resume ctx top = some z → z.free = ctxFree ctx top ∧
        z.routers ≤ ctxRouters ctx top ∧
        (CtxLive ctx top → z.kids.Live ∧ CtxLive z.ctx z.top ∧ z.ls ≠ []) := by
  induction ctx with
  | nil =>
      cases top with
      | nil => simp [resume, ctxFree]
      | node a ls K rest =>
          obtain ⟨h1, h2, h3⟩ := deepest_spec K a ls [] rest
          refine ⟨by simp [resume], ?_⟩
          rintro z hz
          obtain rfl := Option.some.inj hz
          refine ⟨?_, ?_, fun hc => ?_⟩
          · rw [h1]
            simp only [ctxFree, Forest.leaves, ← Multiset.coe_add, List.map_nil, List.sum_nil]
            abel
          · rw [h2]
            simp only [ctxRouters, List.map_nil, List.sum_nil, Forest.labs, List.length_cons,
              List.length_append]
            omega
          · obtain ⟨h4, h5, h6⟩ := h3 hc.2.2.1 ⟨by simp, hc.2.2.2⟩ hc.2.1
            exact ⟨by rw [h4]; trivial, h5, h6⟩
  | cons f ctx ih =>
      obtain ⟨lab, fls, sibs⟩ := f
      cases sibs with
      | node a ls K rest =>
          obtain ⟨h1, h2, h3⟩ := deepest_spec K a ls (⟨lab, fls, rest⟩ :: ctx) top
          refine ⟨by simp [resume], ?_⟩
          rintro z hz
          obtain rfl := Option.some.inj hz
          refine ⟨?_, ?_, fun hc => ?_⟩
          · rw [h1]
            simp only [ctxFree_cons, Frame.free, Forest.leaves, ← Multiset.coe_add]
            abel
          · rw [h2]
            simp only [ctxRouters_cons, Forest.labs, List.length_cons, List.length_append]
            omega
          · obtain ⟨hs, hc⟩ := ctxLive_cons.mp hc
            obtain ⟨h4, h5, h6⟩ := h3 hs.2.1 (ctxLive_cons.mpr ⟨hs.2.2, hc⟩) hs.1
            exact ⟨by rw [h4]; trivial, h5, h6⟩
      | nil =>
          obtain ⟨ih1, ih2⟩ := ih
          by_cases hf : fls = []
          · subst hf
            simp only [resume, if_true]
            refine ⟨fun h => by simp [Frame.free, ih1 h], fun z hz => ?_⟩
            obtain ⟨h1, h2, h3⟩ := ih2 z hz
            refine ⟨by simp [Frame.free, h1], by simp; omega, fun hc => ?_⟩
            exact h3 (ctxLive_cons.mp hc).2
          · simp only [resume, hf, if_false]
            refine ⟨by simp, fun z hz => ?_⟩
            obtain rfl := Option.some.inj hz
            refine ⟨by simp [free, Frame.free], by simp [routers], fun hc => ?_⟩
            exact ⟨trivial, (ctxLive_cons.mp hc).2, hf⟩

/-- Starting again loses nothing but routers that are done. -/
theorem start_spec (z : Spot α β) :
    (z.start = none → z.free = 0) ∧
      ∀ z', z.start = some z' → z'.free = z.free ∧ z'.routers ≤ z.routers ∧
        (z.kids.Live → CtxLive z.ctx z.top → z'.kids.Live ∧ CtxLive z'.ctx z'.top ∧ z'.ls ≠ []) := by
  obtain ⟨lab, ls, kids, ctx, top⟩ := z
  cases kids with
  | node b ms L rest =>
      obtain ⟨h1, h2, h3⟩ := deepest_spec L b ms (⟨lab, ls, rest⟩ :: ctx) top
      refine ⟨by simp [start], fun z' hz => ?_⟩
      obtain rfl := Option.some.inj hz
      refine ⟨?_, ?_, fun hk hc => ?_⟩
      · rw [h1]
        simp only [free, ctxFree_cons, Frame.free, Forest.leaves, ← Multiset.coe_add]
        abel
      · rw [h2]
        simp only [routers, ctxRouters_cons, Forest.labs, List.length_cons, List.length_append]
        omega
      · obtain ⟨h4, h5, h6⟩ := h3 hk.2.1 (ctxLive_cons.mpr ⟨hk.2.2, hc⟩) hk.1
        exact ⟨by rw [h4]; trivial, h5, h6⟩
  | nil =>
      by_cases hl : ls = []
      · subst hl
        obtain ⟨h1, h2⟩ := resume_spec ctx top
        simp only [start, if_true]
        refine ⟨fun h => ?_, fun z' hz => ?_⟩
        · simp [free, h1 h]
        · obtain ⟨h3, h4, h5⟩ := h2 z' hz
          refine ⟨h3.trans (by simp [free]), h4.trans ?_, fun _ hc => h5 hc⟩
          simp [routers]
      · simp only [start, hl, if_false]
        refine ⟨by simp, fun z' hz => ?_⟩
        obtain rfl := Option.some.inj hz
        exact ⟨rfl, le_rfl, fun hk hc => ⟨hk, hc, hl⟩⟩

end Spot

/-! ## The group being filled -/

/-- The leaves in a list of segments. -/
def segLeaves (g : List (Seg α β)) : Multiset β := (g.map fun s => (↑s.leaves : Multiset β)).sum

@[simp] theorem segLeaves_nil : segLeaves ([] : List (Seg α β)) = 0 := rfl

@[simp] theorem segLeaves_cons (s : Seg α β) (g : List (Seg α β)) :
    segLeaves (s :: g) = ↑s.leaves + segLeaves g := by
  simp [segLeaves]

@[simp] theorem segLeaves_append (g g' : List (Seg α β)) :
    segLeaves (g ++ g') = segLeaves g + segLeaves g' := by
  simp [segLeaves]

theorem mem_segLeaves {g : List (Seg α β)} {l : β} :
    l ∈ segLeaves g ↔ ∃ s ∈ g, l ∈ s.leaves := by
  induction g with
  | nil => simp
  | cons s g ih => simp [ih]

/-- A list of segments as it may become a group: it has segments, each with leaves, and
respects the size limit. -/
structure GroupOk (args : Args) (g : List (Seg α β)) : Prop where
  ne_nil : g ≠ []
  leaves_ne_nil : ∀ s ∈ g, s.leaves ≠ []
  size_le : segSize g ≤ args.limit

theorem Args.limit_eq (args : Args) : args.limit = min args.max_addrs 32 := by
  have h : bitmapLimit = 32 := rfl
  unfold limit
  split <;> omega

theorem Args.limit_le (args : Args) : args.limit ≤ 32 := by
  rw [args.limit_eq]
  exact min_le_right _ _

theorem Args.two_le_limit (args : Args) : 2 ≤ args.limit := by
  rw [args.limit_eq]
  exact le_min args.two_le_max_addrs (by decide)

/-- The leader of the last segment after it was extended. -/
theorem Last.extend_leaves (hops : α → ℕ) (l : Last α β) (a : α) (ls : List β) :
    (l.extend hops a ls).seg.leaves = l.seg.leaves ++ ls := by
  unfold extend
  split
  · rfl
  · split <;> rfl

namespace Pack

variable {g : Pack α β}

@[simp] theorem all_empty : (empty : Pack α β).all = [] := rfl

@[simp] theorem all_close : g.close.all = g.all := by simp [close, all]

theorem size_eq : g.size = segSize g.all := rfl

@[simp] theorem all_offer (a : α) : (g.offer args hops a).all = g.all := by
  obtain ⟨segs, last⟩ := g
  unfold offer
  split
  · cases last <;> rfl
  · rfl

theorem last_offer (a : α) : (g.offer args hops a).last = none ↔ g.last = none := by
  obtain ⟨segs, last⟩ := g
  unfold offer
  split
  · cases last <;> simp
  · rfl

/-- The group after leaves of `a` were added; `p` is the position its router takes. -/
theorem add_spec (args : Args) (hops : α → ℕ) (g : Pack α β) (a : α) (ls : List β) :
    segLeaves (g.add args hops a ls).all = segLeaves g.all + ↑ls ∧
      segSize (g.add args hops a ls).all =
        segSize g.all + ls.length + (if g.last = none then 1 else 0) ∧
      (g.add args hops a ls).all ≠ [] ∧
      (ls ≠ [] → (∀ s ∈ g.all, s.leaves ≠ []) → ∀ s ∈ (g.add args hops a ls).all, s.leaves ≠ []) ∧
      ((args.merge_range = 0 → g.last = none) →
        args.merge_range = 0 → (g.add args hops a ls).last = none) := by
  obtain ⟨segs, last⟩ := g
  cases last with
  | some l =>
      have hx := Last.extend_leaves hops l a ls
      refine ⟨?_, ?_, by simp [add, all], fun hl hs s hm => ?_, fun h h0 => by simpa using h h0⟩
      · simp [add, all, hx, ← Multiset.coe_add, add_assoc]
      · simp [add, all, hx]
        omega
      · simp only [add, all, Option.map_some, Option.toList_some, List.mem_append,
          List.mem_singleton] at hm
        rcases hm with hm | rfl
        · exact hs s (by simp [all, hm])
        · rw [hx]
          simp [hl]
  | none =>
      by_cases hr : args.merge_range = 0
      · simp only [add, hr, if_true, all]
        refine ⟨by simp, by simp [Nat.add_assoc], by simp, fun hl hs s hm => ?_, by simp⟩
        simp only [Option.map_none, Option.toList_none, List.append_nil, List.mem_append,
          List.mem_singleton] at hm
        rcases hm with hm | rfl
        · exact hs s (by simp [hm])
        · exact hl
      · simp only [add, hr, if_false, all]
        refine ⟨by simp, by simp [Nat.add_assoc], by simp, fun hl hs s hm => ?_,
          fun _ h0 => absurd h0 (by simp)⟩
        simp only [Option.map_some, Option.toList_some, List.mem_append,
          List.mem_singleton] at hm
        rcases hm with hm | rfl
        · exact hs s (by simp [hm])
        · exact hl

/-- Only an open last segment can be merged with. -/
theorem last_of_mergeable {a : α} (h : g.mergeable args hops a = true) : g.last ≠ none := by
  intro hl
  simp [mergeable, hl] at h

/-- The group when leaves of `a` come next: its last segment is closed unless they can join it. -/
def ready (args : Args) (hops : α → ℕ) (g : Pack α β) (a : α) : Pack α β :=
  if g.mergeable args hops a then g else g.close

/-- The number of positions that `a` itself takes then. -/
def slot (args : Args) (hops : α → ℕ) (g : Pack α β) (a : α) : ℕ :=
  if g.mergeable args hops a then 0 else 1

variable {a : α}

@[simp] theorem all_ready : (g.ready args hops a).all = g.all := by
  unfold ready
  split <;> simp

theorem slot_eq : g.slot args hops a = if (g.ready args hops a).last = none then 1 else 0 := by
  unfold slot ready
  split
  · rename_i hm
    rw [if_neg (last_of_mergeable hm)]
  · simp [close]

theorem slot_le (args : Args) (hops : α → ℕ) (g : Pack α β) (a : α) : g.slot args hops a ≤ 1 := by
  unfold slot
  split <;> decide

end Pack

/-! ## One pass -/

namespace Plan

/-- A group being filled when a router is about to be visited. -/
structure PackOk (args : Args) (g : Pack α β) : Prop where
  room : segSize g.all + 2 ≤ args.limit
  leaves_ne_nil : ∀ s ∈ g.all, s.leaves ≠ []
  last_none : args.merge_range = 0 → g.last = none

theorem packOk_empty : PackOk args (Pack.empty : Pack α β) where
  room := by simpa using args.two_le_limit
  leaves_ne_nil s hs := by simp at hs
  last_none _ := rfl

theorem PackOk.ready {g : Pack α β} (G : PackOk args g) (a : α) :
    PackOk args (g.ready args hops a) := by
  refine ⟨by simpa using G.room, by simpa using G.leaves_ne_nil, fun h0 => ?_⟩
  unfold Pack.ready
  split
  · exact G.last_none h0
  · rfl

/-- There is room for leaves of the current router: all of them, or they are split. -/
def Room (args : Args) (hops : α → ℕ) (z : Spot α β) (g : Pack α β) : Prop :=
  segSize g.all + z.ls.length + (if g.mergeable args hops z.lab then 0 else 1) ≤ args.limit ∨
    args.limit ≤ z.ls.length ∨ args.split_nodes = true

theorem fill_eq (hops : α → ℕ) (z : Spot α β) (g : Pack α β) : fill args hops z g =
    if z.ls = [] then (z, g.ready args hops z.lab, false)
    else if args.limit < segSize g.all + z.ls.length + g.slot args hops z.lab then
      if args.limit ≤ z.ls.length ∨ args.split_nodes = true then
        ({ z with ls := z.ls.drop (args.limit - segSize g.all - g.slot args hops z.lab) },
          (g.ready args hops z.lab).add args hops z.lab
            (z.ls.take (args.limit - segSize g.all - g.slot args hops z.lab)), true)
      else (z, g.ready args hops z.lab, true)
    else
      ({ z with ls := [] }, (g.ready args hops z.lab).add args hops z.lab z.ls,
        decide (args.limit - 1 ≤ segSize g.all + z.ls.length + g.slot args hops z.lab ∨
          args.ok_addrs ≤ segSize g.all + z.ls.length + g.slot args hops z.lab)) := by
  have hsize : (g.ready args hops z.lab).size = segSize g.all := by
    rw [Pack.size_eq, Pack.all_ready]
  rw [← hsize]
  rfl

/-- What filling does: nothing, or the group is complete as it is, or leaves are added. -/
theorem fill_cases (hops : α → ℕ) (z : Spot α β) (g : Pack α β) (G : PackOk args g) :
    (z.ls = [] ∧ fill args hops z g = (z, g.ready args hops z.lab, false)) ∨
    (z.ls ≠ [] ∧ ¬ Room args hops z g ∧ fill args hops z g = (z, g.ready args hops z.lab, true)) ∨
    (z.ls ≠ [] ∧ Room args hops z g ∧ ∃ taken rest full, z.ls = taken ++ rest ∧ taken ≠ [] ∧
      segSize g.all + taken.length + g.slot args hops z.lab ≤ args.limit ∧
      (full = false → rest = [] ∧
        segSize g.all + taken.length + g.slot args hops z.lab + 2 ≤ args.limit) ∧
      fill args hops z g = ({ z with ls := rest },
        (g.ready args hops z.lab).add args hops z.lab taken, full)) := by
  have hroom := G.room
  have hslot := g.slot_le args hops z.lab
  have hR : Room args hops z g ↔ segSize g.all + z.ls.length + g.slot args hops z.lab ≤ args.limit ∨
      args.limit ≤ z.ls.length ∨ args.split_nodes = true := Iff.rfl
  rw [fill_eq, hR]
  by_cases hl : z.ls = []
  · exact Or.inl ⟨hl, by rw [if_pos hl]⟩
  rw [if_neg hl]
  have hpos := List.length_pos_of_ne_nil hl
  refine Or.inr ?_
  by_cases hbig : args.limit < segSize g.all + z.ls.length + g.slot args hops z.lab
  · rw [if_pos hbig]
    by_cases hsplit : args.limit ≤ z.ls.length ∨ args.split_nodes = true
    · rw [if_pos hsplit]
      refine Or.inr ⟨hl, Or.inr hsplit, _, _, true, (List.take_append_drop
        (args.limit - segSize g.all - g.slot args hops z.lab) z.ls).symm, ?_, ?_, by simp, rfl⟩
      · intro he
        have := congrArg List.length he
        simp only [List.length_take, List.length_nil] at this
        omega
      · rw [List.length_take]
        omega
    · rw [if_neg hsplit]
      refine Or.inl ⟨hl, ?_, rfl⟩
      rintro (h | h)
      · omega
      · exact hsplit h
  · rw [if_neg hbig]
    refine Or.inr ⟨hl, Or.inl (by omega), z.ls, [], _, by simp, hl, by omega, fun hf => ⟨rfl, ?_⟩, rfl⟩
    have := of_decide_eq_false hf
    omega

/-- What filling does at router `z` to the group `g`. -/
structure Filled (args : Args) (z : Spot α β) (g : Pack α β) (ls : List β) (g' : Pack α β)
    (full : Bool) : Prop where
  free : (↑ls : Multiset β) + segLeaves g'.all = ↑z.ls + segLeaves g.all
  all_ne_nil : g'.all ≠ []
  leaves_ne_nil : ∀ s ∈ g'.all, s.leaves ≠ []
  last_none : args.merge_range = 0 → g'.last = none
  size_le : segSize g'.all ≤ args.limit
  room : full = false → ls = [] ∧ segSize g'.all + 2 ≤ args.limit
  progress : ls.length < z.ls.length ∨ (ls = z.ls ∧ g'.all = g.all ∧ (full = true ∨ z.ls = []))

/-- The leaves that filling leaves behind, the group and the flag. -/
theorem fill_spec (hops : α → ℕ) (z : Spot α β) (g : Pack α β) (G : PackOk args g)
    (hs : g.all = [] → z.ls ≠ []) : ∃ ls g' full,
      fill args hops z g = ({ z with ls := ls }, g', full) ∧ Filled args z g ls g' full := by
  have hroom := G.room
  have hslot := g.slot_le args hops z.lab
  have R : PackOk args (g.ready args hops z.lab) := G.ready z.lab
  have hall : (g.ready args hops z.lab).all = g.all := Pack.all_ready
  rcases fill_cases hops z g G with ⟨hl, e⟩ | ⟨hl, hno, e⟩ |
      ⟨hl, -, taken, rest, full, hls, hne, hfit, hfull, e⟩
  · exact ⟨z.ls, _, _, e, by rw [hall], fun h => hs (hall ▸ h) hl, R.leaves_ne_nil, R.last_none,
      by rw [hall]; omega, fun _ => ⟨hl, R.room⟩, Or.inr ⟨rfl, hall, Or.inr hl⟩⟩
  · refine ⟨z.ls, _, _, e, by rw [hall], fun h => hno ?_, R.leaves_ne_nil, R.last_none,
      by rw [hall]; omega, by simp, Or.inr ⟨rfl, hall, Or.inl rfl⟩⟩
    -- the leaves of one router fit into an empty group, or they are split
    rw [hall] at h
    by_cases hlt : z.ls.length < args.limit
    · refine Or.inl ?_
      change segSize g.all + z.ls.length + g.slot args hops z.lab ≤ args.limit
      simp only [h, segSize_nil]
      omega
    · exact Or.inr (Or.inl (by omega))
  · obtain ⟨h1, h2, h3, h4, h5⟩ := Pack.add_spec args hops (g.ready args hops z.lab) z.lab taken
    rw [hall, ← Pack.slot_eq] at h2
    rw [hall] at h1
    refine ⟨rest, _, full, e, ?_, h3, h4 hne R.leaves_ne_nil, h5 R.last_none, by omega,
      fun hf => ⟨(hfull hf).1, by have := (hfull hf).2; omega⟩, Or.inl ?_⟩
    · rw [h1, hls, ← Multiset.coe_add]
      abel
    · have := List.length_pos_of_ne_nil hne
      rw [hls, List.length_append]
      omega

/-- A rule for one pass, given what filling did: with a complete group the loop starts again or
stops; else it goes down to the first free child or up to the parent. -/
theorem body_rule {I : Plan α β → Prop} {J : List (List (Seg α β)) → Prop} {z : Spot α β}
    {g g' : Pack α β} {done : List (List (Seg α β))} {ls : List β} {full : Bool}
    (e : fill args hops z g = ({ z with ls := ls }, g', full)) (hfull : full = false → ls = [])
    (again : ∀ z', ({ z with ls := ls } : Spot α β).start = some z' →
      I ⟨z', .empty, g'.all :: done⟩)
    (stop : ({ z with ls := ls } : Spot α β).start = none → J (g'.all :: done))
    (down : ∀ b ms L rest, full = false → z.kids = .node b ms L rest →
      I ⟨⟨b, ms, L, ⟨z.lab, [], rest⟩ :: z.ctx, z.top⟩, g', done⟩)
    (up : ∀ f ctx, full = false → z.kids = .nil → z.ctx = f :: ctx →
      I ⟨⟨f.lab, f.ls, f.sibs, ctx, z.top⟩, g'.offer args hops f.lab, done⟩) :
    (∀ P', body args hops ⟨z, g, done⟩ = .inl P' → I P') ∧
      ∀ gs, body args hops ⟨z, g, done⟩ = .inr gs → J gs := by
  have finish : turn args hops z g = .finish ({ z with ls := ls } : Spot α β).start g' →
      (∀ P', body args hops ⟨z, g, done⟩ = .inl P' → I P') ∧
        ∀ gs, body args hops ⟨z, g, done⟩ = .inr gs → J gs := by
    intro ht
    simp only [body, ht]
    cases hs : ({ z with ls := ls } : Spot α β).start with
    | none => exact ⟨by simp, fun gs hgs => Sum.inr.inj hgs ▸ stop hs⟩
    | some z' => exact ⟨fun P' hP' => Sum.inl.inj hP' ▸ again z' hs, by simp⟩
  cases full with
  | true => exact finish (by simp only [turn, e])
  | false =>
      obtain rfl := hfull rfl
      have hturn : turn args hops z g = move args hops { z with ls := [] } g' := by
        simp only [turn, e]
      obtain ⟨lab, ls₀, kids, ctx, top⟩ := z
      cases kids with
      | node b ms L rest =>
          simp only [body, hturn, move]
          exact ⟨fun P' hP' => Sum.inl.inj hP' ▸ down b ms L rest rfl rfl, by simp⟩
      | nil =>
          cases ctx with
          | nil => exact finish hturn
          | cons f ctx =>
              simp only [body, hturn, move]
              exact ⟨fun P' hP' => Sum.inl.inj hP' ▸ up f ctx rfl rfl rfl, by simp⟩

/-- What is kept from one pass to the next. -/
structure Ok (args : Args) (P : Plan α β) : Prop where
  kids_live : P.spot.kids.Live
  ctx_live : CtxLive P.spot.ctx P.spot.top
  pack : PackOk args P.pack
  starts : P.pack.all = [] → P.spot.ls ≠ []
  done : ∀ g ∈ P.done, GroupOk args g

/-- The leaves of complete groups. -/
def doneLeaves (gs : List (List (Seg α β))) : Multiset β := (gs.map segLeaves).sum

/-- All leaves the loop deals with. -/
def leaves (P : Plan α β) : Multiset β :=
  P.spot.free + segLeaves P.pack.all + doneLeaves P.done

@[simp] theorem doneLeaves_cons (g : List (Seg α β)) (gs : List (List (Seg α β))) :
    doneLeaves (g :: gs) = segLeaves g + doneLeaves gs := by
  simp [doneLeaves]

theorem mem_doneLeaves {gs : List (List (Seg α β))} {l : β} :
    l ∈ doneLeaves gs ↔ ∃ g ∈ gs, ∃ s ∈ g, l ∈ s.leaves := by
  induction gs with
  | nil => simp [doneLeaves]
  | cons g gs ih => simp [ih, mem_segLeaves]

/-- The measure of the main loop: leaves and routers to come, whether a group is open, and
the size of what is below the current router. -/
def measure (P : Plan α β) : ℕ ×ₗ ℕ :=
  toLex (2 * (P.spot.free.card + P.spot.routers) + (if P.pack.all = [] then 0 else 1),
    P.spot.kids.labs.length)

theorem lt_of_first {a b c d : ℕ} (h : a < b) : toLex (a, c) < toLex (b, d) :=
  Prod.Lex.toLex_lt_toLex.mpr (Or.inl h)

theorem card_free (z : Spot α β) (ls : List β) :
    ({ z with ls := ls } : Spot α β).free.card + z.ls.length = z.free.card + ls.length := by
  simp only [Spot.free, Multiset.card_add, Multiset.coe_card]
  omega

namespace Filled

variable {z z' : Spot α β} {g g' g'' : Pack α β} {done : List (List (Seg α β))} {ls : List β} {full : Bool}
  (Fl : Filled args z g ls g' full)

include Fl

theorem free_add : ({ z with ls := ls } : Spot α β).free + segLeaves g'.all = z.free + segLeaves g.all := by
  have := Fl.free
  calc ({ z with ls := ls } : Spot α β).free + segLeaves g'.all
      = ↑ls + segLeaves g'.all + ↑z.kids.leaves + ctxFree z.ctx z.top := by
        simp only [Spot.free]; abel
    _ = z.free + segLeaves g.all := by rw [this]; simp only [Spot.free]; abel

/-- A pass that adds nothing finds a group that is already open. -/
theorem length_lt_or : ls.length < z.ls.length ∨
    (ls.length = z.ls.length ∧ (if g.all = [] then 0 else 1) = 1) := by
  rcases Fl.progress with h | ⟨h1, h2, -⟩
  · exact Or.inl h
  · exact Or.inr ⟨by rw [h1], h2 ▸ if_neg Fl.all_ne_nil⟩

theorem groupOk (hd : ∀ g ∈ done, GroupOk args g) : ∀ g₀ ∈ g'.all :: done, GroupOk args g₀ := by
  intro g₀ hg₀
  rcases List.mem_cons.mp hg₀ with rfl | hg₀
  · exact ⟨Fl.all_ne_nil, Fl.leaves_ne_nil, Fl.size_le⟩
  · exact hd g₀ hg₀

/-- The walk goes on with the same group. -/
theorem go (hd : ∀ g ∈ done, GroupOk args g) (hf : full = false) (hall : g''.all = g'.all)
    (hlast : g''.last = none ↔ g'.last = none) (hfree : z'.free = ({ z with ls := ls } : Spot α β).free)
    (hk : z'.kids.Live) (hc : CtxLive z'.ctx z'.top)
    (hr : z'.routers < z.routers ∨ z'.routers = z.routers ∧ z'.kids.labs.length < z.kids.labs.length) :
    (⟨z', g'', done⟩ : Plan α β).Ok args ∧ leaves ⟨z', g'', done⟩ = leaves ⟨z, g, done⟩ ∧
      measure ⟨z', g'', done⟩ < measure ⟨z, g, done⟩ := by
  have hcard := card_free z ls
  refine ⟨⟨hk, hc, ⟨by rw [hall]; exact (Fl.room hf).2, by rw [hall]; exact Fl.leaves_ne_nil,
    fun h0 => hlast.mpr (Fl.last_none h0)⟩, fun h => absurd (hall ▸ h) Fl.all_ne_nil, hd⟩, ?_, ?_⟩
  · simp only [leaves, hall, hfree, Fl.free_add]
  · have hflag : (if g'.all = [] then 0 else 1) = 1 := if_neg Fl.all_ne_nil
    simp only [measure, hall, hflag, hfree]
    rcases Fl.length_lt_or with hlt | ⟨heq, h1⟩
    · refine lt_of_first ?_
      rcases hr with h | ⟨h, -⟩ <;> omega
    · rw [h1]
      rcases hr with h | ⟨h, h'⟩
      · exact lt_of_first (by omega)
      · refine Prod.Lex.toLex_lt_toLex.mpr (Or.inr ⟨?_, h'⟩)
        dsimp only
        omega

/-- The group is complete, and the walk starts again. -/
theorem again (hd : ∀ g ∈ done, GroupOk args g) (hk : z.kids.Live) (hc : CtxLive z.ctx z.top)
    (hz' : ({ z with ls := ls } : Spot α β).start = some z') :
    (⟨z', .empty, g'.all :: done⟩ : Plan α β).Ok args ∧
      leaves ⟨z', .empty, g'.all :: done⟩ = leaves ⟨z, g, done⟩ ∧
      measure ⟨z', .empty, g'.all :: done⟩ < measure ⟨z, g, done⟩ := by
  have hcard := card_free z ls
  obtain ⟨h1, h2, h3⟩ := (Spot.start_spec ({ z with ls := ls } : Spot α β)).2 z' hz'
  obtain ⟨h4, h5, h6⟩ := h3 hk hc
  refine ⟨⟨h4, h5, packOk_empty, fun _ => h6, Fl.groupOk hd⟩, ?_, lt_of_first ?_⟩
  · simp only [leaves, Pack.all_empty, segLeaves_nil, add_zero, doneLeaves_cons, h1, ← add_assoc,
      Fl.free_add]
  · have hr : ({ z with ls := ls } : Spot α β).routers = z.routers := rfl
    rw [hr] at h2
    simp only [h1, Pack.all_empty, if_true]
    rcases Fl.length_lt_or with hlt | ⟨heq, h7⟩ <;> omega

end Filled

/-- A pass keeps the invariant and all leaves and decreases the measure, and the last pass
leaves nothing free. -/
theorem body_spec (P : Plan α β) (H : P.Ok args) :
    (∀ P', body args hops P = .inl P' →
      P'.Ok args ∧ P'.leaves = P.leaves ∧ P'.measure < P.measure) ∧
    ∀ gs, body args hops P = .inr gs →
      doneLeaves gs = P.leaves ∧ ∀ g ∈ gs, GroupOk args g := by
  obtain ⟨z, g, done⟩ := P
  obtain ⟨hk, hc, G, hs, hd⟩ := H
  dsimp only at hk hc G hs hd
  obtain ⟨ls, g', full, e, Fl⟩ := fill_spec hops z g G hs
  refine body_rule e (fun hf => (Fl.room hf).1) (fun z' hz' => Fl.again hd hk hc hz')
    (fun hno => ⟨?_, Fl.groupOk hd⟩) (fun b ms L rest hf hkids => ?_) fun f ctx hf hkids hctx => ?_
  · have h0 := Fl.free_add
    rw [(Spot.start_spec ({ z with ls := ls } : Spot α β)).1 hno, zero_add] at h0
    simp [leaves, h0]
  · -- down to the first child that is free
    obtain rfl := (Fl.room hf).1
    obtain ⟨lab, ls₀, kids, ctx, top⟩ := z
    subst hkids
    refine Fl.go hd hf rfl Iff.rfl ?_ hk.2.1 (ctxLive_cons.mpr ⟨hk.2.2, hc⟩) (Or.inr ⟨?_, ?_⟩)
    · simp only [Spot.free, ctxFree_cons, Frame.free, Forest.leaves, ← Multiset.coe_add,
        Multiset.coe_nil]
      abel
    · simp only [Spot.routers, ctxRouters_cons, Forest.labs, List.length_cons,
        List.length_append]
      omega
    · simp only [Forest.labs, List.length_cons, List.length_append]
      omega
  · -- up to the parent
    obtain rfl := (Fl.room hf).1
    obtain ⟨lab, ls₀, kids, ctx', top⟩ := z
    subst hkids hctx
    refine Fl.go hd hf (Pack.all_offer _) (Pack.last_offer _) ?_
      (ctxLive_cons.mp hc).1 (ctxLive_cons.mp hc).2 (Or.inl ?_)
    · simp [Spot.free, Frame.free]
    · simp [Spot.routers]

/-- The state in which the main loop starts. -/
theorem ok_start {F : Forest α β} (hF : F.Live) {z : Spot α β} (hz : Spot.resume [] F = some z) :
    Ok args ⟨z, .empty, []⟩ := by
  obtain ⟨-, -, h⟩ := (Spot.resume_spec [] F).2 z hz
  obtain ⟨h1, h2, h3⟩ := h ⟨by simp, hF⟩
  exact ⟨h1, h2, packOk_empty, fun _ => h3, by simp⟩

/-- The groups exist, are well formed and contain each leaf below the root exactly once. -/
theorem exists_groups (args : Args) (hops : α → ℕ) {F : Forest α β} (hF : F.Live) :
    ∃ gs, Groups args hops F gs ∧ doneLeaves gs = ↑F.leaves ∧ ∀ g ∈ gs, GroupOk args g := by
  cases hz : Spot.resume [] F with
  | none =>
      refine ⟨[], by simp [Groups, hz], ?_, by simp⟩
      have := (Spot.resume_spec [] F).1 hz
      simpa [doneLeaves, ctxFree] using this.symm
  | some z =>
      obtain ⟨h1, -, -⟩ := (Spot.resume_spec [] F).2 z hz
      obtain ⟨gs, hgs⟩ := Loop.exists_exits (body args hops) (fun P => P.Ok args) measure wellFounded_lt
        (fun P P' H e => ⟨((body_spec P H).1 P' e).1, ((body_spec P H).1 P' e).2.2⟩)
        (ok_start hF hz)
      have hres := hgs.invariant
        (fun P => P.Ok args ∧ P.leaves = leaves ⟨z, .empty, []⟩)
        (fun gs => doneLeaves gs = leaves ⟨z, .empty, []⟩ ∧ ∀ g ∈ gs, GroupOk args g)
        ⟨ok_start hF hz, rfl⟩
        (fun P P' H e => ⟨((body_spec P H.1).1 P' e).1, ((body_spec P H.1).1 P' e).2.1.trans H.2⟩)
        (fun P gs H e => ⟨((body_spec P H.1).2 gs e).1.trans H.2, ((body_spec P H.1).2 gs e).2⟩)
      refine ⟨gs, by simpa [Groups, hz] using hgs, ?_, hres.2⟩
      rw [hres.1]
      simp [leaves, doneLeaves, h1, ctxFree]

end Plan

end MEADcast
