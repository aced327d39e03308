import MEADcast.Sender.Partition
import MEADcast.Lib.Fuel

/-!
# The states of the main loop

Statements about single rounds of `greedy_grouping` are about the states in which a call is at
the label `start`.  Each of them is a state of the plan, and each state that the plan reaches
is one of them.

## Main definitions

* `Visited` — the states at the label `start`.
* `VisitAt` — such a state together with the state of the plan.

## Main results

* `Visited.exists_plan`, `exists_visited` — the two kinds of states correspond.
-/

namespace MEADcast

/-- The states in which a call of `greedy_grouping` for `root` on the heap `h₀` is at the label
`start`: heap, merging variables, locals and the router that `r` holds. -/
inductive Visited (args : Args) (h₀ : Heap) (root : NodeId) :
    Heap → Merging → Packing → NodeId → Prop
  | first {r : NodeId} (e : Fuel.Ends (fun fuel => getStart h₀ fuel (some root)) (some r)) :
      Visited args h₀ root h₀ resetMergingStats
        { addrs := List.replicate args.limit 0, n := 0, bm := 0, mdc := [] } r
  | start {h h' : Heap} {mg mg' : Merging} {g g' : Packing} {r r' : NodeId}
      (V : Visited args h₀ root h mg g r)
      (e : Fuel.Ends (fun fuel => visit args args.limit fuel h mg g r) (h', mg', g', .start r')) :
      Visited args h₀ root h' mg' g' r'
  | next {h h' : Heap} {mg mg' : Merging} {g g' : Packing} {r j r' : NodeId}
      (V : Visited args h₀ root h mg g r)
      (e : Fuel.Ends (fun fuel => visit args args.limit fuel h mg g r) (h', mg', g', .next j))
      (e' : Fuel.Ends (fun fuel => getStart h' fuel (some j)) (some r')) :
      Visited args h₀ root h' resetMergingStats (finishTxg g') r'

/-- The state of the main loop is that of the plan `P`. -/
structure VisitAt (args : Args) (h₀ : Heap) (root : NodeId) (F : Forest NodeId NodeId) (h : Heap)
    (mg : Merging) (g : Packing) (P : Plan NodeId NodeId) : Prop where
  drained : Heap.Drained h₀ h {x | x ∈ root :: F.labs}
  loop : LoopAt args h root {x | x ∈ root :: F.labs} P.spot P.pack mg g
  ok : P.Ok args

section Visits

variable {args : Args} {h₀ h : Heap} {root r : NodeId} {F : Forest NodeId NodeId} {mg : Merging}
  {g : Packing} {P P' : Plan NodeId NodeId} {gs : List (List (Seg NodeId NodeId))}

/-- One round, if the plan goes on: the loop is at `start` again, with the same group or
after a complete one. -/
theorem VisitAt.step (V : VisitAt args h₀ root F h mg g P)
    (e : Plan.body args h₀.hops P = .inl P') : ∃ h' mg' g',
      VisitAt args h₀ root F h' mg' g' P' ∧
      (Fuel.Ends (fun fuel => visit args args.limit fuel h mg g P.spot.lab)
          (h', mg', g', .start P'.spot.lab) ∨
        ∃ mg₁ g₁ j, mg' = resetMergingStats ∧ g' = finishTxg g₁ ∧
          Fuel.Ends (fun fuel => visit args args.limit fuel h mg g P.spot.lab)
            (h', mg₁, g₁, .next j) ∧
          Fuel.Ends (fun fuel => getStart h' fuel (some j)) (some P'.spot.lab)) := by
  have H' := ((Plan.body_spec P V.ok).1 P' e).1
  obtain ⟨z, pk, done⟩ := P
  obtain ⟨h', mg', g', N, D, -, hm⟩ := visit_spec V.loop V.ok
  have D' := V.drained.trans D
  rw [V.drained.hops_eq] at hm
  dsimp only at hm
  unfold Plan.body at e
  cases ht : Plan.turn args h₀.hops z pk with
  | go z' pk' =>
      obtain rfl : ⟨z', pk', done⟩ = P' := by simpa [ht] using e
      simp only [ht] at hm
      obtain ⟨hv, L'⟩ := hm
      exact ⟨h', mg', g', ⟨D', L', H'⟩, Or.inl ⟨N, hv⟩⟩
  | finish z? pk' =>
      cases z? with
      | none => simp [ht] at e
      | some z' =>
          obtain rfl : ⟨z', Pack.empty, pk'.all :: done⟩ = P' := by simpa [ht] using e
          simp only [ht] at hm
          obtain ⟨j, hv, Fin⟩ := hm
          have L' := Fin.restart (by rw [D.par_eq, V.loop.root_par])
            fun x hx => (D.isRouter_iff x).mpr (V.loop.routers x hx)
          exact ⟨h', _, _, ⟨D', L', H'⟩, Or.inr ⟨mg', g', j, rfl, rfl,
            ⟨N, fun n hn => (hv n hn).1⟩, N, fun n hn => (hv n hn).2⟩⟩

/-- One round, if the plan ends. -/
theorem VisitAt.stop (V : VisitAt args h₀ root F h mg g P)
    (e : Plan.body args h₀.hops P = .inr gs) : ∃ h' mg' g' j,
      Fuel.Ends (fun fuel => visit args args.limit fuel h mg g P.spot.lab)
        (h', mg', g', .next j) ∧
      Fuel.Ends (fun fuel => getStart h' fuel (some j)) none := by
  obtain ⟨z, pk, done⟩ := P
  obtain ⟨h', mg', g', N, -, -, hm⟩ := visit_spec V.loop V.ok
  rw [V.drained.hops_eq] at hm
  dsimp only at hm
  unfold Plan.body at e
  cases ht : Plan.turn args h₀.hops z pk with
  | go z' pk' => simp [ht] at e
  | finish z? pk' =>
      cases z? with
      | some z' => simp [ht] at e
      | none =>
          simp only [ht] at hm
          obtain ⟨j, hv, -⟩ := hm
          exact ⟨h', mg', g', j, ⟨N, fun n hn => (hv n hn).1⟩, N, fun n hn => (hv n hn).2⟩

/-- The first router, and the state of the loop there. -/
theorem Heap.Groupable.first (T : h₀.Groupable root F) (args : Args) :
    Fuel.Ends (fun fuel => getStart h₀ fuel (some root)) ((Spot.resume [] F).map Spot.lab) ∧
      ∀ z, Spot.resume [] F = some z → VisitAt args h₀ root F h₀ resetMergingStats
        { addrs := List.replicate args.limit 0, n := 0, bm := 0, mdc := [] } ⟨z, .empty, []⟩ := by
  obtain ⟨hN, -, -, hfirst⟩ :=
    loopAt_first args T.wf T.router T.root_par T.below T.live T.free
  exact ⟨hN, fun z hz => ⟨.refl T.wf _, hfirst z hz, Plan.ok_start T.live hz⟩⟩

/-- Every state of the loop is one of the plan. -/
theorem Visited.exists_plan (T : h₀.Groupable root F) (V : Visited args h₀ root h mg g r) :
    ∃ P, Plan.Visited args h₀.hops F P ∧ VisitAt args h₀ root F h mg g P ∧ P.spot.lab = r := by
  obtain ⟨hfirst, hat⟩ := T.first args
  induction V with
  | first e =>
      cases hz : Spot.resume [] F with
      | none => simpa [hz] using e.det hfirst
      | some z =>
          refine ⟨_, ⟨z, hz, .refl⟩, hat z hz, ?_⟩
          simpa [hz] using (e.det hfirst).symm
  | start V e ih =>
      obtain ⟨P, hP, A, rfl⟩ := ih
      cases hb : Plan.body args h₀.hops P with
      | inl P' =>
          obtain ⟨h', mg', g', A', e' | ⟨mg₁, g₁, j, -, -, e', -⟩⟩ := A.step hb
          · obtain ⟨rfl, rfl, rfl, hr⟩ := by simpa using e'.det e
            exact ⟨P', hP.next hb, A', hr⟩
          · simpa using e'.det e
      | inr gs =>
          obtain ⟨h', mg', g', j, e', -⟩ := A.stop hb
          simpa using e'.det e
  | next V e e' ih =>
      obtain ⟨P, hP, A, rfl⟩ := ih
      cases hb : Plan.body args h₀.hops P with
      | inl P' =>
          obtain ⟨h', mg', g', A', e₁ | ⟨mg₁, g₁, j, rfl, rfl, e₁, e₂⟩⟩ := A.step hb
          · simpa using e₁.det e
          · obtain ⟨rfl, rfl, rfl, rfl⟩ := by simpa using e₁.det e
            exact ⟨P', hP.next hb, A', by simpa using e₂.det e'⟩
      | inr gs =>
          obtain ⟨h', mg', g', j, e₁, e₂⟩ := A.stop hb
          obtain ⟨rfl, rfl, rfl, rfl⟩ := by simpa using e₁.det e
          simpa using e₂.det e'

/-- Every state of the plan is one of the loop. -/
theorem exists_visited (T : h₀.Groupable root F) (hP : Plan.Visited args h₀.hops F P) :
    ∃ h mg g, Visited args h₀ root h mg g P.spot.lab ∧ VisitAt args h₀ root F h mg g P := by
  obtain ⟨hfirst, hat⟩ := T.first args
  obtain ⟨z, hz, hv⟩ := hP
  induction hv with
  | refl =>
      rw [hz] at hfirst
      exact ⟨_, _, _, .first hfirst, hat z hz⟩
  | tail _ hb ih =>
      obtain ⟨h, mg, g, V, A⟩ := ih
      obtain ⟨h', mg', g', A', e | ⟨mg₁, g₁, j, rfl, rfl, e, e'⟩⟩ := A.step hb
      · exact ⟨h', mg', g', .start V e, A'⟩
      · exact ⟨h', _, _, .next V e e', A'⟩

end Visits

end MEADcast
