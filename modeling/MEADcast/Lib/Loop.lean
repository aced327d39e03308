import Mathlib.Order.WellFounded
import Mathlib.Logic.Relation
import Mathlib.Tactic.Common

/-!
# Loops with one exit

A loop body maps a state to the next state or to a result.  Its meaning is the relation
between a start state and the result of the last round.

## Main definitions

* `Loop.Exits body s r` — started in `s`, the loop ends with `r`.
* `Loop.Visits body s s'` — started in `s`, the loop comes to the state `s'`.

## Main results

* `Loop.Exits.invariant` — the rule for invariants.
* `Loop.Exits.iff_forall_visits` — what holds of the result if and only if every round keeps it.
* `Loop.exists_exits` — a loop whose rounds decrease a measure ends.
* `Loop.Exits.simulate` — a loop follows another one round by round.
-/

namespace Loop

variable {σ ρ τ π : Type*}

/-- Started in `s`, the loop with the given body ends with `r`. -/
inductive Exits (body : σ → σ ⊕ ρ) : σ → ρ → Prop
  | stop {s : σ} {r : ρ} (h : body s = .inr r) : Exits body s r
  | next {s s' : σ} {r : ρ} (h : body s = .inl s') (tail : Exits body s' r) : Exits body s r

variable {body : σ → σ ⊕ ρ} {s : σ} {r r' : ρ}

/-- A loop has at most one result. -/
theorem Exits.det (h : Exits body s r) (h' : Exits body s r') : r = r' := by
  induction h with
  | stop hs =>
      cases h' with
      | stop hs' => simpa [hs] using hs'
      | next hs' _ => simp [hs] at hs'
  | next hs _ ih =>
      cases h' with
      | stop hs' => simp [hs] at hs'
      | next hs' t =>
          obtain rfl : _ = _ := Sum.inl.inj (hs.symm.trans hs')
          exact ih t

/-- What every round keeps and the last round turns into `Post` holds of the result. -/
theorem Exits.invariant (h : Exits body s r) (Inv : σ → Prop) (Post : ρ → Prop) (hs : Inv s)
    (step : ∀ s s', Inv s → body s = .inl s' → Inv s')
    (stop : ∀ s r, Inv s → body s = .inr r → Post r) : Post r := by
  induction h with
  | stop he => exact stop _ _ hs he
  | next he _ ih => exact ih (step _ _ hs he)

/-- Started in `s`, the loop comes to the state `s'`. -/
def Visits (body : σ → σ ⊕ ρ) (s s' : σ) : Prop :=
  Relation.ReflTransGen (fun a b => body a = .inl b) s s'

theorem Visits.of_stop {s s' : σ} (he : body s = .inr r) (h : Visits body s s') : s' = s := by
  rcases Relation.ReflTransGen.cases_head h with h | ⟨t, ht, -⟩
  · exact h.symm
  · simp [he] at ht

theorem Visits.of_next {s s' t : σ} (he : body s = .inl t) (h : Visits body s s') :
    s' = s ∨ Visits body t s' := by
  rcases Relation.ReflTransGen.cases_head h with h | ⟨t', ht, h⟩
  · exact Or.inl h.symm
  · obtain rfl := Sum.inl.inj (he.symm.trans ht)
    exact Or.inr h

/-- A property that is lost for good in the rounds that start in a state without `C`: it holds
of the result if and only if it holds at the start and all states that are visited have `C`. -/
theorem Exits.iff_forall_visits (h : Exits body s r) (Inv A C : σ → Prop) (Post : ρ → Prop)
    (hs : Inv s) (keep : ∀ s s', Inv s → body s = .inl s' → Inv s')
    (step : ∀ s s', Inv s → body s = .inl s' → (A s' ↔ A s ∧ C s))
    (stop : ∀ s r, Inv s → body s = .inr r → (Post r ↔ A s ∧ C s)) :
    Post r ↔ A s ∧ ∀ s', Visits body s s' → C s' := by
  induction h with
  | @stop s r he =>
      rw [stop s r hs he]
      refine and_congr_right fun _ => ⟨fun hC s' hv => ?_, fun hC => hC s .refl⟩
      rw [hv.of_stop he]
      exact hC
  | @next s t r he _ ih =>
      rw [ih (keep s t hs he), step s t hs he, and_assoc]
      refine and_congr_right fun _ => ⟨fun ⟨hC, hall⟩ s' hv => ?_, fun hC => ⟨hC s .refl, fun s' hv =>
        hC s' (Relation.ReflTransGen.head he hv)⟩⟩
      rcases hv.of_next he with rfl | hv
      · exact hC
      · exact hall s' hv

/-- A loop ends if its rounds keep an invariant and decrease a measure. -/
theorem exists_exits {α : Type*} {lt : α → α → Prop} (body : σ → σ ⊕ ρ) (Inv : σ → Prop)
    (μ : σ → α) (wf : WellFounded lt) (step : ∀ s s', Inv s → body s = .inl s' → Inv s' ∧ lt (μ s') (μ s))
    (hs : Inv s) : ∃ r, Exits body s r := by
  induction hm : μ s using wf.induction generalizing s with
  | _ a ih =>
      cases hb : body s with
      | inr r => exact ⟨r, .stop hb⟩
      | inl s' =>
          obtain ⟨hs', hlt⟩ := step s s' hs hb
          obtain ⟨r, hr⟩ := ih (μ s') (hm ▸ hlt) hs' rfl
          exact ⟨r, .next hb hr⟩

/-- Two bodies that agree along a map of states and a map of results have corresponding
results. -/
theorem Exits.map {body' : τ → τ ⊕ π} {f : σ → τ} {g : ρ → π}
    (hcomm : ∀ s, body' (f s) = (body s).map f g) (h : Exits body s r) :
    Exits body' (f s) (g r) := by
  induction h with
  | stop he => exact .stop (by rw [hcomm, he]; rfl)
  | next he _ ih => exact .next (by rw [hcomm, he]; rfl) ih

end Loop
