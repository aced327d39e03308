import Mathlib.Data.Nat.Init
import Mathlib.Logic.Relation

/-!
# Reachable states of a step relation

## Main results

* `Reach.invariant` — what every step preserves holds at the end of every run.
* `Reach.acc_of_lt`, `Reach.exists_final` — if steps lower a number, every run comes to an end.
-/

namespace MEADcast

namespace Reach

variable {σ : Type*} {step : σ → σ → Prop} {s s' : σ}

/-- What every step preserves holds at the end of every run. -/
theorem invariant (P : σ → Prop) (h : ∀ s s', P s → step s s' → P s')
    (hrun : Relation.ReflTransGen step s s') (hs : P s) : P s' := by
  induction hrun with
  | refl => exact hs
  | tail _ hstep ih => exact h _ _ ih hstep

/-- A quantity that no step changes from a state with an invariant is the same at the end of
every run. -/
theorem constant {α : Type*} (P : σ → Prop) (f : σ → α) (h : ∀ s s', P s → step s s' → P s')
    (hf : ∀ s s', P s → step s s' → f s' = f s) (hrun : Relation.ReflTransGen step s s')
    (hs : P s) : f s' = f s :=
  (invariant (fun t => P t ∧ f t = f s)
    (fun t t' ht hstep => ⟨h t t' ht.1 hstep, (hf t t' ht.1 hstep).trans ht.2⟩) hrun ⟨hs, rfl⟩).2

/-- If every step from a state with an invariant lowers a number, no run goes on forever. -/
theorem acc_of_lt (P : σ → Prop) (m : σ → ℕ)
    (h : ∀ s s', P s → step s s' → P s' ∧ m s' < m s) (hs : P s) :
    Acc (fun t s => step s t) s := by
  induction hm : m s using Nat.strong_induction_on generalizing s with
  | _ k ih =>
      refine Acc.intro _ fun t ht => ?_
      obtain ⟨hP, hlt⟩ := h s t hs ht
      exact ih (m t) (hm ▸ hlt) hP rfl

/-- Where no run goes on forever, some run comes to its end. -/
theorem exists_final (h : Acc (fun t s => step s t) s) :
    ∃ t, Relation.ReflTransGen step s t ∧ ∀ u, ¬ step t u := by
  induction h with
  | intro s _ ih =>
      by_cases hs : ∃ u, step s u
      · obtain ⟨u, hu⟩ := hs
        obtain ⟨t, ht, hfinal⟩ := ih u hu
        exact ⟨t, .head hu ht, hfinal⟩
      · exact ⟨s, .refl, fun u hu => hs ⟨u, hu⟩⟩

end Reach

end MEADcast
