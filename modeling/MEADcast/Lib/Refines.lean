import Mathlib.Logic.Relation

/-!
# Refinement of partial programs

A program that works on concrete data refines one on abstract data if it has a result whenever that
one has, and the results correspond.  Where the abstract program has no result, the concrete one may
do what it wants.

## Main definitions

* `Refines` — refinement, for a relation between results.

## Main results

* `Refines.bind` — refinement of one step after the other.
-/

namespace MEADcast

universe u

variable {α β γ δ : Type u} {R : α → β → Prop} {S : γ → δ → Prop} {x : Option α} {y : Option β}

/-- Whenever `y` has a result, `x` has one that corresponds to it. -/
def Refines (R : α → β → Prop) (x : Option α) (y : Option β) : Prop :=
  ∀ b, y = some b → ∃ a, x = some a ∧ R a b

namespace Refines

theorem some {a : α} {b : β} (h : R a b) : Refines R (.some a) (.some b) :=
  fun _ hb => ⟨a, rfl, Option.some.inj hb ▸ h⟩

theorem bind {f : α → Option γ} {g : β → Option δ} (h : Refines R x y)
    (hfg : ∀ a b, R a b → Refines S (f a) (g b)) : Refines S (x >>= f) (y >>= g) := by
  intro d hd
  obtain ⟨b, hy, hg⟩ := Option.bind_eq_some_iff.mp hd
  obtain ⟨a, hx, hab⟩ := h b hy
  obtain ⟨c, hf, hcd⟩ := hfg a b hab d hg
  exact ⟨c, Option.bind_eq_some_iff.mpr ⟨a, hx, hf⟩, hcd⟩

/-- A step that both programs do in the same way. -/
theorem bind_same {z : Option α} {f : α → Option γ} {g : α → Option δ}
    (hfg : ∀ a, Refines S (f a) (g a)) : Refines S (z >>= f) (z >>= g) := by
  intro d hd
  obtain ⟨a, hz, hg⟩ := Option.bind_eq_some_iff.mp hd
  obtain ⟨c, hf, hcd⟩ := hfg a d hg
  exact ⟨c, Option.bind_eq_some_iff.mpr ⟨a, hz, hf⟩, hcd⟩

/-- A step that only the abstract program does, to find out something that holds anyway. -/
theorem bind_right {g : β → Option δ} {u : Option γ} (hg : ∀ b, y = .some b → Refines S u (g b)) :
    Refines S u (y >>= g) := by
  intro d hd
  obtain ⟨b, hy, hb⟩ := Option.bind_eq_some_iff.mp hd
  exact hg b hy d hb

theorem ite {p q : Prop} [Decidable p] [Decidable q] {x' : Option α} {y' : Option β} (hpq : p ↔ q)
    (h : q → Refines R x y) (h' : ¬ q → Refines R x' y') :
    Refines R (if p then x else x') (if q then y else y') := by
  by_cases hq : q
  · rw [if_pos (hpq.mpr hq), if_pos hq]
    exact h hq
  · rw [if_neg (mt hpq.mp hq), if_neg hq]
    exact h' hq

end Refines

end MEADcast
