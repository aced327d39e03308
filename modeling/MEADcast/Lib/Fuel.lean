import Mathlib.Data.Option.Basic
import Mathlib.Tactic.Common

/-!
# Bounded iteration

A function that takes a bound on its iterations returns `none` when the bound is too small.
A larger bound must not change a result.  `Keeps` states this for two runs, and the lemmas
follow the way such functions are composed.  `Ends` is the result under all large bounds.
-/

namespace Fuel

variable {α β : Type} {a b : Option α}

/-- Whatever result `a` has, `b` has it too. -/
def Keeps (a b : Option α) : Prop := ∀ x, a = some x → b = some x

namespace Keeps

theorem refl (a : Option α) : Keeps a a := fun _ h => h

theorem none (b : Option α) : Keeps Option.none b := fun x h => by simp at h

theorem bind {f g : α → Option β} (h : Keeps a b) (hf : ∀ x, Keeps (f x) (g x)) :
    Keeps (a >>= f) (b >>= g) := by
  intro y hy
  obtain ⟨x, hx, hfx⟩ := Option.bind_eq_some_iff.mp hy
  exact Option.bind_eq_some_iff.mpr ⟨x, h x hx, hf x y hfx⟩

theorem ite {p : Prop} [Decidable p] {a' b' : Option α} (h : Keeps a b) (h' : Keeps a' b') :
    Keeps (if p then a else a') (if p then b else b') := by
  split
  · exact h
  · exact h'

end Keeps

/-- Under every large enough bound the result is `x`. -/
def Ends (f : ℕ → Option α) (x : α) : Prop := ∃ N, ∀ n, N ≤ n → f n = some x

theorem Ends.det {f : ℕ → Option α} {x y : α} (hx : Ends f x) (hy : Ends f y) : x = y := by
  obtain ⟨N, hN⟩ := hx
  obtain ⟨M, hM⟩ := hy
  have h₁ := hN (max N M) (Nat.le_max_left N M)
  have h₂ := hM (max N M) (Nat.le_max_right N M)
  exact Option.some.inj (h₁.symm.trans h₂)

/-- Two results under different bounds agree if larger bounds keep results. -/
theorem eq_of_keeps {f : ℕ → Option α} (hf : ∀ m n, m ≤ n → Keeps (f m) (f n)) {m n : ℕ} {x y : α}
    (hx : f m = some x) (hy : f n = some y) : x = y := by
  rcases Nat.le_total m n with h | h
  · exact Option.some.inj ((hf m n h x hx).symm.trans hy)
  · exact Option.some.inj (hx.symm.trans (hf n m h y hy))

end Fuel
