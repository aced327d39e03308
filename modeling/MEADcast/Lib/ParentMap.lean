import Mathlib.Logic.Relation
import Mathlib.Logic.Function.Basic
import Mathlib.Data.Finset.Card
import Mathlib.Data.Finset.Filter
import Mathlib.Data.Fintype.Defs

/-!
# Parent maps

A partial function `par` that sends a node to its parent describes a forest with
upward pointers, or a graph with cycles.  This module has no program in it: it relates
reachability along `par`, the search for the first ancestor below a bound, and the effect
of moving one node below another.

## Main definitions

* `Up par x y` — following `par` from `x` leads to `y` in zero or more steps.
* `Climb par key b x n p` — the search from `x` for the first ancestor `p` with
  `key p ≤ b`, where `n` is the last node passed.
* `Nearest par S x p` — the first proper ancestor of `x` in `S` is `p`.

## Main results

* `Up.update_root` — moving a node keeps every path to the root, unless the node is moved
  below itself.
* `Climb.exists_of_up` — the search ends if some ancestor is below the bound.
-/

namespace ParentMap

variable {ι : Type*}

/-- Following parents from `x` leads to `y`. -/
def Up (par : ι → Option ι) : ι → ι → Prop := Relation.ReflTransGen fun x y => par x = some y

/-- Following parents from `x` leads to `y` in at least one step. -/
def SUp (par : ι → Option ι) : ι → ι → Prop := Relation.TransGen fun x y => par x = some y

variable {par : ι → Option ι} {x y z : ι}

namespace Up

theorem refl (par : ι → Option ι) (x : ι) : Up par x x := Relation.ReflTransGen.refl

theorem head (h : par x = some y) (t : Up par y z) : Up par x z :=
  Relation.ReflTransGen.head h t

theorem tail (h : Up par x y) (t : par y = some z) : Up par x z :=
  Relation.ReflTransGen.tail h t

theorem trans (h : Up par x y) (t : Up par y z) : Up par x z :=
  Relation.ReflTransGen.trans h t

/-- A path is empty or starts at the parent. -/
theorem cases_head (h : Up par x y) : x = y ∨ ∃ z, par x = some z ∧ Up par z y :=
  Relation.ReflTransGen.cases_head h

/-- A node without parent leads only to itself. -/
theorem eq_of_none (h : Up par x y) (hx : par x = none) : x = y := by
  rcases h.cases_head with h | ⟨z, hz, -⟩
  · exact h
  · simp [hx] at hz

/-- Two nodes above the same node are comparable. -/
theorem total (h : Up par x y) (t : Up par x z) : Up par y z ∨ Up par z y :=
  Relation.ReflTransGen.total_of_right_unique
    (fun a b c hb hc => by rw [hb] at hc; exact Option.some.inj hc) h t

/-- Agreement on everything above `x` preserves the paths from `x`. -/
theorem congr {par' : ι → Option ι} (h : Up par x y)
    (heq : ∀ z, Up par x z → par' z = par z) : Up par' x y := by
  induction h using Relation.ReflTransGen.head_induction_on with
  | refl => exact refl _ _
  | head hab _ ih =>
      refine head ((heq _ (refl _ _)).trans hab) (ih fun z hz => heq z (head hab hz))

end Up

theorem SUp.iff_exists : SUp par x y ↔ ∃ z, par x = some z ∧ Up par z y :=
  Relation.TransGen.head'_iff

theorem Up.of_sUp (h : SUp par x y) : Up par x y := Relation.TransGen.to_reflTransGen h

/-- A non-empty path is a path that does not stand still, or a cycle. -/
theorem Up.eq_or_sUp (h : Up par x y) : x = y ∨ SUp par x y := by
  rcases h.cases_head with h | h
  · exact Or.inl h
  · exact Or.inr (SUp.iff_exists.mpr h)

/-- A node that leads to a parentless one lies on no cycle. -/
theorem not_sUp_self {r : ι} (hr : par r = none) (h : Up par x r) : ¬ SUp par x x := by
  induction h using Relation.ReflTransGen.head_induction_on with
  | refl =>
      intro hc
      obtain ⟨z, hz, -⟩ := SUp.iff_exists.mp hc
      simp [hr] at hz
  | head hab _ ih =>
      intro hc
      obtain ⟨z, hz, hzx⟩ := SUp.iff_exists.mp hc
      obtain rfl : _ = z := Option.some.inj (hab.symm.trans hz)
      exact ih (Relation.TransGen.tail' hzx hab)

/-- Strictly above and weakly below at once is a cycle. -/
theorem not_up_of_sUp {r : ι} (hr : par r = none) (h : Up par x r) (hxy : SUp par x y) :
    ¬ Up par y x := fun hyx => not_sUp_self hr h (Relation.TransGen.trans_left hxy hyx)

/-- Whatever leads from a cycle lies on it. -/
theorem sUp_self_of_up (hx : SUp par x x) (h : Up par x y) : SUp par y y := by
  induction h using Relation.ReflTransGen.head_induction_on with
  | refl => exact hx
  | head hab _ ih =>
      obtain ⟨z, hz, hza⟩ := SUp.iff_exists.mp hx
      obtain rfl := Option.some.inj (hab.symm.trans hz)
      exact ih (Relation.TransGen.tail' hza hab)

section Update

variable [DecidableEq ι]

/-- Paths that avoid the moved node survive the move. -/
theorem Up.update_of_not_up {n : ι} {v : Option ι} (h : Up par x y) (hn : ¬ Up par x n) :
    Up (Function.update par n v) x y := by
  refine h.congr fun z hz => Function.update_of_ne ?_ _ _
  rintro rfl
  exact hn hz

/-- Moving `n` below `r` keeps every path to the root, provided `r` is not below `n`. -/
theorem Up.update_root {n r root : ι} (hr : Up par r root) (hn : ¬ Up par r n)
    (h : Up par x root) : Up (Function.update par n (some r)) x root := by
  have hr' : Up (Function.update par n (some r)) r root := hr.update_of_not_up hn
  induction h using Relation.ReflTransGen.head_induction_on with
  | refl => exact Up.refl _ _
  | @head a b hab _ ih =>
      by_cases ha : a = n
      · subst ha
        exact Up.head (by simp) hr'
      · exact Up.head (by simpa [ha] using hab) ih

/-- Paths that end at the moved node survive the move. -/
theorem Up.update_target {n : ι} {v : Option ι} (h : Up par x n) :
    Up (Function.update par n v) x n := by
  induction h using Relation.ReflTransGen.head_induction_on with
  | refl => exact Up.refl _ _
  | @head a b hab _ ih =>
      by_cases ha : a = n
      · subst ha; exact Up.refl _ _
      · exact Up.head (by simpa [ha] using hab) ih

/-- Moving `n` below `r` although `r` is below `n` puts `n` on a cycle. -/
theorem sUp_update_self {n r : ι} (h : Up par r n) :
    SUp (Function.update par n (some r)) n n :=
  SUp.iff_exists.mpr ⟨r, by simp, h.update_target⟩

end Update

/-! ## The bounded search -/

/-- The search from `x` towards the root for the first ancestor whose key is at most `b`:
it stops at `p`, and `n` is the last node it passed. -/
inductive Climb (par : ι → Option ι) (key : ι → ℕ) (b : ℕ) : ι → ι → ι → Prop
  | here {x p : ι} (hp : par x = some p) (hb : key p ≤ b) : Climb par key b x x p
  | up {x q n p : ι} (hq : par x = some q) (hb : b < key q) (t : Climb par key b q n p) :
      Climb par key b x n p

namespace Climb

variable {key : ι → ℕ} {b : ℕ} {n p n' p' : ι}

theorem par_eq (h : Climb par key b x n p) : par n = some p := by
  induction h with
  | here hp _ => exact hp
  | up _ _ _ ih => exact ih

theorem key_le (h : Climb par key b x n p) : key p ≤ b := by
  induction h with
  | here _ hb => exact hb
  | up _ _ _ ih => exact ih

theorem up_node (h : Climb par key b x n p) : Up par x n := by
  induction h with
  | here _ _ => exact Up.refl _ _
  | up hq _ _ ih => exact Up.head hq ih

theorem up_stop (h : Climb par key b x n p) : Up par x p := h.up_node.tail h.par_eq

/-- The search is deterministic. -/
theorem det (h : Climb par key b x n p) (h' : Climb par key b x n' p') : n = n' ∧ p = p' := by
  induction h with
  | here hp hb =>
      cases h' with
      | here hp' _ => exact ⟨rfl, Option.some.inj (hp.symm.trans hp')⟩
      | up hq hb' _ =>
          obtain rfl := Option.some.inj (hp.symm.trans hq)
          omega
  | up hq hb _ ih =>
      cases h' with
      | here hp' hb' =>
          obtain rfl := Option.some.inj (hq.symm.trans hp')
          omega
      | up hq' _ t' =>
          obtain rfl := Option.some.inj (hq.symm.trans hq')
          exact ih t'

/-- Everything passed after `x` is above the bound. -/
theorem lt_key_of_passed (h : Climb par key b x n p) (hxz : SUp par x z) (hzn : Up par z n)
    (hloop : ¬ SUp par n n) : b < key z := by
  induction h with
  | here hp _ => exact absurd (Relation.TransGen.trans_left hxz hzn) hloop
  | up hq hb _ ih =>
      obtain ⟨y, hy, hyz⟩ := SUp.iff_exists.mp hxz
      obtain rfl := Option.some.inj (hq.symm.trans hy)
      rcases hyz.eq_or_sUp with rfl | hyz
      · exact hb
      · exact ih hyz hzn hloop

/-- The last node passed is the start or above the bound. -/
theorem eq_or_lt_key (h : Climb par key b x n p) : n = x ∨ b < key n := by
  induction h with
  | here _ _ => exact Or.inl rfl
  | up _ hb _ ih =>
      rcases ih with rfl | ih
      · exact Or.inr hb
      · exact Or.inr ih

/-- The search ends if some proper ancestor is below the bound. -/
theorem exists_of_up {r : ι} (h : SUp par x r) (hb : key r ≤ b) :
    ∃ n p, Climb par key b x n p := by
  obtain ⟨q, hq, hqr⟩ := SUp.iff_exists.mp h
  clear h
  induction hqr using Relation.ReflTransGen.head_induction_on generalizing x with
  | refl => exact ⟨x, r, .here hq hb⟩
  | @head a c hac _ ih =>
      by_cases ha : key a ≤ b
      · exact ⟨x, a, .here hq ha⟩
      · obtain ⟨n, p, hc⟩ := ih hac
        exact ⟨n, p, .up hq (by omega) hc⟩

/-- The search only reads the parents and keys of the nodes above its start. -/
theorem congr {par' : ι → Option ι} {key' : ι → ℕ} (h : Climb par key b x n p)
    (hpar : ∀ z, Up par x z → par' z = par z)
    (hkey : ∀ z, SUp par x z → (key' z ≤ b ↔ key z ≤ b)) : Climb par' key' b x n p := by
  induction h with
  | @here x p hp hb =>
      refine .here ((hpar _ (Up.refl _ _)).trans hp) ?_
      exact (hkey _ (SUp.iff_exists.mpr ⟨p, hp, Up.refl _ _⟩)).mpr hb
  | @up x q n p hq hb t ih =>
      refine .up ((hpar _ (Up.refl _ _)).trans hq) ?_ (ih ?_ ?_)
      · have := hkey q (SUp.iff_exists.mpr ⟨q, hq, Up.refl _ _⟩)
        omega
      · exact fun z hz => hpar z (Up.head hq hz)
      · exact fun z hz => hkey z (SUp.iff_exists.mpr ⟨q, hq, Up.of_sUp hz⟩)

end Climb

/-! ## The nearest ancestor in a set -/

/-- `p` is the first proper ancestor of `x` that is in `S`. -/
inductive Nearest (par : ι → Option ι) (S : ι → Prop) : ι → ι → Prop
  | here {x p : ι} (hp : par x = some p) (hS : S p) : Nearest par S x p
  | up {x q p : ι} (hq : par x = some q) (hS : ¬ S q) (t : Nearest par S q p) : Nearest par S x p

namespace Nearest

variable {par' : ι → Option ι} {S S' : ι → Prop} {p q : ι}

/-- The nearest ancestor is one. -/
theorem sUp (h : Nearest par S x p) : SUp par x p := by
  induction h with
  | here hp _ => exact .single hp
  | up hq _ _ ih => exact .head hq ih

/-- In a smaller set, the ancestor is still the nearest one if it is there. -/
theorem mono (h : Nearest par S x q) (hSS : ∀ y, S' y → S y) (hq : S' q) :
    Nearest par S' x q := by
  induction h with
  | here hp _ => exact .here hp hq
  | up hr hS _ ih => exact .up hr (fun h => hS (hSS _ h)) (ih hq)

/-- In a smaller set that lacks the ancestor, the search goes on there. -/
theorem skip (h : Nearest par S x q) (hSS : ∀ y, S' y → S y) (hq : ¬ S' q)
    (t : Nearest par S' q p) : Nearest par S' x p := by
  induction h with
  | here hp _ => exact .up hp hq t
  | up hr hS _ ih => exact .up hr (fun h => hS (hSS _ h)) (ih hq t)

/-- Nearest ancestors among nearest ancestors. -/
theorem comp (h : Nearest par' S' x p) (hSS : ∀ y, S' y → S y)
    (hpar : ∀ y q, par' y = some q → Nearest par S y q) : Nearest par S' x p := by
  induction h with
  | here hp hS => exact (hpar _ _ hp).mono hSS hS
  | up hq hS _ ih => exact (hpar _ _ hq).skip hSS hS ih

end Nearest

/-! ## Placing a node above another -/

section Placed

variable [DecidableEq ι] {r n p root : ι}

/-- Every node that has a parent leads to `root`. -/
def Rooted (par : ι → Option ι) (root : ι) : Prop := ∀ x q, par x = some q → Up par x root

/-- Put `r` below `p`, unless it has a parent, and move `n` below `r`. -/
def placed (par : ι → Option ι) (r n p : ι) : ι → Option ι :=
  Function.update (Function.update par r (some ((par r).getD p))) n (some r)

theorem placed_of_some {q : ι} (hr : par r = some q) :
    placed par r n p = Function.update par n (some r) := by
  rw [placed, hr, Option.getD_some, ← hr, Function.update_eq_self]

/-- Placing `r` directly above `n` keeps everything rooted if `r` is not below `n`. -/
theorem Rooted.placed (H : Rooted par root) (hroot : par root = none) (hn : par n = some p)
    (hrn : r ≠ n) (hrr : r ≠ root) (hno : ¬ Up par r n) : Rooted (placed par r n p) root := by
  have hp : Up par p root := by
    rcases (H n p hn).cases_head with rfl | ⟨z, hz, hzr⟩
    · simp [hroot] at hn
    · rwa [Option.some.inj (hn.symm.trans hz)]
  cases hr : par r with
  | some q =>
      have hr' := H r q hr
      rw [placed_of_some hr]
      intro x y hx
      by_cases hxn : x = n
      · subst hxn
        exact Up.update_root hr' hno (H x p hn)
      · rw [Function.update_of_ne hxn] at hx
        exact Up.update_root hr' hno (H x y hx)
  | none =>
      -- nothing that leads to the root passes a parentless `r`
      have hav : ∀ x, Up par x root → ¬ Up par x r := by
        intro x hx hxr
        rcases hxr.total hx with h | h
        · exact hrr (h.eq_of_none hr)
        · exact hrr (h.eq_of_none hroot).symm
      let par₁ := Function.update par r (some p)
      have hup₁ : ∀ x, Up par x root → Up par₁ x root := fun x hx =>
        hx.update_of_not_up (hav x hx)
      have hr₁ : Up par₁ r root := Up.head (by simp [par₁]) (hup₁ p hp)
      have hroot₁ : par₁ root = none := by simp [par₁, hrr.symm, hroot]
      have hn₁ : par₁ n = some p := by simp [par₁, hrn.symm, hn]
      have hno₁ : ¬ Up par₁ r n := by
        intro h
        rcases h.cases_head with rfl | ⟨z, hz, hzn⟩
        · exact hrn rfl
        · obtain rfl : p = z := by simpa [par₁] using hz
          exact not_up_of_sUp hroot₁ (hup₁ n (H n p hn))
            (SUp.iff_exists.mpr ⟨p, hn₁, Up.refl _ _⟩) hzn
      have heq : ParentMap.placed par r n p = Function.update par₁ n (some r) := by
        simp [ParentMap.placed, hr, par₁]
      rw [heq]
      intro x y hx
      by_cases hxn : x = n
      · subst hxn
        exact Up.update_root hr₁ hno₁ (hup₁ x (H x p hn))
      · by_cases hxr : x = r
        · subst hxr
          exact Up.update_root hr₁ hno₁ hr₁
        · refine Up.update_root hr₁ hno₁ (hup₁ x (H x y ?_))
          simpa [par₁, hxn, hxr] using hx

/-- Placing `r` above `n` although `r` is below `n` makes a cycle. -/
theorem sUp_placed_self (hrn : r ≠ n) (h : Up par r n) : SUp (placed par r n p) n n := by
  rcases h.cases_head with h | ⟨q, hq, -⟩
  · exact absurd h hrn
  · rw [placed_of_some hq]
    exact sUp_update_self h

end Placed

/-! ## Keys along paths -/

section Ordered

variable {key : ι → ℕ} {b : ℕ} {n p r : ι}

/-- If keys never decrease away from the root, nothing above `r` has a larger key. -/
theorem key_le_of_up (hord : ∀ x y, par x = some y → key y ≤ key x) (h : Up par x y) :
    key y ≤ key x := by
  induction h using Relation.ReflTransGen.head_induction_on with
  | refl => exact le_rfl
  | head hab _ ih => exact ih.trans (hord _ _ hab)

end Ordered

/-! ## Finite parent maps -/

/-- The number of nodes below `x` bounds every recursion over its descendants: it is
smaller for a child of a node that is on no cycle. -/
theorem card_below_lt {s : Finset ι} [DecidablePred fun z => Up par z x]
    [DecidablePred fun z => Up par z y] (hxy : par x = some y) (hy : y ∈ s)
    (hloop : ¬ SUp par y y) :
    (s.filter fun z => Up par z x).card < (s.filter fun z => Up par z y).card := by
  refine Finset.card_lt_card (Finset.ssubset_iff_of_subset ?_ |>.mpr ⟨y, ?_, ?_⟩)
  · intro z hz
    rw [Finset.mem_filter] at hz ⊢
    exact ⟨hz.1, hz.2.tail hxy⟩
  · exact Finset.mem_filter.mpr ⟨hy, Up.refl _ _⟩
  · intro hz
    exact hloop (Relation.TransGen.tail' (Finset.mem_filter.mp hz).2 hxy)

end ParentMap
