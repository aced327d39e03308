import MEADcast.Lib.ParentMap

/-!
# Paths in a tree given by parents

On the way from one node to another the next node is a child if the destination is below it, and
the parent otherwise.

## Main definitions

* `ParentMap.Next` — the next node on the way to a destination.
* `ParentMap.way` — an upper bound for the length of the way.

## Main results

* `ParentMap.Next.not_up` — the way enters what is below a node through this node only.
* `ParentMap.Next.unique` — there is one way.
* `ParentMap.Next.way_lt` — the way gets shorter.
-/

namespace ParentMap

variable {ι : Type*} {par : ι → Option ι} {root x y z d : ι}

/-- The next node after `x` on the way to `y`: a child of `x` at or above `y`, or the parent of
`x` if `y` is not below `x`. -/
inductive Next (par : ι → Option ι) (x y : ι) : ι → Prop
  | down {z : ι} (hz : par z = some x) (hy : Up par y z) : Next par x y z
  | up {z : ι} (hx : par x = some z) (hy : ¬ Up par y x) : Next par x y z

/-- In a tree there is a next node, except at the destination. -/
theorem exists_next (hroot : par root = none) (hx : Up par x root) (hy : Up par y root)
    (hne : y ≠ x) : ∃ z, Next par x y z := by
  by_cases h : Up par y x
  · obtain ⟨z, hyz, hz⟩ := Relation.TransGen.tail'_iff.mp (h.eq_or_sUp.resolve_left hne)
    exact ⟨z, .down hz hyz⟩
  · have hxr : x ≠ root := by
      rintro rfl
      exact h hy
    obtain ⟨z, hz, -⟩ := SUp.iff_exists.mp (hx.eq_or_sUp.resolve_left hxr)
    exact ⟨z, .up hz h⟩

/-- There is one way. -/
theorem Next.unique (hroot : par root = none) (hx : Up par x root) (h : Next par x y z)
    (h' : Next par x y d) : z = d := by
  have hloop := not_sUp_self hroot hx
  have hle : ∀ {a b}, par a = some x → par b = some x → Up par a b → a = b := by
    intro a b ha hb hab
    rcases hab.cases_head with he | ⟨q, hq, hqb⟩
    · exact he
    · obtain rfl := Option.some.inj (ha.symm.trans hq)
      exact absurd (Relation.TransGen.tail' hqb hb) hloop
  cases h with
  | down hz hy =>
      cases h' with
      | down hd hyd =>
          rcases hy.total hyd with h | h
          · exact hle hz hd h
          · exact (hle hd hz h).symm
      | up hd hyd => exact absurd (hy.tail hz) hyd
  | up hz hy =>
      cases h' with
      | down hd hyd => exact absurd (hyd.tail hd) hy
      | up hd hyd => exact Option.some.inj (hz.symm.trans hd)

/-- A node above the next one is that node itself or was above before. -/
theorem Next.not_up (h : Next par x y z) (hx : ¬ Up par x d) (hz : z ≠ d) : ¬ Up par z d := by
  intro hzd
  cases h with
  | down hzx _ =>
      obtain ⟨x', hx', hxd⟩ := SUp.iff_exists.mp (hzd.eq_or_sUp.resolve_left hz)
      obtain rfl := Option.some.inj (hzx.symm.trans hx')
      exact hx hxd
  | up hxz _ => exact hx (Up.head hxz hzd)

/-- The way to a node below `d` does not end before it passed `d`. -/
theorem Next.ne_of_sUp (h : Next par x y z) (hx : ¬ Up par x d) (hy : SUp par y d) : z ≠ y := by
  rintro rfl
  cases h with
  | down hz _ =>
      obtain ⟨x', hx', hxd⟩ := SUp.iff_exists.mp hy
      obtain rfl := Option.some.inj (hz.symm.trans hx')
      exact hx hxd
  | up hxz _ => exact hx (Up.head hxz (Up.of_sUp hy))

open Classical in
/-- The number of nodes left on the way to `y` if it is below `x`, and otherwise at most that
over the root. -/
noncomputable def way (par : ι → Option ι) (depth : ι → ℕ) (x y : ι) : ℕ :=
  if Up par y x then depth y - depth x else depth y + depth x

/-- Each node is closer than the one before. -/
theorem Next.way_lt {depth : ι → ℕ} (hd : ∀ a q, par a = some q → depth a = depth q + 1)
    (h : Next par x y z) : way par depth z y < way par depth x y := by
  have hle : ∀ {a b}, Up par a b → depth b ≤ depth a := fun h =>
    key_le_of_up (fun a q hq => by rw [hd a q hq]; exact Nat.le_succ _) h
  cases h with
  | down hz hy =>
      have h1 := hd _ _ hz
      have h2 := hle hy
      rw [way, way, if_pos hy, if_pos (hy.tail hz)]
      omega
  | up hx hy =>
      have h1 := hd _ _ hx
      rw [way, way, if_neg hy]
      split <;> omega

end ParentMap
