import Mathlib

/-!
# Aligned blocks of addresses

A block consists of all addresses that agree in their first bits.  Of two blocks the larger one
contains the other or is disjoint from it, and which of the two is decided by a single address.

## Main definitions

* `Block w` — a block of addresses with `w` bits.

## Main results

* `Block.subset_iff`, `Block.disjoint_iff` — the first address of the smaller block decides.
-/

namespace MEADcast

/-- The addresses with `w` bits whose first `len` bits are those of `addr`; the other bits of
`addr` are zero. -/
structure Block (w : ℕ) where
  addr : ℕ
  len : ℕ
  len_le : len ≤ w
  lt : addr < 2 ^ w
  dvd : 2 ^ (w - len) ∣ addr
  deriving DecidableEq

namespace Block

variable {w : ℕ} {B C : Block w} {x : ℕ}

/-- The number of addresses. -/
def size (B : Block w) : ℕ := 2 ^ (w - B.len)

/-- The addresses of a block. -/
def toSet (B : Block w) : Set ℕ := Set.Ico B.addr (B.addr + B.size)

theorem size_pos (B : Block w) : 0 < B.size := Nat.two_pow_pos _

theorem addr_mem (B : Block w) : B.addr ∈ B.toSet :=
  ⟨le_rfl, Nat.lt_add_of_pos_right B.size_pos⟩

/-- A block is a class of addresses with the same leading bits. -/
theorem mem_toSet : x ∈ B.toSet ↔ x / B.size = B.addr / B.size := by
  obtain ⟨q, hq⟩ := B.dvd
  have hpos := B.size_pos
  have haddr : B.addr = B.size * q := hq
  rw [toSet, Set.mem_Ico, haddr, Nat.mul_div_cancel_left q hpos, Nat.div_eq_iff hpos]
  constructor
  · rintro ⟨h1, h2⟩
    constructor
    · rwa [Nat.mul_comm]
    · rw [Nat.mul_comm] at h2
      omega
  · rintro ⟨h1, h2⟩
    rw [Nat.mul_comm] at h1 h2
    constructor
    · exact h1
    · omega

/-- All blocks consist of addresses with `w` bits. -/
theorem lt_of_mem (h : x ∈ B.toSet) : x < 2 ^ w := by
  have hw : 2 ^ w = B.size * 2 ^ B.len := by
    rw [size, ← Nat.pow_add, Nat.sub_add_cancel B.len_le]
  have hlt : x / B.size < 2 ^ B.len := by
    rw [mem_toSet.mp h]
    exact Nat.div_lt_of_lt_mul (hw ▸ B.lt)
  rw [hw, Nat.mul_comm]
  exact (Nat.div_lt_iff_lt_mul B.size_pos).mp hlt

section Nested

variable (h : C.len ≤ B.len)

include h

theorem size_dvd_size : B.size ∣ C.size := Nat.pow_dvd_pow 2 (Nat.sub_le_sub_left h w)

/-- Addresses with the same leading bits have fewer leading bits in common, too. -/
theorem div_eq_of_div_eq {y : ℕ} (e : x / B.size = y / B.size) : x / C.size = y / C.size := by
  obtain ⟨q, hq⟩ := size_dvd_size h
  rw [hq, ← Nat.div_div_eq_div_mul, e, Nat.div_div_eq_div_mul]

theorem subset_iff : B.toSet ⊆ C.toSet ↔ B.addr ∈ C.toSet := by
  constructor
  · intro hsub
    exact hsub B.addr_mem
  · intro hmem x hx
    rw [mem_toSet, ← mem_toSet.mp hmem]
    exact div_eq_of_div_eq h (mem_toSet.mp hx)

theorem disjoint_iff : Disjoint B.toSet C.toSet ↔ B.addr ∉ C.toSet := by
  constructor
  · intro hd
    exact Set.disjoint_left.mp hd B.addr_mem
  · intro hno
    refine Set.disjoint_left.mpr fun x hxB hxC => hno ?_
    rw [mem_toSet, ← mem_toSet.mp hxC]
    exact (div_eq_of_div_eq h (mem_toSet.mp hxB)).symm

end Nested

end Block

end MEADcast
