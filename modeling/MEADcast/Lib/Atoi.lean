import Mathlib.Data.List.TakeWhile
import Mathlib.Tactic.NormNum

/-!
# `atoi`

The library function converts as `strtol` does, with saturation at the ends of `long`, and then to
`int`, where the upper bits are lost.

## Main definitions

* `strtol`, `atoi` — the conversion.

## Main results

* `atoi_toString` — every `int` has a text that is converted to it.
* `atoi_range` — the result is an `int`.
-/

namespace MEADcast

/-- `isspace` in the C locale. -/
def isspace (c : Char) : Bool := c = ' ' || (9 ≤ c.toNat && c.toNat ≤ 13)

/-- The number at the front of a text. -/
def leadingNat (l : List Char) : ℕ := Nat.ofDigitChars 10 (l.takeWhile Char.isDigit) 0

/-- `strtol` with base ten. -/
def strtol (s : String) : ℤ :=
  match s.toList.dropWhile isspace with
  | '-' :: l => max (-(leadingNat l : ℤ)) (-2 ^ 63)
  | '+' :: l => min (leadingNat l) (2 ^ 63 - 1)
  | l => min (leadingNat l) (2 ^ 63 - 1)

/-- `atoi`. -/
def atoi (s : String) : ℤ := (strtol s).bmod (2 ^ 32)

/-- The values of `int`. -/
def IsInt (n : ℤ) : Prop := -2 ^ 31 ≤ n ∧ n < 2 ^ 31

theorem isInt_zero : IsInt 0 := ⟨by decide, by decide⟩

theorem atoi_range (s : String) : IsInt (atoi s) := by
  have h1 := Int.le_bmod (x := strtol s) (m := 2 ^ 32) (by decide)
  have h2 := Int.bmod_lt (x := strtol s) (m := 2 ^ 32) (by decide)
  norm_num at h1 h2
  exact ⟨by rw [atoi]; norm_num; omega, by rw [atoi]; norm_num; omega⟩

theorem bmod_of_isInt {n : ℤ} (h : IsInt n) : n.bmod (2 ^ 32) = n := by
  obtain ⟨h1, h2⟩ := h
  norm_num at h1 h2
  exact Int.bmod_eq_of_le (by norm_num; omega) (by norm_num; omega)

theorem leadingNat_toDigits (n : ℕ) : leadingNat (Nat.toDigits 10 n) = n := by
  have hall : (Nat.toDigits 10 n).takeWhile Char.isDigit = Nat.toDigits 10 n :=
    List.takeWhile_eq_self_iff.mpr fun c hc => Nat.isDigit_of_mem_toDigits (by decide) (by decide) hc
  rw [leadingNat, hall, Nat.ofDigitChars_toDigits (by decide) (by decide)]

/-- A number starts with a digit, which is neither a sign nor a space. -/
theorem exists_toDigits (n : ℕ) : ∃ c l, Nat.toDigits 10 n = c :: l ∧ c ≠ '-' ∧ c ≠ '+' ∧
    isspace c = false := by
  obtain ⟨c, l, h⟩ := List.exists_cons_of_ne_nil (@Nat.toDigits_ne_nil n 10)
  have hc : c.isDigit = true :=
    Nat.isDigit_of_mem_toDigits (b := 10) (n := n) (by decide) (by decide)
      (by rw [h]; exact List.mem_cons_self)
  have h48 : 48 ≤ c.toNat := by
    simp only [Char.isDigit, Bool.and_eq_true, decide_eq_true_eq] at hc
    exact hc.1
  refine ⟨c, l, h, ?_, ?_, ?_⟩
  · rintro rfl
    simp at h48
  · rintro rfl
    simp at h48
  · have h32 : c ≠ ' ' := by
      rintro rfl
      simp at h48
    simp only [isspace, h32, decide_false, Bool.false_or, Bool.and_eq_false_iff, decide_eq_false_iff_not]
    omega

theorem strtol_toString_nat {n : ℕ} (h : n < 2 ^ 63) : strtol (toString n) = n := by
  obtain ⟨c, l, hl, hminus, hplus, hspace⟩ := exists_toDigits n
  have hlead := leadingNat_toDigits n
  have hlist : (toString n).toList = c :: l := by rw [Nat.toString_eq_repr, Nat.toList_repr, hl]
  rw [hl] at hlead
  rw [strtol, hlist, List.dropWhile_cons_of_neg (by rw [hspace]; decide)]
  split
  · next he => exact absurd (List.cons.inj he).1 hminus
  · next he => exact absurd (List.cons.inj he).1 hplus
  · rw [hlead]
    norm_num at h
    omega

theorem strtol_neg {n : ℕ} (h : n < 2 ^ 63) : strtol ("-" ++ toString n) = -n := by
  have hlead := leadingNat_toDigits n
  have hlist : ("-" ++ toString n).toList = '-' :: Nat.toDigits 10 n := by
    rw [String.toList_append, Nat.toString_eq_repr, Nat.toList_repr]
    rfl
  rw [strtol, hlist, List.dropWhile_cons_of_neg (by decide)]
  change max (-(leadingNat _ : ℤ)) _ = _
  rw [hlead]
  norm_num at h ⊢
  omega

/-- Every `int` has a text. -/
theorem atoi_toString {n : ℤ} (h : IsInt n) : atoi (toString n) = n := by
  obtain ⟨h1, h2⟩ := h
  norm_num at h1 h2
  have hlong : strtol (toString n) = n := by
    rw [Int.toString_eq_repr, Int.repr_eq_if]
    split
    · rw [← Nat.toString_eq_repr, strtol_toString_nat (by norm_num; omega)]
      omega
    · rw [← Nat.toString_eq_repr, strtol_neg (by norm_num; omega)]
      omega
  rw [atoi, hlong, bmod_of_isInt ⟨by norm_num; omega, by norm_num; omega⟩]

end MEADcast
