import Mathlib.Data.Nat.ModEq
import Mathlib.Algebra.BigOperators.Group.List.Basic
import Mathlib.Tactic.Ring

/-!
# One's-complement sums

Addition of the numbers `0 .. m` in which a carry past `m` is added at the low end.  With
`m = 2 ^ w - 1` this is the one's-complement addition of words of `w` bits.  Zero has the two
representations `0` and `m`, and a sum is `0` only if every summand is.

## Main definitions

* `onesAdd`, `onesSum` — the sum of two numbers and of a list.
* `wordSum` — the sum of the 16-bit words of a list of octets, without carries.

## Main results

* `onesSum_eq_max_iff` — a sum is `m` if and only if the plain sum is a non-zero multiple of `m`.
* `wordSum_append` — the words of two lists one behind the other.
-/

namespace MEADcast

section Sum

variable {m : ℕ}

/-- Addition with the carry added at the low end. -/
def onesAdd (m a b : ℕ) : ℕ := if a + b ≤ m then a + b else a + b - m

/-- The sum of a list. -/
def onesSum (m : ℕ) (ws : List ℕ) : ℕ := ws.foldl (onesAdd m) 0

theorem onesAdd_le {a b : ℕ} (ha : a ≤ m) (hb : b ≤ m) : onesAdd m a b ≤ m := by
  unfold onesAdd
  split <;> omega

theorem onesAdd_modEq (m a b : ℕ) : onesAdd m a b ≡ a + b [MOD m] := by
  unfold onesAdd
  split
  · exact Nat.ModEq.rfl
  · exact (Nat.modEq_iff_dvd' (Nat.sub_le _ _)).mpr ⟨1, by omega⟩

theorem onesAdd_eq_zero {a b : ℕ} (ha : a ≤ m) : onesAdd m a b = 0 ↔ a = 0 ∧ b = 0 := by
  unfold onesAdd
  split
  · omega
  · constructor
    · intro h
      omega
    · rintro ⟨rfl, rfl⟩
      omega

theorem foldl_onesAdd (ws : List ℕ) : ∀ a, a ≤ m → (∀ w ∈ ws, w ≤ m) →
    ws.foldl (onesAdd m) a ≤ m ∧ ws.foldl (onesAdd m) a ≡ a + ws.sum [MOD m] ∧
      (ws.foldl (onesAdd m) a = 0 ↔ a + ws.sum = 0) := by
  induction ws with
  | nil => exact fun a ha _ => ⟨ha, Nat.ModEq.rfl, Iff.rfl⟩
  | cons w ws ih =>
      intro a ha hws
      have hw := hws w List.mem_cons_self
      obtain ⟨h1, h2, h3⟩ := ih (onesAdd m a w) (onesAdd_le ha hw)
        fun x hx => hws x (List.mem_cons_of_mem _ hx)
      refine ⟨h1, ?_, ?_⟩
      · rw [List.foldl_cons, List.sum_cons, ← Nat.add_assoc]
        exact h2.trans ((onesAdd_modEq m a w).add_right _)
      · rw [List.foldl_cons, h3, List.sum_cons, Nat.add_eq_zero_iff, onesAdd_eq_zero ha]
        omega

/-- A sum is `m` if and only if the plain sum is a non-zero multiple of `m`. -/
theorem onesSum_eq_max_iff (hm : 0 < m) {ws : List ℕ} (hws : ∀ w ∈ ws, w ≤ m) :
    onesSum m ws = m ↔ ws.sum ≠ 0 ∧ m ∣ ws.sum := by
  obtain ⟨h1, h2, h3⟩ := foldl_onesAdd ws 0 (Nat.zero_le m) hws
  rw [Nat.zero_add] at h2 h3
  change onesSum m ws ≤ m at h1
  change onesSum m ws ≡ _ [MOD m] at h2
  change onesSum m ws = 0 ↔ _ at h3
  constructor
  · intro h
    refine ⟨fun h0 => by rw [h3.mpr h0] at h; omega, ?_⟩
    rw [← (Nat.modEq_zero_iff_dvd)]
    rw [h] at h2
    exact h2.symm.trans (Nat.modEq_zero_iff_dvd.mpr (dvd_refl m))
  · rintro ⟨h0, hdvd⟩
    obtain ⟨k, hk⟩ := Nat.modEq_zero_iff_dvd.mp (h2.trans (Nat.modEq_zero_iff_dvd.mpr hdvd))
    have hne : onesSum m ws ≠ 0 := mt h3.mp h0
    have hk1 : k = 1 := by
      rcases Nat.lt_trichotomy k 1 with hlt | rfl | hgt
      · have : k = 0 := by omega
        simp [this] at hk
        omega
      · rfl
      · have : m * 2 ≤ m * k := Nat.mul_le_mul_left m hgt
        omega
    rw [hk, hk1, Nat.mul_one]

end Sum

/-! ## Words of octets -/

/-- The words of a list of octets in network order; a single octet at the end is followed by
a zero. -/
def words : List (BitVec 8) → List ℕ
  | a :: b :: l => (256 * a.toNat + b.toNat) :: words l
  | [a] => [256 * a.toNat]
  | [] => []

/-- The sum of the words. -/
def wordSum (l : List (BitVec 8)) : ℕ := (words l).sum

theorem le_of_mem_words {l : List (BitVec 8)} {w : ℕ} (h : w ∈ words l) : w ≤ 65535 := by
  induction l using words.induct with
  | case1 a b l ih =>
      rcases List.mem_cons.mp h with rfl | h
      · have := a.isLt
        have := b.isLt
        omega
      · exact ih h
  | case2 a =>
      have := a.isLt
      simp only [words, List.mem_singleton] at h
      omega
  | case3 => cases h

@[simp] theorem wordSum_nil : wordSum [] = 0 := rfl

@[simp] theorem wordSum_cons_cons (a b : BitVec 8) (l : List (BitVec 8)) :
    wordSum (a :: b :: l) = 256 * a.toNat + b.toNat + wordSum l := by
  simp [wordSum, words]

@[simp] theorem wordSum_singleton (a : BitVec 8) : wordSum [a] = 256 * a.toNat := by
  simp [wordSum, words]

theorem wordSum_append {l : List (BitVec 8)} (hl : l.length % 2 = 0) (l' : List (BitVec 8)) :
    wordSum (l ++ l') = wordSum l + wordSum l' := by
  induction l using words.induct with
  | case1 a b l ih =>
      have := ih (by simp only [List.length_cons] at hl; omega)
      simp only [List.cons_append, wordSum_cons_cons, this]
      omega
  | case2 a => simp at hl
  | case3 => simp

theorem wordSum_le (l : List (BitVec 8)) : 2 * wordSum l ≤ 65535 * (l.length + 1) := by
  induction l using words.induct with
  | case1 a b l ih =>
      have := a.isLt
      have := b.isLt
      simp only [wordSum_cons_cons, List.length_cons]
      omega
  | case2 a =>
      have := a.isLt
      simp only [wordSum_singleton, List.length_singleton]
      omega
  | case3 => simp

end MEADcast
