import MEADcast.Datagram

/-!
# The checksum operations of the kernel

The 32-bit one's-complement operations that the router uses to correct a UDP checksum.
Checksum words are read as the little-endian host reads them, so that a word consists of
the second octet followed by the first.

## Main definitions

* `csumAdd`, `csumSub`, `csumFold`, `csumPartial` — the operations of the kernel.
* `updateCheck` — the update of a checksum field for a new destination.

## Main results

* `updateCheck_modEq` — the field changes by as much as the address does.
* `updateCheck_ne_zero` — it does not become zero.
-/

namespace MEADcast

/-- `ntohs` and `htons` of a little-endian host: exchange the two octets. -/
def swab16 (x : BitVec 16) : BitVec 16 := x.extractLsb' 0 8 ++ x.extractLsb' 8 8

/-- `csum_add`: addition with the carry added at the low end. -/
def csumAdd (csum addend : BitVec 32) : BitVec 32 :=
  let res := csum + addend
  if res < addend then res + 1 else res

/-- `csum_sub`: adding the complement. -/
def csumSub (csum addend : BitVec 32) : BitVec 32 := csumAdd csum (~~~addend)

/-- `csum_unfold`. -/
def csumUnfold (n : BitVec 16) : BitVec 32 := n.setWidth 32

/-- `csum_fold`: add the two halves twice and complement. -/
def csumFold (sum : BitVec 32) : BitVec 16 :=
  let sum := (sum &&& 0xffff#32) + sum >>> 16
  let sum := (sum &&& 0xffff#32) + sum >>> 16
  ~~~sum.setWidth 16

/-- `csum_partial`: add the words of a buffer to a sum. -/
def csumPartial : List (BitVec 8) → BitVec 32 → BitVec 32
  | a :: b :: buff, wsum => csumPartial buff (csumAdd wsum ((b ++ a).setWidth 32))
  | [a], wsum => csumAdd wsum (a.setWidth 32)
  | [], wsum => wsum

/-- The checksum update that `m2u` and `md_data_fwd` share: `check` is the field of the
UDP header, `old` and `new` are the destinations before and after. -/
def updateCheck (check : BitVec 16) (old new : In6Addr) : BitVec 16 :=
  let sum := csumPartial (octets new) (~~~csumUnfold (swab16 check))
  let sum := csumSub sum (csumPartial (octets old) 0)
  let check := csumFold sum
  -- `CSUM_MANGLED_0`
  swab16 (if check = 0 then 0xffff#16 else check)

/-! ## Residues

Modulo `0xffff` the operations are those of the integers, and a swap of the octets multiplies
by 256. -/

theorem csumAdd_toNat (csum addend : BitVec 32) :
    (csumAdd csum addend).toNat = onesAdd 4294967295 csum.toNat addend.toNat := by
  have h1 := csum.isLt
  have h2 := addend.isLt
  simp only [csumAdd, onesAdd, BitVec.lt_def, BitVec.toNat_add]
  by_cases h : csum.toNat + addend.toNat ≤ 4294967295
  · rw [if_neg (by omega), if_pos h, BitVec.toNat_add]
    omega
  · have h3 : (1 : BitVec 32).toNat = 1 := rfl
    rw [if_pos (by omega), if_neg h, BitVec.toNat_add, BitVec.toNat_add, h3]
    omega

theorem csumAdd_modEq (csum addend : BitVec 32) :
    (csumAdd csum addend).toNat ≡ csum.toNat + addend.toNat [MOD 65535] := by
  rw [csumAdd_toNat]
  exact (onesAdd_modEq _ _ _).of_dvd (by decide)

theorem csumSub_modEq (csum addend : BitVec 32) :
    (csumSub csum addend).toNat + addend.toNat ≡ csum.toNat [MOD 65535] := by
  have h := csumAdd_modEq csum (~~~addend)
  have hlt := addend.isLt
  rw [BitVec.toNat_not] at h
  simp only [csumSub, Nat.ModEq] at h ⊢
  omega

/-- One of the two additions of `csum_fold`. -/
theorem fold_toNat (sum : BitVec 32) : ((sum &&& 0xffff#32) + sum >>> 16).toNat =
    sum.toNat % 65536 + sum.toNat / 65536 := by
  have hlt := sum.isLt
  have hand : (sum &&& 0xffff#32).toNat = sum.toNat % 65536 := by
    rw [BitVec.toNat_and]
    exact Nat.and_two_pow_sub_one_eq_mod sum.toNat 16
  rw [BitVec.toNat_add, hand, BitVec.toNat_ushiftRight, Nat.shiftRight_eq_div_pow]
  omega

theorem csumFold_modEq (sum : BitVec 32) :
    (csumFold sum).toNat + sum.toNat ≡ 0 [MOD 65535] := by
  have hlt := sum.isLt
  have h : ∀ s, s < 131071 → s % 65536 + s / 65536 < 65536 := fun s _ => by omega
  have hle := h (sum.toNat % 65536 + sum.toNat / 65536) (by omega)
  rw [csumFold, BitVec.toNat_not, BitVec.toNat_setWidth, fold_toNat, fold_toNat,
    Nat.mod_eq_of_lt hle]
  simp only [Nat.ModEq]
  omega

theorem append_toNat (b a : BitVec 8) : (b ++ a).toNat = 256 * b.toNat + a.toNat := by
  have := a.isLt
  rw [BitVec.toNat_append, ← Nat.shiftLeft_add_eq_or_of_lt a.isLt, Nat.shiftLeft_eq]
  omega

theorem csumPartial_modEq (buff : List (BitVec 8)) : ∀ wsum : BitVec 32,
    256 * (csumPartial buff wsum).toNat ≡ 256 * wsum.toNat + wordSum buff [MOD 65535] := by
  induction buff using words.induct with
  | case1 a b buff ih =>
      intro wsum
      have ha := a.isLt
      have hb := b.isLt
      have h1 := ih (csumAdd wsum ((b ++ a).setWidth 32))
      have h2 := csumAdd_modEq wsum ((b ++ a).setWidth 32)
      have h3 : ((b ++ a).setWidth 32).toNat = 256 * b.toNat + a.toNat := by
        rw [BitVec.toNat_setWidth, append_toNat]
        omega
      rw [csumPartial, wordSum_cons_cons]
      rw [h3] at h2
      simp only [Nat.ModEq] at h1 h2 ⊢
      omega
  | case2 a =>
      intro wsum
      have ha := a.isLt
      have h := csumAdd_modEq wsum (a.setWidth 32)
      rw [BitVec.toNat_setWidth] at h
      rw [csumPartial, wordSum_singleton]
      simp only [Nat.ModEq] at h ⊢
      omega
  | case3 =>
      intro wsum
      rw [csumPartial, wordSum_nil, Nat.add_zero]

theorem swab16_toNat (x : BitVec 16) :
    (swab16 x).toNat = 256 * (x.toNat % 256) + x.toNat / 256 := by
  have := x.isLt
  have hlo : (x.extractLsb' 0 8).toNat = x.toNat % 256 := by
    rw [BitVec.extractLsb'_toNat, Nat.shiftRight_zero]
  have hhi : (x.extractLsb' 8 8).toNat = x.toNat / 256 := by
    rw [BitVec.extractLsb'_toNat, Nat.shiftRight_eq_div_pow]
    omega
  rw [swab16, append_toNat, hlo, hhi]

theorem swab16_modEq (x : BitVec 16) : (swab16 x).toNat ≡ 256 * x.toNat [MOD 65535] := by
  have := x.isLt
  rw [swab16_toNat]
  simp only [Nat.ModEq]
  omega

/-- The field changes by as much as the address does. -/
theorem updateCheck_modEq (check : BitVec 16) (old new : In6Addr) :
    (updateCheck check old new).toNat + wordSum (octets new) ≡
      check.toNat + wordSum (octets old) [MOD 65535] := by
  let s₁ := csumPartial (octets new) (~~~csumUnfold (swab16 check))
  let s₂ := csumSub s₁ (csumPartial (octets old) 0)
  let c := if csumFold s₂ = 0 then 0xffff#16 else csumFold s₂
  have hlt := (swab16 check).isLt
  have hnot : (~~~csumUnfold (swab16 check)).toNat = 4294967295 - (swab16 check).toNat := by
    rw [csumUnfold, BitVec.toNat_not, BitVec.toNat_setWidth]
    omega
  have hnew : 256 * s₁.toNat ≡
      256 * (4294967295 - (swab16 check).toNat) + wordSum (octets new) [MOD 65535] := by
    rw [← hnot]
    exact csumPartial_modEq (octets new) _
  have hsub : 256 * s₂.toNat + wordSum (octets old) ≡ 256 * s₁.toNat [MOD 65535] := by
    have hold : 256 * (csumPartial (octets old) 0).toNat ≡ wordSum (octets old) [MOD 65535] := by
      simpa using csumPartial_modEq (octets old) 0
    have h := (csumSub_modEq s₁ (csumPartial (octets old) 0)).mul_left 256
    rw [Nat.mul_add] at h
    exact (hold.symm.add_left _).trans h
  have hfold : (swab16 c).toNat + 256 * s₂.toNat ≡ 0 [MOD 65535] := by
    have hc : c.toNat ≡ (csumFold s₂).toNat [MOD 65535] := by
      by_cases h : csumFold s₂ = 0
      · simp only [c, h, if_true]
        rfl
      · simp only [c, h, if_false]
        rfl
    have h := (((hc.add_right _).trans (csumFold_modEq s₂)).mul_left 256)
    rw [Nat.mul_add] at h
    exact ((swab16_modEq c).add_right _).trans h
  have hcheck := swab16_modEq check
  change (swab16 c).toNat + _ ≡ _ [MOD 65535]
  generalize 256 * s₂.toNat = x at hsub hfold
  generalize 256 * s₁.toNat = y at hnew hsub
  simp only [Nat.ModEq] at *
  omega

/-- It does not become zero. -/
theorem updateCheck_ne_zero (check : BitVec 16) (old new : In6Addr) :
    updateCheck check old new ≠ 0 := by
  have hswab : ∀ x : BitVec 16, swab16 x = 0 → x = 0 := by
    intro x h
    have h' := swab16_toNat x
    have h0 : (0 : BitVec 16).toNat = 0 := rfl
    rw [h, h0] at h'
    apply BitVec.eq_of_toNat_eq
    rw [h0]
    omega
  intro h
  have h' := hswab _ h
  split at h'
  · exact absurd h' (by decide)
  · next hne => exact hne h'

end MEADcast
