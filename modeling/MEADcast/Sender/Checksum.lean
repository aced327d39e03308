import MEADcast.Datagram

/-!
# The checksum of the sender

`checksum.c`, and the use that `tx_uni` and `tx_mdc` make of it.  The folding loop takes a
fuel argument; the accumulators are words of 32 bits.

## Main definitions

* `netChecksumAdd`, `netChecksumFinish`, `netChecksumTcpudp` — the functions of `checksum.c`.
* `Udp.setCheck` — the checksum field as the sender writes it.
* `Folds` — the folding loop returns the complement of the folded sum.

## Main results

* `tcpudpSum_toNat` — no accumulator overflows.
* `netChecksumFinish_spec` — the folding loop ends, with the complement of the folded sum.
* `accepted_setCheck_iff` — when receivers accept the field that the sender writes.
-/

namespace MEADcast

/-- The loop of `net_checksum_add` from octet `i` on. -/
def netChecksumAddLoop : ℕ → List (BitVec 8) → BitVec 32 → BitVec 32
  | _, [], sum => sum
  | i, b :: buf, sum =>
      netChecksumAddLoop (i + 1) buf
        (if i % 2 = 1 then sum + b.setWidth 32 else sum + b.setWidth 32 <<< 8)

/-- `net_checksum_add`. -/
def netChecksumAdd (len : ℕ) (buf : List (BitVec 8)) : BitVec 32 :=
  netChecksumAddLoop 0 (buf.take len) 0

/-- `net_checksum_finish`. -/
def netChecksumFinish : ℕ → BitVec 32 → Option (BitVec 16)
  | 0, _ => none
  | fuel + 1, sum =>
      if sum >>> 16 ≠ 0 then netChecksumFinish fuel ((sum &&& 0xffff#32) + sum >>> 16)
      else some (~~~sum.setWidth 16)

/-- The accumulator of `net_checksum_tcpudp`. -/
def tcpudpSum (length npad proto : BitVec 16) (src dst buf : List (BitVec 8)) : BitVec 32 :=
  let sum := netChecksumAdd (length.toNat + npad.toNat) buf
  let sum := sum + netChecksumAdd 16 src
  let sum := sum + netChecksumAdd 16 dst
  sum + (proto.setWidth 32 + length.setWidth 32)

/-- `net_checksum_tcpudp`. -/
def netChecksumTcpudp (fuel : ℕ) (length npad proto : BitVec 16) (src dst buf : List (BitVec 8)) :
    Option (BitVec 16) :=
  netChecksumFinish fuel (tcpudpSum length npad proto src dst buf)

/-- What `tx_uni` and `tx_mdc` do to the checksum field: they set it to zero and then to the
checksum of the datagram. -/
def Udp.setCheck (fuel : ℕ) (src dst : In6Addr) (u : Udp) : Option Udp := do
  let u := { u with check := 0 }
  let check ← netChecksumTcpudp fuel u.len 0 17 (octets src) (octets dst) u.bytes
  return { u with check := check }

/-! ## The accumulators -/

theorem zero_toNat {w : ℕ} : (0 : BitVec w).toNat = 0 := by
  cases w <;> rfl

theorem netChecksumAddLoop_toNat (buf : List (BitVec 8)) : ∀ (i : ℕ) (sum : BitVec 32),
    i % 2 = 0 → sum.toNat + wordSum buf < 2 ^ 32 →
    (netChecksumAddLoop i buf sum).toNat = sum.toNat + wordSum buf := by
  induction buf using words.induct with
  | case1 a b l ih =>
      intro i sum hi hlt
      have ha := a.isLt
      have hb := b.isLt
      rw [wordSum_cons_cons] at hlt ⊢
      have hstep : (sum + a.setWidth 32 <<< 8 + b.setWidth 32).toNat =
          sum.toNat + 256 * a.toNat + b.toNat := by
        simp only [BitVec.toNat_add, BitVec.toNat_shiftLeft, BitVec.toNat_setWidth,
          Nat.shiftLeft_eq]
        omega
      have h := ih (i + 2) (sum + a.setWidth 32 <<< 8 + b.setWidth 32) (by omega) (by omega)
      rw [netChecksumAddLoop, netChecksumAddLoop, if_neg (show ¬ i % 2 = 1 by omega),
        if_pos (show (i + 1) % 2 = 1 by omega), h, hstep]
      omega
  | case2 a =>
      intro i sum hi hlt
      have ha := a.isLt
      rw [wordSum_singleton] at hlt ⊢
      rw [netChecksumAddLoop, netChecksumAddLoop, if_neg (show ¬ i % 2 = 1 by omega)]
      simp only [BitVec.toNat_add, BitVec.toNat_shiftLeft, BitVec.toNat_setWidth, Nat.shiftLeft_eq]
      omega
  | case3 => exact fun i sum _ _ => by simp [netChecksumAddLoop]

theorem netChecksumAdd_toNat {len : ℕ} {buf : List (BitVec 8)} (hlen : buf.length = len)
    (hle : len ≤ 65535) : (netChecksumAdd len buf).toNat = wordSum buf := by
  have hsum := wordSum_le buf
  have h := netChecksumAddLoop_toNat buf 0 0 rfl (by
    rw [zero_toNat]
    omega)
  rw [netChecksumAdd, List.take_of_length_le (by omega), h]
  simp

/-- No accumulator overflows: what the code computes in 32 bits is the sum of all words. -/
theorem tcpudpSum_toNat (u : Udp) (src dst : In6Addr) (hlen : u.len.toNat = u.size) :
    (tcpudpSum u.len 0 17 (octets src) (octets dst) u.bytes).toNat =
      wordSum (u.covered src dst) := by
  have hul : u.bytes.length = u.len.toNat := by
    simp only [hlen, Udp.bytes, Udp.size, List.length_append, length_octets16]
  have hlt := u.len.isLt
  have h1 := netChecksumAdd_toNat hul (by omega)
  have h2 := netChecksumAdd_toNat (length_octets src) (by decide)
  have h3 := netChecksumAdd_toNat (length_octets dst) (by decide)
  have b1 := wordSum_le u.bytes
  have b2 := wordSum_le (octets src)
  have b3 := wordSum_le (octets dst)
  rw [length_octets] at b2 b3
  rw [Udp.wordSum_covered]
  have h0 : u.len.toNat + (0 : BitVec 16).toNat = u.len.toNat := rfl
  have h17 : (17 : BitVec 16).toNat = 17 := rfl
  simp only [tcpudpSum, BitVec.toNat_add, BitVec.toNat_setWidth, h0, h1, h2, h3, h17]
  omega

/-! ## Folding -/

theorem netChecksumFinish_done {sum : BitVec 32} (h : sum.toNat < 65536) (fuel : ℕ) :
    netChecksumFinish (fuel + 1) sum = some (~~~sum.setWidth 16) := by
  have h0 : sum >>> 16 = 0 := by
    apply BitVec.eq_of_toNat_eq
    simp only [BitVec.toNat_ushiftRight, Nat.shiftRight_eq_div_pow, zero_toNat]
    omega
  simp [netChecksumFinish, h0]

theorem netChecksumFinish_next {sum : BitVec 32} (h : 65536 ≤ sum.toNat) :
    ∃ sum' : BitVec 32, sum'.toNat = sum.toNat % 65536 + sum.toNat / 65536 ∧
      ∀ fuel, netChecksumFinish (fuel + 1) sum = netChecksumFinish fuel sum' := by
  have hlt := sum.isLt
  have hand : (sum &&& 0xffff#32).toNat = sum.toNat % 65536 := by
    rw [BitVec.toNat_and]
    exact Nat.and_two_pow_sub_one_eq_mod sum.toNat 16
  have hne : sum >>> 16 ≠ 0 := by
    intro h0
    have := congrArg BitVec.toNat h0
    simp only [BitVec.toNat_ushiftRight, Nat.shiftRight_eq_div_pow, zero_toNat] at this
    omega
  refine ⟨_, ?_, fun fuel => by rw [netChecksumFinish, if_pos hne]⟩
  simp only [BitVec.toNat_add, hand, BitVec.toNat_ushiftRight, Nat.shiftRight_eq_div_pow]
  omega

/-- With fuel `n` the folding loop returns a word.  The word and the sum add up to a multiple of
`0xffff`, and the complement of the word is zero only if the sum is. -/
def Folds (n : ℕ) (sum : BitVec 32) : Prop :=
  ∃ c : BitVec 16, (∀ fuel, n ≤ fuel → netChecksumFinish fuel sum = some c) ∧
    65535 ∣ sum.toNat + c.toNat ∧ (c.toNat = 65535 → sum.toNat = 0)

theorem folds_of_lt {sum : BitVec 32} {n : ℕ} (h : sum.toNat < 65536) (hn : 1 ≤ n) :
    Folds n sum := by
  have hc : sum.toNat + (~~~sum.setWidth 16 : BitVec 16).toNat = 65535 := by
    simp only [BitVec.toNat_not, BitVec.toNat_setWidth]
    omega
  refine ⟨~~~sum.setWidth 16, fun fuel hf => ?_, by rw [hc], fun h65 => by omega⟩
  obtain ⟨k, rfl⟩ : ∃ k, fuel = k + 1 := ⟨fuel - 1, by omega⟩
  exact netChecksumFinish_done h k

/-- A round keeps the sum modulo `0xffff`. -/
theorem folds_of_le {sum : BitVec 32} {n : ℕ} (h : 65536 ≤ sum.toNat)
    (H : ∀ sum' : BitVec 32, sum'.toNat = sum.toNat % 65536 + sum.toNat / 65536 → Folds n sum') :
    Folds (n + 1) sum := by
  obtain ⟨sum', he, hf⟩ := netChecksumFinish_next h
  obtain ⟨c, h1, h2, h3⟩ := H sum' he
  refine ⟨c, fun fuel hfuel => ?_, by omega, fun h65 => ?_⟩
  · obtain ⟨k, rfl⟩ : ∃ k, fuel = k + 1 := ⟨fuel - 1, by omega⟩
    rw [hf, h1 k (by omega)]
  · have := h3 h65
    omega

/-- The folding loop ends after at most two rounds. -/
theorem netChecksumFinish_spec (sum : BitVec 32) : Folds 3 sum := by
  have hlt := sum.isLt
  by_cases h1 : sum.toNat < 65536
  · exact folds_of_lt h1 (by decide)
  · refine folds_of_le (by omega) fun sum₁ he₁ => ?_
    by_cases h2 : sum₁.toNat < 65536
    · exact folds_of_lt h2 (by decide)
    · exact folds_of_le (by omega) fun sum₂ he₂ => folds_of_lt (by omega) le_rfl

theorem exists_setCheck {fuel : ℕ} (hf : 3 ≤ fuel) (u : Udp) (src dst : In6Addr) :
    ∃ c, u.setCheck fuel src dst = some { u with check := c } := by
  obtain ⟨c, h, -⟩ := netChecksumFinish_spec
    (tcpudpSum u.len 0 17 (octets src) (octets dst) ({ u with check := 0 } : Udp).bytes)
  refine ⟨c, ?_⟩
  simp only [Udp.setCheck, netChecksumTcpudp, Option.bind_eq_bind]
  rw [h fuel hf]
  rfl

/-! ## What receivers make of it -/

/-- For every datagram and all addresses the accumulators do not overflow, the folding loop
ends, and the field makes the sum over pseudo header, UDP header and payload `0xffff`; but the
field is zero, which receivers must not accept, exactly if the sum with the field set to zero
is a multiple of `0xffff`. -/
theorem accepted_setCheck_iff (u : Udp) (src dst : In6Addr) (hlen : u.len.toNat = u.size) :
    ∃ c : BitVec 16, (∀ fuel, 3 ≤ fuel → u.setCheck fuel src dst = some { u with check := c }) ∧
      (tcpudpSum u.len 0 17 (octets src) (octets dst) ({ u with check := 0 } : Udp).bytes).toNat =
        wordSum (({ u with check := 0 } : Udp).covered src dst) ∧
      onesSum 65535 (words (({ u with check := c } : Udp).covered src dst)) = 0xffff ∧
      (({ u with check := c } : Udp).Accepted src dst ↔
        ¬ 65535 ∣ wordSum (({ u with check := 0 } : Udp).covered src dst)) := by
  let u₀ : Udp := { u with check := 0 }
  obtain ⟨c, h1, h2, h3⟩ := netChecksumFinish_spec
    (tcpudpSum u.len 0 17 (octets src) (octets dst) u₀.bytes)
  have hsum := tcpudpSum_toNat u₀ src dst hlen
  change BitVec.toNat (tcpudpSum u.len 0 17 _ _ _) = _ at hsum
  rw [hsum] at h2 h3
  have hc : wordSum (({ u with check := c } : Udp).covered src dst) =
      wordSum (u₀.covered src dst) + c.toNat := by
    simp only [Udp.wordSum_covered, Udp.wordSum_bytes, u₀, zero_toNat]
    omega
  have hpos : wordSum (u₀.covered src dst) ≠ 0 := by
    rw [Udp.wordSum_covered]
    omega
  have hvalid : onesSum 65535 (words (({ u with check := c } : Udp).covered src dst)) = 0xffff := by
    rw [onesSum_eq_max_iff (by decide) fun w hw => le_of_mem_words hw]
    change wordSum _ ≠ 0 ∧ 65535 ∣ wordSum _
    rw [hc]
    exact ⟨by omega, h2⟩
  refine ⟨c, fun fuel hf => ?_, hsum, hvalid, ?_⟩
  · simp only [Udp.setCheck, netChecksumTcpudp, Option.bind_eq_bind]
    rw [h1 fuel hf]
    rfl
  · rw [Udp.Accepted, and_iff_left hvalid, not_iff_not]
    change c = 0 ↔ _
    have hlt := c.isLt
    constructor
    · intro h0
      rw [h0, zero_toNat, Nat.add_zero] at h2
      exact h2
    · intro hdvd
      change 65535 ∣ wordSum (u₀.covered src dst) at hdvd
      have : c.toNat ≠ 65535 := fun h => hpos (h3 h)
      apply BitVec.eq_of_toNat_eq
      rw [zero_toNat]
      omega

/-- A datagram without payload from port 4096 to port `dest`. -/
def Udp.bare (dest : BitVec 16) : Udp where
  source := 4096
  dest := dest
  len := 8
  check := 0
  data := []

/-- A datagram with a payload of three octets, for which the sum needs more than 16 bits. -/
def Udp.odd : Udp := { Udp.bare 5000 with len := 11, data := [0xff, 0xff, 0xff] }

/-- The theorem for this datagram.  The loop of `net_checksum_finish` runs more than once. -/
theorem accepted_setCheck_odd : Udp.odd.len.toNat = Udp.odd.size ∧ Udp.odd.setCheck 1 1 2 = none ∧
    ∃ c : BitVec 16, (∀ fuel, 3 ≤ fuel → Udp.odd.setCheck fuel 1 2 = some { Udp.odd with check := c }) ∧
      ({ Udp.odd with check := c } : Udp).Accepted 1 2 := by
  obtain ⟨c, h, -, -, hiff⟩ := accepted_setCheck_iff Udp.odd 1 2 rfl
  refine ⟨rfl, by decide +kernel, c, h, hiff.2 ?_⟩
  decide +kernel

/-- To port 61403 the sum of all words is `0xffff`, and the sender writes a zero. -/
theorem not_accepted_bare : (Udp.bare 61403).len.toNat = (Udp.bare 61403).size ∧
    (Udp.bare 61403).setCheck 3 1 2 = some { Udp.bare 61403 with check := 0 } ∧
      ¬ ({ Udp.bare 61403 with check := 0 } : Udp).Accepted 1 2 := by
  refine ⟨rfl, by decide +kernel, fun h => h.1 rfl⟩

end MEADcast
