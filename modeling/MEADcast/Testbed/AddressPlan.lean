import MEADcast.Lib.Block

/-!
# The address plan of the testbed (`mk_topo.py`)

Every stub network and every transit link of a topology gets a network whose address is put
together from the common range, the area, and the id of the stub or the ids of the two routers.
Stub ids and host parts are decimal numbers read as hexadecimal ones; the ids of two routers are
shifted by eight bits and added.

## Main definitions

* `Stub.setNet`, `Tran.setNet` — the networks.
* `Tran.ifaddr` — the address of a router on a link.
* `Cfg.NoClash` — what the plan is meant to guarantee.

## Main results

* `noClash_iff` — the topologies for which it does.
-/

namespace MEADcast

/-- `IPv6Address(v)`, which raises an error for a number with more than 128 bits. -/
def ipv6Address (v : ℕ) : Option ℕ := if v < 2 ^ 128 then some v else none

/-- `IPv6Network(f'{addr}/{mask}')`, which raises an error for a mask that is too long and for an
address with bits behind the mask. -/
def ipv6Network (addr mask : ℕ) : Option (Block 128) :=
  if h : mask ≤ 128 ∧ addr < 2 ^ 128 ∧ 2 ^ (128 - mask) ∣ addr then
    some ⟨addr, mask, h.1, h.2.1, h.2.2⟩
  else none

/-- `i2h_char`: the decimal digits of a number read as hexadecimal ones. -/
def i2hChar (v : ℕ) : ℕ := Nat.ofDigits 16 (Nat.digits 10 v)

/-- A stub network. -/
structure Stub where
  id : ℕ
  area : ℕ
  mask : ℕ := 112
  deriving DecidableEq, Repr

/-- A transit link between two routers. -/
structure Tran where
  r1 : ℕ
  r2 : ℕ
  area : ℕ
  mask : ℕ := 126
  deriving DecidableEq, Repr

/-- `Stub.set_net`. -/
def Stub.setNet (s : Stub) (range : Block 128) : Option (Block 128) := do
  let suffix := (s.area <<< 32) + (i2hChar s.id <<< 16)
  let net_addr ← ipv6Address (range.addr + suffix)
  ipv6Network net_addr s.mask

/-- `Tran.set_net`. -/
def Tran.setNet (t : Tran) (range : Block 128) : Option (Block 128) := do
  let id := (((t.r1 <<< 8) + t.r2) <<< 16) + (t.area <<< 32)
  let net_addr ← ipv6Address (range.addr + id)
  ipv6Network net_addr t.mask

/-- The address that `Router.create` gives the router `id` on a link with the network `net`. -/
def Tran.ifaddr (net : Block 128) (id : ℕ) : Option ℕ := ipv6Address (net.addr + i2hChar id)

/-- The network of an area. -/
def areaNet (range : Block 128) (area : ℕ) : Option (Block 128) := do
  let net_addr ← ipv6Address (range.addr + (area <<< 32))
  ipv6Network net_addr 96

/-- The part of a topology that addresses depend on. -/
structure Cfg where
  stub_range : Block 128
  tran_range : Block 128
  stubs : List Stub
  trans : List Tran

/-- The two links join the same two routers. -/
def Tran.SameEnds (t t' : Tran) : Prop :=
  (t.r1 = t'.r1 ∧ t.r2 = t'.r2) ∨ (t.r1 = t'.r2 ∧ t.r2 = t'.r1)

namespace Cfg

/-- One range of 32 bits as in the shipped templates, the default masks, areas of 16 bits and
stub ids of at most three digits. -/
structure Regular (c : Cfg) : Prop where
  range_eq : c.tran_range = c.stub_range
  len_eq : c.stub_range.len = 32
  stubs : ∀ s ∈ c.stubs, s.id < 1000 ∧ s.area < 2 ^ 16 ∧ s.mask = 112
  trans : ∀ t ∈ c.trans, t.area < 2 ^ 16 ∧ t.mask = 126

/-- Every network lies in the one of its area, and networks are disjoint, except for those of
stubs with the same id and of links between the same routers.  The two ends of a link have
different addresses in the network of the link. -/
structure NoClash (c : Cfg) : Prop where
  stub_area : ∀ s ∈ c.stubs, ∃ B A, s.setNet c.stub_range = some B ∧
    areaNet c.stub_range s.area = some A ∧ B.toSet ⊆ A.toSet
  tran_area : ∀ t ∈ c.trans, ∃ B A, t.setNet c.tran_range = some B ∧
    areaNet c.tran_range t.area = some A ∧ B.toSet ⊆ A.toSet
  stubs : ∀ s ∈ c.stubs, ∀ s' ∈ c.stubs, s.id ≠ s'.id → ∀ B B',
    s.setNet c.stub_range = some B → s'.setNet c.stub_range = some B' → Disjoint B.toSet B'.toSet
  trans : ∀ t ∈ c.trans, ∀ t' ∈ c.trans, ¬ t.SameEnds t' → ∀ B B',
    t.setNet c.tran_range = some B → t'.setNet c.tran_range = some B' → Disjoint B.toSet B'.toSet
  mixed : ∀ s ∈ c.stubs, ∀ t ∈ c.trans, ∀ B B',
    s.setNet c.stub_range = some B → t.setNet c.tran_range = some B' → Disjoint B.toSet B'.toSet
  ends : ∀ t ∈ c.trans, ∀ B, t.setNet c.tran_range = some B → ∃ x y,
    Tran.ifaddr B t.r1 = some x ∧ Tran.ifaddr B t.r2 = some y ∧ x ≠ y ∧
      x ∈ B.toSet ∧ y ∈ B.toSet

end Cfg

/-! ## Digits -/

theorem i2hChar_eq (v : ℕ) : i2hChar v = v % 10 + 16 * i2hChar (v / 10) := by
  rcases Nat.eq_zero_or_pos v with rfl | hv
  · simp [i2hChar]
  · rw [i2hChar, Nat.digits_def' (by decide) hv, Nat.ofDigits_cons]
    rfl

theorem i2hChar_of_lt {v : ℕ} (h : v < 10) : i2hChar v = v := by
  rw [i2hChar_eq, Nat.div_eq_of_lt h, Nat.mod_eq_of_lt h]
  simp [i2hChar]

theorem le_i2hChar (v : ℕ) : v ≤ i2hChar v := by
  induction v using Nat.strong_induction_on with
  | _ v ih =>
      by_cases hv : v < 10
      · rw [i2hChar_of_lt hv]
      · have := ih (v / 10) (by omega)
        rw [i2hChar_eq]
        omega

/-- Different numbers have different digits. -/
theorem i2hChar_inj {u v : ℕ} (h : i2hChar u = i2hChar v) : u = v := by
  induction u using Nat.strong_induction_on generalizing v with
  | _ u ih =>
      rw [i2hChar_eq u, i2hChar_eq v] at h
      by_cases hu : u < 10
      · have := le_i2hChar (v / 10)
        rw [Nat.div_eq_of_lt hu] at h
        simp only [i2hChar, Nat.digits_zero, Nat.ofDigits_nil] at h this
        omega
      · have := @ih (u / 10) (by omega) (v / 10) (by omega)
        omega

theorem i2hChar_three {v : ℕ} (h : v < 1000) :
    i2hChar v = v % 10 + 16 * (v / 10 % 10) + 256 * (v / 100) := by
  rw [i2hChar_eq, i2hChar_eq (v / 10), i2hChar_of_lt (show v / 10 / 10 < 10 by omega)]
  omega

theorem i2hChar_le_three {v : ℕ} : i2hChar v ≤ 3 ↔ v ≤ 3 := by
  constructor
  · intro h
    exact (le_i2hChar v).trans h
  · intro h
    rw [i2hChar_of_lt (by omega)]
    exact h

/-! ## The networks -/

section Networks

variable {range B : Block 128} {s : Stub} {t : Tran} {area : ℕ}

/-- The number of a stub network: the address behind the range without the last 16 bits. -/
def Stub.key (s : Stub) : ℕ := s.area * 2 ^ 16 + i2hChar s.id

/-- The number of a link. -/
def Tran.key (t : Tran) : ℕ := t.area * 2 ^ 16 + (t.r1 * 2 ^ 8 + t.r2)

theorem ipv6Network_eq_some {addr mask : ℕ} (h : ipv6Network addr mask = some B) :
    B.addr = addr ∧ B.len = mask := by
  unfold ipv6Network at h
  split at h
  · obtain rfl := Option.some.inj h
    exact ⟨rfl, rfl⟩
  · cases h

theorem ipv6Address_eq_some {v x : ℕ} (h : ipv6Address v = some x) : x = v := by
  unfold ipv6Address at h
  split at h
  · exact (Option.some.inj h).symm
  · cases h

/-- The construction that `set_net` and `get_abr_str` share, in a range of 32 bits. -/
theorem exists_network (hr : range.len = 32) {v mask : ℕ} (hv : v < 2 ^ 96) (hl : 32 ≤ mask)
    (hm : mask ≤ 128) (hd : 2 ^ (128 - mask) ∣ v) : ∃ B : Block 128,
      (ipv6Address (range.addr + v)).bind (fun a => ipv6Network a mask) = some B ∧
        B.addr = range.addr + v ∧ B.len = mask := by
  have hlt : range.addr + v < 2 ^ 128 := by
    obtain ⟨p, hp⟩ := range.dvd
    have hrange := range.lt
    rw [hr] at hp
    norm_num at hp hrange hv ⊢
    omega
  have hdvd : 2 ^ (128 - mask) ∣ range.addr + v :=
    ((pow_dvd_pow 2 (by omega)).trans range.dvd).add hd
  refine ⟨⟨range.addr + v, mask, hm, hlt, hdvd⟩, ?_, rfl, rfl⟩
  rw [ipv6Address, if_pos hlt, Option.bind_some, ipv6Network, dif_pos ⟨hm, hlt, hdvd⟩]

theorem Stub.addr_of_setNet (h : s.setNet range = some B) :
    B.addr = range.addr + s.key * 2 ^ 16 ∧ B.len = s.mask := by
  simp only [setNet, Option.bind_eq_bind, Option.bind_eq_some_iff] at h
  obtain ⟨a, ha, hB⟩ := h
  obtain ⟨h1, h2⟩ := ipv6Network_eq_some hB
  refine ⟨?_, h2⟩
  rw [h1, ipv6Address_eq_some ha, key, Nat.shiftLeft_eq, Nat.shiftLeft_eq]
  ring

theorem Tran.addr_of_setNet (h : t.setNet range = some B) :
    B.addr = range.addr + t.key * 2 ^ 16 ∧ B.len = t.mask := by
  simp only [setNet, Option.bind_eq_bind, Option.bind_eq_some_iff] at h
  obtain ⟨a, ha, hB⟩ := h
  obtain ⟨h1, h2⟩ := ipv6Network_eq_some hB
  refine ⟨?_, h2⟩
  rw [h1, ipv6Address_eq_some ha, key, Nat.shiftLeft_eq, Nat.shiftLeft_eq, Nat.shiftLeft_eq]
  ring

theorem Stub.exists_setNet (hr : range.len = 32) (hid : s.id < 1000) (ha : s.area < 2 ^ 16)
    (hm : s.mask = 112) : ∃ B, s.setNet range = some B := by
  have hi := i2hChar_three hid
  obtain ⟨B, hB, -⟩ := exists_network hr (v := (s.area <<< 32) + (i2hChar s.id <<< 16))
    (by simp only [Nat.shiftLeft_eq]; omega) (show 32 ≤ s.mask by omega) (by omega) (by
      rw [hm]
      simp only [Nat.shiftLeft_eq]
      omega)
  exact ⟨B, hB⟩

theorem Tran.exists_setNet (hr : range.len = 32) (h1 : t.r1 < 256) (h2 : t.r2 < 256)
    (ha : t.area < 2 ^ 16) (hm : t.mask = 126) : ∃ B, t.setNet range = some B := by
  obtain ⟨B, hB, -⟩ := exists_network hr (v := (((t.r1 <<< 8) + t.r2) <<< 16) + (t.area <<< 32))
    (by simp only [Nat.shiftLeft_eq]; omega) (show 32 ≤ t.mask by omega) (by omega) (by
      rw [hm]
      simp only [Nat.shiftLeft_eq]
      omega)
  exact ⟨B, hB⟩

theorem exists_areaNet (hr : range.len = 32) (ha : area < 2 ^ 16) : ∃ A,
    areaNet range area = some A ∧ A.addr = range.addr + area * 2 ^ 32 ∧ A.len = 96 := by
  obtain ⟨A, hA, haddr, hlen⟩ := exists_network hr (v := area <<< 32)
    (by simp only [Nat.shiftLeft_eq]; omega) (show 32 ≤ 96 by decide) (by decide) (by
      simp only [Nat.shiftLeft_eq]
      omega)
  refine ⟨A, hA, ?_, hlen⟩
  rw [haddr, Nat.shiftLeft_eq]

/-! ### Comparing numbers -/

variable {A B' : Block 128} {k k' : ℕ}

/-- A network lies in the one of an area if the number of the area stands in front of its own. -/
theorem subset_areaNet_iff (hA : A.addr = range.addr + area * 2 ^ 32) (hAl : A.len = 96)
    (hB : B.addr = range.addr + k * 2 ^ 16) (hBl : 96 ≤ B.len) :
    B.toSet ⊆ A.toSet ↔ k / 2 ^ 16 = area := by
  have hsize : A.size = 2 ^ 32 := by simp [Block.size, hAl]
  rw [Block.subset_iff (hAl ▸ hBl), Block.toSet, Set.mem_Ico, hA, hB, hsize]
  constructor
  · rintro ⟨h1, h2⟩
    omega
  · intro h
    constructor
    · omega
    · omega

/-- Networks are disjoint if and only if their numbers differ. -/
theorem disjoint_iff_ne (hB : B.addr = range.addr + k * 2 ^ 16)
    (hB' : B'.addr = range.addr + k' * 2 ^ 16) (hl : B'.len ≤ B.len) (hl' : 112 ≤ B'.len) :
    Disjoint B.toSet B'.toSet ↔ k ≠ k' := by
  have hpos := B'.size_pos
  have hsize : B'.size ≤ 2 ^ 16 := Nat.pow_le_pow_right (by decide) (by omega)
  rw [Block.disjoint_iff hl, Block.toSet, Set.mem_Ico, hB, hB', not_iff_not]
  constructor
  · rintro ⟨h1, h2⟩
    omega
  · rintro rfl
    constructor
    · exact le_rfl
    · omega

theorem Stub.key_div (hid : s.id < 1000) : s.key / 2 ^ 16 = s.area := by
  have := i2hChar_three hid
  rw [key]
  omega

/-- The ids of the routers stay in front of the area if they have no more than 16 bits. -/
theorem Tran.key_div : t.key / 2 ^ 16 = t.area ↔ t.r1 * 2 ^ 8 + t.r2 < 2 ^ 16 := by
  rw [key]
  omega

theorem Stub.key_inj {s' : Stub} (hid : s.id < 1000) (hid' : s'.id < 1000) (h : s.key = s'.key) :
    s.id = s'.id := by
  have h1 := i2hChar_three hid
  have h2 := i2hChar_three hid'
  apply i2hChar_inj
  simp only [key] at h
  omega

/-- The number of a stub network is the one of a link between routers with a single digit. -/
theorem Stub.key_eq_iff (hid : s.id < 1000) (h1 : t.r1 < 10) (h2 : t.r2 < 10) :
    s.key = t.key ↔ s.area = t.area ∧ s.id = 100 * t.r1 + t.r2 := by
  have hs := i2hChar_three hid
  rw [key, Tran.key]
  omega

/-- An address on a link is in the network of the link only for the ids up to three. -/
theorem Tran.ifaddr_mem_iff {id : ℕ} (hl : B.len = 126) :
    (∃ x, Tran.ifaddr B id = some x ∧ x ∈ B.toSet) ↔ id ≤ 3 := by
  have hsize : B.size = 4 := by simp [Block.size, hl]
  have hmem : B.addr + i2hChar id ∈ B.toSet ↔ id ≤ 3 := by
    rw [Block.toSet, Set.mem_Ico, hsize, ← i2hChar_le_three]
    omega
  rw [← hmem]
  constructor
  · rintro ⟨x, hx, hxB⟩
    rwa [← ipv6Address_eq_some hx]
  · intro h
    exact ⟨_, if_pos (Block.lt_of_mem h), h⟩

end Networks

namespace Cfg.Regular

variable {c : Cfg} {B : Block 128}

/-- The network of a stub of a regular topology. -/
theorem addr_of_stub (R : c.Regular) {s : Stub} (hs : s ∈ c.stubs)
    (h : s.setNet c.stub_range = some B) :
    B.addr = c.stub_range.addr + s.key * 2 ^ 16 ∧ B.len = 112 :=
  (R.stubs s hs).2.2 ▸ Stub.addr_of_setNet h

/-- The network of a link of a regular topology. -/
theorem addr_of_tran (R : c.Regular) {t : Tran} (ht : t ∈ c.trans)
    (h : t.setNet c.tran_range = some B) :
    B.addr = c.stub_range.addr + t.key * 2 ^ 16 ∧ B.len = 126 :=
  R.range_eq ▸ (R.trans t ht).2 ▸ Tran.addr_of_setNet h

/-- The network of a stub and the one of a link are disjoint if and only if their numbers
differ. -/
theorem disjoint_stub_tran (R : c.Regular) {s : Stub} {t : Tran} {B' : Block 128}
    (hs : s ∈ c.stubs) (ht : t ∈ c.trans) (h : s.setNet c.stub_range = some B)
    (h' : t.setNet c.tran_range = some B') : Disjoint B.toSet B'.toSet ↔ s.key ≠ t.key := by
  obtain ⟨ha, hl⟩ := R.addr_of_stub hs h
  obtain ⟨ha', hl'⟩ := R.addr_of_tran ht h'
  rw [disjoint_comm, disjoint_iff_ne ha' ha (by omega) (by omega), ne_comm]

end Cfg.Regular

/-- A regular topology gets an address plan without clashes if and only if every link joins two
of the routers one, two and three, and no stub in the area of the link has the id that consists
of the digits of the two routers with a zero between them. -/
theorem noClash_iff (c : Cfg) (R : c.Regular) : c.NoClash ↔ ∀ t ∈ c.trans,
    t.r1 ≤ 3 ∧ t.r2 ≤ 3 ∧ t.r1 ≠ t.r2 ∧
      ∀ s ∈ c.stubs, s.area = t.area → s.id ≠ 100 * t.r1 + t.r2 := by
  have hr := R.len_eq
  have hstub := R.stubs
  have htran := R.trans
  constructor
  · intro N t ht
    obtain ⟨B, -, hB, -⟩ := N.tran_area t ht
    obtain ⟨-, hl⟩ := R.addr_of_tran ht hB
    obtain ⟨x, y, hx, hy, hne, hxB, hyB⟩ := N.ends t ht B hB
    have h1 : t.r1 ≤ 3 := (Tran.ifaddr_mem_iff hl).mp ⟨x, hx, hxB⟩
    have h2 : t.r2 ≤ 3 := (Tran.ifaddr_mem_iff hl).mp ⟨y, hy, hyB⟩
    refine ⟨h1, h2, ?_, fun s hs hsa hid => ?_⟩
    · intro he
      rw [he, hy] at hx
      exact hne (Option.some.inj hx).symm
    · obtain ⟨hlt, hsarea, hsm⟩ := hstub s hs
      obtain ⟨B', hB'⟩ := Stub.exists_setNet hr hlt hsarea hsm
      apply (R.disjoint_stub_tran hs ht hB' hB).mp (N.mixed s hs t ht B' B hB' hB)
      exact (Stub.key_eq_iff hlt (by omega) (by omega)).mpr ⟨hsa, hid⟩
  · intro H
    constructor
    · intro s hs
      obtain ⟨hlt, hsarea, hsm⟩ := hstub s hs
      obtain ⟨B, hB⟩ := Stub.exists_setNet hr hlt hsarea hsm
      obtain ⟨hBa, hBl⟩ := R.addr_of_stub hs hB
      obtain ⟨A, hA, hAa, hAl⟩ := exists_areaNet hr hsarea
      exact ⟨B, A, hB, hA,
        (subset_areaNet_iff hAa hAl hBa (by omega)).mpr (Stub.key_div hlt)⟩
    · intro t ht
      obtain ⟨h1, h2, -⟩ := H t ht
      obtain ⟨htarea, htm⟩ := htran t ht
      obtain ⟨B, hB⟩ := Tran.exists_setNet (R.range_eq ▸ hr) (show t.r1 < 256 by omega)
        (show t.r2 < 256 by omega) htarea htm
      obtain ⟨hBa, hBl⟩ := R.addr_of_tran ht hB
      obtain ⟨A, hA, hAa, hAl⟩ := exists_areaNet hr htarea
      exact ⟨B, A, hB, R.range_eq ▸ hA,
        (subset_areaNet_iff hAa hAl hBa (by omega)).mpr (Tran.key_div.mpr (by omega))⟩
    · intro s hs s' hs' hne B B' hB hB'
      obtain ⟨ha, hl⟩ := R.addr_of_stub hs hB
      obtain ⟨ha', hl'⟩ := R.addr_of_stub hs' hB'
      exact (disjoint_iff_ne ha ha' (by omega) (by omega)).mpr fun h =>
        hne (Stub.key_inj (hstub s hs).1 (hstub s' hs').1 h)
    · intro t ht t' ht' hne B B' hB hB'
      obtain ⟨ha, hl⟩ := R.addr_of_tran ht hB
      obtain ⟨ha', hl'⟩ := R.addr_of_tran ht' hB'
      refine (disjoint_iff_ne ha ha' (by omega) (by omega)).mpr fun h => hne (Or.inl ?_)
      obtain ⟨h1, h2, -⟩ := H t ht
      obtain ⟨h1', h2', -⟩ := H t' ht'
      simp only [Tran.key] at h
      omega
    · intro s hs t ht B B' hB hB'
      obtain ⟨h1, h2, -, hno⟩ := H t ht
      refine (R.disjoint_stub_tran hs ht hB hB').mpr fun h => ?_
      obtain ⟨hsa, hid⟩ := (Stub.key_eq_iff (hstub s hs).1 (by omega) (by omega)).mp h
      exact hno s hs hsa hid
    · intro t ht B hB
      obtain ⟨-, hl⟩ := R.addr_of_tran ht hB
      obtain ⟨h1, h2, hne, -⟩ := H t ht
      obtain ⟨x, hx, hxB⟩ := (Tran.ifaddr_mem_iff hl).mpr h1
      obtain ⟨y, hy, hyB⟩ := (Tran.ifaddr_mem_iff hl).mpr h2
      refine ⟨x, y, hx, hy, fun he => hne ?_, hxB, hyB⟩
      have hx' := ipv6Address_eq_some hx
      have hy' := ipv6Address_eq_some hy
      exact i2hChar_inj (by omega)

/-- The range `fd14::/32`. -/
def sampleRange : Block 128 := ⟨0xfd14 <<< 112, 32, by decide, by decide, by decide⟩

/-- The theorem at a triangle of routers with a stub in the same area. -/
theorem noClash_of_triangle :
    (⟨sampleRange, sampleRange, [⟨10, 1, 112⟩], [⟨1, 2, 1, 126⟩, ⟨1, 3, 1, 126⟩, ⟨2, 3, 1, 126⟩]⟩ :
      Cfg).NoClash :=
  (noClash_iff _ ⟨rfl, rfl, by decide, by decide⟩).mpr (by decide)

/-- The link between the routers 1 and 4 of the shipped testbed has an end outside of its network.
Two links can get the same network, in one area or in two areas, and so can a link and a stub. -/
theorem address_clashes :
    ¬ (⟨sampleRange, sampleRange, [⟨10, 1, 112⟩], [⟨1, 4, 0, 126⟩]⟩ : Cfg).NoClash ∧
    (∀ t ∈ [(⟨1, 257, 0, 126⟩ : Tran), ⟨2, 1, 0, 126⟩],
      (t.setNet sampleRange).map Block.addr = some (sampleRange.addr + 0x02010000)) ∧
    (∀ t ∈ [(⟨412, 413, 4, 126⟩ : Tran), ⟨156, 413, 5, 126⟩],
      (t.setNet sampleRange).map Block.addr = some (sampleRange.addr + 0x59d9d0000)) ∧
    ((⟨102, 0, 112⟩ : Stub).setNet sampleRange).map Block.addr =
      some (sampleRange.addr + 0x01020000) ∧
    ((⟨1, 2, 0, 126⟩ : Tran).setNet sampleRange).map Block.addr =
      some (sampleRange.addr + 0x01020000) := by
  refine ⟨fun N => ?_, by decide +kernel, by decide +kernel, by decide +kernel, by decide +kernel⟩
  obtain ⟨B, -, hB, -⟩ := N.tran_area _ List.mem_cons_self
  obtain ⟨-, hl⟩ := Tran.addr_of_setNet hB
  obtain ⟨-, y, -, hy, -, -, hyB⟩ := N.ends _ List.mem_cons_self B hB
  have h : 4 ≤ 3 := (Tran.ifaddr_mem_iff hl).mp ⟨y, hy, hyB⟩
  omega

end MEADcast
