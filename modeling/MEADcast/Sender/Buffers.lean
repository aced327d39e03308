import MEADcast.Sender.Headers

/-!
# Sizes of buffers and devices

The sender derives three sizes from the MTU of the interface it is bound to and from
`max_addrs`: the MTU of the TUN device, the part of its buffer that it reads packets into, and
the space in front of this part for the routing header.  Sizes are of type `size_t`, so that
their differences wrap around; offsets count from the start of the buffer.

## Main definitions

* `initFds` — the MTU of the TUN device.
* `TxBuf`, `initTx` — the buffer.
* `Fits` — a packet is read and sent on as a whole, inside the buffer and the MTU.

## Main results

* `fits_iff` — which packets fit; not all that the TUN device lets through do.
-/

namespace MEADcast

/-- The difference of two values of type `size_t`. -/
def sizeDiff (a b : ℕ) : ℕ := (a + 2 ^ 64 - b) % 2 ^ 64

/-- A value of type `size_t` passed on as an `int`. -/
def asInt (a : ℕ) : ℤ := (a : ℤ).bmod (2 ^ 32)

/-- `MIN_IPV6_MTU`, `sizeof(struct tun_pi)` and `sizeof(struct ipv6hdr)`. -/
abbrev minIpv6Mtu : ℤ := 1280
abbrev tunPiSize : ℕ := 4
abbrev ipv6HdrSize : ℕ := 40

/-- `tun_up`: the MTU that the device gets. -/
def tunUp (mtu : ℤ) : ℤ := if mtu < minIpv6Mtu then minIpv6Mtu else mtu

/-- `init_fds`: the MTU of the TUN device. -/
def initFds (args : Args) (bif_mtu : ℕ) : ℤ :=
  let tif_mtu := sizeDiff bif_mtu (getMdcHdrSize args.max_addrs)
  tunUp (asInt tif_mtu)

/-- `txbuf`: its length, and where the part `buf` of it begins and how long this part is. -/
structure TxBuf where
  txlen : ℕ
  buf : ℕ
  buflen : ℕ
  deriving DecidableEq, Repr

/-- `init_tx`. -/
def initTx (args : Args) (mtu : ℕ) : TxBuf :=
  let hlen := getMdcHdrSize args.max_addrs
  { txlen := mtu, buf := hlen, buflen := sizeDiff mtu hlen }

namespace TxBuf

/-- `ip`, and `ip + 1`: where the IPv6 header and the layer-4 payload of a packet begin. -/
def ip (b : TxBuf) : ℕ := b.buf + tunPiSize
def l3pl (b : TxBuf) : ℕ := b.ip + ipv6HdrSize

/-- What `read` returns for a packet of `n` octets. -/
def read (b : TxBuf) (n : ℕ) : ℕ := min (tunPiSize + n) b.buflen

end TxBuf

/-- `plen`: the length of the layer-4 payload for `tx_mdc` when `n` octets were read. -/
def mdcPlen (n : ℕ) : ℕ :=
  let iplen := sizeDiff n tunPiSize
  sizeDiff iplen ipv6HdrSize

/-- A packet of `n` octets fits: the part of the buffer for packets is inside of the buffer, the
packet is read as a whole, and for each header of a group the copy in front of the payload stays
in the buffer and the packet that is sent does not exceed the MTU. -/
structure Fits (args : Args) (mtu n : ℕ) : Prop where
  no_wrap : getMdcHdrSize args.max_addrs ≤ mtu
  region : (initTx args mtu).buf + (initTx args mtu).buflen ≤ (initTx args mtu).txlen
  complete : (initTx args mtu).read n = tunPiSize + n
  copy : ∀ hd : MdcHdr, hd.Splittable args →
    getMdcHdrSize hd.dsts.toNat ≤ (initTx args mtu).l3pl ∧
      (initTx args mtu).l3pl ≤ (initTx args mtu).txlen
  sent : ∀ hd : MdcHdr, hd.Splittable args →
    ipv6HdrSize + (getMdcHdrSize hd.dsts.toNat + mdcPlen ((initTx args mtu).read n)) ≤ mtu

theorem sizeDiff_of_le {a b : ℕ} (ha : a < 2 ^ 64) (h : b ≤ a) : sizeDiff a b = a - b := by
  rw [sizeDiff]
  omega

theorem asInt_of_lt {a : ℕ} (h : a < 2 ^ 31) : asInt a = a := by
  have hw : ((2 ^ 32 : ℕ) : ℤ) = 4294967296 := rfl
  apply Int.bmod_eq_of_le
  · rw [hw]
    omega
  · rw [hw]
    omega

/-- The TUN device lets packets through that leave no space for the routing header. -/
theorem le_initFds (args : Args) {mtu : ℕ} (hm : mtu < 2 ^ 31)
    (h : getMdcHdrSize args.max_addrs ≤ mtu) :
    ((mtu - getMdcHdrSize args.max_addrs : ℕ) : ℤ) ≤ initFds args mtu := by
  rw [initFds, sizeDiff_of_le (by omega) h, asInt_of_lt (by omega), tunUp]
  split
  · omega
  · exact le_rfl

theorem le_tunUp (mtu : ℤ) : minIpv6Mtu ≤ tunUp mtu := by
  rw [tunUp]
  split
  · exact le_rfl
  · omega

/-- A packet fits if and only if the octets in front of it and the longest header fit with it, and
for every MTU and every number of addresses the TUN device lets a packet through that does not
fit. -/
theorem fits_iff (args : Args) (mtu : ℕ) (hm : mtu < 2 ^ 31) :
    (∀ n, ipv6HdrSize ≤ n →
      (Fits args mtu n ↔ n + tunPiSize + getMdcHdrSize args.max_addrs ≤ mtu)) ∧
    ¬ ∀ n : ℕ, ipv6HdrSize ≤ n → (n : ℤ) ≤ initFds args mtu → Fits args mtu n := by
  have h4 : tunPiSize = 4 := rfl
  have h40 : ipv6HdrSize = 40 := rfl
  have hiff : ∀ n, ipv6HdrSize ≤ n →
      (Fits args mtu n ↔ n + tunPiSize + getMdcHdrSize args.max_addrs ≤ mtu) := by
    intro n hn
    constructor
    · rintro ⟨hle, -, hread, -⟩
      have hmin : min (tunPiSize + n) (sizeDiff mtu (getMdcHdrSize args.max_addrs)) =
        tunPiSize + n := hread
      rw [sizeDiff_of_le (by omega) hle] at hmin
      omega
    · intro h
      have hlen : sizeDiff mtu (getMdcHdrSize args.max_addrs) =
          mtu - getMdcHdrSize args.max_addrs := sizeDiff_of_le (by omega) (by omega)
      have hread : (initTx args mtu).read n = tunPiSize + n := by
        simp only [TxBuf.read, initTx, hlen]
        omega
      have hplen : mdcPlen (tunPiSize + n) = n - ipv6HdrSize := by
        have hip : sizeDiff (tunPiSize + n) tunPiSize = n := by
          rw [sizeDiff_of_le (by omega) (by omega)]
          omega
        rw [mdcPlen, hip, sizeDiff_of_le (by omega) hn]
      have hhdr : ∀ hd : MdcHdr, hd.Splittable args →
          getMdcHdrSize hd.dsts.toNat ≤ getMdcHdrSize args.max_addrs := by
        intro hd S
        have := S.le_max
        rw [getMdcHdrSize_eq, getMdcHdrSize_eq]
        omega
      refine ⟨by omega, ?_, hread, fun hd S => ?_, fun hd S => ?_⟩
      · simp only [initTx, hlen]
        omega
      · have := hhdr hd S
        simp only [TxBuf.l3pl, TxBuf.ip, initTx]
        omega
      · have := hhdr hd S
        rw [hread, hplen]
        omega
  refine ⟨hiff, fun H => ?_⟩
  by_cases h : getMdcHdrSize args.max_addrs + ipv6HdrSize ≤ mtu
  · -- the largest packet for which there is space without the octets in front of it
    have hfit := H (mtu - getMdcHdrSize args.max_addrs) (by omega) (le_initFds args hm (by omega))
    have := (hiff _ (by omega)).mp hfit
    omega
  · -- no packet fits
    have hmin := le_tunUp (asInt (sizeDiff mtu (getMdcHdrSize args.max_addrs)))
    have hfit := H ipv6HdrSize le_rfl (le_trans (by decide) hmin)
    have := (hiff _ le_rfl).mp hfit
    omega

/-- The theorem at an MTU of 1500 octets and the defaults: packets of 1320 octets fit. -/
theorem fits_1320 : Fits Args.default 1500 1320 :=
  ((fits_iff Args.default 1500 (by decide)).1 1320 (by decide)).mpr (by decide)

/-- With the default of ten addresses the largest packet that the TUN device lets through loses its
last four octets.  With a hundred addresses the length of the buffer wraps around. -/
theorem last_octets_lost :
    initFds Args.default 1500 = 1324 ∧
      (initTx Args.default 1500).read 1324 = 1324 ∧ ¬ Fits Args.default 1500 1324 ∧
      (initTx { Args.default with max_addrs := 100, two_le_max_addrs := by decide } 1500).buflen =
        2 ^ 64 - 116 := by
  refine ⟨by decide, by decide, fun h => ?_, by decide⟩
  have hread : (initTx Args.default 1500).read 1324 = 4 + 1324 := h.complete
  exact absurd hread (by decide)

end MEADcast
