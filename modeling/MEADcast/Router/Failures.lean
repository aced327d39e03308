import MEADcast.Router.Conservation
import Mathlib.Algebra.Order.Monoid.Canonical.Defs
import Mathlib.Data.Multiset.OrderedMonoid

/-!
# Failing transmissions

When a transmission fails the router gives up and lets the packet travel on as it came, with
every segment still marked.  This does no harm only if nothing has left the router before.

## Main definitions

* `MdcHdr.fanout` — how many packets the router makes for each segment.
* `Net.Harmless` — the failures after which no endpoint is served twice.

## Main results

* `at_most_once_iff` — no endpoint is sent a second time if and only if the failures are
  harmless, and then none is lost either.
-/

namespace MEADcast

variable {net : Net} {skb : Skb} {hd : MdcHdr}

/-- The number of packets the router makes for each segment that is to be delivered. -/
def MdcHdr.fanout (net : Net) (hd : MdcHdr) : List ℕ :=
  hd.pending.map fun p => if net.unicasts p.2 then p.2.leaves.length else 1

/-- None of the transmissions that the packet needs fails; or the very first one fails, and
this ends the processing: there is only one segment, or the first one needs a single packet, or
the copy that is sent in its place fails, too. -/
def Net.Harmless (net : Net) (hd : MdcHdr) : Prop :=
  (∀ c < (hd.fanout net).sum - 1, net.outputError c = false) ∨
    (net.outputError 0 = true ∧ (hd.pending.length = 1 ∨ (hd.fanout net).head? = some 1 ∨
      net.outputError 1 = true))

/-- The router runs `md_data_rcv` on the packet. -/
structure Net.Handles (net : Net) (skb : Skb) (hd : MdcHdr) : Prop where
  enabled : net.ip6_mdcast_enable = true
  routing : skb.ip.nexthdr = ipprotoRouting
  md_eq : skb.md = some hd
  type_eq : hd.type = ipv6Meadcast

/-- What leaves the router is what `md_data_rcv` sent and the packet it left. -/
theorem ip6Forward_eq (H : net.Handles skb hd) (hdcv : hd.dcv = false) :
    ip6Forward net skb =
      (mdDataRcv net .start { skb with ip := { skb.ip with hop_limit := skb.ip.hop_limit - 1 } }).map
        fun r => r.2.2.sent ++ [r.2.1] := by
  obtain ⟨he, hr, hmd, ht⟩ := H
  simp only [ip6Forward, hr, if_true, mdRcv, hmd, he, ht, hdcv, Option.bind_eq_bind,
    Option.bind_some, Bool.true_eq_false, ne_eq, not_true_eq_false, if_false, Bool.false_eq_true,
    Option.map_eq_bind, Option.bind_assoc]
  rfl

/-- If nothing fails, what leaves the router are the packets it makes. -/
theorem ip6Forward_forwarded (H : net.Handles skb hd) (W : hd.WellFormed) (hr : net.Routes)
    (ht : net.Transmits) : ip6Forward net skb =
      some (({ skb with ip := { skb.ip with hop_limit := skb.ip.hop_limit - 1 } } : Skb).forwarded
        net hd) := by
  have hmd : ({ skb with ip := { skb.ip with hop_limit := skb.ip.hop_limit - 1 } } : Skb).md =
      some hd := H.md_eq
  obtain ⟨left, t, h1, h2⟩ := mdDataRcv_spec hmd W hr ht
  rw [ip6Forward_eq H W.data.1, h1, Option.map_some, h2]

/-- The same for discovery packets. -/
theorem ip6Forward_eq_dcv (H : net.Handles skb hd) (hdcv : hd.dcv = true) :
    ip6Forward net skb =
      (mdDcvRcv net .start { skb with ip := { skb.ip with hop_limit := skb.ip.hop_limit - 1 } }).map
        fun r => r.2.2.sent ++ [r.2.1] := by
  obtain ⟨he, hr, hmd, ht⟩ := H
  simp only [ip6Forward, hr, if_true, mdRcv, hmd, he, ht, hdcv, Option.bind_eq_bind,
    Option.bind_some, Bool.true_eq_false, ne_eq, not_true_eq_false, if_false,
    Option.map_eq_bind, Option.bind_assoc]
  rfl

/-- A router that does not run `md_data_rcv` on a data packet forwards it. -/
theorem ip6Forward_idle (hmd : skb.md = some hd) (H : ¬ net.Handles skb hd) : ip6Forward net skb =
      some [{ skb with ip := { skb.ip with hop_limit := skb.ip.hop_limit - 1 } }] := by
  simp only [ip6Forward]
  by_cases hr : skb.ip.nexthdr = ipprotoRouting
  · rw [if_pos hr]
    by_cases he : net.ip6_mdcast_enable = false
    · simp [mdRcv, hmd, he, Tx.start]
    · have hty : hd.type ≠ ipv6Meadcast := fun hty =>
        H ⟨by simpa using he, hr, hmd, hty⟩
      simp only [mdRcv, hmd, he, if_pos hty, Option.bind_eq_bind, Option.bind_some]
      rfl
  · rw [if_neg hr]
    rfl

theorem length_packets (p : ℕ × Seg In6Addr In6Addr) :
    (skb.packets net hd p).length = if net.unicasts p.2 then p.2.leaves.length else 1 := by
  unfold Skb.packets
  split
  · rw [List.length_map]
  · rfl

theorem length_allPackets (P : List (ℕ × Seg In6Addr In6Addr)) :
    (skb.allPackets net hd P).length =
      (P.map fun p => if net.unicasts p.2 then p.2.leaves.length else 1).sum := by
  induction P with
  | nil => rfl
  | cons p P ih =>
      rw [Skb.allPackets, List.flatMap_cons, List.length_append, length_packets, List.map_cons,
        List.sum_cons]
      congr 1

/-! ## Packets that carry endpoints -/

theorem MdcHdr.WellFormed.endpoints_ne_zero (W : hd.WellFormed) (hmd : skb.md = some hd) :
    skb.endpoints ≠ 0 := by
  obtain ⟨p, P, hp⟩ := List.exists_cons_of_ne_nil W.pending_ne_nil
  have hmem : p ∈ hd.segs := List.mem_of_mem_filter (hp ▸ List.mem_cons_self : p ∈ hd.pending)
  obtain ⟨a, ls, hls⟩ := List.exists_cons_of_ne_nil (W.holds hmem).leaves_ne
  rw [Skb.endpoints, hmd]
  simp [hp, hls]

theorem endpoints_ne_zero_of_mem (W : hd.WellFormed) {P : List (ℕ × Seg In6Addr In6Addr)}
    (hP : P ⊆ hd.segs) {q : Skb} (hq : q ∈ skb.allPackets net hd P) : q.endpoints ≠ 0 := by
  obtain ⟨p, hp, hpq⟩ := List.mem_flatMap.mp hq
  unfold Skb.packets at hpq
  split at hpq
  · obtain ⟨a, -, rfl⟩ := List.mem_map.mp hpq
    simp
  · obtain rfl := List.mem_singleton.mp hpq
    exact (W.toward (hP hp)).endpoints_ne_zero rfl

theorem Net.Stems.endpoints_ne_zero (W : hd.WellFormed) (hmd : skb.md = some hd)
    {P : List (ℕ × Seg In6Addr In6Addr)} (hP : P ⊆ hd.segs) {out : List Skb}
    (h : net.Stems skb hd P out) {q : Skb} (hq : q ∈ out) : q.endpoints ≠ 0 := by
  rcases h q hq with rfl | ⟨p, hp, hs⟩
  · exact W.endpoints_ne_zero hmd
  · rw [hs.endpoints_eq]
    exact endpoints_ne_zero_of_mem W hP hp

theorem sum_endpoints_ne_zero {l : List Skb} (hne : l ≠ []) (h : ∀ q ∈ l, q.endpoints ≠ 0) :
    (l.map Skb.endpoints).sum ≠ 0 := by
  obtain ⟨q, l, rfl⟩ := List.exists_cons_of_ne_nil hne
  rw [List.map_cons, List.sum_cons]
  intro h0
  exact h q List.mem_cons_self (add_eq_zero.mp h0).1

theorem sum_endpoints_eq {l l' : List Skb} (h : List.Forall₂ net.Sends l l') :
    (l'.map Skb.endpoints).sum = (l.map Skb.endpoints).sum := by
  induction h with
  | nil => rfl
  | cons h _ ih => rw [List.map_cons, List.map_cons, List.sum_cons, List.sum_cons, ih,
      h.endpoints_eq]

theorem not_add_le_self {a b : Multiset In6Addr} (hb : b ≠ 0) : ¬ a + b ≤ a := by
  intro h
  have := Multiset.card_le_card h
  rw [Multiset.card_add] at this
  exact hb (Multiset.card_eq_zero.mp (by omega))

/-! ## When failures do no harm -/

/-- What leaves the router when the first failing transmission is the one at place `c`: more
than what came in, unless nothing was sent before and nothing is sent after it. -/
theorem Net.Broken.sum_endpoints {out : List Skb} {P : List (ℕ × Seg In6Addr In6Addr)} {c : ℕ}
    (W : hd.WellFormed) (hmd : skb.md = some hd) (hP : P ⊆ hd.segs)
    (hc : c < (skb.allPackets net hd P).length) (hst : net.Stems skb hd P out)
    (B : net.Broken skb hd P 0 c out) :
    ((out.map Skb.endpoints).sum = skb.endpoints ∨
        ∃ b, b ≠ 0 ∧ (out.map Skb.endpoints).sum = skb.endpoints + b) ∧
      ((out.map Skb.endpoints).sum = skb.endpoints ↔ c = 0 ∧ (P.length = 1 ∨
        (P.head?.map fun p => (skb.packets net hd p).length) = some 1 ∨
        net.outputError 1 = true)) := by
  obtain ⟨l, rest, rfl, hl, h0⟩ := B
  have hsum : ((l ++ skb :: rest).map Skb.endpoints).sum = skb.endpoints +
      ((l.map Skb.endpoints).sum + (rest.map Skb.endpoints).sum) := by
    rw [List.map_append, List.sum_append, List.map_cons, List.sum_cons]
    abel
  have hrest : rest ≠ [] → (rest.map Skb.endpoints).sum ≠ 0 := fun hne =>
    sum_endpoints_ne_zero hne fun q hq => hst.endpoints_ne_zero W hmd hP
      (List.mem_append_right _ (List.mem_cons_of_mem _ hq))
  have hl0 : c ≠ 0 → (l.map Skb.endpoints).sum ≠ 0 := by
    intro hc0
    have hne : l ≠ [] := by
      rintro rfl
      have := hl.length_eq
      rw [List.length_take, List.length_nil] at this
      omega
    exact sum_endpoints_ne_zero hne fun q hq => hst.endpoints_ne_zero W hmd hP
      (List.mem_append_left _ hq)
  have hnil : c = 0 → l = [] := by
    rintro rfl
    exact List.eq_nil_of_length_eq_zero (by simpa using hl.length_eq.symm)
  have hiff : (l.map Skb.endpoints).sum + (rest.map Skb.endpoints).sum = 0 ↔
      c = 0 ∧ rest = [] := by
    constructor
    · intro h
      obtain ⟨h1, h2⟩ := add_eq_zero.mp h
      exact ⟨by_contra fun hc0 => hl0 hc0 h1, by_contra fun hne => hrest hne h2⟩
    · rintro ⟨hc0, rfl⟩
      rw [hnil hc0]
      rfl
  rw [hsum]
  constructor
  · by_cases hz : (l.map Skb.endpoints).sum + (rest.map Skb.endpoints).sum = 0
    · exact Or.inl (by rw [hz, add_zero])
    · exact Or.inr ⟨_, hz, rfl⟩
  · rw [add_eq_left, hiff]
    exact and_congr_right fun hc0 => h0 hc0

/-- For every well-formed packet and whatever transmissions and route lookups fail, no endpoint
is sent more often than it stood in the packet if and only if the failures are harmless; then
every endpoint is sent exactly as often, so that nothing is lost either. -/
theorem at_most_once_iff (net : Net) (skb : Skb) (hd : MdcHdr) (H : net.Handles skb hd)
    (W : hd.WellFormed) : ∃ out, ip6Forward net skb = some out ∧
      ((out.map Skb.endpoints).sum ≤ skb.endpoints ↔ net.Harmless hd) ∧
      (net.Harmless hd → (out.map Skb.endpoints).sum = skb.endpoints) := by
  let skb₁ : Skb := { skb with ip := { skb.ip with hop_limit := skb.ip.hop_limit - 1 } }
  have hmd₁ : skb₁.md = some hd := H.md_eq
  have hP : hd.pending ⊆ hd.segs := fun p hp => List.mem_of_mem_filter hp
  obtain ⟨e, left, t, l, h1, h2, hst, h3, h4⟩ := serve_spec net
    (show (skb₁.hopped hd).md = some { hd with hops := hd.hops + 1 } from rfl) hd.pending .start
    W.pending_ne_nil fun p hp => W.hopped.holds (hP hp)
  have hE : (skb₁.hopped hd).endpoints = skb.endpoints := by
    rw [endpoints_hopped _ hmd₁, Skb.endpoints, hmd₁, Skb.endpoints, H.md_eq]
  have hn : ((skb₁.hopped hd).allPackets net { hd with hops := hd.hops + 1 } hd.pending).length =
      (hd.fanout net).sum := length_allPackets hd.pending
  rw [hn] at h3 h4
  refine ⟨l ++ [left], ?_, ?_⟩
  · rw [ip6Forward_eq H W.data.1, mdDataRcv_serve hmd₁ W, h1, Option.map_some, h2]
    rfl
  rcases net.clear_or_failsAt 0 ((hd.fanout net).sum - 1) with hc | ⟨c, hc⟩
  · have hsum : ((l ++ [left]).map Skb.endpoints).sum = skb.endpoints := by
      rw [sum_endpoints_eq (h3 hc).2, ← hE, endpoints_hopped _ hmd₁,
        ← endpoints_forwarded net hmd₁ W]
      rfl
    have hh : net.Harmless hd := Or.inl fun c hlt => by simpa using hc c hlt
    exact ⟨iff_of_true hsum.le hh, fun _ => hsum⟩
  · obtain ⟨hor, hiff⟩ := (h4 c hc).sum_endpoints W.hopped rfl hP
      (by rw [hn]; have := hc.1; omega) hst
    have hh : net.Harmless hd ↔ ((l ++ [left]).map Skb.endpoints).sum =
        (skb₁.hopped hd).endpoints := by
      have hhead : (hd.pending.head?.map fun p =>
          ((skb₁.hopped hd).packets net { hd with hops := hd.hops + 1 } p).length) =
            (hd.fanout net).head? := by
        simp only [length_packets, MdcHdr.fanout, List.head?_map]
      rw [hiff, hhead]
      constructor
      · rintro (hclear | ⟨h0, hcase⟩)
        · exact absurd ((hclear c hc.1).symm.trans (by simpa using hc.2.1)) (by decide)
        · have hc0 : c = 0 := by
            by_contra hc0
            have := hc.2.2 0 (by omega)
            simp [h0] at this
          exact ⟨hc0, hcase⟩
      · rintro ⟨rfl, hcase⟩
        exact Or.inr ⟨by simpa using hc.2.1, hcase⟩
    rw [hE] at hor hh
    refine ⟨⟨fun hle => hh.mpr ?_, fun hH => (hh.mp hH).le⟩, hh.mp⟩
    rcases hor with heq | ⟨b, hb, heq⟩
    · exact heq
    · rw [heq] at hle
      exact absurd hle (not_add_le_self hb)

/-- The router with address 3 when the `n`-th transmission is the only one that fails. -/
def Net.failing (n : ℕ) : Net := { Net.sample 3 with outputError := fun m => m == n }

/-- The theorem where the first transmission fails: nothing is lost. -/
theorem at_most_once_sample : ∃ out, ip6Forward (Net.failing 0) Skb.sample = some out ∧
    (out.map Skb.endpoints).sum = {2, 4, 5} := by
  obtain ⟨out, h1, -, h2⟩ := at_most_once_iff (Net.failing 0) Skb.sample _
    ⟨rfl, rfl, rfl, rfl⟩ Skb.sample_wellFormed
  exact ⟨out, h1, (h2 (Or.inr ⟨rfl, Or.inr (Or.inl rfl)⟩)).trans (by decide)⟩

/-- The second transmission fails, after a copy left for the endpoint 2: the packet that is
forwarded then still has all segments marked, and the endpoint 2 is served twice. -/
theorem sent_twice : ∃ out, ip6Forward (Net.failing 1) Skb.sample = some out ∧
    Skb.sample.endpoints = {2, 4, 5} ∧ (out.map Skb.endpoints).sum = {2, 2, 4, 5} :=
  ⟨_, rfl, by decide, by decide +kernel⟩

end MEADcast
