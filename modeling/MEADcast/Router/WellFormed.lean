import MEADcast.Router.DataSpec
import Mathlib.Algebra.BigOperators.Group.Multiset.Basic

/-!
# Well-formed data headers

A well-formed header consists of segments, each of them with a router and at least one
endpoint.  The endpoints of a packet are those of its segments that are still to be
delivered, and the one a plain packet is addressed to.

## Main definitions

* `MdcHdr.WellFormed` — what the router takes for granted about a header.
* `Skb.endpoints` — the endpoints a packet is meant for.
* `Skb.forwarded` — the packets a router makes if nothing fails.

## Main results

* `mdDataRcv_serve` — `md_data_rcv` serves the segments that are to be delivered.
* `endpoints_packets` — the packets for a segment are meant for its endpoints.
* `mdDataRcv_spec` — `md_data_rcv` if nothing fails.
-/

namespace MEADcast

/-- The header of a data packet whose maps fit its address list: at most 32 addresses, the
first one a router, an endpoint behind each router, no bit behind the last address, and a
non-empty delivery map that marks routers only. -/
structure MdcHdr.WellFormed (hd : MdcHdr) : Prop where
  data : hd.dcv = false ∧ hd.rsp = false
  length_eq : hd.addr.length = hd.dsts.toNat
  dsts_le : hd.dsts.toNat ≤ 32
  first : hd.rtm.getMsbD 0 = true
  endpoint : ∀ p, p < hd.dsts.toNat → hd.rtm.getMsbD p = true →
    p + 1 < hd.dsts.toNat ∧ hd.rtm.getMsbD (p + 1) = false
  beyond : ∀ p, hd.dsts.toNat ≤ p → hd.rtm.getMsbD p = false
  sub : ∀ p, hd.dlvm.getMsbD p = true → hd.rtm.getMsbD p = true
  nonempty : ∃ p, hd.dlvm.getMsbD p = true

variable {net : Net} {skb : Skb} {hd : MdcHdr}

/-- Behind a router without endpoints stands the next router. -/
theorem SegsAt.next_marked {α : Type*} {rt : ℕ → Bool} {g : List (ℕ × Seg α α)} {i : ℕ}
    (H : SegsAt rt i g) {p : ℕ × Seg α α} (hp : p ∈ g) (hnil : p.2.leaves = [])
    (hlt : p.1 + 1 < i + segSize (g.map Prod.snd)) : rt (p.1 + 1) = true := by
  induction g generalizing i with
  | nil => cases hp
  | cons q g ih =>
      obtain ⟨hq, -, -, Hg⟩ := H
      simp only [List.map_cons, segSize_cons] at hlt
      rcases List.mem_cons.mp hp with rfl | hp
      · cases g with
        | nil =>
            simp [hnil] at hlt
            omega
        | cons r g =>
            have hr := Hg.2.1
            simpa [hq, Seg.size, hnil] using hr
      · refine ih Hg hp ?_
        simp only [Seg.size]
        omega

namespace MdcHdr.WellFormed

variable (W : hd.WellFormed)

include W

theorem dsts_pos : 0 < hd.dsts.toNat := by
  by_contra h
  have := W.beyond 0 (by omega)
  simp [W.first] at this

/-- The segments fill the address list. -/
theorem segs_at : segAddrs (hd.segs.map Prod.snd) = hd.addr ∧ SegsAt hd.rtm.getMsbD 0 hd.segs := by
  have ht : hd.addr.take hd.dsts.toNat = hd.addr := by
    rw [← W.length_eq, List.take_length]
  have h1 := splitSegs_addrs hd.rtm.getMsbD hd.addr 0
  have h2 := (splitSegs_at hd.rtm.getMsbD hd.addr 0)
  have hx : (splitSegs hd.rtm.getMsbD 0 hd.addr).1 = [] := by
    by_contra hne
    have := h2.1 0 le_rfl (by have := List.length_pos_of_ne_nil hne; omega)
    simp [W.first] at this
  rw [hx] at h1 h2
  rw [MdcHdr.segs, ht]
  exact ⟨h1, h2.2⟩

theorem segSize_eq : segSize (hd.segs.map Prod.snd) = hd.dsts.toNat := by
  rw [← length_segAddrs, W.segs_at.1, W.length_eq]

theorem holds {p : ℕ × Seg In6Addr In6Addr} (hp : p ∈ hd.segs) : hd.Holds p := by
  obtain ⟨haddr, hat⟩ := W.segs_at
  have hle := (hat.le hp).2
  have hsz := W.segSize_eq
  have hdsts := W.dsts_le
  obtain ⟨hmark, hfree⟩ := hat.marked hp
  have h1 : 1 ≤ p.2.size := by simp [Seg.size]
  obtain ⟨hlt, hep⟩ := W.endpoint p.1 (by omega) hmark
  refine ⟨by omega, fun hnil => ?_, fun k a hk => ?_⟩
  · have hnext := hat.next_marked hp hnil (by
      rw [Nat.zero_add, W.segSize_eq]
      exact hlt)
    simp [hep] at hnext
  · have hk' : k < p.2.size := by
      obtain ⟨hk', -⟩ := List.getElem?_eq_some_iff.mp hk
      simpa [Seg.size] using hk'
    have := hat.getElem? hp hk'
    rw [haddr, hk, Nat.sub_zero] at this
    rw [MdcHdr.dst, if_pos (by omega), Int.toNat_natCast, List.getD_eq_getElem?_getD, this]
    rfl

theorem pending_ne_nil : hd.pending ≠ [] := by
  obtain ⟨p, hp⟩ := W.nonempty
  have hlt : p < hd.dsts.toNat := by
    by_contra h
    have := W.beyond p (by omega)
    simp [W.sub p hp] at this
  obtain ⟨q, hq, rfl⟩ := W.segs_at.2.exists_seg (Nat.zero_le p)
    (by rw [W.segSize_eq]; omega) (W.sub p hp)
  exact List.ne_nil_of_mem (List.mem_filter.mpr ⟨hq, hp⟩)

end MdcHdr.WellFormed

theorem not_mem_segStarts_of_le {g : List (Seg In6Addr In6Addr)} {i j : ℕ}
    (h : i + segSize g ≤ j) : j ∉ segStarts i g := by
  induction g generalizing i with
  | nil => simp [segStarts]
  | cons s g ih =>
      simp only [segSize_cons] at h
      rw [segStarts, List.mem_cons, not_or]
      exact ⟨by omega, ih (by simp only [Seg.size]; omega)⟩

/-- Behind the router of a segment with endpoints stands an endpoint. -/
theorem succ_not_mem_segStarts {g : List (Seg In6Addr In6Addr)} {i j : ℕ}
    (hls : ∀ s ∈ g, s.leaves ≠ []) (h : j ∈ segStarts i g) :
    j + 1 < i + segSize g ∧ j + 1 ∉ segStarts i g := by
  induction g generalizing i with
  | nil => simp [segStarts] at h
  | cons s g ih =>
      have hs := List.length_pos_of_ne_nil (hls s List.mem_cons_self)
      simp only [segSize_cons, segStarts, List.mem_cons, not_or] at h ⊢
      rcases h with rfl | h
      · refine ⟨by omega, by omega, fun hm => ?_⟩
        have := le_of_mem_segStarts hm
        simp only [Seg.size] at this
        omega
      · obtain ⟨h1, h2⟩ := ih (fun x hx => hls x (List.mem_cons_of_mem _ hx)) h
        have := le_of_mem_segStarts h
        simp only [Seg.size] at h1 this
        exact ⟨by omega, by omega, h2⟩

/-- The header of a list of segments with endpoints is well formed. -/
theorem wellFormed_dataHdr {g : List (Seg In6Addr In6Addr)} (hne : g ≠ [])
    (hls : ∀ s ∈ g, s.leaves ≠ []) (hg : segSize g ≤ 32) : (dataHdr g).WellFormed := by
  have hd : (dataHdr g).dsts.toNat = segSize g := by
    simp only [dataHdr, setDataHdr, BitVec.toNat_ofNat]
    omega
  have hbit : ∀ p, (segBitmap 0 g).getMsbD p = decide (p ∈ segStarts 0 g) := by
    intro p
    by_cases hp : p < 32
    · exact getMsbD_segBitmap (by omega) hp
    · have := not_mem_segStarts_of_le (show 0 + segSize g ≤ p by omega)
      simp [BitVec.getMsbD, hp, this]
  have h0 : 0 ∈ segStarts 0 g := by
    obtain ⟨s, g, rfl⟩ := List.exists_cons_of_ne_nil hne
    exact List.mem_cons_self
  refine ⟨⟨rfl, rfl⟩, ?_, by omega, ?_, fun p _ hp => ?_, fun p hp => ?_, fun p hp => hp, 0, ?_⟩
  · rw [hd]
    simp [dataHdr, setDataHdr]
  · exact (hbit 0).trans (decide_eq_true h0)
  · rw [hd]
    change (segBitmap 0 g).getMsbD p = true at hp
    change _ ∧ (segBitmap 0 g).getMsbD (p + 1) = false
    rw [hbit, decide_eq_true_eq] at hp
    rw [hbit, decide_eq_false_iff_not]
    simpa using succ_not_mem_segStarts hls hp
  · rw [hd] at hp
    exact (hbit p).trans (decide_eq_false (not_mem_segStarts_of_le (by omega)))
  · exact (hbit 0).trans (decide_eq_true h0)

/-- The packet with its hop count incremented. -/
def Skb.hopped (skb : Skb) (hd : MdcHdr) : Skb :=
  { skb with md := some { hd with hops := hd.hops + 1 } }

/-- `md_data_rcv` serves the segments that are to be delivered. -/
theorem mdDataRcv_serve (hmd : skb.md = some hd) (W : hd.WellFormed) (t : Tx) :
    mdDataRcv net t skb =
      serve net (skb.hopped hd) (hd.pending.map fun p => (p.1, p.1 + p.2.size)) t :=
  mdDataRcv_eq_serve hmd W.data.1 W.data.2 (fun _ h => absurd h (Nat.not_lt_zero _)) W.segs_at.2
    (by rw [W.segSize_eq]; omega) W.dsts_le (mt List.map_eq_nil_iff.mp W.pending_ne_nil)

/-! ## Endpoints -/

/-- The endpoints a packet is meant for. -/
def Skb.endpoints (skb : Skb) : Multiset In6Addr :=
  match skb.md with
  | none => {skb.ip.daddr}
  | some hd => ↑(hd.pending.flatMap fun p => p.2.leaves)

theorem Net.Sends.endpoints_eq {p q : Skb} (h : net.Sends p q) : q.endpoints = p.endpoints := by
  obtain ⟨d, rfl, -⟩ := h
  rfl

@[simp] theorem endpoints_plain (skb : Skb) (hd : MdcHdr) (a : In6Addr) :
    (skb.plain hd a).endpoints = {a} := rfl

@[simp] theorem endpoints_hopped (skb : Skb) (hmd : skb.md = some hd) :
    (skb.hopped hd).endpoints = skb.endpoints := by
  rw [Skb.endpoints, Skb.endpoints, hmd]
  rfl

theorem SegsAt.filter_eq {α : Type*} {rt : ℕ → Bool} {g : List (ℕ × Seg α α)} {i : ℕ}
    (H : SegsAt rt i g) {p : ℕ × Seg α α} (hp : p ∈ g) :
    (g.filter fun q => decide (q.1 = p.1)) = [p] := by
  induction g generalizing i with
  | nil => cases hp
  | cons q g ih =>
      obtain ⟨hq, -, -, Hg⟩ := H
      rcases List.mem_cons.mp hp with rfl | hp
      · rw [List.filter_cons_of_pos (by simp), List.filter_eq_nil_iff.mpr]
        intro r hr
        have := (Hg.le hr).1
        simp only [Seg.size] at this
        simp only [decide_eq_true_eq]
        omega
      · have := (Hg.le hp).1
        simp only [Seg.size] at this
        rw [List.filter_cons_of_neg (by simp only [decide_eq_true_eq]; omega), ih Hg hp]

/-- The header that marks the router of one segment only. -/
theorem pending_toward (W : hd.WellFormed) {p : ℕ × Seg In6Addr In6Addr} (hp : p ∈ hd.segs) :
    ({ hd with dlvm := posBit p.1 } : MdcHdr).pending = [p] := by
  rw [← W.segs_at.2.filter_eq hp]
  refine List.filter_congr fun q hq => ?_
  exact getMsbD_posBit (W.holds hp).pos_lt (W.holds hq).pos_lt

theorem endpoints_packets (W : hd.WellFormed) {p : ℕ × Seg In6Addr In6Addr} (hp : p ∈ hd.segs) :
    ((skb.packets net hd p).map Skb.endpoints).sum = (p.2.leaves : Multiset In6Addr) := by
  unfold Skb.packets
  split
  · rw [List.map_map]
    have : ∀ ls : List In6Addr,
        (ls.map (Skb.endpoints ∘ skb.plain hd)).sum = (ls : Multiset In6Addr) := by
      intro ls
      induction ls with
      | nil => rfl
      | cons a ls ih =>
          rw [List.map_cons, List.sum_cons, ih]
          simp
    exact this _
  · have : (skb.toward hd p.1 (p.2.leaves.headD 0)).endpoints = (p.2.leaves : Multiset In6Addr) := by
      rw [Skb.endpoints, Skb.toward]
      dsimp only
      rw [pending_toward W hp]
      simp
    rw [List.map_singleton, this, List.sum_singleton]

theorem endpoints_allPackets (W : hd.WellFormed) {P : List (ℕ × Seg In6Addr In6Addr)}
    (hP : P ⊆ hd.segs) : ((skb.allPackets net hd P).map Skb.endpoints).sum =
      ((P.flatMap fun p => p.2.leaves : List In6Addr) : Multiset In6Addr) := by
  induction P with
  | nil => rfl
  | cons p P ih =>
      rw [Skb.allPackets, List.flatMap_cons, List.map_append, List.sum_append,
        endpoints_packets W (hP List.mem_cons_self), List.flatMap_cons, ← Multiset.coe_add]
      congr 1
      exact ih fun x hx => hP (List.mem_cons_of_mem _ hx)

/-! ## Without failures -/

theorem Net.Sends.eq {p q : Skb} (h : net.Sends p q) (hr : net.Routes) : q = p := by
  obtain ⟨d, rfl, hd⟩ := h
  rw [hd hr]

theorem Net.forall₂_sends_eq {l l' : List Skb} (h : List.Forall₂ net.Sends l l')
    (hr : net.Routes) : l' = l := by
  induction h with
  | nil => rfl
  | cons h _ ih => rw [h.eq hr, ih]

/-- The packets a router makes of a MEADcast packet if nothing fails. -/
def Skb.forwarded (net : Net) (skb : Skb) (hd : MdcHdr) : List Skb :=
  (skb.hopped hd).allPackets net { hd with hops := hd.hops + 1 } hd.pending

theorem MdcHdr.WellFormed.hopped (W : hd.WellFormed) :
    ({ hd with hops := hd.hops + 1 } : MdcHdr).WellFormed :=
  ⟨W.data, W.length_eq, W.dsts_le, W.first, W.endpoint, W.beyond, W.sub, W.nonempty⟩

/-- `md_data_rcv` if nothing fails: the packet it leaves is the last one. -/
theorem mdDataRcv_spec (hmd : skb.md = some hd) (W : hd.WellFormed) (hr : net.Routes)
    (ht : net.Transmits) : ∃ left t, mdDataRcv net .start skb = some (0, left, t) ∧
      t.sent ++ [left] = skb.forwarded net hd := by
  obtain ⟨e, left, t, l, h1, h2, -, h3, -⟩ := serve_spec net
    (show (skb.hopped hd).md = some { hd with hops := hd.hops + 1 } from rfl) hd.pending .start
    W.pending_ne_nil fun p hp => W.hopped.holds (List.mem_of_mem_filter hp)
  obtain ⟨rfl, hf⟩ := h3 (ht.clear _ _)
  refine ⟨left, t, by rw [mdDataRcv_serve hmd W, h1], ?_⟩
  rw [h2, Tx.start, List.nil_append]
  exact Net.forall₂_sends_eq hf hr

theorem endpoints_forwarded (net : Net) (hmd : skb.md = some hd) (W : hd.WellFormed) :
    ((skb.forwarded net hd).map Skb.endpoints).sum = skb.endpoints := by
  have hsub : hd.pending ⊆ hd.segs := fun p hp => List.mem_of_mem_filter hp
  rw [Skb.forwarded, endpoints_allPackets W.hopped hsub, Skb.endpoints, hmd]

end MEADcast
