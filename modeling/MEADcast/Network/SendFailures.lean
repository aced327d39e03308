import MEADcast.Network.Discovery
import MEADcast.Sender.Delivery
import Mathlib.Data.List.TakeWhile

/-!
# Destinations that cannot be reached

The loops of `tx_uni`, `tx_mdc` and `send_dcvr` return at the first `sendto` that fails.  A
destination that fails therefore takes those behind it in the same list along, while the other
lists are not affected.

## Main definitions

* `TxGroup.hdrs` — the headers that `tx_mdc` does not skip.
* `Wire.Spares` — only the receivers behind failing sends miss a datagram.
* `Trailing` — behind a destination that fails there are only others that fail.

## Main results

* `spares_iff` — failures stay with their destinations if and only if they come last.
-/

namespace MEADcast

/-- Behind a destination that fails there are only others that fail. -/
def Trailing (bad : In6Addr → Bool) (l : List In6Addr) : Prop :=
  l.Pairwise fun a b => bad a = true → bad b = true

instance (bad : In6Addr → Bool) (l : List In6Addr) : Decidable (Trailing bad l) :=
  inferInstanceAs (Decidable (l.Pairwise _))

/-- The headers that are sent; `tx_mdc` skips those without an endpoint. -/
def TxGroup.hdrs (grp : TxGroup) : List MdcHdr := grp.mdc.filter fun hd => 2 ≤ hd.dsts.toNat

/-- The packets that left are those of all sends whose destination is not in `bad`, and a
receiver is handed the datagram if and only if it is behind such a send. -/
structure Wire.Spares (w : Wire) (grp : TxGroup) (u : Udp) (bad : In6Addr → Bool) : Prop where
  sends : ∃ l l' port, w.sent = l ++ l' ∧
    List.Forall₂ (fun a q => a.Packet u q) (grp.entries.filter fun a => !bad a.sin6_addr) l ∧
    List.Forall₂ (fun hd q => hd.Packet u port q) (grp.hdrs.filter fun hd => !bad hd.dest) l'
  hands : ∀ r, (∃ v, w.Hands r v) ↔ (∃ a ∈ grp.entries, a.sin6_addr = r ∧ bad r = false) ∨
    ∃ hd ∈ grp.hdrs, r ∈ hd.endpoints ∧ bad hd.dest = false

/-- The discovery request for a receiver. -/
def Sock.request (sk : Sock) (a : Addr) : Skb :=
  sk.mdcPacket a.sin6_addr (dcvHdr a.sin6_addr 0 false) 32 0 .empty

/-! ## Loops that end at the first failure -/

section Lists

variable {α : Type*}

/-- If only elements without the property stand behind one, it makes no difference to stop
there. -/
theorem filter_eq_takeWhile {p : α → Bool} {l : List α}
    (h : l.Pairwise fun a b => p b = true → p a = true) : l.filter p = l.takeWhile p := by
  induction l with
  | nil => rfl
  | cons a l ih =>
      obtain ⟨ha, hl⟩ := List.pairwise_cons.mp h
      cases hp : p a with
      | true => simp [hp, ih hl]
      | false =>
          have hnone : l.filter p = [] := List.filter_eq_nil_iff.mpr fun b hb hpb => by
            simp [hp] at ha
            simp [ha b hb] at hpb
          simp [hp, hnone]

theorem pairwise_of_length_eq {p : α → Bool} {l : List α}
    (h : (l.filter p).length = (l.takeWhile p).length) :
    l.Pairwise fun a b => p b = true → p a = true := by
  induction l with
  | nil => exact .nil
  | cons a l ih =>
      cases hp : p a with
      | true => exact .cons (fun _ _ _ => hp) (ih (by simpa [hp] using h))
      | false =>
          have hnone : ∀ b ∈ l, p b = false := by simpa [hp] using h
          have hl : (l.filter p).length = (l.takeWhile p).length := by
            rw [List.filter_eq_nil_iff.mpr fun b hb => by simp [hnone b hb]]
            cases l with
            | nil => rfl
            | cons b l => simp [hnone b List.mem_cons_self]
          exact .cons (fun b hb hpb => by simp [hnone b hb] at hpb) (ih hl)

variable {bad : In6Addr → Bool} {dst : α → In6Addr} {l : List α}

theorem trailing_map : Trailing bad (l.map dst) ↔
    l.Pairwise fun a b => (!bad (dst b)) = true → (!bad (dst a)) = true := by
  rw [Trailing, List.pairwise_map]
  refine List.Pairwise.iff fun a b => ?_
  cases bad (dst a) <;> cases bad (dst b) <;> simp

theorem Sock.done_eq {sk : Sock} (hsk : ∀ k d, sk.sendError k d = bad d) (l : List α) :
    ∀ k, sk.done dst k l = l.takeWhile fun a => !bad (dst a) := by
  induction l with
  | nil => exact fun _ => rfl
  | cons a l ih =>
      intro k
      rw [Sock.done, hsk, ih]
      cases ha : bad (dst a) <;> simp [ha]

end Lists

variable {sk : Sock} {bad : In6Addr → Bool} {fuel : ℕ} {grp : TxGroup} {ip : Ipv6Hdr} {u : Udp}

/-- The headers without endpoints make no difference. -/
theorem txMdcLoop_filter (sk : Sock) (fuel plen : ℕ) (mdc : List MdcHdr) : ∀ (u : Udp) (w : Wire),
    txMdcLoop sk fuel plen mdc u w =
      txMdcLoop sk fuel plen (mdc.filter fun hd => 2 ≤ hd.dsts.toNat) u w := by
  induction mdc with
  | nil => exact fun _ _ => rfl
  | cons hd mdc ih =>
      intro u w
      by_cases h : 2 ≤ hd.dsts.toNat
      · have h' : ¬ hd.dsts.toNat < 2 := by omega
        rw [List.filter_cons_of_pos (by simpa using h)]
        simp only [txMdcLoop, if_neg h', ih]
      · have h' : hd.dsts.toNat < 2 := by omega
        rw [List.filter_cons_of_neg (by simpa using h)]
        simp only [txMdcLoop, if_pos h', ih]

theorem sendDcvrLoop_sent (sk : Sock) (rcvr : List Addr) : ∀ (hdr : MdcHdr) (w : Wire),
    (∀ l, ({ hdr with addr := [l] } : MdcHdr) = dcvHdr l 0 false) →
    (sendDcvrLoop sk 32 rcvr hdr w).2.sent =
      w.sent ++ (sk.done Addr.sin6_addr w.calls rcvr).map sk.request := by
  induction rcvr with
  | nil => exact fun _ _ _ => by simp [sendDcvrLoop, Sock.done]
  | cons a rcvr ih =>
      intro hdr w h
      rw [sendDcvrLoop]
      simp only [Sock.sendto, Sock.mdcPacket_dst, h]
      cases hs : sk.sendError w.calls a.sin6_addr with
      | true => simp [Sock.done, hs]
      | false =>
          have := ih (dcvHdr a.sin6_addr 0 false)
            { calls := w.calls + 1, sent := w.sent ++ [sk.request a] } fun _ => rfl
          simpa [Sock.done, hs, Sock.request] using this

/-- Where no send fails, every receiver is asked. -/
theorem sent_of_sendDcvr {sk : Sock} (hsk : ∀ k a, sk.sendError k a = false) (txbuf : MdcHdr)
    (rcvr : List Addr) : (sendDcvr sk txbuf rcvr .start).2.sent = rcvr.map sk.request := by
  have h := sendDcvrLoop_sent sk rcvr (setDcvrHdr txbuf).1 .start fun l => (setDcvrHdr_eq txbuf l).1
  have hdone := @Sock.done_eq _ (fun _ => false) Addr.sin6_addr sk hsk rcvr 0
  rw [show sendDcvr sk txbuf rcvr .start =
    sendDcvrLoop sk 32 rcvr (setDcvrHdr txbuf).1 .start from rfl, h]
  have hall : rcvr.takeWhile (fun _ => !false) = rcvr := List.takeWhile_eq_self_iff.mpr fun _ _ => rfl
  rw [show (Wire.start).calls = 0 from rfl, hdone, hall]
  rfl

/-! ## What arrives -/

/-- The plain packets of the sender stand in front of its MEADcast packets. -/
theorem filter_plain {E : List Addr} {H : List MdcHdr} {l l' : List Skb} {port : BitVec 16}
    (hE : List.Forall₂ (fun a q => a.Packet u q) E l)
    (hH : List.Forall₂ (fun hd q => hd.Packet u port q) H l') :
    ((l ++ l').filter fun q => q.md.isNone) = l ∧ ((l ++ l').filter fun q => q.md.isSome) = l' := by
  have hl : ∀ q ∈ l, q.md = none := fun q hq => by
    obtain ⟨a, -, hmd, -⟩ := exists_of_forall₂ hE hq
    exact hmd
  have hl' : ∀ q ∈ l', ∃ hd, q.md = some hd := fun q hq => by
    obtain ⟨hd, -, hmd, -⟩ := exists_of_forall₂ hH hq
    exact ⟨hd, hmd⟩
  rw [List.filter_append, List.filter_append]
  constructor
  · rw [List.filter_eq_self.mpr fun q hq => by simp [hl q hq], List.filter_eq_nil_iff.mpr,
      List.append_nil]
    intro q hq
    obtain ⟨hd, hmd⟩ := hl' q hq
    simp [hmd]
  · rw [List.filter_eq_nil_iff.mpr fun q hq => by simp [hl q hq], List.nil_append,
      List.filter_eq_self]
    intro q hq
    obtain ⟨hd, hmd⟩ := hl' q hq
    simp [hmd]

/-- The receivers behind the packets that left are handed a datagram, and no others. -/
theorem Wire.hands_iff {w : Wire} {E : List Addr} {H : List MdcHdr} {l l' : List Skb}
    {port : BitVec 16} (hw : w.sent = l ++ l') (hE : List.Forall₂ (fun a q => a.Packet u q) E l)
    (hH : List.Forall₂ (fun hd q => hd.Packet u port q) H l')
    (G : ∀ hd ∈ H, hd.WellFormed ∧ hd.type = ipv6Meadcast) (r : In6Addr) :
    (∃ v, w.Hands r v) ↔ (∃ a ∈ E, a.sin6_addr = r) ∨ ∃ hd ∈ H, r ∈ hd.endpoints := by
  constructor
  · rintro ⟨v, p, hp, hreach⟩
    rw [hw] at hp
    rcases List.mem_append.mp hp with hp | hp
    · obtain ⟨a, ha, hmd, hdst, -⟩ := exists_of_forall₂ hE hp
      obtain ⟨hr, -⟩ := hreach.endpoint (Or.inl hmd)
      rw [Skb.endpoints, hmd, Multiset.mem_singleton] at hr
      exact Or.inl ⟨a, ha, by rw [hr, hdst]⟩
    · obtain ⟨hd, hhd, hmd, -⟩ := exists_of_forall₂ hH hp
      obtain ⟨hr, -⟩ := hreach.endpoint (Or.inr ⟨hd, hmd, (G hd hhd).1⟩)
      rw [Skb.endpoints, hmd] at hr
      exact Or.inr ⟨hd, hhd, Multiset.mem_coe.mp hr⟩
  · rintro (⟨a, ha, rfl⟩ | ⟨hd, hhd, hr⟩)
    · obtain ⟨p, hp, hmd, hdst, -⟩ := exists_forall₂_left hE ha
      exact ⟨p.udp, p, by simp [hw, hp], p, .refl, hmd, hdst, rfl⟩
    · obtain ⟨p, hp, hmd, hnh, -⟩ := exists_forall₂_left hH hhd
      obtain ⟨W, hty⟩ := G hd hhd
      have hrp : r ∈ p.endpoints := by
        rw [Skb.endpoints, hmd]
        exact Multiset.mem_coe.mpr hr
      obtain ⟨v, hv⟩ := exists_reaches hmd W hnh hty hrp
      exact ⟨v, p, by simp [hw, hp], hv⟩

/-- The sends of `tx` if failures depend on the destination only. -/
theorem tx_takeWhile (hsk : ∀ k d, sk.sendError k d = bad d) (hf : 3 ≤ fuel)
    (hip : ip.nexthdr = ipprotoUdp) (G : ∀ hd ∈ grp.hdrs, hd.WellFormed) (u : Udp) :
    ∃ w l l' port, tx sk fuel grp ip u = some w ∧ w.sent = l ++ l' ∧
      List.Forall₂ (fun a q => a.Packet u q) (grp.entries.takeWhile fun a => !bad a.sin6_addr) l ∧
      List.Forall₂ (fun hd q => hd.Packet u port q) (grp.hdrs.takeWhile fun hd => !bad hd.dest)
        l' := by
  let grp' : TxGroup := { grp with mdc := grp.hdrs }
  have htx : tx sk fuel grp ip u = tx sk fuel grp' ip u := by
    simp only [tx, txMdc, txMdcLoop_filter sk fuel _ grp.mdc]
    rfl
  obtain ⟨w, l, l', h1, h2, h3, h4⟩ := @tx_spec sk fuel grp' ip hf hip G u
  rw [Sock.done_eq hsk] at h3
  rw [TxGroup.sentHdrs, Sock.done_eq hsk] at h4
  exact ⟨w, l, l', _, htx.trans h1, h2, h3, h4⟩

/-- Whatever destinations fail: they take no other send along if and only if they come last in
their lists.  The requests of `send_dcvr` and the two lists of a group are independent of each
other. -/
theorem spares_iff (sk : Sock) (bad : In6Addr → Bool) (hsk : ∀ k d, sk.sendError k d = bad d)
    (grp : TxGroup) (ip : Ipv6Hdr) (u : Udp) (hf : 3 ≤ fuel) (hip : ip.nexthdr = ipprotoUdp)
    (G : ∀ hd ∈ grp.hdrs, hd.WellFormed ∧ hd.type = ipv6Meadcast) (txbuf : MdcHdr)
    (rcvr : List Addr) :
    (∃ w, tx sk fuel grp ip u = some w ∧ (w.Spares grp u bad ↔
      Trailing bad (grp.entries.map Addr.sin6_addr) ∧ Trailing bad (grp.hdrs.map MdcHdr.dest))) ∧
    ((sendDcvr sk txbuf rcvr .start).2.sent =
        (rcvr.filter fun a => !bad a.sin6_addr).map sk.request ↔
      Trailing bad (rcvr.map Addr.sin6_addr)) := by
  constructor
  · obtain ⟨w, l, l', port, htx, hw, hE, hH⟩ :=
      tx_takeWhile hsk hf hip (fun hd h => (G hd h).1) u
    refine ⟨w, htx, ?_⟩
    rw [trailing_map, trailing_map]
    constructor
    · rintro ⟨⟨m, m', port', hw', hE', hH'⟩, -⟩
      obtain ⟨h1, h2⟩ := filter_plain hE hH
      obtain ⟨h3, h4⟩ := filter_plain hE' hH'
      rw [← hw, hw'] at h1 h2
      obtain rfl := h1.symm.trans h3
      obtain rfl := h2.symm.trans h4
      exact ⟨pairwise_of_length_eq (hE'.length_eq.trans hE.length_eq.symm),
        pairwise_of_length_eq (hH'.length_eq.trans hH.length_eq.symm)⟩
    · rintro ⟨hE', hH'⟩
      rw [← filter_eq_takeWhile hE'] at hE
      rw [← filter_eq_takeWhile hH'] at hH
      refine ⟨⟨l, l', port, hw, hE, hH⟩, fun r => ?_⟩
      rw [Wire.hands_iff hw hE hH fun hd h => G hd (List.mem_of_mem_filter h)]
      constructor
      · rintro (⟨a, ha, rfl⟩ | ⟨hd, hhd, hr⟩)
        · obtain ⟨ha, hb⟩ := List.mem_filter.mp ha
          exact Or.inl ⟨a, ha, rfl, by simpa using hb⟩
        · obtain ⟨hhd, hb⟩ := List.mem_filter.mp hhd
          exact Or.inr ⟨hd, hhd, hr, by simpa using hb⟩
      · rintro (⟨a, ha, rfl, hb⟩ | ⟨hd, hhd, hr, hb⟩)
        · exact Or.inl ⟨a, List.mem_filter.mpr ⟨ha, by simp [hb]⟩, rfl⟩
        · exact Or.inr ⟨hd, List.mem_filter.mpr ⟨hhd, by simp [hb]⟩, hr⟩
  · have hsent : (sendDcvr sk txbuf rcvr .start).2.sent =
        (rcvr.takeWhile fun a => !bad a.sin6_addr).map sk.request := by
      rw [← Sock.done_eq hsk rcvr 0]
      exact sendDcvrLoop_sent sk rcvr (setDcvrHdr txbuf).1 .start fun l =>
        (setDcvrHdr_eq txbuf l).1
    rw [hsent, trailing_map]
    constructor
    · intro h
      exact pairwise_of_length_eq (by simpa using (congrArg List.length h).symm)
    · intro h
      rw [filter_eq_takeWhile h]

/-- Sockets that cannot reach the address `a`. -/
def Sock.cutOff (a : In6Addr) : Sock := ⟨9, 9, 64, fun _ d => d == a⟩

/-- The theorem with two receivers, the second of which fails. -/
theorem spares_of_last : ∃ w, tx (Sock.cutOff 3) 3 (TxGroup.sample [⟨2, 5000⟩, ⟨3, 5000⟩])
      Ipv6Hdr.sample (Udp.bare 7000) = some w ∧
    w.Spares (TxGroup.sample [⟨2, 5000⟩, ⟨3, 5000⟩]) (Udp.bare 7000) (· == 3) ∧
    (sendDcvr (Sock.cutOff 3) (dcvHdr 0 0 false) [⟨2, 5000⟩, ⟨3, 5000⟩] .start).2.sent =
      [(Sock.cutOff 3).request ⟨2, 5000⟩] := by
  obtain ⟨⟨w, h1, h2⟩, h3⟩ := spares_iff (Sock.cutOff 3) (· == 3) (fun _ _ => rfl)
    (TxGroup.sample [⟨2, 5000⟩, ⟨3, 5000⟩]) Ipv6Hdr.sample (Udp.bare 7000) le_rfl rfl
    (fun hd hhd => (TxGroup.sample_serves [⟨2, 5000⟩, ⟨3, 5000⟩] (fun _ => 5000) (by decide)).mdc hd
      (List.mem_of_mem_filter hhd)) (dcvHdr 0 0 false) [⟨2, 5000⟩, ⟨3, 5000⟩]
  exact ⟨w, h1, h2.mpr ⟨by decide +kernel, by decide +kernel⟩, h3.mpr (by decide +kernel)⟩

/-- With the two entries the other way round the receiver behind the one that fails is not handed
anything, and no request is sent to it. -/
theorem failure_spreads : ∃ w, tx (Sock.cutOff 3) 3 (TxGroup.sample [⟨3, 5000⟩, ⟨2, 5000⟩])
      Ipv6Hdr.sample (Udp.bare 7000) = some w ∧
    (∀ v, ¬ w.Hands 2 v) ∧
    ¬ w.Spares (TxGroup.sample [⟨3, 5000⟩, ⟨2, 5000⟩]) (Udp.bare 7000) (· == 3) ∧
    (sendDcvr (Sock.cutOff 3) (dcvHdr 0 0 false) [⟨3, 5000⟩, ⟨2, 5000⟩] .start).2.sent = [] := by
  let grp : TxGroup := TxGroup.sample [⟨3, 5000⟩, ⟨2, 5000⟩]
  have G : ∀ hd ∈ grp.hdrs, hd.WellFormed ∧ hd.type = ipv6Meadcast := fun hd hhd =>
    (TxGroup.sample_serves [⟨3, 5000⟩, ⟨2, 5000⟩] (fun _ => 5000) (by decide)).mdc hd
      (List.mem_of_mem_filter hhd)
  obtain ⟨w, l, l', port, htx, hw, hE, hH⟩ := @tx_takeWhile (Sock.cutOff 3) (· == 3) 3 grp
    Ipv6Hdr.sample (fun _ _ => rfl) le_rfl rfl (fun hd h => (G hd h).1) (Udp.bare 7000)
  have hno : ∀ v, ¬ w.Hands 2 v := by
    intro v hv
    rcases (Wire.hands_iff hw hE hH (fun hd h => G hd ((List.takeWhile_sublist _).mem h)) 2).mp
      ⟨v, hv⟩ with ⟨a, ha, -⟩ | ⟨hd, hhd, hr⟩
    · have hE : (grp.entries.takeWhile fun a => !(a.sin6_addr == 3)) = [] := by decide
      rw [hE] at ha
      cases ha
    · have hH : ∀ hd ∈ grp.hdrs, (2 : In6Addr) ∉ hd.endpoints := by decide +kernel
      exact hH hd ((List.takeWhile_sublist _).mem hhd) hr
  refine ⟨w, htx, hno, fun h => ?_, by decide +kernel⟩
  obtain ⟨v, hv⟩ := (h.hands 2).mpr (Or.inl ⟨⟨2, 5000⟩, by decide, rfl, by decide⟩)
  exact hno v hv

end MEADcast
