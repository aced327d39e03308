import MEADcast.Router.Travel
import MEADcast.Sender.Tx

/-!
# What receivers are handed

The datagram of the application reaches the receivers as a plain packet of the sender, or as
what routers make of a MEADcast packet.  Payload and source port are those of the application
in either case.  The destination port is a receiver's own in a plain packet of the sender only:
`tx_mdc` leaves the port that stands in the buffer.

## Main definitions

* `Wire.Hands` — a receiver is handed a datagram.
* `Sock.tried`, `Sock.done` — the sends up to the first failure, with and without it.
* `TxGroup.leftPort` — the port that `tx_uni` leaves in the buffer.

## Main results

* `tx_spec` — the packets that leave.
* `same_datagram_iff` — when every receiver is handed a datagram with its own port.
-/

namespace MEADcast

/-- The receiver `l` is handed the datagram `v`. -/
def Wire.Hands (w : Wire) (l : In6Addr) (v : Udp) : Prop := ∃ p ∈ w.sent, p.Reaches l v

/-- The datagram with another destination port, up to the checksum. -/
def Udp.Redirected (u : Udp) (port : BitVec 16) (v : Udp) : Prop :=
  ∃ c, v = { u with dest := port, check := c }

/-- The endpoints of a header that are to be delivered. -/
def MdcHdr.endpoints (hd : MdcHdr) : List In6Addr := hd.pending.flatMap fun p => p.2.leaves

section Sends

variable {α : Type*}

/-- The sends to the destinations `dst` that are tried, the first of them being the call number
`k`. -/
def Sock.tried (sk : Sock) (dst : α → In6Addr) : ℕ → List α → List α
  | _, [] => []
  | k, a :: l => a :: if sk.sendError k (dst a) then [] else sk.tried dst (k + 1) l

/-- The sends that succeed before the first failure. -/
def Sock.done (sk : Sock) (dst : α → In6Addr) : ℕ → List α → List α
  | _, [] => []
  | k, a :: l => if sk.sendError k (dst a) then [] else a :: sk.done dst (k + 1) l

theorem Sock.done_subset (sk : Sock) (dst : α → In6Addr) (l : List α) :
    ∀ k, sk.done dst k l ⊆ l := by
  induction l with
  | nil => exact fun _ => List.Subset.refl _
  | cons a l ih =>
      intro k x hx
      rw [Sock.done] at hx
      split at hx
      · cases hx
      · rcases List.mem_cons.mp hx with rfl | hx
        · exact List.mem_cons_self
        · exact List.mem_cons_of_mem _ (ih _ hx)

end Sends

/-- Where a header is sent to: its address `addr[1]`. -/
def MdcHdr.dest (hd : MdcHdr) : In6Addr := hd.addr.getD 1 0

namespace TxGroup

/-- The unicast entries. -/
def entries (grp : TxGroup) : List Addr := grp.uni.take grp.nuni

/-- The destination port that `tx_uni` leaves in the buffer: that of the last entry it tried,
or the one the application wrote. -/
def leftPort (grp : TxGroup) (sk : Sock) (udp : Udp) : BitVec 16 :=
  ((sk.tried Addr.sin6_addr 0 grp.entries).getLast?.map Addr.port).getD udp.dest

/-- The headers that `tx_mdc` sends. -/
def sentHdrs (grp : TxGroup) (sk : Sock) : List MdcHdr :=
  sk.done MdcHdr.dest (sk.tried Addr.sin6_addr 0 grp.entries).length grp.mdc

/-- A group for receivers with the ports `port`: its headers are well formed, and its entries
carry the port of their receiver. -/
structure Serves (grp : TxGroup) (port : In6Addr → BitVec 16) : Prop where
  mdc : ∀ hd ∈ grp.mdc, hd.WellFormed ∧ hd.type = ipv6Meadcast
  uni : ∀ a ∈ grp.entries, a.port = port a.sin6_addr

end TxGroup

theorem Udp.Redirected.of_same {u v w : Udp} {port : BitVec 16} (h : u.Redirected port v)
    (h' : v.Same w) : u.Redirected port w := by
  obtain ⟨c, rfl⟩ := h
  obtain ⟨d, rfl⟩ := h'
  exact ⟨d, rfl⟩

variable {sk : Sock} {fuel : ℕ} {grp : TxGroup} {ip : Ipv6Hdr} {u : Udp}

/-- The packet of a unicast entry. -/
def Addr.Packet (a : Addr) (u : Udp) (q : Skb) : Prop :=
  q.md = none ∧ q.ip.daddr = a.sin6_addr ∧ u.Redirected a.port q.udp

/-- The packet of a header. -/
def MdcHdr.Packet (hd : MdcHdr) (u : Udp) (port : BitVec 16) (q : Skb) : Prop :=
  q.md = some hd ∧ q.ip.nexthdr = ipprotoRouting ∧ u.Redirected port q.udp

theorem txUniLoop_spec (hf : 3 ≤ fuel) (uni : List Addr) : ∀ (ip : Ipv6Hdr) (u : Udp) (w : Wire),
    ip.nexthdr = ipprotoUdp → ∃ n ip' u' w' l,
      txUniLoop sk fuel uni ip u w = some (n, ip', u', w') ∧
      u.Redirected (((sk.tried Addr.sin6_addr w.calls uni).getLast?.map Addr.port).getD u.dest) u' ∧
      w'.calls = w.calls + (sk.tried Addr.sin6_addr w.calls uni).length ∧ w'.sent = w.sent ++ l ∧
      List.Forall₂ (fun a q => a.Packet u q) (sk.done Addr.sin6_addr w.calls uni) l := by
  induction uni with
  | nil => exact fun ip u w _ => ⟨_, _, _, _, [], rfl, ⟨u.check, rfl⟩, rfl, by simp, .nil⟩
  | cons a uni ih =>
      intro ip u w hip
      obtain ⟨c, hc⟩ := exists_setCheck hf ({ u with dest := a.port } : Udp) ip.saddr a.sin6_addr
      simp only [txUniLoop, if_pos hip, hc, Option.bind_eq_bind, Option.bind_some, Sock.sendto]
      cases hs : sk.sendError w.calls a.sin6_addr with
      | true =>
          refine ⟨_, _, _, _, [], rfl, ⟨c, ?_⟩, ?_, by simp, ?_⟩
          · simp [Sock.tried, hs]
          · simp [Sock.tried, hs]
          · simp [Sock.done, hs]
      | false =>
          obtain ⟨n, ip', u', w', l, h1, ⟨d, h2⟩, h3, h4, h5⟩ := ih { ip with daddr := a.sin6_addr }
            { u with dest := a.port, check := c }
            { calls := w.calls + 1, sent := w.sent ++ [
              { ip := { ip with daddr := a.sin6_addr }, md := none,
                udp := { u with dest := a.port, check := c }, dst := a.sin6_addr }] } hip
          refine ⟨n, ip', u', w', _ :: l, by simpa using h1, ⟨d, ?_⟩, ?_, by simpa using h4, ?_⟩
          · rw [h2]
            simp only [Sock.tried, hs, Bool.false_eq_true, if_false, List.getLast?_cons]
            cases (sk.tried Addr.sin6_addr (w.calls + 1) uni).getLast? <;> rfl
          · rw [h3]
            simp only [Sock.tried, hs, Bool.false_eq_true, if_false, List.length_cons]
            omega
          · simp only [Sock.done, hs, Bool.false_eq_true, if_false]
            refine .cons ⟨rfl, rfl, c, rfl⟩ (h5.imp fun b q hq => ⟨hq.1, hq.2.1, ?_⟩)
            obtain ⟨e, he⟩ := hq.2.2
            exact ⟨e, he⟩

theorem txMdcLoop_spec (hf : 3 ≤ fuel) (plen : ℕ) (mdc : List MdcHdr) : ∀ (u : Udp) (w : Wire),
    (∀ hd ∈ mdc, hd.WellFormed) → ∃ n u' w' l,
      txMdcLoop sk fuel plen mdc u w = some (n, u', w') ∧ w'.sent = w.sent ++ l ∧
      List.Forall₂ (fun hd q => hd.Packet u u.dest q) (sk.done MdcHdr.dest w.calls mdc) l := by
  induction mdc with
  | nil => exact fun u w _ => ⟨_, _, _, [], rfl, by simp, .nil⟩
  | cons hd mdc ih =>
      intro u w hW
      have W := hW hd List.mem_cons_self
      obtain ⟨hlt, -⟩ := W.endpoint 0 W.dsts_pos W.first
      obtain ⟨dst, hdst⟩ : ∃ dst, hd.addr[1]? = some dst :=
        ⟨_, List.getElem?_eq_getElem (by rw [W.length_eq]; omega)⟩
      have hdest : hd.dest = dst := by simp [MdcHdr.dest, hdst]
      obtain ⟨c, hc⟩ := exists_setCheck hf u sk.bia dst
      simp only [txMdcLoop, if_neg (show ¬ hd.dsts.toNat < 2 by omega), hdst, hc,
        Option.bind_eq_bind, Option.bind_some]
      cases hs : sk.sendError w.calls dst with
      | true =>
          simp only [Sock.sendto, Sock.mdcPacket_dst, hs]
          exact ⟨_, _, _, [], rfl, by simp, by simp [Sock.done, hdest, hs]⟩
      | false =>
          simp only [Sock.sendto, Sock.mdcPacket_dst, hs]
          obtain ⟨n, u', w', l, h1, h2, h3⟩ := ih { u with check := c }
            { calls := w.calls + 1, sent := w.sent ++ [
              sk.mdcPacket dst hd (getMdcHdrSize hd.dsts.toNat) plen { u with check := c }] }
            fun hd hhd => hW hd (List.mem_cons_of_mem _ hhd)
          refine ⟨n, u', w', _ :: l, by simpa using h1, by simpa using h2, ?_⟩
          simp only [Sock.done, hdest, hs, Bool.false_eq_true, if_false]
          refine .cons ⟨rfl, rfl, c, rfl⟩ (h3.imp fun b q hq => ⟨hq.1, hq.2.1, ?_⟩)
          obtain ⟨e, he⟩ := hq.2.2
          exact ⟨e, he⟩

/-- The packets that leave when the application sent `u`. -/
theorem tx_spec (hf : 3 ≤ fuel) (hip : ip.nexthdr = ipprotoUdp)
    (hW : ∀ hd ∈ grp.mdc, hd.WellFormed) (u : Udp) : ∃ w l l', tx sk fuel grp ip u = some w ∧
      w.sent = l ++ l' ∧ List.Forall₂ (fun a q => a.Packet u q) (sk.done Addr.sin6_addr 0 grp.entries) l ∧
      List.Forall₂ (fun hd q => hd.Packet u (grp.leftPort sk u) q) (grp.sentHdrs sk) l' := by
  obtain ⟨n, ip', u', w₁, l, h1, ⟨d, h2⟩, h3, h4, h5⟩ :=
    txUniLoop_spec hf grp.entries ip u .start hip
  obtain ⟨n', u'', w₂, l', h6, h7, h8⟩ := txMdcLoop_spec hf u'.size grp.mdc u' w₁ hW
  refine ⟨w₂, l, l', ?_, ?_, h5, ?_⟩
  · simp only [tx, txUni, txMdc, Option.bind_eq_bind]
    change (txUniLoop sk fuel grp.entries ip u .start).bind _ = _
    rw [h1, Option.bind_some, h6]
    rfl
  · rw [h7, h4]
    rfl
  · have h3' : w₁.calls = (sk.tried Addr.sin6_addr 0 grp.entries).length := by rw [h3]; exact Nat.zero_add _
    rw [h3'] at h8
    refine h8.imp fun hd q hq => ⟨hq.1, hq.2.1, ?_⟩
    obtain ⟨e, he⟩ := hq.2.2
    rw [h2] at he
    exact ⟨e, he⟩

/-- The packets of the unicast entries are plain UDP packets. -/
theorem txUniLoop_sent (uni : List Addr) : ∀ (ip : Ipv6Hdr) (u : Udp) (w : Wire) {n : Int}
    {ip' : Ipv6Hdr} {u' : Udp} {w' : Wire}, ip.nexthdr = ipprotoUdp →
    txUniLoop sk fuel uni ip u w = some (n, ip', u', w') →
    ∀ q ∈ w'.sent, q ∈ w.sent ∨ q.md = none ∧ q.ip.nexthdr = ipprotoUdp := by
  induction uni with
  | nil =>
      intro ip u w n ip' u' w' _ h q hq
      obtain ⟨-, -, -, rfl⟩ : (0 : Int) = n ∧ ip = ip' ∧ u = u' ∧ w = w' := by
        simpa [txUniLoop] using h
      exact Or.inl hq
  | cons a uni ih =>
      intro ip u w n ip' u' w' hip h q hq
      simp only [txUniLoop, if_pos hip, Option.bind_eq_bind, Option.bind_eq_some_iff,
        Sock.sendto] at h
      obtain ⟨v, -, h⟩ := h
      cases hs : sk.sendError w.calls a.sin6_addr with
      | true =>
          obtain ⟨-, -, -, rfl⟩ : (-1 : Int) = n ∧ _ = ip' ∧ v = u' ∧ _ = w' := by
            simpa [hs] using h
          exact Or.inl hq
      | false =>
          simp only [hs, Bool.false_eq_true, if_false, lt_self_iff_false] at h
          rcases ih _ _ _ (by exact hip) h q hq with hq | hq
          · rcases List.mem_append.mp hq with hq | hq
            · exact Or.inl hq
            · rw [List.mem_singleton.mp hq]
              exact Or.inr ⟨rfl, hip⟩
          · exact Or.inr hq

/-- The packets of the headers go to the addresses the headers are sent to. -/
theorem txMdcLoop_sent (plen : ℕ) (mdc : List MdcHdr) : ∀ (u : Udp) (w : Wire) {n : Int}
    {u' : Udp} {w' : Wire}, txMdcLoop sk fuel plen mdc u w = some (n, u', w') →
    ∀ q ∈ w'.sent, q ∈ w.sent ∨ ∃ hd, q.md = some hd ∧ q.ip.daddr = hd.dest := by
  induction mdc with
  | nil =>
      intro u w n u' w' h q hq
      obtain ⟨-, -, rfl⟩ : (0 : Int) = n ∧ u = u' ∧ w = w' := by simpa [txMdcLoop] using h
      exact Or.inl hq
  | cons hd mdc ih =>
      intro u w n u' w' h q hq
      by_cases hlt : hd.dsts.toNat < 2
      · exact ih u w (by simpa [txMdcLoop, hlt] using h) q hq
      simp only [txMdcLoop, if_neg hlt, Option.bind_eq_bind, Option.bind_eq_some_iff,
        Sock.sendto, Sock.mdcPacket_dst] at h
      obtain ⟨dst, hdst, v, -, h⟩ := h
      cases hs : sk.sendError w.calls dst with
      | true =>
          obtain ⟨-, -, rfl⟩ : (-1 : Int) = n ∧ v = u' ∧ _ = w' := by simpa [hs] using h
          exact Or.inl hq
      | false =>
          simp only [hs, Bool.false_eq_true, if_false, lt_self_iff_false] at h
          rcases ih _ _ h q hq with hq | hq
          · rcases List.mem_append.mp hq with hq | hq
            · exact Or.inl hq
            · rw [List.mem_singleton.mp hq]
              exact Or.inr ⟨hd, rfl, by simp [Sock.mdcPacket, MdcHdr.dest, hdst]⟩
          · exact Or.inr hq

/-- The packets that leave are plain UDP packets, or go to the address their header is sent to. -/
theorem tx_sent (hip : ip.nexthdr = ipprotoUdp) {w : Wire} (h : tx sk fuel grp ip u = some w) :
    ∀ q ∈ w.sent, (q.md = none ∧ q.ip.nexthdr = ipprotoUdp) ∨
      ∃ hd, q.md = some hd ∧ q.ip.daddr = hd.dest := by
  intro q hq
  simp only [tx, Option.bind_eq_bind, Option.bind_eq_some_iff] at h
  obtain ⟨⟨n, ip', u', w₁⟩, h₁, ⟨n', u'', w₂⟩, h₂, h⟩ := h
  obtain rfl : w₂ = w := Option.some.inj h
  rcases txMdcLoop_sent _ _ _ _ h₂ q hq with hq | hq
  · exact Or.inl ((txUniLoop_sent _ _ _ _ hip h₁ q hq).resolve_left fun h => by
      simp [Wire.start] at h)
  · exact Or.inr hq

theorem exists_forall₂_left {α β : Type*} {R : α → β → Prop} {l : List α} {l' : List β}
    (h : List.Forall₂ R l l') {a : α} (ha : a ∈ l) : ∃ b ∈ l', R a b := by
  obtain ⟨b, hb, hr⟩ := exists_of_forall₂ h.flip ha
  exact ⟨b, hb, hr⟩

/-- For every group, every datagram and whatever sends fail: receivers are handed datagrams with
the payload and the source port of the application.  All of them have the port of their receiver
if and only if the endpoints of all MEADcast headers that are sent have the port that the unicast
entries leave in the buffer. -/
theorem same_datagram_iff (sk : Sock) (grp : TxGroup) (ip : Ipv6Hdr) (u : Udp)
    (port : In6Addr → BitVec 16) (hf : 3 ≤ fuel) (hip : ip.nexthdr = ipprotoUdp)
    (G : grp.Serves port) : ∃ w, tx sk fuel grp ip u = some w ∧
      (∀ l v, w.Hands l v → v.source = u.source ∧ v.len = u.len ∧ v.data = u.data) ∧
      ((∀ l v, w.Hands l v → v.dest = port l) ↔
        ∀ hd ∈ grp.sentHdrs sk, ∀ l ∈ hd.endpoints, port l = grp.leftPort sk u) := by
  obtain ⟨w, l₁, l₂, h1, h2, h3, h4⟩ :=
    @tx_spec sk fuel grp ip hf hip (fun hd h => (G.mdc hd h).1) u
  -- who is handed something, and with which port
  have hand : ∀ l v, w.Hands l v →
      (∃ a ∈ grp.entries, a.sin6_addr = l ∧ u.Redirected a.port v) ∨
        ∃ hd ∈ grp.sentHdrs sk, l ∈ hd.endpoints ∧ u.Redirected (grp.leftPort sk u) v := by
    rintro l v ⟨p, hp, hreach⟩
    rw [h2] at hp
    rcases List.mem_append.mp hp with hp | hp
    · obtain ⟨a, ha, hmd, hdst, hu⟩ := exists_of_forall₂ h3 hp
      obtain ⟨hl, hv⟩ := hreach.endpoint (Or.inl hmd)
      rw [Skb.endpoints, hmd, Multiset.mem_singleton] at hl
      exact Or.inl ⟨a, sk.done_subset _ _ _ ha, by rw [hl, hdst], hu.of_same hv⟩
    · obtain ⟨hd, hhd, hmd, -, hu⟩ := exists_of_forall₂ h4 hp
      have W := (G.mdc hd (sk.done_subset _ _ _ hhd)).1
      obtain ⟨hl, hv⟩ := hreach.endpoint (Or.inr ⟨hd, hmd, W⟩)
      rw [Skb.endpoints, hmd] at hl
      exact Or.inr ⟨hd, hhd, Multiset.mem_coe.mp hl, hu.of_same hv⟩
  refine ⟨w, h1, fun l v h => ?_, fun h hd hhd l hl => ?_, fun h l v hlv => ?_⟩
  · rcases hand l v h with ⟨a, -, -, c, rfl⟩ | ⟨hd, -, -, c, rfl⟩
    · exact ⟨rfl, rfl, rfl⟩
    · exact ⟨rfl, rfl, rfl⟩
  · obtain ⟨p, hp, hmd, hr, hu⟩ := exists_forall₂_left h4 hhd
    obtain ⟨W, hty⟩ := G.mdc hd (sk.done_subset _ _ _ hhd)
    have hlp : l ∈ p.endpoints := by
      rw [Skb.endpoints, hmd]
      exact Multiset.mem_coe.mpr hl
    obtain ⟨v, hv⟩ := exists_reaches hmd W hr hty hlp
    obtain ⟨c, hc⟩ := hu.of_same (hv.endpoint (Or.inr ⟨hd, hmd, W⟩)).2
    have hdest := h l v ⟨p, h2 ▸ List.mem_append_right _ hp, hv⟩
    rw [← hdest, hc]
  · rcases hand l v hlv with ⟨a, ha, rfl, c, rfl⟩ | ⟨hd, hhd, hl, c, rfl⟩
    · exact G.uni a ha
    · exact (h hd hhd l hl).symm

/-- Sockets bound to the address 9 that never fail. -/
def Sock.sample : Sock := ⟨9, 9, 64, fun _ _ => false⟩

/-- A group with the given unicast entries and one header, for the endpoints 4 and 5. -/
def TxGroup.sample (uni : List Addr) : TxGroup := ⟨[dataHdr [⟨1, [4, 5]⟩]], uni.length, uni⟩

theorem TxGroup.sample_serves (uni : List Addr) (port : In6Addr → BitVec 16)
    (h : ∀ a ∈ uni, a.port = port a.sin6_addr) : (TxGroup.sample uni).Serves port where
  mdc := by
    intro hd hhd
    rw [List.mem_singleton.mp hhd]
    exact ⟨wellFormed_dataHdr (by decide) (by decide) (by decide), rfl⟩
  uni := by
    rw [TxGroup.entries, TxGroup.sample, List.take_length]
    exact h

/-- The IPv6 header of the application's packet to the address 8. -/
def Ipv6Hdr.sample : Ipv6Hdr := ⟨8, ipprotoUdp, 64, 9, 8⟩

/-- All receivers have the port 5000, and so have the datagrams they are handed. -/
theorem same_datagram_sample :
    ∃ w, tx Sock.sample 3 (TxGroup.sample [⟨2, 5000⟩]) Ipv6Hdr.sample (Udp.bare 7000) = some w ∧
      ∀ l v, w.Hands l v → v.dest = 5000 := by
  obtain ⟨w, h1, -, h2⟩ := same_datagram_iff Sock.sample (TxGroup.sample [⟨2, 5000⟩]) Ipv6Hdr.sample
    (Udp.bare 7000) (fun _ => 5000) le_rfl rfl (TxGroup.sample_serves _ _ (by decide))
  exact ⟨w, h1, h2.mpr fun _ _ _ _ => rfl⟩

/-- The ports of the receivers: 5000 for the address 2, and 6000 for all others. -/
def samplePort (a : In6Addr) : BitVec 16 := if a = 2 then 5000 else 6000

/-- The receiver 4 has the port 6000.  Behind a unicast entry with the port 5000 it is handed a
datagram to this port, and without the entry one to the port the application wrote. -/
theorem wrong_port :
    (TxGroup.sample [⟨2, 5000⟩]).Serves samplePort ∧ (TxGroup.sample []).Serves samplePort ∧
      samplePort 4 = 6000 ∧
      (∃ w v, tx Sock.sample 3 (TxGroup.sample [⟨2, 5000⟩]) Ipv6Hdr.sample (Udp.bare 7000) = some w ∧
        w.Hands 4 v ∧ v.dest = 5000) ∧
      ∃ w v, tx Sock.sample 3 (TxGroup.sample []) Ipv6Hdr.sample (Udp.bare 7000) = some w ∧
        w.Hands 4 v ∧ v.dest = 7000 := by
  refine ⟨TxGroup.sample_serves _ _ (by decide), TxGroup.sample_serves _ _ (by decide), rfl,
    ⟨_, _, rfl, ⟨_, List.mem_cons_of_mem _ List.mem_cons_self, _,
      .single ⟨Net.eager, _, rfl, List.mem_cons_self⟩, rfl, rfl, rfl⟩, ?_⟩,
    ⟨_, _, rfl, ⟨_, List.mem_cons_self, _,
      .single ⟨Net.eager, _, rfl, List.mem_cons_self⟩, rfl, rfl, rfl⟩, ?_⟩⟩
  · decide +kernel
  · decide +kernel

end MEADcast
