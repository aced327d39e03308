import MEADcast.Network.OnWire
import MEADcast.Network.SharedBuffer

/-!
# From the device to the receivers

What an application writes to the device arrives at the receivers, octet by octet: both threads work in
the buffer of the sender, the kernel sends what they hand to its sockets, and routers rewrite packets in
their memory.

## Main definitions

* `Sock.emit` — the octets that leave when the threads hand something to a socket.

## Main results

* `octets_delivered` — every datagram arrives once at every receiver.
-/

namespace MEADcast

/-- What was handed to a socket leaves: packets as they are, and what is for the MEADcast socket behind
an IPv6 header, whose first octets depend on the destination. -/
def Sock.emit (sk : Sock) (vtf : In6Addr → List (BitVec 8)) :
    (SockFd × In6Addr) × List (BitVec 8) → List (BitVec 8)
  | ((.ip6, _), l) => l
  | ((.mdc, dst), l) =>
      Ipv6Hdr.octets (vtf dst)
        { payload_len := BitVec.ofNat 16 l.length, nexthdr := ipprotoRouting,
          hop_limit := sk.hop_limit, saddr := sk.baddr, daddr := dst } ++ l

/-- A packet of `tx_uni`, or one of `tx_mdc` with a header of the group and `n` octets behind it. -/
inductive TxGroup.Makes (grp : TxGroup) (sk : Sock) (n : ℕ) : Skb → Prop
  | uni {ip : Ipv6Hdr} {u : Udp} {a : In6Addr} (ha : ip.daddr = a) : Makes grp sk n ⟨ip, none, u, a⟩
  | mdc {hdr : MdcHdr} {u : Udp} {dst : In6Addr} (h : hdr ∈ grp.mdc) (hu : u.size = n) :
      Makes grp sk n (sk.mdcPacket dst hdr (getMdcHdrSize hdr.dsts.toNat) n u)

section Sender

variable {sk : Sock} {fuel : ℕ} {grp : TxGroup} {args : Args} {n : ℕ} {p : Skb}

theorem mem_sent_of_sendto {w : Wire} {q : Skb} (h : q ∈ (sk.sendto w p).2.sent) : q ∈ w.sent ∨ q = p := by
  rw [Sock.sendto] at h
  split at h
  · exact Or.inl h
  · exact (List.mem_append.mp h).imp id List.mem_singleton.mp

theorem makes_of_txUniLoop (uni : List Addr) : ∀ (ip : Ipv6Hdr) (u : Udp) (w : Wire) {ret : Int}
    {ip' : Ipv6Hdr} {u' : Udp} {w' : Wire}, ip.nexthdr = ipprotoUdp → u.size = n →
    txUniLoop sk fuel uni ip u w = some (ret, ip', u', w') →
    (∀ q ∈ w'.sent, q ∈ w.sent ∨ grp.Makes sk n q) ∧ u'.size = n := by
  induction uni with
  | nil =>
      intro ip u w ret ip' u' w' _ hu h
      obtain ⟨rfl, rfl, rfl, rfl⟩ : 0 = ret ∧ ip = ip' ∧ u = u' ∧ w = w' := by
        simpa [txUniLoop] using h
      exact ⟨fun q hq => Or.inl hq, hu⟩
  | cons a uni ih =>
      intro ip u w ret ip' u' w' hip hu h
      rw [TxBuf.txUniLoop_cons, if_pos hip] at h
      obtain ⟨u₁, hu₁, h⟩ := Option.bind_eq_some_iff.mp h
      have hsize : u₁.size = n := (TxBuf.setCheck_size hu₁).1.trans hu
      have hsent : ∀ q ∈ (sk.sendto w ⟨{ ip with daddr := a.sin6_addr }, none, u₁, a.sin6_addr⟩).2.sent,
          q ∈ w.sent ∨ grp.Makes sk n q :=
        fun q hq => (mem_sent_of_sendto hq).imp id fun (he : q = _) => he ▸ .uni rfl
      split at h
      · obtain ⟨-, -, rfl, rfl⟩ : _ ∧ _ ∧ u₁ = u' ∧ _ = w' := by simpa using h
        exact ⟨hsent, hsize⟩
      · obtain ⟨h1, h2⟩ := ih { ip with daddr := a.sin6_addr } u₁ _ hip hsize h
        exact ⟨fun q hq => (h1 q hq).elim (hsent q) Or.inr, h2⟩

theorem makes_of_txMdcLoop (mdc : List MdcHdr) : ∀ (u : Udp) (w : Wire) {ret : Int} {u' : Udp}
    {w' : Wire}, mdc ⊆ grp.mdc → u.size = n → txMdcLoop sk fuel n mdc u w = some (ret, u', w') →
    ∀ q ∈ w'.sent, q ∈ w.sent ∨ grp.Makes sk n q := by
  induction mdc with
  | nil =>
      intro u w ret u' w' _ _ h
      obtain ⟨rfl, rfl, rfl⟩ : 0 = ret ∧ u = u' ∧ w = w' := by simpa [txMdcLoop] using h
      exact fun q hq => Or.inl hq
  | cons hdr mdc ih =>
      intro u w ret u' w' hsub hu h
      obtain ⟨hmem, hrest⟩ := List.cons_subset.mp hsub
      by_cases h2 : hdr.dsts.toNat < 2
      · rw [txMdcLoop, if_pos h2] at h
        exact ih u w hrest hu h
      rw [TxBuf.txMdcLoop_cons _ _ _ _ _ _ h2] at h
      obtain ⟨dst, hdst, h⟩ := Option.bind_eq_some_iff.mp h
      obtain ⟨u₁, hu₁, h⟩ := Option.bind_eq_some_iff.mp h
      have hsize : u₁.size = n := (TxBuf.setCheck_size hu₁).1.trans hu
      have hsent : ∀ q ∈ (sk.sendto w (sk.mdcPacket dst hdr (getMdcHdrSize hdr.dsts.toNat) n u₁)).2.sent,
          q ∈ w.sent ∨ grp.Makes sk n q :=
        fun q hq => (mem_sent_of_sendto hq).imp id fun (he : q = _) => he ▸ .mdc hmem hsize
      split at h
      · obtain ⟨-, -, rfl⟩ : _ ∧ _ ∧ _ = w' := by simpa using h
        exact hsent
      · exact fun q hq => (ih u₁ _ hrest hsize h q hq).elim (hsent q) Or.inr

/-- The packets that leave for a datagram. -/
theorem makes_of_tx {ip : Ipv6Hdr} {u : Udp} {w : Wire} (hip : ip.nexthdr = ipprotoUdp)
    (h : tx sk fuel grp ip u = some w) : ∀ q ∈ w.sent, grp.Makes sk u.size q := by
  simp only [tx, Option.bind_eq_bind, Option.bind_eq_some_iff, Prod.exists] at h
  obtain ⟨ret, ip₁, u₁, w₁, huni, ret', u₂, w₂, hmdc, h⟩ := h
  obtain rfl := Option.some.inj h
  obtain ⟨h1, hsize⟩ : (∀ q ∈ w₁.sent, q ∈ Wire.start.sent ∨ grp.Makes sk u.size q) ∧ u₁.size = u.size :=
    makes_of_txUniLoop _ ip u .start hip rfl huni
  rw [txMdc, hsize] at hmdc
  have h2 : ∀ q ∈ w₂.sent, q ∈ w₁.sent ∨ grp.Makes sk u.size q :=
    makes_of_txMdcLoop grp.mdc u₁ w₁ (List.Subset.refl _) hsize hmdc
  intro q hq
  exact (h2 q hq).elim (fun hq => (h1 q hq).resolve_left List.not_mem_nil) id

/-- The header of a group is whole. -/
theorem MdcHdr.Sized.whole {hdr : MdcHdr} (Z : hdr.Sized args) : hdr.Whole where
  len_eq := by rw [Z.len_eq, hdr.length_octets, Z.wf.length_eq, getMdcHdrSize_eq]
  dsts_le := Z.wf.length_eq.ge

/-- The kernel sends the octets of a packet of `tx`. -/
theorem TxGroup.Makes.emit {vtf₀ : List (BitVec 8)} {vtf : In6Addr → List (BitVec 8)}
    (h : grp.Makes sk n p) (G : grp.Sized args) (hroom : getMdcHdrSize args.max_addrs + n < 2 ^ 16)
    (hv₀ : vtf₀.length = 4) (hv : ∀ a, (vtf a).length = 4) :
    (∃ vtf' : List (BitVec 8), vtf'.length = 4 ∧ sk.emit vtf (p.wire vtf₀) = p.octets vtf') ∧
      p.dst = p.ip.daddr ∧ ∀ hd, p.md = some hd → hd.Whole := by
  cases h with
  | uni ha => exact ⟨⟨vtf₀, hv₀, rfl⟩, ha.symm, fun hd he => nomatch he⟩
  | @mdc hdr u dst hmem hu =>
      have Z := G hdr hmem
      have hle := Z.split.le_max
      have hhlen : getMdcHdrSize hdr.dsts.toNat ≤ getMdcHdrSize args.max_addrs := by
        rw [getMdcHdrSize_eq, getMdcHdrSize_eq]
        omega
      have hlen : (hdr.octets ++ u.bytes).length = getMdcHdrSize hdr.dsts.toNat + n := by
        rw [List.length_append, ← Z.whole.len_eq, Z.len_eq, u.length_bytes, hu]
      have hpl : (BitVec.ofNat 16 (getMdcHdrSize hdr.dsts.toNat + n)).toNat =
          getMdcHdrSize hdr.dsts.toNat + n := by
        rw [BitVec.toNat_ofNat]
        omega
      refine ⟨⟨vtf dst, hv dst, ?_⟩, rfl, fun hd he => Option.some.inj he ▸ Z.whole⟩
      have hwire : (sk.mdcPacket dst hdr (getMdcHdrSize hdr.dsts.toNat) n u).wire vtf₀ =
          ((.mdc, dst), hdr.octets ++ u.bytes) := by
        rw [Skb.wire, Sock.mdcPacket]
        dsimp only
        rw [hpl, ← hlen, List.take_length]
      rw [hwire, SkBuff.octets_of_data rfl Z.wf.data.1, Sock.emit, hlen]
      rfl

/-! ### Rounds -/

/-- What a round hands to the sockets: the packets of a datagram, or nothing. -/
def Sock.Round (sk : Sock) (fuel : ℕ) (r : TunInput × TxGroup)
    (part : List ((SockFd × In6Addr) × List (BitVec 8))) : Prop :=
  match r.1 with
  | .packet f => ∃ k w, tx (sk.after k) fuel r.2 f.ip f.udp = some w ∧ part = w.sent.map (Skb.wire f.vtf)
  | .other _ => part = []

/-- Everything is handed over in some round. -/
theorem Sock.exists_rounds (rounds : List (TunInput × TxGroup)) :
    ∀ {s s' : Sent (BitVec 8) (SockFd × In6Addr)}, sk.txAll fuel s rounds = some s' →
      ∃ parts, s'.sent = s.sent ++ parts.flatten ∧ List.Forall₂ (sk.Round fuel) rounds parts := by
  induction rounds with
  | nil =>
      intro s s' h
      obtain rfl := Option.some.inj h
      exact ⟨[], (List.append_nil _).symm, .nil⟩
  | cons r rounds ih =>
      obtain ⟨input, grp⟩ := r
      intro s s' h
      cases input with
      | other l =>
          obtain ⟨parts, hs, hparts⟩ := ih (s := s) h
          exact ⟨[] :: parts, hs, .cons rfl hparts⟩
      | packet f =>
          obtain ⟨w, hw, h⟩ := Option.bind_eq_some_iff.mp h
          obtain ⟨parts, hs, hparts⟩ := ih h
          refine ⟨w.sent.map (Skb.wire f.vtf) :: parts, ?_, .cons ⟨_, w, hw, rfl⟩ hparts⟩
          rw [hs, Sock.plus, List.flatten_cons, List.append_assoc]

end Sender

/-! ## From end to end -/

/-- What leaves in a round is delivered. -/
def RouterTree.DeliversRound {root : In6Addr} {peers : List In6Addr} (T : RouterTree root peers)
    (net : In6Addr → Net) (sk : Sock) (vtf : In6Addr → List (BitVec 8)) (r : TunInput × TxGroup)
    (part : List ((SockFd × In6Addr) × List (BitVec 8))) : Prop :=
  match r.1 with
  | .packet f => T.OctetDelivers net f.udp ↑(part.map fun x => (root, sk.emit vtf x))
  | .other _ => part = []

section Main

variable {args : Args} {root : NodeId} {addr : In6Addr} {peers : List In6Addr}
  {T : RouterTree addr peers} {P : Paths} {net : In6Addr → Net} {st₀ : System} {sk sk' : Sock}
  {mtu fuel : ℕ} {grp : TxGroup} {vtf : In6Addr → List (BitVec 8)}

/-- The octets that leave for a datagram are those of its packets. -/
theorem onWire_of_tx (F : T.Fits grp) (G : grp.Sized args) (hsk : ∀ k a, sk.sendError k a = false)
    (hf : 3 ≤ fuel) {f : TunPacket} (hvalid : (TunInput.packet f).Valid args mtu) (hm : mtu ≤ 2 ^ 16)
    (hv : ∀ a, (vtf a).length = 4) {w : Wire} (hw : tx sk fuel grp f.ip f.udp = some w) :
    Multiset.Rel (T.OnWire f.udp) ↑((w.sent.map (Skb.wire f.vtf)).map fun x => (addr, sk.emit vtf x))
      ↑(w.sent.map fun q => (addr, q)) := by
  obtain ⟨-, hvtf, hip, -, hfit⟩ := hvalid
  have hplaced := (F.placed hsk hf hip hw).1
  have hmakes := makes_of_tx hip hw
  rw [tunPiSize, ipv6HdrSize] at hfit
  rw [List.map_map]
  refine Swarm.rel_map_coe fun q hq => ?_
  obtain ⟨hoct, hdst, hwhole⟩ := (hmakes q hq).emit G (by omega) hvtf hv
  exact ⟨rfl, hplaced q hq, hdst, hwhole, hoct⟩

/-- A round with a group that the sender published. -/
theorem System.Publishes.deliversRound (hgrp : Publishes args T P net st₀ grp) (hP : T.Charted P)
    (N : T.Equipped net) (B : st₀.Started root T) (hm : mtu ≤ 2 ^ 16) (hf : 3 ≤ fuel)
    (hsk : ∀ k a, sk.sendError k a = false) (hv : ∀ a, (vtf a).length = 4) {input : TunInput}
    (hvalid : input.Valid args mtu) {part : List ((SockFd × In6Addr) × List (BitVec 8))}
    (h : sk.Round fuel (input, grp) part) : T.DeliversRound net sk vtf (input, grp) part := by
  cases input with
  | other l => exact h
  | packet f =>
      obtain ⟨k, w, hw, rfl⟩ := h
      have G := hgrp.sized B hP N
      obtain ⟨st, hrun, htxg⟩ := hgrp
      have H := B.safe_of_run hP N hrun
      obtain ⟨grp', hgrp', F⟩ := H.group
      obtain rfl := Option.some.inj (hgrp'.symm.trans htxg)
      have hsk' : ∀ n a, (sk.after k).sendError n a = false := fun n a => hsk (k + n) a
      obtain ⟨w', hw', D⟩ := F.delivers N H.sketches.nodup hsk' hf hvalid.2.2.1 f.udp
      obtain rfl := Option.some.inj (hw'.symm.trans hw)
      exact D.octets N (onWire_of_tx F G hsk' hf hvalid hm hv hw)

/-- Both threads work in the buffer, in whatever turns; the device hands over datagrams and other
packets, and the current group is one that the sender published at any time.  The threads end.  Then what
was handed to the sockets is one part for each round, and the octets that leave for the part of a datagram
come to rest in whatever order they move through routers that rewrite them in memory: receivers only get
the octets of plain packets to them with a copy of the datagram, and in the end each of them has exactly
one.  The sizes are those of `shared_buffer` (`hm`, `h4`), each packet of the device is a UDP datagram
that fits behind the longest header, or no IPv6 (`TunInput.Valid`), and no call of `sendto` for data
fails (`hsk`). -/
theorem octets_delivered (hP : T.Charted P) (N : T.Equipped net) (B : st₀.Started root T)
    (hm : mtu ≤ 2 ^ 16) (h4 : tunPiSize + getMdcHdrSize args.max_addrs ≤ mtu) (hf : 3 ≤ fuel)
    {rounds : List (TunInput × TxGroup)}
    (hrounds : ∀ r ∈ rounds, r.1.Valid args mtu ∧ System.Publishes args T P net st₀ r.2)
    (phases : List (List Addr)) (m : Mem (BitVec 8)) (hsk : ∀ k a, sk.sendError k a = false)
    (hv : ∀ a, (vtf a).length = 4) :
    Acc (fun c' c => Par.Step sk.ok sk'.ok c c')
        (threads (initTx args mtu) fuel sk.bia rounds phases m) ∧
      ∀ c, Relation.ReflTransGen (Par.Step sk.ok sk'.ok)
          (threads (initTx args mtu) fuel sk.bia rounds phases m) c →
        (∀ c', ¬ Par.Step sk.ok sk'.ok c c') →
        ∃ parts, c.sent.sent = parts.flatten ∧
          List.Forall₂ (T.DeliversRound net sk vtf) rounds parts := by
  obtain ⟨s, hs, hacc, hall⟩ := threads_spec hm h4 hf
    (fun r hr => ⟨(hrounds r hr).1, (hrounds r hr).2.sized B hP N⟩) phases m sk sk'
  refine ⟨hacc, fun c hc hlast => ?_⟩
  obtain ⟨parts, hsent, hparts⟩ := Sock.exists_rounds rounds hs
  refine ⟨parts, ?_, ?_⟩
  · rw [(hall c hc hlast).1, hsent]
    rfl
  · refine List.forall₂_iff_get.mpr ⟨hparts.length_eq, fun i h₁ h₂ => ?_⟩
    obtain ⟨hvalid, hgrp⟩ := hrounds _ (List.get_mem rounds ⟨i, h₁⟩)
    exact hgrp.deliversRound hP N B hm hf hsk hv hvalid (hparts.get h₁ h₂)

end Main

/-- The theorem for something that is no IPv6 and a datagram that leaves in a MEADcast packet, with two
requests. -/
theorem octets_delivered_fork : ∃ st₀ : System, st₀.Started 0 forkTree ∧
    ∀ c, Relation.ReflTransGen (Par.Step Sock.fork.ok Sock.fork.ok)
        (threads (initTx Args.default 1500) 3 Sock.fork.bia forkRounds [[⟨2, 5000⟩], [⟨3, 5000⟩]]
          fun _ => 0) c →
      (∀ c', ¬ Par.Step Sock.fork.ok Sock.fork.ok c c') →
      ∃ parts, c.sent.sent = parts.flatten ∧
        List.Forall₂ (forkTree.DeliversRound forkNet Sock.fork fun _ => [0x60, 0, 0, 0]) forkRounds
          parts := by
  obtain ⟨st₀, st, B, hrun, hgrp, -⟩ := exists_published_fork
  obtain ⟨-, h⟩ := @octets_delivered Args.default 0 1 [3, 2] forkTree .fork forkNet st₀ Sock.fork
    Sock.fork 1500 3 (fun _ => [0x60, 0, 0, 0]) forkTree_charted forkNet_equipped B
    (show 1500 ≤ 2 ^ 16 by decide) (by decide) le_rfl _ (forkRounds_published ⟨st, hrun, hgrp⟩)
    [[⟨2, 5000⟩], [⟨3, 5000⟩]] (fun _ => 0) (fun _ _ => rfl) fun _ => rfl
  exact ⟨st₀, B, h⟩

end MEADcast
