import MEADcast.Network.EndToEnd
import MEADcast.Network.WireFormat

/-!
# The whole system on octets

The system once more, with octets in all places where they are in the program: the sender reads
responses from its buffer and writes requests and headers into the other one, and routers work on
packets in memory.  It refines the system of packets with headers, so that what holds of that one in
every reachable state holds here as well.

## Main definitions

* `OctetSystem` — the sender and all octets.
* `OctetSystem.Step` — what happens next.
* `OctetSystem.Refines` — the octets are those of the packets of a `System`.

## Main results

* `OctetSystem.Step.refines` — each step is one of the `System`.
* `OctetSystem.Refines.talks` — each step of the `System` in which no datagram takes part is one here.
* `octet_system_refines` — every datagram is delivered, octet by octet.
-/

namespace MEADcast

/-- The source in an IPv6 header. -/
def saddrOf (l : List (BitVec 8)) : In6Addr := ofOctets ((l.drop 8).take 16)

/-- The octets of a discovery packet between two routers, as in `Flying`. -/
structure OctetFlying where
  octets : List (BitVec 8)
  peer : In6Addr
  link : ℕ

namespace OctetFlying

/-- The router that a packet comes to next. -/
def router (P : Paths) (f : OctetFlying) : Option ℕ :=
  if daddrOf f.octets = P.src then
    match f.link with
    | 0 => none
    | j + 1 => some j
  else some f.link

/-- The octets `l` leave router `j`, to which `f` came. -/
def out (P : Paths) (f : OctetFlying) (j : ℕ) (l : List (BitVec 8)) : OctetFlying where
  octets := l
  peer := f.peer
  link := if daddrOf l = P.src then j else j + 1

end OctetFlying

/-- The sender, the octets of discovery packets in flight, those that arrived and how many of these the
sender has read, and the octets of datagrams on their way. -/
structure OctetSystem where
  sender : Sender
  flight : Multiset OctetFlying
  arrived : List OctetFlying
  read : ℕ
  data : List (Udp × Multiset (In6Addr × List (BitVec 8)))

namespace OctetSystem

/-- A sender that has sent and received nothing. -/
def start (s : Sender) : OctetSystem := ⟨s, 0, [], 0, []⟩

/-- The next discovery packet that the sender reads. -/
def next (o : OctetSystem) : Option OctetFlying := o.arrived.reverse[o.read]?

/-- One step, as in `System.Step` and `Discovery.Step`.  Both threads start with any memory; the buffer
for responses takes `rxlen` octets. -/
inductive Step (args : Args) (mtu rxlen : ℕ) {root : In6Addr} {peers : List In6Addr}
    (T : RouterTree root peers) (P : Paths) (net : In6Addr → Net) : OctetSystem → OctetSystem → Prop
  | request {o : OctetSystem} {sk : Sock} {vtf : In6Addr → List (BitVec 8)} {m m' : Mem (BitVec 8)}
      {ret : Int} {s : Sent (BitVec 8) (SockFd × In6Addr)} (hsrc : sk.baddr = P.src)
      (hv : ∀ a, (vtf a).length = 4)
      (h : (TxBuf.sendDcvr o.sender.members).run sk.ok m ⟨0, []⟩ = (ret, m', s)) :
      Step args mtu rxlen T P net o { o with
        flight := o.flight + ↑(s.sent.map fun x => (⟨sk.emit vtf x, x.1.2, 0⟩ : OctetFlying)) }
  | forward {o : OctetSystem} {f : OctetFlying} {F : Multiset OctetFlying} {j : ℕ} {r : In6Addr} {n : Net}
      {out : List SkBuff} (ho : o.flight = f ::ₘ F) (hj : f.router P = some j)
      (hr : (P.path f.peer)[j]? = some r) (hn : n.Router r)
      (hout : SkBuff.ip6Forward n (.receive f.octets (daddrOf f.octets)) = some out) :
      Step args mtu rxlen T P net o { o with flight := F + ↑(out.map fun b => f.out P j b.octets) }
  | arrive {o : OctetSystem} {f : OctetFlying} {F : Multiset OctetFlying} (ho : o.flight = f ::ₘ F)
      (hdst : daddrOf f.octets = P.src) (hlink : f.link = 0) :
      Step args mtu rxlen T P net o { o with flight := F, arrived := f :: o.arrived }
  | lose {o : OctetSystem} {f : OctetFlying} {F : Multiset OctetFlying} (ho : o.flight = f ::ₘ F) :
      Step args mtu rxlen T P net o { o with flight := F }
  | again {o : OctetSystem} {f : OctetFlying} {F : Multiset OctetFlying} (ho : o.flight = f ::ₘ F) :
      Step args mtu rxlen T P net o { o with flight := f ::ₘ f ::ₘ F }
  | receive {o : OctetSystem} {f : OctetFlying} {d : DcvRsp} {s : Sender} {ret : Int}
      (hf : o.next = some f) (hd : RxBuf.rxDcvr rxlen (saddrOf f.octets) (f.octets.drop 40) = some d)
      (h : Completes args o.sender (.rsp d.rsa d.paddr d.hops) s ret) :
      Step args mtu rxlen T P net o { o with sender := s, read := o.read + 1 }
  | discard {o : OctetSystem} {f : OctetFlying} (hf : o.next = some f)
      (hd : RxBuf.rxDcvr rxlen (saddrOf f.octets) (f.octets.drop 40) = none) :
      Step args mtu rxlen T P net o { o with read := o.read + 1 }
  | timeout {o : OctetSystem} {s : Sender} {ret : Int} (h : Completes args o.sender .tout s ret) :
      Step args mtu rxlen T P net o { o with sender := s }
  | send {o : OctetSystem} {sk : Sock} {vtf : In6Addr → List (BitVec 8)} {grp : TxGroup} {f : TunPacket}
      {fuel : ℕ} {m m' : Mem (BitVec 8)} {s : Sent (BitVec 8) (SockFd × In6Addr)}
      (hgrp : o.sender.txg = some grp) (hsk : ∀ k a, sk.sendError k a = false)
      (hv : ∀ a, (vtf a).length = 4) (hf : 3 ≤ fuel) (hvalid : (TunInput.packet f).Valid args mtu)
      (h : ((initTx args mtu).txRound fuel sk.bia (TunInput.packet f).octets grp).run sk.ok m ⟨0, []⟩ =
        ((), m', s)) :
      Step args mtu rxlen T P net o { o with
        data := (f.udp, ↑(s.sent.map fun x => (root, sk.emit vtf x))) :: o.data }
  | hop {o : OctetSystem} {D D' : List (Udp × Multiset (In6Addr × List (BitVec 8)))} {u : Udp}
      {S S' : Multiset (In6Addr × List (BitVec 8))} (hD : o.data = D ++ (u, S) :: D')
      (h : Swarm.Step (T.OctetHop net) S S') :
      Step args mtu rxlen T P net o { o with data := D ++ (u, S') :: D' }

end OctetSystem

/-! ## Discovery packets -/

/-- The octets are those of a discovery packet. -/
structure OctetFlying.Of (a : OctetFlying) (f : Flying) : Prop where
  octets : ∃ vtf : List (BitVec 8), vtf.length = 4 ∧ a.octets = f.skb.octets vtf
  peer_eq : a.peer = f.peer
  link_eq : a.link = f.link

namespace Skb.Probes

variable {skb : Skb} {l saddr daddr : In6Addr} {n : ℕ} {rsp : Bool} {vtf : List (BitVec 8)}

theorem octets_eq (h : skb.Probes l n rsp saddr daddr) :
    skb.octets vtf = skb.ip.octets vtf ++ (dcvHdr l n rsp).octets := by
  rw [SkBuff.octets_of_md h.md_eq]
  exact congrArg _ (List.append_nil _)

theorem whole (h : skb.Probes l n rsp saddr daddr) : ∀ hd, skb.md = some hd → hd.Whole :=
  fun _ he => Option.some.inj (h.md_eq.symm.trans he) ▸ dcvHdr_whole l n rsp

/-- What `rx_dcvr` makes of the octets of a discovery packet. -/
theorem rxDcvr_octets (h : skb.Probes l n rsp saddr daddr) (hv : vtf.length = 4) {rxlen : ℕ}
    (hrx : 32 ≤ rxlen) :
    RxBuf.rxDcvr rxlen (saddrOf (skb.octets vtf)) ((skb.octets vtf).drop 40) = rxDcvr skb := by
  have hip := Ipv6Hdr.length_octets hv skb.ip
  have hsaddr : saddrOf (skb.octets vtf) = skb.ip.saddr := by
    rw [saddrOf, h.octets_eq, take_drop_append_left (by omega), Ipv6Hdr.octets_saddr hv, ofOctets_octets]
  rw [hsaddr, h.octets_eq, List.drop_left' hip]
  exact RxBuf.rxDcvr_octets hrx h.md_eq rfl h.payload_len

end Skb.Probes

namespace Flying

variable {P : Paths} {R : List In6Addr} {f : Flying} {j : ℕ} {r : In6Addr} {net : Net}

theorem Sound.exists_probes (h : f.Sound P R) : ∃ n rsp saddr daddr, f.skb.Probes f.peer n rsp saddr daddr := by
  obtain ⟨-, h | ⟨j, r, h⟩⟩ := h
  · exact ⟨_, _, _, _, h.probes⟩
  · exact ⟨_, _, _, _, h.probes⟩

theorem Sound.dst_eq (h : f.Sound P R) : f.skb.dst = f.skb.ip.daddr := by
  obtain ⟨n, rsp, saddr, daddr, hp⟩ := h.exists_probes
  exact hp.dst_eq.trans hp.daddr_eq.symm

/-- A router forwards discovery packets. -/
theorem Sound.exists_forward (h : f.Sound P R) (hj : f.router P = some j)
    (hr : (P.path f.peer)[j]? = some r) (hn : net.Router r) :
    ∃ out, MEADcast.ip6Forward net f.skb = some out ∧ ∀ q ∈ out, (f.out P j q).Sound P R := by
  obtain ⟨hmem, h | ⟨i, r', h⟩⟩ := h
  · obtain rfl : f.link = j := by
      rw [Flying.router, if_neg (by rw [h.probes.dst_eq]; exact h.ne)] at hj
      exact Option.some.inj hj
    obtain ⟨rsp, req, hout, hrsp, hreq⟩ := h.forward hr hn
    refine ⟨_, hout, fun q hq => ⟨hmem, ?_⟩⟩
    rcases List.mem_append.mp hq with hq | hq
    · split at hq
      · cases hq
      · exact Or.inr ⟨_, _, List.mem_singleton.mp hq ▸ hrsp⟩
    · exact Or.inl (List.mem_singleton.mp hq ▸ hreq)
  · obtain ⟨q', hout, hq'⟩ := h.forward hj net
    exact ⟨_, hout, fun q hq => ⟨hmem, Or.inr ⟨i, r', List.mem_singleton.mp hq ▸ hq'⟩⟩⟩

end Flying

namespace OctetFlying.Of

variable {P : Paths} {R : List In6Addr} {a : OctetFlying} {f : Flying} {j : ℕ} {r : In6Addr} {net : Net}

theorem daddr_eq (h : a.Of f) (hf : f.Sound P R) : daddrOf a.octets = f.skb.dst := by
  obtain ⟨vtf, hv, he⟩ := h.octets
  rw [he, daddrOf_octets hv, hf.dst_eq]

theorem router_eq (h : a.Of f) (hf : f.Sound P R) : a.router P = f.router P := by
  rw [OctetFlying.router, h.daddr_eq hf, h.link_eq]
  rfl

/-- What `rx_dcvr` makes of it. -/
theorem rxDcvr_eq (h : a.Of f) (hf : f.Sound P R) {rxlen : ℕ} (hrx : 32 ≤ rxlen) :
    RxBuf.rxDcvr rxlen (saddrOf a.octets) (a.octets.drop 40) = rxDcvr f.skb := by
  obtain ⟨vtf, hv, he⟩ := h.octets
  obtain ⟨n, rsp, saddr, daddr, hp⟩ := hf.exists_probes
  rw [he]
  exact hp.rxDcvr_octets hv hrx

/-- A router forwards its octets. -/
theorem exists_forward (h : a.Of f) (hf : f.Sound P R) (hj : f.router P = some j)
    (hr : (P.path f.peer)[j]? = some r) (hn : net.Router r) :
    ∃ out, SkBuff.ip6Forward net (.receive a.octets (daddrOf a.octets)) = some out := by
  obtain ⟨vtf, hv, he⟩ := h.octets
  obtain ⟨n, rsp, saddr, daddr, hp⟩ := hf.exists_probes
  obtain ⟨out', hout', -⟩ := hf.exists_forward hj hr hn
  obtain ⟨out, hout, -⟩ := (SkBuff.holds_receive vtf hp.whole).ip6Forward net hv
    (fun _ => by simp [hp.md_eq]) out' hout'
  exact ⟨out, by rw [h.daddr_eq hf, he]; exact hout⟩

/-- What a router makes of its octets are those of what it makes of it. -/
theorem forward (h : a.Of f) (hf : f.Sound P R) (hj : f.router P = some j)
    (hr : (P.path f.peer)[j]? = some r) (hn : net.Router r) {out : List SkBuff}
    (hout : SkBuff.ip6Forward net (.receive a.octets (daddrOf a.octets)) = some out) :
    ∃ out', ip6Forward net f.skb = some out' ∧
      Multiset.Rel OctetFlying.Of ↑(out.map fun b => a.out P j b.octets) ↑(out'.map (f.out P j)) := by
  obtain ⟨vtf, hv, he⟩ := h.octets
  obtain ⟨n, rsp, saddr, daddr, hp⟩ := hf.exists_probes
  obtain ⟨out', hout', hsound⟩ := hf.exists_forward hj hr hn
  rw [h.daddr_eq hf, he] at hout
  obtain ⟨out₁, hout₁, hall⟩ := (SkBuff.holds_receive vtf hp.whole).ip6Forward net hv
    (fun _ => by simp [hp.md_eq]) out' hout'
  obtain rfl := Option.some.inj (hout₁.symm.trans hout)
  refine ⟨out', hout', ?_⟩
  rw [← Multiset.map_coe, ← Multiset.map_coe, Multiset.rel_map]
  refine (Swarm.rel_coe hall).mono fun b _ q hq Hq => ⟨⟨vtf, hv, Hq.octets_eq⟩, h.peer_eq, ?_⟩
  have hdst : q.dst = q.ip.daddr := (hsound q hq).dst_eq
  rw [OctetFlying.out, Flying.out, Hq.octets_eq, daddrOf_octets hv, hdst]

end OctetFlying.Of

/-! ### Requests -/

theorem sendDcvrLoop_packets (sk : Sock) (rcvr : List Addr) : ∀ (hdr : MdcHdr) (w : Wire),
    (∀ l, ({ hdr with addr := [l] } : MdcHdr) = dcvHdr l 0 false) →
    ∀ p ∈ (sendDcvrLoop sk 32 rcvr hdr w).2.sent,
      p ∈ w.sent ∨ ∃ a, p = sk.mdcPacket a (dcvHdr a 0 false) 32 0 .empty := by
  induction rcvr with
  | nil => exact fun hdr w _ p hp => Or.inl hp
  | cons a rcvr ih =>
      intro hdr w h p hp
      have hsent : ∀ q ∈ (sk.sendto w (sk.mdcPacket a.sin6_addr (dcvHdr a.sin6_addr 0 false) 32 0 .empty)).2.sent,
          q ∈ w.sent ∨ ∃ a, q = sk.mdcPacket a (dcvHdr a 0 false) 32 0 .empty :=
        fun q hq => (mem_sent_of_sendto hq).imp id fun he => ⟨_, he⟩
      rw [sendDcvrLoop] at hp
      simp only [h] at hp
      split at hp
      · exact hsent p hp
      · exact (ih (dcvHdr a.sin6_addr 0 false) _ (fun _ => rfl) p hp).elim (hsent p) Or.inr

/-- The kernel sends the octets of the requests. -/
theorem emit_sendDcvr (sk : Sock) (txbuf : MdcHdr) (rcvr : List Addr) {vtf : In6Addr → List (BitVec 8)}
    (hv : ∀ a, (vtf a).length = 4) : ∀ p ∈ (sendDcvr sk txbuf rcvr .start).2.sent,
      (∃ vtf' : List (BitVec 8), vtf'.length = 4 ∧ sk.emit vtf (p.wire []) = p.octets vtf') ∧
        (p.wire []).1.2 = p.dst := by
  intro p hp
  rcases sendDcvrLoop_packets sk rcvr _ .start (fun l => (setDcvrHdr_eq txbuf l).1) p hp with hp | ⟨a, rfl⟩
  · exact absurd hp List.not_mem_nil
  · exact ⟨⟨vtf a, hv a, rfl⟩, rfl⟩

/-! ## The refinement -/

/-- The octets are those of the packets of `st`. -/
structure OctetSystem.Refines {root : In6Addr} {peers : List In6Addr} (T : RouterTree root peers)
    (o : OctetSystem) (st : System) : Prop where
  sender_eq : o.sender = st.sender
  flight : Multiset.Rel OctetFlying.Of o.flight st.dcv.flight
  arrived : List.Forall₂ OctetFlying.Of o.arrived st.dcv.arrived
  read_eq : o.read = st.read
  data : List.Forall₂ (fun x y => x.1 = y.1 ∧ Multiset.Rel (T.OnWire x.1) x.2 y.2) o.data st.data

namespace OctetSystem

section Run

variable {args : Args} {root : NodeId} {addr : In6Addr} {peers : List In6Addr}
  {T : RouterTree addr peers} {P : Paths} {net : In6Addr → Net} {st st₀ : System} {o o' : OctetSystem}
  {mtu rxlen : ℕ} {f : OctetFlying} {F : Multiset OctetFlying}

namespace Refines

variable (H : o.Refines T st)

include H

theorem next (hf : o.next = some f) : ∃ f', st.next = some f' ∧ f.Of f' := by
  rw [OctetSystem.next, H.read_eq] at hf
  exact Swarm.exists_getElem?_of_forall₂ (List.forall₂_reverse_iff.mpr H.arrived) hf

theorem exists_flying (ho : o.flight = f ::ₘ F) : ∃ f' F',
    st.dcv = ⟨f' ::ₘ F', st.dcv.arrived, st.dcv.asked⟩ ∧ f.Of f' ∧ Multiset.Rel OctetFlying.Of F F' := by
  have h := H.flight
  rw [ho] at h
  obtain ⟨f', F', hof, hF, he⟩ := Multiset.rel_cons_left.mp h
  exact ⟨f', F', by rw [← he], hof, hF⟩

/-- Discovery packets move. -/
theorem travel {F' F₁' : Multiset Flying} {A' : List Flying}
    (hdcv : st.dcv = ⟨F', st.dcv.arrived, st.dcv.asked⟩)
    (h : Discovery.Step P ⟨F', st.dcv.arrived, st.dcv.asked⟩ ⟨F₁', A', st.dcv.asked⟩)
    {A : List OctetFlying} (hF : Multiset.Rel OctetFlying.Of F F₁')
    (hA : List.Forall₂ OctetFlying.Of A A') :
    ∃ st', System.Step args T P net st st' ∧ ({ o with flight := F, arrived := A } : OctetSystem).Refines T st' := by
  rw [← hdcv] at h
  exact ⟨_, .travel h rfl, H.sender_eq, hF, hA, H.read_eq, H.data⟩

end Refines

/-- Each step is one of the system of packets. -/
theorem Step.refines (h : Step args mtu rxlen T P net o o') (H : o.Refines T st)
    (S : st.Safe root T P net) (Z : st.Sized args) (N : T.Equipped net) (hm : mtu ≤ 2 ^ 16)
    (hrx : 32 ≤ rxlen) : ∃ st', System.Step args T P net st st' ∧ o'.Refines T st' := by
  have hflying : ∀ {f' F'}, st.dcv = ⟨f' ::ₘ F', st.dcv.arrived, st.dcv.asked⟩ →
      f'.Sound P st.dcv.asked := fun he => S.sound.1 _ (by rw [he]; exact Multiset.mem_cons_self _ _)
  cases h with
  | @request sk vtf m m' ret s hsrc hv h =>
      obtain ⟨m'', hrun⟩ := TxBuf.run_sendDcvr sk (dcvHdr 0 0 false) o.sender.members m ⟨0, []⟩
      rw [h, H.sender_eq] at hrun
      have hstep := @System.Step.request args addr peers T P net st (sk.after 0) (dcvHdr 0 0 false) _ _
        hsrc rfl
      refine ⟨_, hstep, H.sender_eq, ?_, H.arrived, H.read_eq, H.data⟩
      have hs : s.sent = (sendDcvr (sk.after 0) (dcvHdr 0 0 false) st.sender.members .start).2.sent.map
          (Skb.wire []) := congrArg (fun r => r.2.2.sent) hrun
      refine H.flight.add ?_
      rw [hs, List.map_map]
      refine Swarm.rel_map_coe fun p hp => ?_
      obtain ⟨hoct, hdst⟩ := emit_sendDcvr (sk.after 0) _ _ hv p hp
      exact ⟨hoct, hdst, rfl⟩
  | @forward f F j r n out ho hj hr hn hout =>
      obtain ⟨f', F', hdcv, hof, hF⟩ := H.exists_flying ho
      have hs := hflying hdcv
      rw [hof.router_eq hs] at hj
      rw [hof.peer_eq] at hr
      obtain ⟨out', hout', hrel⟩ := hof.forward hs hj hr hn hout
      exact H.travel hdcv (.forward hj hr hn hout') (hF.add hrel) H.arrived
  | @arrive f F ho hdst hlink =>
      obtain ⟨f', F', hdcv, hof, hF⟩ := H.exists_flying ho
      have hs := hflying hdcv
      have hdst' := (hof.daddr_eq hs).symm.trans hdst
      have hlink' := hof.link_eq.symm.trans hlink
      exact H.travel hdcv (.arrive hdst' hlink') hF (.cons hof H.arrived)
  | @lose f F ho =>
      obtain ⟨f', F', hdcv, hof, hF⟩ := H.exists_flying ho
      exact H.travel hdcv .lose hF H.arrived
  | @again f F ho =>
      obtain ⟨f', F', hdcv, hof, hF⟩ := H.exists_flying ho
      exact H.travel hdcv .again (.cons hof (.cons hof hF)) H.arrived
  | @receive f d s ret hf hd h =>
      obtain ⟨f', hf', hof⟩ := H.next hf
      have hs := S.sound.2 f' (List.mem_reverse.mp (List.mem_of_getElem? hf'))
      rw [hof.rxDcvr_eq hs hrx] at hd
      rw [H.sender_eq] at h
      exact ⟨_, .receive hf' hd h, rfl, H.flight, H.arrived, congrArg (· + 1) H.read_eq, H.data⟩
  | @discard f hf hd =>
      obtain ⟨f', hf', hof⟩ := H.next hf
      have hs := S.sound.2 f' (List.mem_reverse.mp (List.mem_of_getElem? hf'))
      rw [hof.rxDcvr_eq hs hrx] at hd
      exact ⟨_, .discard hf' hd, H.sender_eq, H.flight, H.arrived, congrArg (· + 1) H.read_eq, H.data⟩
  | @timeout s ret h =>
      rw [H.sender_eq] at h
      exact ⟨_, .timeout h, rfl, H.flight, H.arrived, H.read_eq, H.data⟩
  | @send sk vtf grp f fuel m m' s hgrp hsk hv hf hvalid h =>
      rw [H.sender_eq] at hgrp
      obtain ⟨grp', hgrp', G⟩ := S.group
      obtain rfl := Option.some.inj (hgrp'.symm.trans hgrp)
      have hsk' : ∀ k a, (sk.after 0).sendError k a = false := fun k a => hsk (0 + k) a
      have hip := hvalid.2.2.1
      obtain ⟨w, hw, -⟩ := G.delivers N S.sketches.nodup hsk' hf hip f.udp
      obtain ⟨m₁, hrun⟩ := @TxBuf.run_txRound_packet m ⟨0, []⟩ sk fuel args mtu grp' f w hvalid
        (Z grp' hgrp') hm hw
      rw [h] at hrun
      have hs : s.sent = w.sent.map (Skb.wire f.vtf) := congrArg (fun r => r.2.2.sent) hrun
      refine ⟨_, .send hgrp hsk' hip hf hw, H.sender_eq, H.flight, H.arrived, H.read_eq, .cons ⟨rfl, ?_⟩ H.data⟩
      rw [hs]
      exact onWire_of_tx G (Z grp' hgrp') hsk' hf hvalid hm hv hw
  | @hop D D' u S₁ S₁' hD h =>
      have hdata := H.data
      rw [hD] at hdata
      obtain ⟨E, ⟨u', S₂⟩, E', hE, hDE, ⟨hu, hS⟩, hDE'⟩ := Swarm.exists_append_of_forall₂ hdata
      obtain rfl : u = u' := hu
      obtain ⟨S₂', hstep, hS'⟩ := h.simulate (RouterTree.simulates_octetHop N u) hS
      refine ⟨_, .hop hE hstep, H.sender_eq, H.flight, H.arrived, H.read_eq, ?_⟩
      exact List.rel_append hDE (.cons ⟨rfl, hS'⟩ hDE')

/-! ### The other direction -/

namespace Refines

variable {f' : Flying} {F₁ : Multiset Flying} (H : o.Refines T st)

include H

theorem exists_octets (hdcv : st.dcv.flight = f' ::ₘ F₁) : ∃ f F, o.flight = f ::ₘ F ∧ f.Of f' ∧
    Multiset.Rel OctetFlying.Of F F₁ := by
  have h := H.flight
  rw [hdcv] at h
  obtain ⟨f, F, hof, hF, he⟩ := Multiset.rel_cons_right.mp h
  exact ⟨f, F, he, hof, hF⟩

theorem exists_next (hf : st.next = some f') : ∃ f, o.next = some f ∧ f.Of f' := by
  rw [System.next, ← H.read_eq] at hf
  exact Swarm.exists_getElem?_of_forall₂ (List.forall₂_reverse_iff.mpr H.arrived).flip hf

/-- A discovery packet moves. -/
theorem exists_travel {d : Discovery} (S : st.Safe root T P net) (h : Discovery.Step P st.dcv d)
    (hasked : d.asked = st.dcv.asked) : ∃ o', Relation.ReflTransGen (Step args mtu rxlen T P net) o o' ∧
      o'.Refines T { st with dcv := d } := by
  have harrived := H.arrived
  generalize hd₀ : st.dcv = d₀ at h hasked harrived
  cases h with
  | @request _ sk txbuf rcvr ret w hsrc hne h =>
      -- nobody was asked
      obtain rfl : rcvr = [] := by
        have hlen := congrArg List.length hasked
        simp only [List.length_append, List.length_map] at hlen
        exact List.length_eq_zero_iff.mp (by omega)
      obtain rfl : Wire.start = w := congrArg Prod.snd h
      refine ⟨o, .refl, H.sender_eq, ?_, harrived, H.read_eq, H.data⟩
      have hzero : d₀.flight + ↑(Wire.start.sent.map fun p => (⟨p, p.dst, 0, none⟩ : Flying)) =
        d₀.flight := add_zero _
      rw [hzero, ← hd₀]
      exact H.flight
  | @forward F A R f' j r n out' hj hr hn hout' =>
      obtain ⟨f, F', ho, hof, hF⟩ := H.exists_octets (congrArg Discovery.flight hd₀)
      have hs : f'.Sound P st.dcv.asked := S.sound.1 f' (by rw [hd₀]; exact Multiset.mem_cons_self _ _)
      obtain ⟨out, hout⟩ := hof.exists_forward hs hj hr hn
      obtain ⟨out'', hout'', hrel⟩ := hof.forward hs hj hr hn hout
      obtain rfl := Option.some.inj (hout''.symm.trans hout')
      refine ⟨_, .single (.forward ho ((hof.router_eq hs).trans hj) (hof.peer_eq ▸ hr) hn hout), H.sender_eq,
        hF.add hrel, harrived, H.read_eq, H.data⟩
  | @arrive F A R f' hdst hlink =>
      obtain ⟨f, F', ho, hof, hF⟩ := H.exists_octets (congrArg Discovery.flight hd₀)
      have hs : f'.Sound P st.dcv.asked := S.sound.1 f' (by rw [hd₀]; exact Multiset.mem_cons_self _ _)
      exact ⟨_, .single (.arrive ho ((hof.daddr_eq hs).trans hdst) (hof.link_eq.trans hlink)), H.sender_eq, hF,
        .cons hof harrived, H.read_eq, H.data⟩
  | @lose F A R f' =>
      obtain ⟨f, F', ho, hof, hF⟩ := H.exists_octets (congrArg Discovery.flight hd₀)
      exact ⟨_, .single (.lose ho), H.sender_eq, hF, harrived, H.read_eq, H.data⟩
  | @again F A R f' =>
      obtain ⟨f, F', ho, hof, hF⟩ := H.exists_octets (congrArg Discovery.flight hd₀)
      exact ⟨_, .single (.again ho), H.sender_eq, .cons hof (.cons hof hF), harrived, H.read_eq, H.data⟩

/-- What the system of packets does without datagrams, the octets can do as well. -/
theorem talks (hrx : 32 ≤ rxlen) (S : st.Safe root T P net) {st' : System}
    (h : System.Talks args T P net st st') :
    ∃ o', Relation.ReflTransGen (Step args mtu rxlen T P net) o o' ∧ o'.Refines T st' := by
  obtain ⟨h, hdata⟩ := h
  cases h with
  | @request sk txbuf ret w hsrc h =>
      have hv : ∀ _ : In6Addr, ([0x60, 0, 0, 0] : List (BitVec 8)).length = 4 := fun _ => rfl
      obtain ⟨m', hrun⟩ := TxBuf.run_sendDcvr sk txbuf o.sender.members (fun _ => 0) ⟨0, []⟩
      rw [show (⟨0, []⟩ : Sent (BitVec 8) (SockFd × In6Addr)).calls = 0 from rfl, sk.after_zero,
        H.sender_eq, h] at hrun
      refine ⟨_, .single (.request hsrc hv (H.sender_eq ▸ hrun)), H.sender_eq, H.flight.add ?_, H.arrived, H.read_eq, H.data⟩
      have hs : (Sock.plus [] ⟨0, []⟩ w).sent = w.sent.map (Skb.wire []) := rfl
      rw [hs, List.map_map]
      refine Swarm.rel_map_coe fun p hp => ?_
      have hp' : p ∈ (sendDcvr sk txbuf st.sender.members .start).2.sent := by
        rw [h]
        exact hp
      obtain ⟨hoct, hdst⟩ := emit_sendDcvr sk txbuf _ hv p hp'
      exact ⟨hoct, hdst, rfl⟩
  | travel h hasked => exact H.exists_travel S h hasked
  | @receive f' d s ret hf hd h =>
      obtain ⟨f, hf', hof⟩ := H.exists_next hf
      have hs := S.sound.2 f' (List.mem_reverse.mp (List.mem_of_getElem? hf))
      rw [← hof.rxDcvr_eq hs hrx] at hd
      rw [← H.sender_eq] at h
      exact ⟨_, .single (.receive hf' hd h), rfl, H.flight, H.arrived, congrArg (· + 1) H.read_eq, H.data⟩
  | @discard f' hf hd =>
      obtain ⟨f, hf', hof⟩ := H.exists_next hf
      have hs := S.sound.2 f' (List.mem_reverse.mp (List.mem_of_getElem? hf))
      rw [← hof.rxDcvr_eq hs hrx] at hd
      exact ⟨_, .single (.discard hf' hd), H.sender_eq, H.flight, H.arrived, congrArg (· + 1) H.read_eq,
        H.data⟩
  | timeout h =>
      rw [← H.sender_eq] at h
      exact ⟨_, .single (.timeout h), rfl, H.flight, H.arrived, H.read_eq, H.data⟩
  | send hgrp hsk hip hf h => exact absurd (congrArg List.length hdata) (Nat.succ_ne_self _)
  | @hop D D' u S₁ S₁' hD h =>
      have hst : st = { st with data := D ++ (u, S₁') :: D' } := by
        rw [show D ++ (u, S₁') :: D' = st.data from hdata]
      exact ⟨o, .refl, hst ▸ H⟩

theorem talks_run (hP : T.Charted P) (N : T.Equipped net) (hrx : 32 ≤ rxlen)
    (S : st.Safe root T P net) {st' : System}
    (h : Relation.ReflTransGen (System.Talks args T P net) st st') :
    ∃ o', Relation.ReflTransGen (Step args mtu rxlen T P net) o o' ∧ o'.Refines T st' := by
  induction h with
  | refl => exact ⟨o, .refl, H⟩
  | tail hrun h ih =>
      obtain ⟨o₁, h₁, H₁⟩ := ih
      obtain ⟨o₂, h₂, H₂⟩ := H₁.talks hrx (System.Talks.safe hrun hP N S) h
      exact ⟨o₂, h₁.trans h₂, H₂⟩

end Refines

/-- At the start there are no octets. -/
theorem refines_start (B : st₀.Started root T) : (start st₀.sender).Refines T st₀ := by
  refine ⟨rfl, ?_, ?_, B.read_eq.symm, ?_⟩
  · rw [B.dcv_eq]
    exact .zero
  · rw [B.dcv_eq]
    exact .nil
  · rw [B.data_eq]
    exact .nil

/-- Every reachable state has the octets of a reachable state of the system of packets. -/
theorem exists_refines (hP : T.Charted P) (N : T.Equipped net) (B : st₀.Started root T)
    (hm : mtu ≤ 2 ^ 16) (hrx : 32 ≤ rxlen)
    (hrun : Relation.ReflTransGen (Step args mtu rxlen T P net) (start st₀.sender) o) :
    ∃ st, Relation.ReflTransGen (System.Step args T P net) st₀ st ∧ o.Refines T st ∧
      st.Safe root T P net ∧ st.Sized args := by
  induction hrun with
  | refl => exact ⟨st₀, .refl, refines_start B, B.safe, B.sized⟩
  | tail _ h ih =>
      obtain ⟨st, hst, H, S, Z⟩ := ih
      obtain ⟨st', hstep, H'⟩ := h.refines H S Z N hm hrx
      exact ⟨st', hst.tail hstep, H', hstep.safe hP N S, hstep.sized hP S Z⟩

/-- The octets of a datagram are delivered if its packets are. -/
theorem Refines.delivers (H : o.Refines T st) (S : st.Safe root T P net) (N : T.Equipped net) :
    ∀ x ∈ o.data, T.OctetDelivers net x.1 x.2 := by
  intro x hx
  obtain ⟨i, hi⟩ := List.getElem?_of_mem hx
  obtain ⟨y, hy, he, hrel⟩ := Swarm.exists_getElem?_of_forall₂ H.data hi
  have D := S.data y (List.mem_of_getElem? hy)
  rw [← he] at D
  exact D.octets N hrel

/-- The sender can read what arrived next. -/
theorem Refines.exists_read (H : o.Refines T st) (S : st.Safe root T P net) (hP : T.Charted P)
    (hrx : 32 ≤ rxlen) (hf : o.next = some f) :
    ∃ o', Step args mtu rxlen T P net o o' ∧ o'.read = o.read + 1 := by
  obtain ⟨f', hf', hof⟩ := H.next hf
  have heq := hof.rxDcvr_eq (S.sound.2 f' (List.mem_reverse.mp (List.mem_of_getElem? hf'))) hrx
  rcases S.next_cases hP hf' with hn | ⟨d, hd, ho, -⟩
  · exact ⟨_, .discard hf (heq.trans hn), rfl⟩
  · obtain ⟨s, ret, hc, -⟩ := S.sketches.planted.rsp args d.paddr d.hops ho.ne_root
    rw [← H.sender_eq] at hc
    exact ⟨_, .receive hf (heq.trans hd) hc, rfl⟩

end Run

end OctetSystem

section Main

variable {args : Args} {root : NodeId} {addr : In6Addr} {peers : List In6Addr}
  {T : RouterTree addr peers} {P : Paths} {net : In6Addr → Net} {st₀ : System} {o : OctetSystem}
  {mtu rxlen : ℕ}

/-- The system on octets refines the system of packets: every reachable state has the octets of the packets
of a reachable state there.  So in every reachable state the octets of every datagram that was sent are
delivered, and whatever octets arrived next, the sender can read them.  The buffer of the sender is no
longer than a packet can be (`hm`), and that of `rx_dcvr` has space for a response (`hrx`).  What is sent
are UDP datagrams that fit behind the longest header, and no call of `sendto` for them fails; requests
may fail (`Step.send`, `Step.request`). -/
theorem octet_system_refines (hP : T.Charted P) (N : T.Equipped net) (B : st₀.Started root T)
    (hm : mtu ≤ 2 ^ 16) (hrx : 32 ≤ rxlen)
    (hrun : Relation.ReflTransGen (OctetSystem.Step args mtu rxlen T P net) (.start st₀.sender) o) :
    (∃ st, Relation.ReflTransGen (System.Step args T P net) st₀ st ∧ o.Refines T st) ∧
    (∀ x ∈ o.data, T.OctetDelivers net x.1 x.2) ∧
    ∀ f, o.next = some f →
      ∃ o', OctetSystem.Step args mtu rxlen T P net o o' ∧ o'.read = o.read + 1 := by
  obtain ⟨st, hst, H, S, -⟩ := OctetSystem.exists_refines hP N B hm hrx hrun
  exact ⟨⟨st, hst, H⟩, H.delivers S N, fun f hf => H.exists_read S hP hrx hf⟩

end Main

/-- The theorem after the first phase: a datagram has left in a MEADcast packet, and another response of
router `5` is there to be read. -/
theorem octet_system_of_fork : ∃ (st₀ : System) (o : OctetSystem) (f : OctetFlying),
    st₀.Started 0 forkTree ∧
    Relation.ReflTransGen (OctetSystem.Step Args.default 1500 1500 forkTree .fork forkNet)
      (.start st₀.sender) o ∧
    o.sender.txg = some .fork ∧ o.next = some f ∧
    (∃ S, (Udp.bare 7000, S) ∈ o.data ∧ forkTree.OctetDelivers forkNet (Udp.bare 7000) S) ∧
    ∃ o', OctetSystem.Step Args.default 1500 1500 forkTree .fork forkNet o o' ∧ o'.read = o.read + 1 := by
  obtain ⟨st₀, st, B, htalk, hgrp, hread⟩ := exists_talk_fork
  have H : st₀.Safe 0 forkTree .fork forkNet := B.safe
  obtain ⟨st', f', d, hask, hsender, -, hnext, -⟩ := (System.Talks.safe htalk forkTree_charted
    forkNet_equipped H).asks Args.default forkTree_charted forkNet_equipped fork_answered hread
    (forkTree_on (l := 2) (r := 5) (by simp) (by simp))
  obtain ⟨o, hrun, R⟩ : ∃ o, Relation.ReflTransGen (OctetSystem.Step Args.default 1500 1500 forkTree .fork
      forkNet) (.start st₀.sender) o ∧ o.Refines forkTree st' :=
    (OctetSystem.refines_start B).talks_run forkTree_charted forkNet_equipped (by decide) H
      (htalk.trans hask)
  obtain ⟨f, hf, -⟩ := R.exists_next hnext
  have hgrp' : o.sender.txg = some .fork := by
    rw [R.sender_eq, hsender]
    exact hgrp
  -- the datagram
  have hvalid : (TunInput.packet .fork).Valid Args.default 1500 := ⟨rfl, rfl, rfl, by decide, by decide⟩
  have hsk : ∀ k a, Sock.fork.sendError k a = false := fun _ _ => rfl
  have hv : ∀ _ : In6Addr, ([0x60, 0, 0, 0] : List (BitVec 8)).length = 4 := fun _ => rfl
  let r := ((initTx Args.default 1500).txRound 3 Sock.fork.bia (TunInput.packet .fork).octets
    .fork).run Sock.fork.ok (fun _ => 0) ⟨0, []⟩
  have hrun' := hrun.tail (@OctetSystem.Step.send Args.default 1500 1500 1 [3, 2] forkTree .fork forkNet o
    Sock.fork (fun _ => [0x60, 0, 0, 0]) .fork .fork 3 (fun _ => 0) r.2.1 r.2.2 hgrp' hsk hv le_rfl hvalid
    rfl)
  obtain ⟨-, h, hnext'⟩ := octet_system_refines forkTree_charted forkNet_equipped B
    (show 1500 ≤ 2 ^ 16 by decide) (show 32 ≤ 1500 by decide) hrun'
  exact ⟨st₀, _, f, B, hrun', hgrp', hf, ⟨_, List.mem_cons_self, h _ List.mem_cons_self⟩, hnext' f hf⟩

end MEADcast
