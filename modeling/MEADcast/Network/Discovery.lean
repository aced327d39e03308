import MEADcast.Lib.Reach
import MEADcast.Router.Failures
import MEADcast.Sender.Rx
import MEADcast.Sender.Tx

/-!
# The discovery protocol

The sender asks for the routers on the way to its receivers, each router answers and passes the
request on, and the answers come back through the routers in front of it.  Packets are forwarded
in any order, and they are lost and repeated.

## Main definitions

* `Paths` — the routers on the way to each address.
* `Flying` — a packet between two routers.
* `Discovery.Step` — what happens next.
* `Flying.Asks`, `Flying.Answers` — the requests and responses that can be in flight.

## Main results

* `Flying.Asks.forward`, `Flying.Answers.forward` — what a router makes of them.
* `discovery_of_run` — the packets of every reachable state.
-/

namespace MEADcast

/-- The address of the sender, and the MEADcast routers between it and every other address, the
one next to the sender first.  A router is known by its own address. -/
structure Paths where
  src : In6Addr
  path : In6Addr → List In6Addr
  short : ∀ l, (path l).length ≤ 63

/-- The MEADcast router with the address `r`, which finds its routes. -/
structure Net.Router (net : Net) (r : In6Addr) : Prop where
  enabled : net.ip6_mdcast_enable = true
  routes : net.Routes
  saddr : ∀ d, net.ipv6_dev_get_saddr d = some r

/-- The routers on the paths to these receivers answer. -/
structure Paths.Answered (P : Paths) (net : In6Addr → Net) (peers : List In6Addr) : Prop where
  router : ∀ l ∈ peers, ∀ r ∈ P.path l, (net r).Router r
  transmits : ∀ l ∈ peers, ∀ r ∈ P.path l, (net r).Transmits

/-- A packet on the way to the address `peer`, behind the first `link` routers on it.  `made` is the
router that made the packet, if it was not the sender. -/
structure Flying where
  skb : Skb
  peer : In6Addr
  link : ℕ
  made : Option ℕ

/-- The response flag of a packet. -/
def Skb.rsp (skb : Skb) : Bool := skb.md.any MdcHdr.rsp

namespace Flying

/-- The router that a packet comes to next: towards the sender if its route leads there. -/
def router (P : Paths) (f : Flying) : Option ℕ :=
  if f.skb.dst = P.src then
    match f.link with
    | 0 => none
    | j + 1 => some j
  else some f.link

/-- A packet that leaves router `j`, to which `f` came.  A response to a request was made
there. -/
def out (P : Paths) (f : Flying) (j : ℕ) (q : Skb) : Flying where
  skb := q
  peer := f.peer
  link := if q.dst = P.src then j else j + 1
  made := if q.rsp && !f.skb.rsp then some j else f.made

end Flying

/-- The packets in flight, those that arrived at the sender, and the receivers it asked for. -/
structure Discovery where
  flight : Multiset Flying
  arrived : List Flying
  asked : List In6Addr

namespace Discovery

/-- Nothing was sent yet. -/
def start : Discovery := ⟨0, [], []⟩

/-- One step: the sender sends requests, a router forwards a packet, a packet arrives at the
sender, is lost or repeated. -/
inductive Step (P : Paths) : Discovery → Discovery → Prop
  | request {s : Discovery} {sk : Sock} {txbuf : MdcHdr} {rcvr : List Addr} {ret : Int} {w : Wire} :
      sk.baddr = P.src → (∀ a ∈ rcvr, a.sin6_addr ≠ P.src) →
      sendDcvr sk txbuf rcvr .start = (ret, w) →
      Step P s ⟨s.flight + ↑(w.sent.map fun p => (⟨p, p.dst, 0, none⟩ : Flying)), s.arrived,
        rcvr.map Addr.sin6_addr ++ s.asked⟩
  | forward {F : Multiset Flying} {A : List Flying} {R : List In6Addr} {f : Flying} {j : ℕ}
      {r : In6Addr} {net : Net} {out : List Skb} :
      f.router P = some j → (P.path f.peer)[j]? = some r → net.Router r →
      ip6Forward net f.skb = some out →
      Step P ⟨f ::ₘ F, A, R⟩ ⟨F + ↑(out.map (f.out P j)), A, R⟩
  | arrive {F : Multiset Flying} {A : List Flying} {R : List In6Addr} {f : Flying} :
      f.skb.dst = P.src → f.link = 0 → Step P ⟨f ::ₘ F, A, R⟩ ⟨F, f :: A, R⟩
  | lose {F : Multiset Flying} {A : List Flying} {R : List In6Addr} {f : Flying} :
      Step P ⟨f ::ₘ F, A, R⟩ ⟨F, A, R⟩
  | again {F : Multiset Flying} {A : List Flying} {R : List In6Addr} {f : Flying} :
      Step P ⟨f ::ₘ F, A, R⟩ ⟨f ::ₘ f ::ₘ F, A, R⟩

end Discovery

/-- A step in which the sender asks for nobody. -/
def Discovery.Travels (P : Paths) (s s' : Discovery) : Prop := Discovery.Step P s s' ∧ s'.asked = s.asked

/-- The header of a discovery packet about the receiver `l`. -/
def dcvHdr (l : In6Addr) (hops : ℕ) (rsp : Bool) : MdcHdr where
  nxt := ipprotoNone
  len := 3
  type := ipv6Meadcast
  segleft := 0
  dsts := 1
  dcv := true
  rsp := rsp
  hops := BitVec.ofNat 6 hops
  res := 0
  dlvm := 0
  rtm := 0
  addr := [l]

/-- A discovery packet about the receiver `l`. -/
structure Skb.Probes (skb : Skb) (l : In6Addr) (hops : ℕ) (rsp : Bool) (saddr daddr : In6Addr) :
    Prop where
  md_eq : skb.md = some (dcvHdr l hops rsp)
  nexthdr : skb.ip.nexthdr = ipprotoRouting
  payload_len : skb.ip.payload_len = 32
  saddr_eq : skb.ip.saddr = saddr
  daddr_eq : skb.ip.daddr = daddr
  dst_eq : skb.dst = daddr

/-- A request for the receiver it is on the way to, with as many hops as routers it passed. -/
structure Flying.Asks (P : Paths) (f : Flying) : Prop where
  ne : f.peer ≠ P.src
  link_le : f.link ≤ (P.path f.peer).length
  probes : f.skb.Probes f.peer f.link false P.src f.peer

/-- A response that router `j`, whose address is `r`, made and that is in front of it. -/
structure Flying.Answers (P : Paths) (f : Flying) (j : ℕ) (r : In6Addr) : Prop where
  link_le : f.link ≤ j
  made_eq : f.made = some j
  path_eq : (P.path f.peer)[j]? = some r
  probes : f.skb.Probes f.peer (j + 1) true r P.src

variable {P : Paths} {net : Net} {skb : Skb} {f : Flying} {l saddr daddr r : In6Addr} {n j : ℕ}

/-! ## The sender -/

/-- The flag word `0x101` and the fields of the other functions are the header of a request. -/
theorem setDcvrHdr_eq (txbuf : MdcHdr) (l : In6Addr) :
    ({ (setDcvrHdr txbuf).1 with addr := [l] } : MdcHdr) = dcvHdr l 0 false ∧
      (setDcvrHdr txbuf).2 = 32 := ⟨rfl, rfl⟩

theorem sendDcvrLoop_probes (sk : Sock) (rcvr : List Addr) : ∀ (hdr : MdcHdr) (w : Wire),
    (∀ l, ({ hdr with addr := [l] } : MdcHdr) = dcvHdr l 0 false) →
    ∃ s, (sendDcvrLoop sk 32 rcvr hdr w).2.sent = w.sent ++ s ∧
      ∀ p ∈ s, ∃ a ∈ rcvr, p.Probes a.sin6_addr 0 false sk.baddr a.sin6_addr := by
  induction rcvr with
  | nil => exact fun _ w _ => ⟨[], by simp [sendDcvrLoop], by simp⟩
  | cons a rcvr ih =>
      intro hdr w h
      rw [sendDcvrLoop]
      simp only [Sock.sendto, Sock.mdcPacket_dst, h]
      cases sk.sendError w.calls a.sin6_addr with
      | true => exact ⟨[], by simp, by simp⟩
      | false =>
          obtain ⟨s, hs, hp⟩ := ih (dcvHdr a.sin6_addr 0 false)
            { calls := w.calls + 1, sent := w.sent ++
              [sk.mdcPacket a.sin6_addr (dcvHdr a.sin6_addr 0 false) 32 0 .empty] } fun _ => rfl
          refine ⟨_ :: s, by simpa using hs, fun p hp' => ?_⟩
          rcases List.mem_cons.mp hp' with rfl | hp'
          · exact ⟨a, List.mem_cons_self, rfl, rfl, rfl, rfl, rfl, rfl⟩
          · obtain ⟨b, hb, h⟩ := hp p hp'
            exact ⟨b, List.mem_cons_of_mem _ hb, h⟩

theorem sendDcvr_probes (sk : Sock) (txbuf : MdcHdr) (rcvr : List Addr) :
    ∀ p ∈ (sendDcvr sk txbuf rcvr .start).2.sent,
      ∃ a ∈ rcvr, p.Probes a.sin6_addr 0 false sk.baddr a.sin6_addr := by
  obtain ⟨s, hs, hp⟩ := sendDcvrLoop_probes sk rcvr (setDcvrHdr txbuf).1 .start fun l =>
    (setDcvrHdr_eq txbuf l).1
  intro p h
  rw [show sendDcvr sk txbuf rcvr .start =
    sendDcvrLoop sk 32 rcvr (setDcvrHdr txbuf).1 .start from rfl, hs] at h
  exact hp p h

/-- What `rx_dcvr` makes of a response. -/
theorem Skb.Probes.rxDcvr_rsp (h : skb.Probes l n true saddr daddr) (h0 : 0 < n) (hn : n ≤ 63) :
    ∃ d, rxDcvr skb = some d ∧ d.rsa = saddr ∧ d.paddr = l ∧ d.hops = n := by
  have hh : (BitVec.ofNat 6 n).toNat = n := by
    rw [BitVec.toNat_ofNat]
    omega
  have hne : ¬ ((dcvHdr l n true).hops.toNat < 1) := by
    change ¬ (BitVec.ofNat 6 n).toNat < 1
    omega
  refine ⟨⟨skb.ip.saddr, l, n, h0, hn⟩, ?_, h.saddr_eq, rfl, rfl⟩
  simp only [rxDcvr, h.md_eq, h.payload_len, Option.bind_eq_bind, Option.bind_some]
  rw [if_neg (by decide), dif_neg (by simp [hne]; simp [dcvHdr])]
  simp [dcvHdr, hh]

/-- Requests do not pass the checks of `rx_dcvr`. -/
theorem Skb.Probes.rxDcvr_req (h : skb.Probes l n false saddr daddr) : rxDcvr skb = none := by
  simp only [rxDcvr, h.md_eq, h.payload_len, Option.bind_eq_bind, Option.bind_some]
  rw [if_neg (by decide), dif_pos (by simp [dcvHdr])]

/-! ## The routers -/

/-- No router touches a response: it changes nothing but the hop limit, and it sends nothing. -/
theorem Skb.Probes.forward_rsp (h : skb.Probes l n true saddr daddr) (net : Net) :
    ip6Forward net skb =
      some [{ skb with ip := { skb.ip with hop_limit := skb.ip.hop_limit - 1 } }] := by
  by_cases H : net.Handles skb (dcvHdr l n true)
  · have hdcv : mdDcvRcv net .start
        { skb with ip := { skb.ip with hop_limit := skb.ip.hop_limit - 1 } } =
          some (-1, { skb with ip := { skb.ip with hop_limit := skb.ip.hop_limit - 1 } }, .start) := by
      simp [mdDcvRcv, h.md_eq, dcvHdr]
    rw [ip6Forward_eq_dcv H rfl, hdcv]
    rfl
  · exact ip6Forward_idle h.md_eq H

theorem dcvHdr_hops (l : In6Addr) (n : ℕ) (rsp : Bool) :
    ({ dcvHdr l n rsp with hops := (dcvHdr l n rsp).hops + 1 } : MdcHdr) = dcvHdr l (n + 1) rsp := by
  have h : BitVec.ofNat 6 n + 1 = BitVec.ofNat 6 (n + 1) := by
    apply BitVec.eq_of_toNat_eq
    simp [BitVec.toNat_add]
  simp only [dcvHdr, h]

/-- A router makes one response to a request, and passes the request on with one more hop. -/
theorem Skb.Probes.forward_req (h : skb.Probes l n false saddr daddr) (H : net.Router r) :
    ∃ rsp req, ip6Forward net skb =
        some ((if net.outputError 0 then [] else [rsp]) ++ [req]) ∧
      rsp.Probes l (n + 1) true r saddr ∧ req.Probes l (n + 1) false saddr daddr := by
  let req : Skb :=
    { skb with
      ip := { skb.ip with hop_limit := skb.ip.hop_limit - 1 }, md := some (dcvHdr l (n + 1) false) }
  let rsp : Skb :=
    { req with
      ip := { req.ip with daddr := saddr, hop_limit := 255, saddr := r }
      md := some (dcvHdr l (n + 1) true)
      dst := saddr }
  refine ⟨rsp, req, ?_, ⟨rfl, h.nexthdr, h.payload_len, rfl, rfl, rfl⟩,
    ⟨rfl, h.nexthdr, h.payload_len, h.saddr_eq, h.daddr_eq, h.dst_eq⟩⟩
  have hrsp : ∃ e t', dcvRsp net .start req = some (e, t') ∧
      t'.sent = if net.outputError 0 then [] else [rsp] := by
    have hs : req.ip.saddr = saddr := h.saddr_eq
    have hset : ∀ q : Skb, setDst net .start q saddr =
        (0, { q with dst := saddr }, { Tx.start with lookups := 1 }) := by
      intro q
      simp [setDst, H.routes 0, Tx.start]
    have hmd : req.md = some (dcvHdr l (n + 1) false) := rfl
    simp only [dcvRsp, hmd, hs, hset, H.saddr, dstOutput, Option.bind_eq_bind, Option.bind_some,
      ne_eq, not_true_eq_false, if_false]
    cases ho : net.outputError 0 with
    | true => exact ⟨1, { Tx.start with lookups := 1, outputs := 1 }, by simp [Tx.start, ho], rfl⟩
    | false =>
        exact ⟨0, { Tx.start with lookups := 1, outputs := 1, sent := [rsp] },
          by simp [Tx.start, ho, rsp, dcvHdr], rfl⟩
  obtain ⟨e, t', h1, h2⟩ := hrsp
  have hdcv : mdDcvRcv net .start { skb with ip := { skb.ip with hop_limit := skb.ip.hop_limit - 1 } } =
      some (0, req, t') := by
    have hq : ({ skb with
        ip := { skb.ip with hop_limit := skb.ip.hop_limit - 1 },
        md := some { dcvHdr l n false with hops := (dcvHdr l n false).hops + 1 } } : Skb) = req := by
      rw [dcvHdr_hops]
    simp only [mdDcvRcv, h.md_eq, Option.bind_eq_bind, Option.bind_some, hq, h1]
    simp [dcvHdr]
  rw [ip6Forward_eq_dcv ⟨H.enabled, h.nexthdr, h.md_eq, rfl⟩ rfl, hdcv, Option.map_some, h2]

/-! ## The packets in flight -/

theorem Skb.Probes.rsp_eq {b : Bool} (h : skb.Probes l n b saddr daddr) : skb.rsp = b := by
  rw [Skb.rsp, h.md_eq]
  rfl

namespace Flying

/-- The packets that a router makes of a request. -/
theorem Asks.forward (h : f.Asks P) (hr : (P.path f.peer)[f.link]? = some r) (H : net.Router r) :
    ∃ rsp req, ip6Forward net f.skb = some ((if net.outputError 0 then [] else [rsp]) ++ [req]) ∧
      (f.out P f.link rsp).Answers P f.link r ∧ (f.out P f.link req).Asks P := by
  obtain ⟨hlt, -⟩ := List.getElem?_eq_some_iff.mp hr
  obtain ⟨rsp, req, h1, h2, h3⟩ := h.probes.forward_req H
  have hreq : (f.out P f.link req).link = f.link + 1 := by
    rw [out, if_neg (by rw [h3.dst_eq]; exact h.ne)]
  refine ⟨rsp, req, h1, ⟨?_, ?_, hr, h2⟩, ⟨h.ne, ?_, ?_⟩⟩
  · rw [out, if_pos h2.dst_eq]
  · rw [out, h2.rsp_eq, h.probes.rsp_eq]
    rfl
  · rw [hreq]
    exact hlt
  · rw [hreq]
    exact h3

/-- A response passes the routers in front of it. -/
theorem Answers.forward (h : f.Answers P j r) {i : ℕ} (hi : f.router P = some i) (net : Net) :
    ∃ q, ip6Forward net f.skb = some [q] ∧ (f.out P i q).Answers P j r := by
  rw [router, if_pos h.probes.dst_eq] at hi
  have hlink : f.link = i + 1 := by
    split at hi
    · cases hi
    · next k hk => rw [hk, Option.some.inj hi]
  refine ⟨_, h.probes.forward_rsp net, ⟨?_, ?_, h.path_eq, ⟨h.probes.md_eq, h.probes.nexthdr,
    h.probes.payload_len, h.probes.saddr_eq, h.probes.daddr_eq, h.probes.dst_eq⟩⟩⟩
  · have := h.link_le
    rw [out, if_pos h.probes.dst_eq]
    dsimp only
    omega
  · have hrsp : f.skb.rsp = true := h.probes.rsp_eq
    rw [out, hrsp, Bool.not_true, Bool.and_false]
    exact h.made_eq

/-! ### Answers that arrive -/

/-- The next router makes a response of a request and passes the request on. -/
theorem Asks.split (h : f.Asks P) (hr : (P.path f.peer)[f.link]? = some r) (H : net.Router r)
    (ht : net.Transmits) : ∃ rsp req : Flying, rsp.Answers P f.link r ∧ rsp.peer = f.peer ∧
      req.Asks P ∧ req.peer = f.peer ∧ req.link = f.link + 1 ∧ ∀ F A R,
        Discovery.Travels P ⟨f ::ₘ F, A, R⟩ ⟨rsp ::ₘ req ::ₘ F, A, R⟩ := by
  obtain ⟨rsp, req, h1, h2, h3⟩ := h.forward hr H
  have hout : ip6Forward net f.skb = some [rsp, req] := by
    rwa [ht 0] at h1
  have hrouter : f.router P = some f.link := by
    rw [router, if_neg (by rw [h.probes.dst_eq]; exact h.ne)]
  have hlink : (f.out P f.link req).link = f.link + 1 := by
    rw [out, if_neg (by rw [show req.dst = f.peer from h3.probes.dst_eq]; exact h.ne)]
  refine ⟨f.out P f.link rsp, f.out P f.link req, h2, rfl, h3, rfl, hlink, fun F A R => ?_⟩
  refine ⟨?_, rfl⟩
  have hstep := Discovery.Step.forward (F := F) (A := A) (R := R) hrouter hr H hout
  rwa [List.map_cons, List.map_singleton, ← Multiset.cons_coe, Multiset.coe_singleton, Multiset.add_cons,
    add_comm, Multiset.singleton_add] at hstep

/-- Some router on the way answers a request. -/
theorem Asks.answered {peers : List In6Addr} {nets : In6Addr → Net} (h : f.Asks P)
    (hA : P.Answered nets peers) (hpeer : f.peer ∈ peers)
    (hr : (P.path f.peer)[j]? = some r) (hle : f.link ≤ j) (F : Multiset Flying) (A : List Flying)
    (R : List In6Addr) : ∃ g F', g.Answers P j r ∧ g.peer = f.peer ∧
      Relation.ReflTransGen (Discovery.Travels P) ⟨f ::ₘ F, A, R⟩ ⟨g ::ₘ F', A, R⟩ := by
  obtain ⟨n, rfl⟩ : ∃ n, j = f.link + n := ⟨j - f.link, by omega⟩
  induction n generalizing f F with
  | zero =>
      have hm := List.mem_of_getElem? hr
      obtain ⟨rsp, req, h1, hp, -, -, -, hstep⟩ :=
        h.split hr (hA.router _ hpeer r hm) (hA.transmits _ hpeer r hm)
      exact ⟨rsp, _, h1, hp, .single (hstep F A R)⟩
  | succ n ih =>
      -- the router in front of it
      obtain ⟨hlt, -⟩ := List.getElem?_eq_some_iff.mp hr
      obtain ⟨r', hr'⟩ : ∃ r', (P.path f.peer)[f.link]? = some r' :=
        ⟨_, List.getElem?_eq_getElem (by omega)⟩
      have hm := List.mem_of_getElem? hr'
      obtain ⟨rsp, req, -, -, h3, hp, hlink, hstep⟩ :=
        h.split hr' (hA.router _ hpeer r' hm) (hA.transmits _ hpeer r' hm)
      have hj : req.link + n = f.link + (n + 1) := by omega
      obtain ⟨g, F', hg, hpg, hrun⟩ := ih (f := req) h3 (hp ▸ hpeer) (rsp ::ₘ F)
        (by rw [hp, hj]; exact hr) (by omega)
      rw [hj] at hg
      refine ⟨g, F', hg, hpg.trans hp, .head (hstep F A R) ?_⟩
      rwa [Multiset.cons_swap] at hrun

/-- The response travels back to the sender. -/
theorem Answers.arrives {peers : List In6Addr} {nets : In6Addr → Net} (h : f.Answers P j r)
    (hA : P.Answered nets peers) (hpeer : f.peer ∈ peers) (F : Multiset Flying) (A : List Flying)
    (R : List In6Addr) : ∃ g, g.Answers P j r ∧ g.peer = f.peer ∧
      Relation.ReflTransGen (Discovery.Travels P) ⟨f ::ₘ F, A, R⟩ ⟨F, g :: A, R⟩ := by
  generalize hk : f.link = k
  induction k generalizing f with
  | zero => exact ⟨f, h, rfl, .single ⟨.arrive h.probes.dst_eq hk, rfl⟩⟩
  | succ k ih =>
      have hrouter : f.router P = some k := by
        rw [router, if_pos h.probes.dst_eq, hk]
      obtain ⟨r', hr'⟩ : ∃ r', (P.path f.peer)[k]? = some r' := by
        obtain ⟨hlt, -⟩ := List.getElem?_eq_some_iff.mp h.path_eq
        have := h.link_le
        exact ⟨_, List.getElem?_eq_getElem (by omega)⟩
      obtain ⟨q, h1, h2⟩ := h.forward hrouter (nets r')
      have hlink : (f.out P k q).link = k := by
        rw [out, if_pos (show q.dst = P.src from h2.probes.dst_eq)]
      obtain ⟨g, hg, hpg, hrun⟩ := ih h2 hpeer hlink
      have hstep := Discovery.Step.forward (F := F) (A := A) (R := R) hrouter hr'
        (hA.router _ hpeer r' (List.mem_of_getElem? hr')) h1
      rw [List.map_singleton, Multiset.coe_singleton, add_comm, Multiset.singleton_add] at hstep
      exact ⟨g, hg, hpg, .head ⟨hstep, rfl⟩ hrun⟩

/-! ### What can be in flight -/

/-- A request for a receiver, or the response to one. -/
def Sound (P : Paths) (asked : List In6Addr) (f : Flying) : Prop :=
  f.peer ∈ asked ∧ (f.Asks P ∨ ∃ j r, f.Answers P j r)

theorem Sound.mono {R R' : List In6Addr} (h : f.Sound P R) (hR : R ⊆ R') : f.Sound P R' :=
  ⟨hR h.1, h.2⟩

end Flying

namespace Discovery

/-- All packets are requests and responses. -/
def Sound (P : Paths) (s : Discovery) : Prop :=
  (∀ f ∈ s.flight, f.Sound P s.asked) ∧ ∀ f ∈ s.arrived, f.Sound P s.asked

theorem Step.sound {s s' : Discovery} (h : s.Sound P) (hstep : Step P s s') : s'.Sound P := by
  obtain ⟨hfl, harr⟩ := h
  cases hstep with
  | @request _ sk txbuf rcvr ret w hsrc hne hsend =>
      have hsub : s.asked ⊆ rcvr.map Addr.sin6_addr ++ s.asked := List.subset_append_right _ _
      refine ⟨fun f hf => ?_, fun f hf => (harr f hf).mono hsub⟩
      rcases Multiset.mem_add.mp hf with hf | hf
      · exact (hfl f hf).mono hsub
      · obtain ⟨p, hp, rfl⟩ := List.mem_map.mp (Multiset.mem_coe.mp hf)
        have hp' : p ∈ (sendDcvr sk txbuf rcvr .start).2.sent := by rw [hsend]; exact hp
        obtain ⟨a, ha, h⟩ := sendDcvr_probes sk txbuf rcvr p hp'
        have hpeer : p.dst = a.sin6_addr := h.dst_eq
        refine ⟨?_, Or.inl ⟨?_, Nat.zero_le _, ?_⟩⟩
        · exact List.mem_append_left _ (List.mem_map.mpr ⟨a, ha, hpeer.symm⟩)
        · rw [hpeer]
          exact hne a ha
        · rw [hpeer, ← hsrc]
          exact h
  | @forward F A R f j r net out hj hr H hout =>
      obtain ⟨hmem, hcase⟩ := hfl f (Multiset.mem_cons_self _ _)
      refine ⟨fun g hg => ?_, harr⟩
      rcases Multiset.mem_add.mp hg with hg | hg
      · exact hfl g (Multiset.mem_cons_of_mem hg)
      obtain ⟨q, hq, rfl⟩ := List.mem_map.mp (Multiset.mem_coe.mp hg)
      refine ⟨hmem, ?_⟩
      rcases hcase with h | ⟨i, r', h⟩
      · have hjl : f.link = j := by
          rw [Flying.router, if_neg (by rw [h.probes.dst_eq]; exact h.ne)] at hj
          exact Option.some.inj hj
        subst hjl
        obtain ⟨rsp, req, h1, h2, h3⟩ := h.forward hr H
        rw [hout, Option.some.injEq] at h1
        rw [h1] at hq
        rcases List.mem_append.mp hq with hq | hq
        · split at hq
          · cases hq
          · exact Or.inr ⟨_, _, List.mem_singleton.mp hq ▸ h2⟩
        · exact Or.inl (List.mem_singleton.mp hq ▸ h3)
      · obtain ⟨q', h1, h2⟩ := h.forward hj net
        rw [hout, Option.some.injEq] at h1
        rw [h1] at hq
        exact Or.inr ⟨i, r', List.mem_singleton.mp hq ▸ h2⟩
  | @arrive F A R f _ _ =>
      refine ⟨fun g hg => hfl g (Multiset.mem_cons_of_mem hg), fun g hg => ?_⟩
      rcases List.mem_cons.mp hg with rfl | hg
      · exact hfl g (Multiset.mem_cons_self _ _)
      · exact harr g hg
  | lose => exact ⟨fun g hg => hfl g (Multiset.mem_cons_of_mem hg), harr⟩
  | @again F A R f =>
      refine ⟨fun g hg => ?_, harr⟩
      rcases Multiset.mem_cons.mp hg with rfl | hg
      · exact hfl g (Multiset.mem_cons_self _ _)
      · exact hfl g hg

end Discovery

/-- In every reachable state each response, in flight or at the sender, was made by a router on
the way to the receiver that was asked for, and carries the address of this router, the receiver,
the number of routers up to this one, and both flags; `rx_dcvr` takes it for that, and no router
answers it or changes its header.  No request passes the checks of `rx_dcvr`, and the next router
makes one response of it and passes it on with one more hop. -/
theorem discovery_of_run {P : Paths} {s : Discovery}
    (hrun : Relation.ReflTransGen (Discovery.Step P) .start s) (f : Flying)
    (hf : f ∈ s.flight ∨ f ∈ s.arrived) : f.peer ∈ s.asked ∧ ∃ hd, f.skb.md = some hd ∧
      (hd.rsp = true → ∃ j r, f.made = some j ∧ (P.path f.peer)[j]? = some r ∧
        f.skb.ip.saddr = r ∧ f.skb.ip.daddr = P.src ∧ hd.addr = [f.peer] ∧ hd.hops.toNat = j + 1 ∧
        hd.dcv = true ∧
        (∃ d, rxDcvr f.skb = some d ∧ d.rsa = r ∧ d.paddr = f.peer ∧ d.hops = j + 1) ∧
        ∀ net, ip6Forward net f.skb = some
          [{ f.skb with ip := { f.skb.ip with hop_limit := f.skb.ip.hop_limit - 1 } }]) ∧
      (hd.rsp = false → rxDcvr f.skb = none ∧ ∀ net r, net.Router r → net.Transmits →
        (P.path f.peer)[f.link]? = some r → ∃ rsp req, ip6Forward net f.skb = some [rsp, req] ∧
          (f.out P f.link rsp).Answers P f.link r ∧ (f.out P f.link req).Asks P ∧
          req.md = some { hd with hops := hd.hops + 1 }) := by
  have hsound : s.Sound P := Reach.invariant (Discovery.Sound P) (fun _ _ h hstep => hstep.sound h)
    hrun ⟨fun f hf => absurd hf (Multiset.notMem_zero f), fun f hf => absurd hf List.not_mem_nil⟩
  obtain ⟨hpeer, h | ⟨j, r, h⟩⟩ := hf.elim (hsound.1 f) (hsound.2 f)
  · refine ⟨hpeer, _, h.probes.md_eq, fun h' => absurd h' (by simp [dcvHdr]), fun _ =>
      ⟨h.probes.rxDcvr_req, fun net r H ht hr => ?_⟩⟩
    obtain ⟨rsp, req, h1, h2, h3⟩ := h.forward hr H
    refine ⟨rsp, req, by simpa [ht 0] using h1, h2, h3, ?_⟩
    have hlink : (f.out P f.link req).link = f.link + 1 := by
      rw [Flying.out, if_neg (by rw [show req.dst = f.peer from h3.probes.dst_eq]; exact h.ne)]
    rw [dcvHdr_hops, ← hlink]
    exact h3.probes.md_eq
  · obtain ⟨hlt, -⟩ := List.getElem?_eq_some_iff.mp h.path_eq
    have hshort := P.short f.peer
    have hhops : (dcvHdr f.peer (j + 1) true).hops.toNat = j + 1 := by
      rw [dcvHdr, BitVec.toNat_ofNat]
      omega
    exact ⟨hpeer, _, h.probes.md_eq, fun _ => ⟨j, r, h.made_eq, h.path_eq, h.probes.saddr_eq,
      h.probes.daddr_eq, rfl, hhops, rfl,
      h.probes.rxDcvr_rsp (Nat.succ_pos j) (by omega), h.probes.forward_rsp⟩,
      fun h' => absurd h' (by simp [dcvHdr])⟩

/-- The sender with address 9, and the routers 1 and 3 on the way to every receiver. -/
def Paths.sample : Paths := ⟨9, fun _ => [1, 3], fun _ => by decide⟩

/-- The request for the receiver 2 as the sender sends it. -/
def Flying.sample : Flying :=
  ⟨(Sock.mdcPacket ⟨9, 9, 64, fun _ _ => false⟩ 2 (dcvHdr 2 0 false) 32 0 .empty), 2, 0, none⟩

theorem answered_sample : Paths.sample.Answered Net.sample [2] where
  router _ _ _ _ := ⟨rfl, fun _ => rfl, fun _ => rfl⟩
  transmits _ _ _ _ := fun _ => rfl

/-- The theorem at the request for the receiver 2, which the router 1 then answers and passes on, and at
the response of router 3 to it, which has passed router 1 on its way back and which `rx_dcvr` takes. -/
theorem discovery_of_sample : (∃ rsp req, ip6Forward (Net.sample 1) Flying.sample.skb = some [rsp, req] ∧
      (Flying.sample.out .sample 0 rsp).Answers .sample 0 1) ∧
    ∃ s f d, Relation.ReflTransGen (Discovery.Step .sample) .start s ∧ f ∈ s.arrived ∧
      rxDcvr f.skb = some d ∧ d.rsa = 3 ∧ d.paddr = 2 ∧ d.hops = 2 := by
  have hstep : Discovery.Step .sample .start ⟨{Flying.sample}, [], [2]⟩ :=
    @Discovery.Step.request .sample .start ⟨9, 9, 64, fun _ _ => false⟩ (dcvHdr 0 0 false) [⟨2, 0⟩] _ _
      rfl (by decide) rfl
  obtain ⟨-, hd, hmd, -, h⟩ := discovery_of_run (.single hstep) Flying.sample
    (Or.inl (Multiset.mem_singleton_self _))
  obtain rfl := Option.some.inj hmd
  obtain ⟨rsp, req, h1, h2, -⟩ := (h rfl).2 (Net.sample 1) 1 ⟨rfl, fun _ => rfl, fun _ => rfl⟩
    (fun _ => rfl) rfl
  refine ⟨⟨rsp, req, h1, h2⟩, ?_⟩
  -- router 3 is behind router 1
  have hasks : Flying.sample.Asks .sample := ⟨by decide, by decide, ⟨rfl, rfl, rfl, rfl, rfl, rfl⟩⟩
  obtain ⟨g, F, hg, hpg, hout⟩ := hasks.answered answered_sample (List.mem_singleton_self 2)
    (show [(1 : In6Addr), 3][1]? = some 3 from rfl) (Nat.zero_le 1) 0 [] [2]
  obtain ⟨f, hf, hpf, hback⟩ := hg.arrives answered_sample (hpg ▸ List.mem_singleton_self 2) F [] [2]
  have hrun : Relation.ReflTransGen (Discovery.Step .sample) .start ⟨F, [f], [2]⟩ :=
    .head hstep ((hout.trans hback).lift id fun _ _ h => h.1)
  obtain ⟨-, hd, hmd, hrsp, -⟩ := discovery_of_run hrun f (Or.inr (List.mem_singleton_self f))
  obtain rfl := Option.some.inj (hf.probes.md_eq.symm.trans hmd)
  obtain ⟨j, r, hmade, hr, -, -, -, -, -, ⟨d, hd, hdr, hdl, hdn⟩, -⟩ := hrsp rfl
  obtain rfl := Option.some.inj (hmade.symm.trans hf.made_eq)
  obtain rfl := Option.some.inj (hr.symm.trans hf.path_eq)
  exact ⟨_, f, d, hrun, List.mem_singleton_self f, hd, hdr, hdl.trans (hpf.trans hpg), hdn⟩

end MEADcast
