import MEADcast.Network.Discovery
import MEADcast.Network.Sketch

/-!
# The whole system

The sender asks for routers, reads what comes back, closes phases and sends datagrams; the routers
answer, pass requests and responses on and split what is sent.  All of this happens in any order:
discovery packets are lost, repeated and overtake each other, a phase is closed at any time, and a
datagram is sent at any time, while earlier ones are still on their way.

## Main definitions

* `System` — the sender and all packets.
* `System.Step` — what happens next.
* `System.Safe` — what holds in every reachable state.
* `System.Talks` — a step in which no datagram takes part.

## Main results

* `System.Safe.realizes` — the sender can be told any responses of routers on the way, in any order.
* `delivered_of_system` — every datagram that is sent in a reachable state is delivered once.
* `responsive_of_system` — no reachable state leaves the sender without a next step.
-/

namespace MEADcast

/-- The paths are those of the tree: position `j` of the path to a receiver is the router with depth
`j + 1` above it. -/
structure RouterTree.Charted {root : In6Addr} {peers : List In6Addr} (T : RouterTree root peers)
    (P : Paths) : Prop where
  src_eq : P.src = root
  path_iff : ∀ l ∈ peers, ∀ j r, (P.path l)[j]? = some r ↔ T.On r l ∧ T.depth r = j + 1

/-- The sender, the discovery packets and how many of those that arrived it has read, and the
datagrams that were sent, each with its packets. -/
structure System where
  sender : Sender
  dcv : Discovery
  read : ℕ
  data : List (Udp × Multiset (In6Addr × Skb))

namespace System

/-- The next discovery packet that the sender reads. -/
def next (st : System) : Option Flying := st.dcv.arrived.reverse[st.read]?

/-- One step of the sender, of a discovery packet or of a packet with a datagram.  Only the sender
asks for receivers, and the sockets take all datagrams. -/
inductive Step (args : Args) {root : In6Addr} {peers : List In6Addr} (T : RouterTree root peers)
    (P : Paths) (net : In6Addr → Net) : System → System → Prop
  | request {st : System} {sk : Sock} {txbuf : MdcHdr} {ret : Int} {w : Wire}
      (hsrc : sk.baddr = P.src) (h : sendDcvr sk txbuf st.sender.members .start = (ret, w)) :
      Step args T P net st { st with
        dcv := ⟨st.dcv.flight + ↑(w.sent.map fun p => (⟨p, p.dst, 0, none⟩ : Flying)),
          st.dcv.arrived, st.sender.members.map Addr.sin6_addr ++ st.dcv.asked⟩ }
  | travel {st : System} {d : Discovery} (h : Discovery.Step P st.dcv d)
      (hasked : d.asked = st.dcv.asked) : Step args T P net st { st with dcv := d }
  | receive {st : System} {f : Flying} {d : DcvRsp} {s : Sender} {ret : Int}
      (hf : st.next = some f) (hd : rxDcvr f.skb = some d)
      (h : Completes args st.sender (.rsp d.rsa d.paddr d.hops) s ret) :
      Step args T P net st { st with sender := s, read := st.read + 1 }
  | discard {st : System} {f : Flying} (hf : st.next = some f) (hd : rxDcvr f.skb = none) :
      Step args T P net st { st with read := st.read + 1 }
  | timeout {st : System} {s : Sender} {ret : Int} (h : Completes args st.sender .tout s ret) :
      Step args T P net st { st with sender := s }
  | send {st : System} {sk : Sock} {grp : TxGroup} {ip : Ipv6Hdr} {u : Udp} {fuel : ℕ} {w : Wire}
      (hgrp : st.sender.txg = some grp) (hsk : ∀ k a, sk.sendError k a = false)
      (hip : ip.nexthdr = ipprotoUdp) (hf : 3 ≤ fuel) (h : tx sk fuel grp ip u = some w) :
      Step args T P net st { st with data := (u, ↑(w.sent.map fun q => (root, q))) :: st.data }
  | hop {st : System} {D D' : List (Udp × Multiset (In6Addr × Skb))} {u : Udp}
      {S S' : Multiset (In6Addr × Skb)} (hD : st.data = D ++ (u, S) :: D')
      (h : Swarm.Step (T.Hop net) S S') :
      Step args T P net st { st with data := D ++ (u, S') :: D' }

/-- All receivers joined, `init_txg` published the first group, and nothing was sent yet. -/
structure Started (st : System) (root : NodeId) {addr : In6Addr} {peers : List In6Addr}
    (_ : RouterTree addr peers) : Prop where
  resting : st.sender.Resting root addr
  peers_eq : st.sender.peers = peers
  txg_eq : st.sender.txg = some st.sender.unicastGroup
  dcv_eq : st.dcv = .start
  read_eq : st.read = 0
  data_eq : st.data = []

/-- The invariant: the sender's tree is a sketch, the group it published fits, the discovery packets
are requests and responses for receivers, and all datagrams are delivered. -/
structure Safe (st : System) (root : NodeId) {addr : In6Addr} {peers : List In6Addr}
    (T : RouterTree addr peers) (P : Paths) (net : In6Addr → Net) : Prop where
  sketches : st.sender.Sketches root T
  group : ∃ grp, st.sender.txg = some grp ∧ T.Fits grp
  sound : st.dcv.Sound P
  asked : st.dcv.asked ⊆ peers
  data : ∀ x ∈ st.data, T.Delivers net x.1 x.2

section Run

variable {args : Args} {root : NodeId} {addr : In6Addr} {peers : List In6Addr}
  {T : RouterTree addr peers} {P : Paths} {net : In6Addr → Net} {st st' : System} {f : Flying}
  {u : Udp} {S S' : Multiset (In6Addr × Skb)}

theorem Started.safe (B : st.Started root T) : st.Safe root T P net := by
  have K := B.resting.sketches B.peers_eq T
  refine ⟨K, ⟨_, B.txg_eq, K.fits_unicast⟩, ?_, ?_, ?_⟩
  · rw [B.dcv_eq]
    exact ⟨fun f hf => absurd hf (Multiset.notMem_zero f), fun f hf => absurd hf List.not_mem_nil⟩
  · rw [B.dcv_eq]
    exact List.nil_subset _
  · rw [B.data_eq]
    exact fun x hx => absurd hx List.not_mem_nil

/-- What is delivered stays so while its packets move. -/
theorem Delivers.step (h : T.Delivers net u S) (hs : Swarm.Step (T.Hop net) S S') :
    T.Delivers net u S' :=
  ⟨h.ends.inv hs, fun S'' hrun => h.handed S'' (.head hs hrun),
    fun S'' hrun => h.once S'' (.head hs hrun)⟩

/-- The sender has the response of a router on the path to a receiver in front of it, or a packet
that it drops. -/
theorem Safe.next_cases (H : st.Safe root T P net) (hP : T.Charted P) (hf : st.next = some f) :
    rxDcvr f.skb = none ∨ ∃ d, rxDcvr f.skb = some d ∧ T.On d.rsa d.paddr ∧
      d.hops = T.depth d.rsa := by
  have hm : f ∈ st.dcv.arrived := List.mem_reverse.mp (List.mem_of_getElem? hf)
  obtain ⟨hpeer, h | ⟨j, r, h⟩⟩ := H.sound.2 f hm
  · exact Or.inl h.probes.rxDcvr_req
  · obtain ⟨ho, hdepth⟩ := (hP.path_iff _ (H.asked hpeer) j r).mp h.path_eq
    have hlt := (List.getElem?_eq_some_iff.mp h.path_eq).1
    have hshort := P.short f.peer
    obtain ⟨d, hd, rfl, hl, hn⟩ := h.probes.rxDcvr_rsp (Nat.succ_pos j) (by omega)
    exact Or.inr ⟨d, hd, hl ▸ ho, hn.trans hdepth.symm⟩

/-- Every step keeps the invariant. -/
theorem Step.safe (h : Step args T P net st st') (hP : T.Charted P) (N : T.Equipped net)
    (H : st.Safe root T P net) : st'.Safe root T P net := by
  have hmembers : st.sender.members.map Addr.sin6_addr = peers :=
    H.sketches.inv.peers_eq.trans H.sketches.peers_eq
  cases h with
  | request hsrc h =>
      refine ⟨H.sketches, H.group, Discovery.Step.sound H.sound (.request hsrc (fun a ha he => ?_) h),
        ?_, H.data⟩
      · rw [hP.src_eq] at he
        have hm : a.sin6_addr ∈ st.sender.members.map Addr.sin6_addr := List.mem_map_of_mem ha
        rw [hmembers, he] at hm
        exact T.root_not_peer hm
      · rw [hmembers]
        exact List.append_subset.mpr ⟨List.Subset.refl _, H.asked⟩
  | travel h hasked =>
      exact ⟨H.sketches, H.group, h.sound H.sound, hasked ▸ H.asked, H.data⟩
  | receive hf hd h =>
      rcases H.next_cases hP hf with hn | ⟨d, hd', ho, hhops⟩
      · simp [hn] at hd
      · obtain rfl := Option.some.inj (hd'.symm.trans hd)
        rw [hhops] at h
        obtain ⟨K, htxg⟩ := H.sketches.rsp ho h
        exact ⟨K, htxg ▸ H.group, H.sound, H.asked, H.data⟩
  | discard hf hd => exact ⟨H.sketches, H.group, H.sound, H.asked, H.data⟩
  | timeout h =>
      obtain ⟨K, hgrp⟩ := H.sketches.tout h
      exact ⟨K, hgrp, H.sound, H.asked, H.data⟩
  | @send sk grp ip u fuel w hgrp hsk hip hf h =>
      refine ⟨H.sketches, H.group, H.sound, H.asked, fun x hx => ?_⟩
      rcases List.mem_cons.mp hx with rfl | hx
      · obtain ⟨grp', hgrp', G⟩ := H.group
        obtain rfl := Option.some.inj (hgrp'.symm.trans hgrp)
        obtain ⟨w', hw, hdel⟩ := G.delivers N H.sketches.nodup hsk hf hip u
        obtain rfl := Option.some.inj (hw.symm.trans h)
        exact hdel
      · exact H.data x hx
  | @hop D D' u S S' hD h =>
      refine ⟨H.sketches, H.group, H.sound, H.asked, fun x hx => ?_⟩
      have hS : ∀ y ∈ D ++ (u, S) :: D', T.Delivers net y.1 y.2 := hD ▸ H.data
      rcases List.mem_append.mp hx with hx | hx
      · exact hS x (List.mem_append_left _ hx)
      rcases List.mem_cons.mp hx with rfl | hx
      · exact Delivers.step (hS (u, S) (List.mem_append_right _ List.mem_cons_self)) h
      · exact hS x (List.mem_append_right _ (List.mem_cons_of_mem _ hx))

theorem Started.safe_of_run (B : st.Started root T) (hP : T.Charted P) (N : T.Equipped net)
    (hrun : Relation.ReflTransGen (Step args T P net) st st') : st'.Safe root T P net :=
  Reach.invariant (fun t => t.Safe root T P net) (fun _ _ H h => h.safe hP N H) hrun B.safe

end Run

/-! ## What the sender can be told -/

section Heard

variable {args : Args} {root : NodeId} {addr : In6Addr} {peers : List In6Addr}
  {T : RouterTree addr peers} {P : Paths} {net : In6Addr → Net} {st st' : System} {r l : In6Addr}
  {s : Sender} {ret : Int}

/-- A step in which no datagram is sent or moves. -/
def Talks (args : Args) {root : In6Addr} {peers : List In6Addr} (T : RouterTree root peers) (P : Paths)
    (net : In6Addr → Net) (st st' : System) : Prop := Step args T P net st st' ∧ st'.data = st.data

theorem Talks.run (h : Relation.ReflTransGen (Talks args T P net) st st') :
    Relation.ReflTransGen (Step args T P net) st st' :=
  h.lift id fun _ _ h => h.1

theorem Talks.safe (h : Relation.ReflTransGen (Talks args T P net) st st') (hP : T.Charted P)
    (N : T.Equipped net) (H : st.Safe root T P net) : st'.Safe root T P net :=
  Reach.invariant (fun t => t.Safe root T P net) (fun _ _ H h => h.1.safe hP N H) h H

theorem Talks.data_eq (h : Relation.ReflTransGen (Talks args T P net) st st') : st'.data = st.data := by
  induction h with
  | refl => rfl
  | tail _ h ih => exact h.2.trans ih

/-- Discovery packets travel. -/
theorem travels {d : Discovery} (hrun : Relation.ReflTransGen (Discovery.Travels P) st.dcv d) :
    Relation.ReflTransGen (Talks args T P net) st { st with dcv := d } := by
  induction hrun with
  | refl => exact .refl
  | tail _ hstep ih => exact ih.tail ⟨.travel hstep.1 hstep.2, rfl⟩

/-- The response of any router on the way to a receiver can be the next one that the sender reads. -/
theorem Safe.asks (args : Args) (hP : T.Charted P) (N : T.Equipped net) (hA : P.Answered net peers)
    (H : st.Safe root T P net) (hread : st.read = st.dcv.arrived.length) (ho : T.On r l) :
    ∃ st' f d, Relation.ReflTransGen (Talks args T P net) st st' ∧ st'.sender = st.sender ∧
      st'.read + 1 = st'.dcv.arrived.length ∧ st'.next = some f ∧
      rxDcvr f.skb = some d ∧ d.rsa = r ∧ d.paddr = l ∧ d.hops = T.depth r := by
  let sk : Sock := ⟨P.src, P.src, 64, fun _ _ => false⟩
  obtain ⟨ret, w, hw⟩ : ∃ ret w, sendDcvr sk (dcvHdr 0 0 false) st.sender.members .start = (ret, w) :=
    ⟨_, _, rfl⟩
  have hsent : w.sent = st.sender.members.map sk.request := by
    rw [← sent_of_sendDcvr (fun _ _ => rfl) (dcvHdr 0 0 false), hw]
  have hl : l ∈ st.sender.members.map Addr.sin6_addr := by
    rw [show st.sender.members.map Addr.sin6_addr = peers from
      H.sketches.inv.peers_eq.trans H.sketches.peers_eq]
    exact ho.peer
  obtain ⟨a, ha, hal⟩ := List.mem_map.mp hl
  have hstep : Step args T P net st _ := .request rfl hw
  set st₁ : System := { st with dcv := _ }
  have H₁ : st₁.Safe root T P net := hstep.safe hP N H
  -- the request for the receiver is in flight
  let f₀ : Flying := ⟨sk.request a, (sk.request a).dst, 0, none⟩
  have hpeer : f₀.peer = l := hal
  have hf₀ : f₀ ∈ st₁.dcv.flight := by
    refine Multiset.mem_add.mpr (Or.inr ?_)
    rw [hsent]
    exact Multiset.mem_coe.mpr (List.mem_map_of_mem (List.mem_map_of_mem ha))
  have hasks : f₀.Asks P := by
    rcases (H₁.sound.1 f₀ hf₀).2 with h | ⟨j, r', h⟩
    · exact h
    · cases h.made_eq
  obtain ⟨F, hF⟩ := Multiset.exists_cons_of_mem hf₀
  obtain ⟨j, hj⟩ : ∃ j, T.depth r = j + 1 := ⟨T.depth r - 1, by have := ho.depth_pos; omega⟩
  have hr : (P.path f₀.peer)[j]? = some r := by
    rw [hpeer]
    exact (hP.path_iff l ho.peer j r).mpr ⟨ho, hj⟩
  -- the router answers it
  obtain ⟨g, F', hg, hpg, h₁⟩ := hasks.answered hA (hpeer ▸ ho.peer) hr (Nat.zero_le _) F
    st₁.dcv.arrived st₁.dcv.asked
  obtain ⟨f, hf, hpf, h₂⟩ := hg.arrives hA (hpg.trans hpeer ▸ ho.peer) F' st₁.dcv.arrived st₁.dcv.asked
  have hdcv : st₁.dcv = ⟨f₀ ::ₘ F, st₁.dcv.arrived, st₁.dcv.asked⟩ := by rw [← hF]
  rw [← hdcv] at h₁
  have hpeer' : f.peer = l := hpf.trans (hpg.trans hpeer)
  obtain ⟨hlt, -⟩ := List.getElem?_eq_some_iff.mp hf.path_eq
  have hshort := P.short f.peer
  obtain ⟨d, hd, hdr, hdl, hdn⟩ := hf.probes.rxDcvr_rsp (Nat.succ_pos j) (by omega)
  refine ⟨_, f, d, .head ⟨hstep, rfl⟩ (travels (h₁.trans h₂)), rfl, ?_, ?_, hd, hdr, hdl.trans hpeer', hdn.trans hj.symm⟩
  · exact congrArg Nat.succ hread
  · have hlen : st.read = st₁.dcv.arrived.reverse.length := by
      rw [List.length_reverse]
      exact hread
    change (f :: st₁.dcv.arrived).reverse[st.read]? = some f
    rw [List.reverse_cons, hlen, List.getElem?_concat_length]

/-- Whatever the sender makes of responses of routers on the way, in any order and with repetitions, the
system can bring about. -/
theorem Safe.realizes {heard : List (In6Addr × In6Addr)} (hP : T.Charted P) (N : T.Equipped net)
    (hA : P.Answered net peers) (H : st.Safe root T P net)
    (hread : st.read = st.dcv.arrived.length) (hon : ∀ r l, (r, l) ∈ heard → T.On r l)
    (hs : Run args st.sender (T.ops heard) s) :
    ∃ st', Relation.ReflTransGen (Talks args T P net) st st' ∧ st'.sender = s ∧
      st'.read = st'.dcv.arrived.length := by
  induction heard generalizing st with
  | nil =>
      cases hs
      exact ⟨st, .refl, rfl, hread⟩
  | cons x heard ih =>
      obtain ⟨r, l⟩ := x
      cases hs with
      | @cons _ s₁ _ _ _ ret hc htail =>
          obtain ⟨st', f, d, hrun, hsender, hread', hnext, hd, rfl, rfl, hhops⟩ :=
            H.asks args hP N hA hread (hon r l List.mem_cons_self)
          have hc' : Completes args st'.sender (.rsp d.rsa d.paddr d.hops) s₁ ret := by
            rw [hhops, hsender]
            exact hc
          have hrun₁ := hrun.tail ⟨.receive hnext hd hc', rfl⟩
          obtain ⟨st'', hrun', hs'', hread''⟩ := ih (Talks.safe hrun₁ hP N H) hread'
            (fun r l hm => hon r l (List.mem_cons_of_mem _ hm)) htail
          exact ⟨st'', hrun₁.trans hrun', hs'', hread''⟩

end Heard

end System

section Main

variable {args : Args} {root : NodeId} {addr : In6Addr} {peers : List In6Addr}
  {T : RouterTree addr peers} {P : Paths} {net : In6Addr → Net} {st₀ st : System}

/-- Whatever discovery packets were lost, repeated or late, whenever phases were closed and however
often the sender's tree was rebuilt: the packets of every datagram that was sent come to rest in
whatever order they move, receivers are handed plain copies of the datagram only, and in the end
each of them has exactly one. -/
theorem delivered_of_system (hP : T.Charted P) (N : T.Equipped net) (B : st₀.Started root T)
    (hrun : Relation.ReflTransGen (System.Step args T P net) st₀ st) :
    ∀ x ∈ st.data, T.Delivers net x.1 x.2 := (B.safe_of_run hP N hrun).data

/-- In every reachable state the sender can read what arrived next, close the phase, and send any
datagram with the group it published last; and as long as a receiver has not got its copy of a
datagram, some packet of this datagram can travel on. -/
theorem responsive_of_system (hP : T.Charted P) (N : T.Equipped net) (B : st₀.Started root T)
    (hrun : Relation.ReflTransGen (System.Step args T P net) st₀ st) :
    (∀ f, st.next = some f → ∃ st', System.Step args T P net st st' ∧ st'.read = st.read + 1) ∧
    (∃ s, Completes args st.sender .tout s 0) ∧
    (∀ sk ip u fuel, (∀ k a, sk.sendError k a = false) → ip.nexthdr = ipprotoUdp → 3 ≤ fuel →
      ∃ grp w, st.sender.txg = some grp ∧ tx sk fuel grp ip u = some w) ∧
    ∀ x ∈ st.data, ∀ l ∈ peers, (∀ q, (l, q) ∉ x.2) → ∃ S, Swarm.Step (T.Hop net) x.2 S := by
  have H := B.safe_of_run hP N hrun
  refine ⟨fun f hf => ?_, H.sketches.inv.tout_completes args, fun sk ip u fuel hsk hip hf => ?_,
    fun x hx l hl hno => ?_⟩
  · rcases H.next_cases hP hf with hn | ⟨d, hd, ho, -⟩
    · exact ⟨_, .discard hf hn, rfl⟩
    · obtain ⟨s, ret, hc, -⟩ := H.sketches.planted.rsp args d.paddr d.hops ho.ne_root
      exact ⟨_, .receive hf hd hc, rfl⟩
  · obtain ⟨grp, hgrp, G⟩ := H.group
    obtain ⟨w, hw, -⟩ := G.delivers N H.sketches.nodup hsk hf hip u
    exact ⟨grp, w, hgrp, hw⟩
  · by_contra hfinal
    push Not at hfinal
    obtain ⟨q, hq⟩ := (H.data x hx).exists_mem .refl hfinal hl
    exact hno q hq

end Main

/-! ## A chain of routers -/

/-- The paths of the chain of three routers. -/
def Paths.fork : Paths where
  src := 1
  path l := if l = 2 ∨ l = 3 then [4, 5, 6] else []
  short l := by split <;> simp

theorem forkTree_charted : forkTree.Charted .fork where
  src_eq := rfl
  path_iff l hl j r := by
    have hpath : Paths.fork.path l = [4, 5, 6] := by
      rcases List.mem_pair.mp hl with rfl | rfl <;> rfl
    rw [hpath]
    constructor
    · intro h
      have hr : r ∈ [(6 : In6Addr), 5, 4] := by
        have := List.mem_of_getElem? h
        simp only [List.mem_cons, List.not_mem_nil, or_false] at this ⊢
        tauto
      refine ⟨forkTree_on hl hr, ?_⟩
      rcases j with _ | _ | _ | j
      · obtain rfl := Option.some.inj h
        rfl
      · obtain rfl := Option.some.inj h
        rfl
      · obtain rfl := Option.some.inj h
        rfl
      · simp at h
    · rintro ⟨ho, hd⟩
      obtain ⟨q, hq⟩ := ho.exists_par
      have hd' : forkDepth r = j + 1 := hd
      rcases forkPar_cases hq with ⟨h, -⟩ | ⟨rfl, -⟩ | ⟨rfl, -⟩ | ⟨rfl, -⟩
      · exact absurd (by rcases h with rfl | rfl <;> simp) ho.not_mem
      · obtain rfl : j = 2 := by simpa [forkDepth] using hd'
        rfl
      · obtain rfl : j = 1 := by simpa [forkDepth] using hd'
        rfl
      · obtain rfl : j = 0 := by simpa [forkDepth] using hd'
        rfl

theorem fork_answered : Paths.fork.Answered forkNet [3, 2] where
  router _ _ _ _ := ⟨rfl, fun _ => rfl, fun _ => rfl⟩
  transmits _ _ _ _ := fun _ => rfl

/-- The sender at the root of the chain. -/
def Sock.fork : Sock := { Sock.sample with baddr := 1, bia := 1 }

/-- A sender with the receivers `2` and `3` that published its first group. -/
theorem exists_started_fork : ∃ st : System, st.Started 0 forkTree := by
  obtain ⟨s, -, Z, hp, -⟩ := exists_resting_fork
  exact ⟨⟨{ s with txg := some s.unicastGroup }, .start, 0, []⟩,
    ⟨Z.inv.publish _, Z.root_sa, Z.root_hops, Z.par_eq⟩, hp, rfl, rfl, rfl, rfl⟩

/-- The group of both receivers behind router `6`. -/
def TxGroup.fork : TxGroup := ⟨[dataHdr [⟨6, [3, 2]⟩]], 0, []⟩

/-- The phase in which the routers `4`, `5` and `6` answer ends with this group. -/
theorem exists_talk_fork : ∃ st₀ st : System, st₀.Started 0 forkTree ∧
    Relation.ReflTransGen (System.Talks Args.default forkTree .fork forkNet) st₀ st ∧
    st.sender.txg = some .fork ∧ st.read = st.dcv.arrived.length := by
  let s₁ : Sender := ((Sender.initial.initGroup 1).get rfl).1
  let ops : List Op := [.join 2 0, .join 3 0, .initTxg]
  let heard : List (In6Addr × In6Addr) := [(4, 2), (4, 3), (5, 2), (5, 3), (6, 2), (6, 3)]
  have hall : (exec Args.default 20 s₁ ops).all (fun s => decide (s.peers = [3, 2] ∧
      s.txg = some s.unicastGroup ∧ ((exec Args.default 20 s (forkTree.ops heard)).bind fun t =>
        step Args.default 20 t .tout).map (fun r => r.1.txg) = some (some .fork))) = true := by
    decide +kernel
  have hsome : (exec Args.default 20 s₁ ops).isSome = true := by decide +kernel
  obtain ⟨s, e⟩ := Option.isSome_iff_exists.mp hsome
  rw [e] at hall
  simp only [Option.all_some, decide_eq_true_eq] at hall
  obtain ⟨hp, htxg, h⟩ := hall
  obtain ⟨⟨t', ret⟩, ht', hgrp⟩ := Option.map_eq_some_iff.mp h
  obtain ⟨t, ht, htout⟩ := Option.bind_eq_some_iff.mp ht'
  have Z : s.Resting 0 1 := (Sender.phased_init rfl).resting (Run.of_exec e)
    (by simp [ops, Op.NotFrom]) (by simp [ops, Steady]) (by simp [ops, PhasesOver])
    (Or.inl (Sender.resting_init rfl))
  have B : System.Started ⟨s, .start, 0, []⟩ 0 forkTree := ⟨Z, hp, htxg, rfl, rfl, rfl⟩
  have hon : ∀ r l, (r, l) ∈ heard → forkTree.On r l := by
    intro r l hm
    refine forkTree_on ?_ ?_ <;> simp [heard] at hm ⊢ <;> grind
  have H : System.Safe _ 0 forkTree .fork forkNet := B.safe
  obtain ⟨st, hrun, rfl, hread⟩ := H.realizes forkTree_charted forkNet_equipped fork_answered rfl hon
    (Run.of_exec ht)
  exact ⟨_, _, B, hrun.tail ⟨.timeout ⟨20, htout⟩, rfl⟩, hgrp, hread⟩

theorem exists_published_fork : ∃ st₀ st : System, st₀.Started 0 forkTree ∧
    Relation.ReflTransGen (System.Step Args.default forkTree .fork forkNet) st₀ st ∧
    st.sender.txg = some .fork ∧ st.read = st.dcv.arrived.length := by
  obtain ⟨st₀, st, B, hrun, h⟩ := exists_talk_fork
  exact ⟨st₀, st, B, System.Talks.run hrun, h⟩

/-- What is sent to this group comes to rest with a copy at each receiver. -/
theorem exists_final_fork {ip : Ipv6Hdr} {u : Udp} {w : Wire} (hip : ip.nexthdr = ipprotoUdp)
    (hw : tx .fork 3 .fork ip u = some w) : ∃ S,
      Swarm.Run (forkTree.Hop forkNet) ↑(w.sent.map fun q => ((1 : In6Addr), q)) S ∧
      ∀ l ∈ [(3 : In6Addr), 2], ∃ q, (l, q) ∈ S := by
  obtain ⟨st₀, st, B, hrun, hgrp, -⟩ := exists_published_fork
  obtain ⟨grp, hgrp', G⟩ := (B.safe_of_run forkTree_charted forkNet_equipped hrun).group
  obtain rfl := Option.some.inj (hgrp'.symm.trans hgrp)
  have hnd : [(3 : In6Addr), 2].Nodup := by decide
  have hsk : ∀ k a, Sock.fork.sendError k a = false := fun _ _ => rfl
  obtain ⟨w', hw', D⟩ := G.delivers forkNet_equipped hnd hsk le_rfl hip u
  obtain rfl := Option.some.inj (hw'.symm.trans hw)
  obtain ⟨S, hmoves, hfinal⟩ := Reach.exists_final D.ends
  exact ⟨S, hmoves, fun l hl => D.exists_mem hmoves hfinal hl⟩

/-- The theorem after this phase: a datagram is sent in a MEADcast packet. -/
theorem delivered_of_fork : ∃ (st₀ st : System) (w : Wire), st₀.Started 0 forkTree ∧
    Relation.ReflTransGen (System.Step Args.default forkTree .fork forkNet) st₀ st ∧
    tx .fork 3 .fork Ipv6Hdr.sample (Udp.bare 7000) = some w ∧ (∃ q ∈ w.sent, q.md.isSome) ∧
    (Udp.bare 7000, ↑(w.sent.map fun q => ((1 : In6Addr), q))) ∈ st.data ∧
    forkTree.Delivers forkNet (Udp.bare 7000) ↑(w.sent.map fun q => ((1 : In6Addr), q)) := by
  obtain ⟨st₀, st, B, hrun, hgrp, -⟩ := exists_published_fork
  obtain ⟨w, hw⟩ : ∃ w, tx .fork 3 .fork Ipv6Hdr.sample (Udp.bare 7000) = some w := ⟨_, rfl⟩
  have hmd : ∃ q ∈ w.sent, q.md.isSome := by
    obtain rfl := Option.some.inj hw
    exact ⟨_, List.mem_cons_self, rfl⟩
  have hrun' := hrun.tail (.send hgrp (fun _ _ => rfl) rfl le_rfl hw)
  have h := delivered_of_system forkTree_charted forkNet_equipped B hrun'
  exact ⟨st₀, _, w, B, hrun', hw, hmd, List.mem_cons_self, h _ List.mem_cons_self⟩

/-- The theorem once a response of router `5` has arrived and a MEADcast packet is under way. -/
theorem responsive_of_fork : ∃ (st₀ st : System) (f : Flying) (w : Wire), st₀.Started 0 forkTree ∧
    Relation.ReflTransGen (System.Step Args.default forkTree .fork forkNet) st₀ st ∧
    st.next = some f ∧ (rxDcvr f.skb).isSome ∧
    (∃ st', System.Step Args.default forkTree .fork forkNet st st' ∧ st'.read = st.read + 1) ∧
    (∃ s, Completes Args.default st.sender .tout s 0) ∧
    tx .fork 3 .fork Ipv6Hdr.sample (Udp.bare 7000) = some w ∧
    ∃ S, Swarm.Step (forkTree.Hop forkNet) ↑(w.sent.map fun q => ((1 : In6Addr), q)) S := by
  obtain ⟨st₀, st, B, hrun, hgrp, hread⟩ := exists_published_fork
  obtain ⟨w, hw⟩ : ∃ w, tx .fork 3 .fork Ipv6Hdr.sample (Udp.bare 7000) = some w := ⟨_, rfl⟩
  have hrun' := hrun.tail (.send hgrp (fun _ _ => rfl) rfl le_rfl hw)
  have H := B.safe_of_run forkTree_charted forkNet_equipped hrun'
  obtain ⟨st', f, d, hask, -, -, hnext, hd, -⟩ := H.asks Args.default forkTree_charted
    forkNet_equipped fork_answered hread (forkTree_on (l := 2) (r := 5) (by simp) (by simp))
  have hall := hrun'.trans (System.Talks.run hask)
  obtain ⟨h1, h2, -, h4⟩ := responsive_of_system forkTree_charted forkNet_equipped B hall
  have hmem : (Udp.bare 7000, ↑(w.sent.map fun q => ((1 : In6Addr), q))) ∈ st'.data := by
    rw [System.Talks.data_eq hask]
    exact List.mem_cons_self
  refine ⟨st₀, st', f, w, B, hall, hnext, by rw [hd]; rfl, h1 f hnext, h2, hw,
    h4 _ hmem 2 (by simp) fun q hq => ?_⟩
  obtain ⟨q', -, he⟩ := List.mem_map.mp (Multiset.mem_coe.mp hq)
  exact absurd (show (1 : In6Addr) = 2 from congrArg Prod.fst he) (by decide)

end MEADcast
