import MEADcast.Network.EventLoop
import MEADcast.Network.Lossless
import MEADcast.Sender.Narrow

/-!
# Discovery recovers

Losses, repetitions and late responses leave the sender with a tree that has little to do with that
of the routers.  The next timeout clears it, and one phase in which nothing is lost is enough to find
all routers again.

## Main definitions

* `System.Clean` — a step without losses.
* `System.Quiet` — nothing can move without a new request.
* `System.Hearing` — what holds during a phase without losses.
* `System.Begins` — the states in which phases begin.

## Main results

* `tree_of_lossless_phase` — such a phase comes to its end with all responses heard.
-/

namespace MEADcast

open ParentMap

namespace System

/-- The packets that arrived and that the sender has not read. -/
def unread (st : System) : List Flying := st.dcv.arrived.reverse.drop st.read

/-- One step without losses: a packet moves, or the sender reads the next one. -/
inductive Clean (args : Args) (P : Paths) (net : In6Addr → Net) : System → System → Prop
  | travel {st : System} {d : Discovery} (h : Discovery.Clean P net st.dcv d) :
      Clean args P net st { st with dcv := d }
  | receive {st : System} {f : Flying} {d : DcvRsp} {s : Sender} {ret : Int}
      (hf : st.next = some f) (hd : rxDcvr f.skb = some d)
      (h : Completes args st.sender (.rsp d.rsa d.paddr d.hops) s ret) :
      Clean args P net st { st with sender := s, read := st.read + 1 }
  | discard {st : System} {f : Flying} (hf : st.next = some f) (hd : rxDcvr f.skb = none) :
      Clean args P net st { st with read := st.read + 1 }

/-- No packet moves and none is left to be read. -/
def Quiet (args : Args) (P : Paths) (net : In6Addr → Net) (st : System) : Prop :=
  ∀ st', ¬ Clean args P net st st'

/-- How often packets move and are read until the system is quiet. -/
def moves (P : Paths) (st : System) : ℕ := (st.dcv.flight.map (Flying.moves P)).sum + st.unread.length

section Clean

variable {args : Args} {root : NodeId} {addr : In6Addr} {peers : List In6Addr}
  {T : RouterTree addr peers} {P : Paths} {net : In6Addr → Net} {st st' : System} {f : Flying}

theorem next_eq_head? (st : System) : st.next = st.unread.head? := by
  rw [next, unread, List.head?_drop]

/-- The sender has read no more than arrived. -/
theorem Step.read_le (h : Step args T P net st st') (hle : st.read ≤ st.dcv.arrived.length) :
    st'.read ≤ st'.dcv.arrived.length := by
  have hnext : ∀ {f}, st.next = some f → st.read + 1 ≤ st.dcv.arrived.length := fun hf => by
    have := (List.getElem?_eq_some_iff.mp hf).1
    rwa [List.length_reverse] at this
  cases h with
  | travel h _ => exact hle.trans h.length_le
  | receive hf _ _ => exact hnext hf
  | discard hf _ => exact hnext hf
  | _ => exact hle

/-- A step without losses is one of the system. -/
theorem Clean.step (h : Clean args P net st st') (hA : P.Answered net peers)
    (H : st.Safe root T P net) : Step args T P net st st' := by
  cases h with
  | travel h =>
      obtain ⟨hstep, hasked⟩ := h.step hA H.sound H.asked
      exact .travel hstep hasked
  | receive hf hd h => exact .receive hf hd h
  | discard hf hd => exact .discard hf hd

/-- The phase of the sender `s` leads to the responses `total`: some were heard, the others are to be
read or in flight, or routers will make them. -/
structure Hearing (args : Args) (T : RouterTree addr peers) (P : Paths) (s : Sender)
    (total : Multiset (In6Addr × In6Addr)) (st : System) : Prop where
  read_le : st.read ≤ st.dcv.arrived.length
  answers : ∀ f ∈ st.unread, ∃ j r, f.Answers P j r
  heard : ∃ heard, Run args s (T.ops heard) st.sender ∧
    (st.dcv.flight.map (Flying.due P)).sum + ↑(st.unread.map Flying.answer) + ↑heard = total

variable {s : Sender} {total : Multiset (In6Addr × In6Addr)}

/-- The sender reads the response that is the first one to be read. -/
theorem Hearing.next_eq (Q : Hearing args T P s total st) (hf : st.next = some f) :
    ∃ rest j r, st.unread = f :: rest ∧ st.dcv.arrived.reverse.drop (st.read + 1) = rest ∧
      f.Answers P j r := by
  rw [next_eq_head?] at hf
  obtain ⟨rest, hrest⟩ := List.head?_eq_some_iff.mp hf
  obtain ⟨j, r, h⟩ := Q.answers f (by rw [hrest]; exact List.mem_cons_self)
  refine ⟨rest, j, r, hrest, ?_, h⟩
  rw [← List.drop_drop, ← unread, hrest]
  rfl

/-- What `rx_dcvr` makes of a response is a response of the tree. -/
theorem answer_eq {j : ℕ} {r : In6Addr} (h : f.Answers P j r) (hP : T.Charted P)
    (hpeer : f.peer ∈ peers) : ∃ d, rxDcvr f.skb = some d ∧ (d.rsa, d.paddr) = f.answer ∧
      d.hops = T.depth d.rsa := by
  obtain ⟨-, hdepth⟩ := (hP.path_iff _ hpeer j r).mp h.path_eq
  have hlt := (List.getElem?_eq_some_iff.mp h.path_eq).1
  have hshort := P.short f.peer
  obtain ⟨d, hd, hr, hl, hn⟩ := h.probes.rxDcvr_rsp (Nat.succ_pos j) (by omega)
  refine ⟨d, hd, ?_, ?_⟩
  · rw [hr, hl, Flying.answer, h.probes.saddr_eq]
  · rw [hn, hr, hdepth]

/-- A step without losses keeps the responses together, and one move is gone. -/
theorem Clean.hearing (h : Clean args P net st st') (hP : T.Charted P) (hA : P.Answered net peers)
    (H : st.Safe root T P net) (Q : Hearing args T P s total st) :
    Hearing args T P s total st' ∧ st'.moves P < st.moves P := by
  obtain ⟨heard, hrun, hsum⟩ := Q.heard
  cases h with
  | @travel d h =>
      rcases h.account hA H.sound H.asked with ⟨f, j, r, hf, harr, hdue, hmoves⟩ | ⟨harr, hdue, hmoves⟩
      · have hun : ({ st with dcv := d } : System).unread = st.unread ++ [f] := by
          change d.arrived.reverse.drop st.read = st.dcv.arrived.reverse.drop st.read ++ [f]
          rw [harr, List.reverse_cons, List.drop_append_of_le_length]
          rw [List.length_reverse]
          exact Q.read_le
        refine ⟨⟨?_, fun g hg => ?_, heard, hrun, ?_⟩, ?_⟩
        · change st.read ≤ d.arrived.length
          rw [harr]
          exact Q.read_le.trans (Nat.le_succ _)
        · rw [hun] at hg
          rcases List.mem_append.mp hg with hg | hg
          · exact Q.answers g hg
          · exact ⟨j, r, List.mem_singleton.mp hg ▸ hf⟩
        · rw [← hsum, hun, hdue, List.map_append, ← Multiset.coe_add, List.map_singleton,
            Multiset.coe_singleton]
          abel
        · rw [moves, moves, hun, hmoves, List.length_append, List.length_singleton]
          change (d.flight.map _).sum + _ < _
          omega
      · have hun : ({ st with dcv := d } : System).unread = st.unread := by
          change d.arrived.reverse.drop st.read = _
          rw [harr]
          rfl
        refine ⟨⟨?_, fun g hg => Q.answers g (hun ▸ hg), heard, hrun, ?_⟩, ?_⟩
        · change st.read ≤ d.arrived.length
          rw [harr]
          exact Q.read_le
        · rw [← hsum, hun, hdue]
        · rw [moves, moves, hun, hmoves]
          change (d.flight.map _).sum + _ < _
          omega
  | @receive f d s' ret hf hd hc =>
      obtain ⟨rest, j, r, hun, hrest, ha⟩ := Q.next_eq hf
      have hm : f ∈ st.dcv.arrived := List.mem_reverse.mp (List.mem_of_getElem? hf)
      obtain ⟨d', hd', hans, hdepth⟩ := answer_eq ha hP (H.asked (H.sound.2 f hm).1)
      obtain rfl := Option.some.inj (hd'.symm.trans hd)
      rw [hdepth] at hc
      have hlt := (List.getElem?_eq_some_iff.mp hf).1
      rw [List.length_reverse] at hlt
      have hun' : ({ st with sender := s', read := st.read + 1 } : System).unread = rest := hrest
      refine ⟨⟨hlt, fun g hg => Q.answers g ?_, heard ++ [(d'.rsa, d'.paddr)], ?_, ?_⟩, ?_⟩
      · rw [hun'] at hg
        rw [hun]
        exact List.mem_cons_of_mem _ hg
      · rw [RouterTree.ops, List.map_append]
        exact hrun.append (.single hc)
      · rw [← hsum, hun, hun', hans, List.map_cons, ← Multiset.cons_coe, ← Multiset.singleton_add,
          ← Multiset.coe_add, Multiset.coe_singleton]
        abel
      · rw [moves, moves, hun, hun', List.length_cons]
        exact Nat.lt_succ_self _
  | @discard f hf hd =>
      obtain ⟨rest, j, r, -, -, ha⟩ := Q.next_eq hf
      have hm : f ∈ st.dcv.arrived := List.mem_reverse.mp (List.mem_of_getElem? hf)
      obtain ⟨d, hd', -⟩ := answer_eq ha hP (H.asked (H.sound.2 f hm).1)
      simp [hd'] at hd

/-- In a quiet state nothing is due or to be read. -/
theorem Quiet.spec (hq : st.Quiet args P net) (hP : T.Charted P) (hA : P.Answered net peers)
    (H : st.Safe root T P net) : st.unread = [] ∧ ∀ f ∈ st.dcv.flight, f.due P = 0 := by
  constructor
  · by_contra hne
    obtain ⟨f, rest, hun⟩ := List.exists_cons_of_ne_nil hne
    have hf : st.next = some f := by rw [next_eq_head?, hun, List.head?_cons]
    rcases H.next_cases hP hf with hn | ⟨d, hd, ho, -⟩
    · exact hq _ (.discard hf hn)
    · obtain ⟨s, ret, hc, -⟩ := H.sketches.planted.rsp args d.paddr d.hops ho.ne_root
      exact hq _ (.receive hf hd hc)
  · intro f hf
    by_contra hdue
    obtain ⟨d, hd⟩ := Discovery.exists_clean hA H.sound H.asked hf hdue
    exact hq _ (.travel hd)

/-- A phase begins at the start and after every timeout. -/
inductive Begins (args : Args) (T : RouterTree addr peers) (P : Paths) (net : In6Addr → Net)
    (st₀ : System) : System → Prop
  | start : Begins args T P net st₀ st₀
  | timeout {st : System} {s : Sender} {ret : Int}
      (hrun : Relation.ReflTransGen (Step args T P net) st₀ st)
      (h : Completes args st.sender .tout s ret) : Begins args T P net st₀ { st with sender := s }

variable {st₀ : System}

theorem Begins.run (h : Begins args T P net st₀ st) :
    Relation.ReflTransGen (Step args T P net) st₀ st := by
  cases h with
  | start => exact .refl
  | timeout hrun h => exact hrun.tail (.timeout h)

/-- All receivers hang below the root then. -/
theorem Begins.resting (h : Begins args T P net st₀ st) (hP : T.Charted P) (N : T.Equipped net)
    (B : st₀.Started root T) : st.sender.Resting root addr := by
  cases h with
  | start => exact B.resting
  | timeout hrun h =>
      have H := B.safe_of_run hP N hrun
      obtain ⟨seen, G, -⟩ := H.sketches.phased
      obtain ⟨-, F, gs, hF, O⟩ := H.sketches.inv.tout h
      exact G.resting_tout hF O

theorem Started.read_le (B : st₀.Started root T)
    (hrun : Relation.ReflTransGen (Step args T P net) st₀ st) :
    st.read ≤ st.dcv.arrived.length := by
  refine Reach.invariant (fun t => t.read ≤ t.dcv.arrived.length) (fun _ _ hle h => h.read_le hle)
    hrun ?_
  rw [B.read_eq]
  exact Nat.zero_le _

/-- All responses of the routers on the paths. -/
def responses (P : Paths) (peers : List In6Addr) : List (In6Addr × In6Addr) :=
  peers.flatMap fun l => (P.path l).map fun r => (r, l)

theorem mem_responses {r l : In6Addr} (hP : T.Charted P) :
    (r, l) ∈ responses P peers ↔ T.On r l := by
  simp only [responses, List.mem_flatMap, List.mem_map, Prod.mk.injEq]
  constructor
  · rintro ⟨k, hk, q, hq, rfl, rfl⟩
    obtain ⟨j, hj⟩ := List.getElem?_of_mem hq
    exact ((hP.path_iff k hk j q).mp hj).1
  · intro ho
    have hd : T.depth r = (T.depth r - 1) + 1 := (Nat.sub_add_cancel ho.depth_pos).symm
    exact ⟨l, ho.peer, r, List.mem_of_getElem? ((hP.path_iff l ho.peer _ r).mpr ⟨ho, hd⟩), rfl, rfl⟩

theorem nodup_responses (hP : T.Charted P) (hnd : peers.Nodup) : (responses P peers).Nodup := by
  refine List.nodup_flatMap.mpr ⟨fun l hl => ?_, hnd.imp fun {l k} hne => ?_⟩
  · refine List.Nodup.map (fun a b hab => (Prod.mk.inj hab).1)
      (List.nodup_iff_getElem?_ne_getElem?.mpr fun i j hij hj he => ?_)
    -- a router has one depth
    have hget := List.getElem?_eq_getElem hj
    have h1 := ((hP.path_iff l hl j _).mp hget).2
    have h2 := ((hP.path_iff l hl i _).mp (he.trans hget)).2
    omega
  · intro x hx hx'
    obtain ⟨r, -, rfl⟩ := List.mem_map.mp hx
    obtain ⟨q, -, hq⟩ := List.mem_map.mp hx'
    exact hne (Prod.mk.inj hq).2.symm

theorem order_of_perm {heard : List (In6Addr × In6Addr)} (hP : T.Charted P) (hnd : peers.Nodup)
    (h : heard.Perm (responses P peers)) : T.Order heard :=
  ⟨h.nodup_iff.mpr (nodup_responses hP hnd), fun _ _ => h.mem_iff.trans (mem_responses hP)⟩

/-- The requests lead to all responses. -/
theorem sum_due_requests (P : Paths) (sk : Sock) (rcvr : List Addr) :
    ((((rcvr.map sk.request).map fun p => (⟨p, p.dst, 0, none⟩ : Flying) : List Flying) :
      Multiset Flying).map (Flying.due P)).sum = ↑(responses P (rcvr.map Addr.sin6_addr)) := by
  induction rcvr with
  | nil => rfl
  | cons a rcvr ih =>
      have hdue : Flying.due P ⟨sk.request a, (sk.request a).dst, 0, none⟩ =
          ↑((P.path a.sin6_addr).map fun r => (r, a.sin6_addr)) := rfl
      rw [responses] at ih ⊢
      simp only [List.map_cons, List.flatMap_cons, ← Multiset.cons_coe, ← Multiset.coe_add,
        Multiset.map_cons, Multiset.sum_cons, ih, hdue]

/-- A phase that begins when nothing is in flight leads to all responses. -/
theorem Begins.hearing (h : Begins args T P net st₀ st) (hP : T.Charted P) (N : T.Equipped net)
    (hA : P.Answered net peers) (B : st₀.Started root T) (hq : st.Quiet args P net) {sk : Sock}
    (hsk : ∀ k a, sk.sendError k a = false) (txbuf : MdcHdr) :
    Hearing args T P st.sender ↑(responses P peers)
      (st.requested (sendDcvr sk txbuf st.sender.members .start).2) := by
  have H := B.safe_of_run hP N h.run
  obtain ⟨hun, hdue⟩ := hq.spec hP hA H
  have hmembers : st.sender.members.map Addr.sin6_addr = peers :=
    H.sketches.inv.peers_eq.trans H.sketches.peers_eq
  have hun' : (st.requested (sendDcvr sk txbuf st.sender.members .start).2).unread = [] := hun
  have hle : st.read ≤ st.dcv.arrived.length := B.read_le h.run
  refine ⟨hle, fun f hf => ?_, [], .nil _, ?_⟩
  · rw [hun'] at hf
    exact absurd hf List.not_mem_nil
  · have hold : (st.dcv.flight.map (Flying.due P)).sum = 0 :=
      Multiset.sum_eq_zero fun x hx => by
        obtain ⟨f, hf, rfl⟩ := Multiset.mem_map.mp hx
        exact hdue f hf
    rw [hun', requested, sent_of_sendDcvr hsk]
    dsimp only
    rw [Multiset.map_add, Multiset.sum_add, hold, sum_due_requests, hmembers]
    simp

end Clean

end System

section Main

variable {args : Args} {root : NodeId} {addr : In6Addr} {peers : List In6Addr}
  {T : RouterTree addr peers} {P : Paths} {net : In6Addr → Net} {st₀ st : System}

/-- Let a phase begin in any reachable state in which nothing is in flight, whatever was lost,
repeated or late before, and let nothing be lost or repeated in it.  However the packets move, they
come to rest; the sender has then heard every router once for each receiver behind it, each with its
depth; and if no router at depth three or more serves two receivers, or if no router was heard for a
receiver before the router above it, its tree is that of the routers. -/
theorem tree_of_lossless_phase (hP : T.Charted P) (N : T.Equipped net) (hA : P.Answered net peers)
    (B : st₀.Started root T) (hbegins : System.Begins args T P net st₀ st)
    (hq : st.Quiet args P net) {sk : Sock} (hsrc : sk.baddr = P.src)
    (hsk : ∀ k a, sk.sendError k a = false) (txbuf : MdcHdr) :
    Acc (fun t s => System.Clean args P net s t)
      (st.requested (sendDcvr sk txbuf st.sender.members .start).2) ∧
    ∀ st', Relation.ReflTransGen (System.Clean args P net)
        (st.requested (sendDcvr sk txbuf st.sender.members .start).2) st' →
      st'.Quiet args P net → ∃ heard, T.Order heard ∧
        Run args st.sender (T.ops heard) st'.sender ∧
        (∀ r l, T.On r l → st'.sender.view.hops r = T.depth r) ∧
        (T.Narrow ∨ T.Gapless heard → st'.sender.view.par = T.par) := by
  have hstep : System.Step args T P net st
      (st.requested (sendDcvr sk txbuf st.sender.members .start).2) := .request hsrc rfl
  have H := hstep.safe hP N (B.safe_of_run hP N hbegins.run)
  have Q := hbegins.hearing hP N hA B hq hsk txbuf
  have hclean : ∀ t t', t.Safe root T P net ∧
      System.Hearing args T P st.sender ↑(System.responses P peers) t →
      System.Clean args P net t t' →
      (t'.Safe root T P net ∧ System.Hearing args T P st.sender ↑(System.responses P peers) t') ∧
        t'.moves P < t.moves P := by
    intro t t' ht h
    obtain ⟨hQ, hlt⟩ := h.hearing hP hA ht.1 ht.2
    exact ⟨⟨(h.step hA ht.1).safe hP N ht.1, hQ⟩, hlt⟩
  refine ⟨Reach.acc_of_lt _ _ hclean ⟨H, Q⟩, fun st' hrun hq' => ?_⟩
  obtain ⟨H', Q'⟩ := Reach.invariant _ (fun t t' ht h => (hclean t t' ht h).1) hrun ⟨H, Q⟩
  obtain ⟨heard, hheard, hsum⟩ := Q'.heard
  obtain ⟨hun, hdue⟩ := hq'.spec hP hA H'
  have hzero : (st'.dcv.flight.map (Flying.due P)).sum = 0 :=
    Multiset.sum_eq_zero fun x hx => by
      obtain ⟨f, hf, rfl⟩ := Multiset.mem_map.mp hx
      exact hdue f hf
  rw [hzero, hun] at hsum
  have hperm : heard.Perm (System.responses P peers) := by
    rw [← Multiset.coe_eq_coe, ← hsum]
    simp
  have O : T.Order heard := System.order_of_perm hP H.sketches.nodup hperm
  have hon : ∀ r l, (r, l) ∈ heard → T.On r l := fun r l h => (O.mem_iff r l).mp h
  have hall : ∀ r l, T.On r l → (r, l) ∈ heard := fun r l => (O.mem_iff r l).mpr
  -- the sender starts with nothing but the root and the receivers
  have Z := hbegins.resting hP N B
  have hpeers : st.sender.peers = peers := H.sketches.peers_eq
  have K := Z.known hpeers T
  have R := (Z.phased.rsps hpeers (by simp) hon hheard).1
  have S : T.Sampled heard st'.sender.view := by
    refine R.invariant (fun m v => T.Sampled m v) (fun _ r l => T.On r l)
      (fun m r l v v' S ho hR => S.rsp ho hR) [] (fun m r l post e => hon r l (by simp [e])) K.toSampled
  refine ⟨heard, O, hheard, fun r l ho => S.hops_eq r l (hall r l ho), ?_⟩
  rintro (hnarrow | hgap)
  · have C : T.Settled [] st.sender.view := ⟨K.toSampled, by simp, by simp, by simp⟩
    exact (C.rsps hnarrow R hon).par_eq hall
  · exact (K.rsps R hon hgap).toUnion.par_eq hon hall

end Main

theorem quiet_of_started {st : System} (B : st.Started 0 forkTree) :
    st.Quiet Args.default .fork forkNet := by
  intro st' h
  have hnext : ∀ f, st.next ≠ some f := by
    intro f hf
    rw [System.next, B.dcv_eq] at hf
    simp [Discovery.start] at hf
  cases h with
  | @travel d h =>
      rw [B.dcv_eq] at h
      generalize hs : Discovery.start = s at h
      cases h with
      | forward _ _ _ => exact Multiset.cons_ne_zero (congrArg Discovery.flight hs).symm
      | arrive _ _ => exact Multiset.cons_ne_zero (congrArg Discovery.flight hs).symm
  | receive hf _ _ => exact hnext _ hf
  | discard hf _ => exact hnext _ hf

/-- The theorem for the first phase, in which the routers `4`, `5` and `6` answer. -/
theorem tree_of_fork_phase : ∃ (st₀ st : System) (heard : List (In6Addr × In6Addr)),
    st₀.Started 0 forkTree ∧ st.Quiet Args.default .fork forkNet ∧
    Relation.ReflTransGen (System.Clean Args.default .fork forkNet)
      (st₀.requested (sendDcvr .fork (dcvHdr 0 0 false) st₀.sender.members .start).2) st ∧
    forkTree.Order heard ∧ Run Args.default st₀.sender (forkTree.ops heard) st.sender := by
  obtain ⟨st₀, B⟩ := exists_started_fork
  obtain ⟨hacc, h⟩ := tree_of_lossless_phase forkTree_charted forkNet_equipped fork_answered B .start
    (quiet_of_started B) (show Sock.fork.baddr = 1 from rfl) (fun _ _ => rfl) (dcvHdr 0 0 false)
  obtain ⟨st, hrun, hq⟩ := Reach.exists_final hacc
  obtain ⟨heard, O, hheard, -⟩ := h st hrun hq
  exact ⟨st₀, st, heard, B, hq, hrun, O, hheard⟩

end MEADcast
