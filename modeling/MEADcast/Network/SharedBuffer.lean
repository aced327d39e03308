import MEADcast.Network.Published

/-!
# Two threads and one buffer

The transmit thread and the discovery thread take turns with single accesses to the buffer.  The
groups that the one sends with are those that a timeout published at any time before, in whatever
way discovery went so far.

## Main definitions

* `threads` — both threads at the start.

## Main results

* `threads_spec` — neither writes into a header or a datagram of the other one.
* `shared_buffer` — the octets that leave are those of the packets that the threads make on their own.
-/

namespace MEADcast

/-- Both threads: what the device hands over, each time with the current group, the receivers that
are asked in each phase, and what happens to be in the buffer. -/
def threads (b : TxBuf) (fuel : ℕ) (bia : In6Addr) (rounds : List (TunInput × TxGroup))
    (phases : List (List Addr)) (m : Mem (BitVec 8)) : Par (BitVec 8) (SockFd × In6Addr) Unit Unit :=
  ⟨b.txLoop fuel bia (rounds.map fun r => (r.1.octets, r.2)), TxBuf.dcvrLoop phases, m, ⟨0, []⟩,
    ⟨0, []⟩⟩

/-- The threads on their own parts of the buffer. -/
theorem threads_spec {args : Args} {mtu : ℕ} (hm : mtu ≤ 2 ^ 16)
    (h4 : tunPiSize + getMdcHdrSize args.max_addrs ≤ mtu) {fuel : ℕ} (hf : 3 ≤ fuel)
    {rounds : List (TunInput × TxGroup)}
    (hsized : ∀ r ∈ rounds, r.1.Valid args mtu ∧ r.2.Sized args) (phases : List (List Addr))
    (m : Mem (BitVec 8)) (sk sk' : Sock) :
    ∃ s, sk.txAll fuel ⟨0, []⟩ rounds = some s ∧
      Acc (fun c' c => Par.Step sk.ok sk'.ok c c')
        (threads (initTx args mtu) fuel sk.bia rounds phases m) ∧
      ∀ c, Relation.ReflTransGen (Par.Step sk.ok sk'.ok)
          (threads (initTx args mtu) fuel sk.bia rounds phases m) c →
        (∀ c', ¬ Par.Step sk.ok sk'.ok c c') →
        c.sent = s ∧ ∀ txbuf, c.sent' = sk'.dcvrAll txbuf ⟨0, []⟩ phases := by
  obtain ⟨s, m', hs, hrun⟩ := TxBuf.run_txLoop sk hf hm h4 rounds m ⟨0, []⟩ hsized
  refine ⟨s, hs, (Par.wellFounded_step _ _).apply _, fun c hc hlast => ?_⟩
  have A : (threads (initTx args mtu) fuel sk.bia rounds phases m).Apart (fun i => 32 ≤ i)
      fun i => i < 32 := by
    refine ⟨TxBuf.within_txLoop (TxBuf.le_buf args mtu) _ fun r hr hdr hhdr => ?_,
      TxBuf.within_dcvrLoop phases, fun i hi => Nat.not_lt.mpr hi⟩
    obtain ⟨r', hr', rfl⟩ := List.mem_map.mp hr
    exact TxBuf.front_le ((hsized r' hr').2 hdr hhdr).split
  obtain ⟨⟨⟨⟩, hl⟩, ⟨⟨⟩, hr⟩⟩ := Par.exists_done hlast
  obtain ⟨⟨-, hsent⟩, -, hsent'⟩ := Par.eq_run A hc hl hr
  refine ⟨hsent.symm.trans (congrArg (fun r => r.2.2) hrun), fun txbuf => ?_⟩
  obtain ⟨m'', hdcvr⟩ := TxBuf.run_dcvrLoop sk' txbuf phases m ⟨0, []⟩
  exact hsent'.symm.trans (congrArg (fun r => r.2.2) hdcvr)

section Main

variable {args : Args} {root : NodeId} {addr : In6Addr} {peers : List In6Addr}
  {T : RouterTree addr peers} {P : Paths} {net : In6Addr → Net} {st₀ : System}

/-- Whatever turns the threads take, whatever the buffer holds and whichever sends fail, the threads
end, and each has sent the octets of exactly the packets that `tx` and `send_dcvr` make: neither
writes into a header or a datagram of the other one.  The buffer is no longer than a packet can be
(`hm`) and has space for the longest header (`h4`), and each packet of the device is a UDP datagram
that fits behind this header, or no IPv6 (`TunInput.Valid`). -/
theorem shared_buffer (hP : T.Charted P) (N : T.Equipped net) (B : st₀.Started root T) {mtu : ℕ}
    (hm : mtu ≤ 2 ^ 16) (h4 : tunPiSize + getMdcHdrSize args.max_addrs ≤ mtu) {fuel : ℕ}
    (hf : 3 ≤ fuel) {rounds : List (TunInput × TxGroup)}
    (hrounds : ∀ r ∈ rounds, r.1.Valid args mtu ∧ System.Publishes args T P net st₀ r.2)
    (phases : List (List Addr)) (m : Mem (BitVec 8)) (sk sk' : Sock) :
    ∃ s, sk.txAll fuel ⟨0, []⟩ rounds = some s ∧
      Acc (fun c' c => Par.Step sk.ok sk'.ok c c')
        (threads (initTx args mtu) fuel sk.bia rounds phases m) ∧
      ∀ c, Relation.ReflTransGen (Par.Step sk.ok sk'.ok)
          (threads (initTx args mtu) fuel sk.bia rounds phases m) c →
        (∀ c', ¬ Par.Step sk.ok sk'.ok c c') →
        c.sent = s ∧ ∀ txbuf, c.sent' = sk'.dcvrAll txbuf ⟨0, []⟩ phases :=
  threads_spec hm h4 hf (fun r hr => ⟨(hrounds r hr).1, (hrounds r hr).2.sized B hP N⟩) phases m sk sk'

end Main

/-- What the device hands over: something that is no IPv6, and a datagram, both while the group with a
header is the current one. -/
def TunPacket.fork : TunPacket := ⟨[0, 0], [0x60, 0, 0, 0], Ipv6Hdr.sample, Udp.bare 7000⟩

def forkRounds : List (TunInput × TxGroup) := [(.other [0, 0, 8, 0], .fork), (.packet .fork, .fork)]

theorem forkRounds_published {st₀ : System}
    (hgrp : System.Publishes Args.default forkTree .fork forkNet st₀ .fork) : ∀ r ∈ forkRounds,
      r.1.Valid Args.default 1500 ∧ System.Publishes Args.default forkTree .fork forkNet st₀ r.2 := by
  intro r hr
  rcases List.mem_pair.mp hr with rfl | rfl
  · exact ⟨⟨by decide, by decide⟩, hgrp⟩
  · exact ⟨⟨rfl, rfl, rfl, by decide, by decide⟩, hgrp⟩

/-- The theorem for these rounds and two phases with one request each. -/
theorem shared_buffer_of_fork : ∃ (st₀ : System) (s : Sent (BitVec 8) (SockFd × In6Addr)),
    st₀.Started 0 forkTree ∧ Sock.fork.txAll 3 ⟨0, []⟩ forkRounds = some s ∧
    ∀ c, Relation.ReflTransGen (Par.Step Sock.fork.ok Sock.fork.ok)
        (threads (initTx Args.default 1500) 3 Sock.fork.bia forkRounds [[⟨2, 5000⟩], [⟨3, 5000⟩]]
          fun _ => 0) c →
      (∀ c', ¬ Par.Step Sock.fork.ok Sock.fork.ok c c') →
      c.sent = s ∧ ∀ txbuf, c.sent' = Sock.fork.dcvrAll txbuf ⟨0, []⟩ [[⟨2, 5000⟩], [⟨3, 5000⟩]] := by
  obtain ⟨st₀, st, B, hrun, hgrp, -⟩ := exists_published_fork
  obtain ⟨s, hs, -, h⟩ := shared_buffer forkTree_charted forkNet_equipped B
    (show 1500 ≤ 2 ^ 16 by decide) (by decide) le_rfl (forkRounds_published ⟨st, hrun, hgrp⟩)
    [[⟨2, 5000⟩], [⟨3, 5000⟩]] (fun _ => 0) Sock.fork Sock.fork
  exact ⟨st₀, s, B, hs, fun c hc hlast => h c hc hlast⟩

end MEADcast
