import MEADcast.Lib.Swarm
import MEADcast.Network.Discovery
import Mathlib.Algebra.BigOperators.Intervals

/-!
# Discovery without losses

No packet is lost or repeated: each one is forwarded until it is at the sender or, if it is a
request, at the receiver.  The responses of all routers on the way are then there, each once.

## Main definitions

* `Discovery.Clean` — a step without losses.
* `Flying.due` — the responses that a packet is or still leads to.
* `Flying.moves` — how often it and what becomes of it moves until the sender has read it.

## Main results

* `Discovery.Clean.account` — no step changes what is due.
* `Discovery.exists_clean` — what is due does not get stuck.
-/

namespace MEADcast

namespace Discovery

/-- One step without losses: a router forwards a packet, or a packet arrives at the sender. -/
inductive Clean (P : Paths) (net : In6Addr → Net) : Discovery → Discovery → Prop
  | forward {F : Multiset Flying} {A : List Flying} {R : List In6Addr} {f : Flying} {j : ℕ}
      {r : In6Addr} {out : List Skb} (hj : f.router P = some j) (hr : (P.path f.peer)[j]? = some r)
      (hout : ip6Forward (net r) f.skb = some out) :
      Clean P net ⟨f ::ₘ F, A, R⟩ ⟨F + ↑(out.map (f.out P j)), A, R⟩
  | arrive {F : Multiset Flying} {A : List Flying} {R : List In6Addr} {f : Flying}
      (hdst : f.skb.dst = P.src) (h0 : f.link = 0) : Clean P net ⟨f ::ₘ F, A, R⟩ ⟨F, f :: A, R⟩

variable {P : Paths} {net : In6Addr → Net} {peers : List In6Addr} {s s' : Discovery}

/-- It is a step of discovery. -/
theorem Clean.step (h : Clean P net s s') (hA : P.Answered net peers) (hs : s.Sound P)
    (hasked : s.asked ⊆ peers) : Step P s s' ∧ s'.asked = s.asked := by
  cases h with
  | @forward F A R f j r out hj hr hout =>
      have hpeer := hasked (hs.1 f (Multiset.mem_cons_self _ _)).1
      exact ⟨.forward hj hr (hA.router _ hpeer r (List.mem_of_getElem? hr)) hout, rfl⟩
  | arrive hdst h0 => exact ⟨.arrive hdst h0, rfl⟩

/-- What arrived stays there. -/
theorem Step.length_le (h : Step P s s') : s.arrived.length ≤ s'.arrived.length := by
  cases h with
  | arrive _ _ => exact Nat.le_succ _
  | _ => exact le_rfl

end Discovery

namespace Flying

variable {P : Paths} {net : In6Addr → Net} {f : Flying} {j k : ℕ} {r : In6Addr}
  {peers : List In6Addr}

/-- The router that answered and the receiver that it answered for. -/
def answer (f : Flying) : In6Addr × In6Addr := (f.skb.ip.saddr, f.peer)

/-- The responses that a packet is or that the routers in front of it will make. -/
def due (P : Paths) (f : Flying) : Multiset (In6Addr × In6Addr) :=
  if f.skb.rsp then {f.answer} else ↑(((P.path f.peer).drop f.link).map fun r => (r, f.peer))

/-- A response passes the routers in front of it, arrives and is read; a request with `n` routers on
its path leaves one behind at each of those that it has not passed yet. -/
def moves (P : Paths) (f : Flying) : ℕ :=
  if f.skb.rsp then f.link + 2 else ∑ i ∈ Finset.Ico f.link (P.path f.peer).length, (i + 3)

theorem Asks.due_eq (h : f.Asks P) :
    f.due P = ↑(((P.path f.peer).drop f.link).map fun r => (r, f.peer)) := by
  rw [due, h.probes.rsp_eq]
  rfl

theorem Asks.moves_eq (h : f.Asks P) :
    f.moves P = ∑ i ∈ Finset.Ico f.link (P.path f.peer).length, (i + 3) := by
  rw [moves, h.probes.rsp_eq]
  rfl

theorem Answers.due_eq (h : f.Answers P j r) : f.due P = {(r, f.peer)} := by
  rw [due, h.probes.rsp_eq, if_pos rfl, answer, h.probes.saddr_eq]

theorem Answers.moves_eq (h : f.Answers P j r) : f.moves P = f.link + 2 := by
  rw [moves, h.probes.rsp_eq, if_pos rfl]

/-- What a router makes of a request answers for all that was due, and one move is gone. -/
theorem Asks.clean (h : f.Asks P) (hr : (P.path f.peer)[f.link]? = some r) (H : (net r).Router r)
    (ht : (net r).Transmits) : ∃ rsp req, ip6Forward (net r) f.skb = some [rsp, req] ∧
      (f.out P f.link rsp).due P + (f.out P f.link req).due P = f.due P ∧
      (f.out P f.link rsp).moves P + (f.out P f.link req).moves P + 1 = f.moves P := by
  obtain ⟨rsp, req, h1, h2, h3⟩ := h.forward hr H
  obtain ⟨hlt, hget⟩ := List.getElem?_eq_some_iff.mp hr
  have hreq : (f.out P f.link req).link = f.link + 1 := by
    rw [out, if_neg (by rw [show req.dst = f.peer from h3.probes.dst_eq]; exact h.ne)]
  have hrsp : (f.out P f.link rsp).link = f.link := by
    rw [out, if_pos (show rsp.dst = P.src from h2.probes.dst_eq)]
  have hpeer : ∀ q, (f.out P f.link q).peer = f.peer := fun _ => rfl
  refine ⟨rsp, req, by simpa [ht 0] using h1, ?_, ?_⟩
  · rw [h2.due_eq, h3.due_eq, h.due_eq, hreq, hpeer, hpeer, List.drop_eq_getElem_cons hlt, hget,
      List.map_cons, ← Multiset.cons_coe, Multiset.singleton_add]
  · rw [h2.moves_eq, h3.moves_eq, h.moves_eq, hreq, hpeer, hrsp,
      Finset.sum_eq_sum_Ico_succ_bot hlt]
    omega

/-- A response that passes a router stays due, and one move is gone. -/
theorem Answers.clean (h : f.Answers P j r) (hk : f.link = k + 1) (n : Net) :
    ∃ q, ip6Forward n f.skb = some [q] ∧ (f.out P k q).due P = f.due P ∧
      (f.out P k q).moves P + 1 = f.moves P := by
  have hi : f.router P = some k := by
    rw [router, if_pos h.probes.dst_eq, hk]
  obtain ⟨q, h1, h2⟩ := h.forward hi n
  have hlink : (f.out P k q).link = k := by
    rw [out, if_pos (show q.dst = P.src from h2.probes.dst_eq)]
  refine ⟨q, h1, ?_, ?_⟩
  · rw [h2.due_eq, h.due_eq]
    rfl
  · rw [h2.moves_eq, h.moves_eq, hlink, hk]

/-- What a router makes of a packet answers for all that was due, and one move is gone. -/
theorem Sound.clean {R : List In6Addr} {out : List Skb} (h : f.Sound P R)
    (hA : P.Answered net peers) (hpeer : f.peer ∈ peers) (hj : f.router P = some j)
    (hr : (P.path f.peer)[j]? = some r) (hout : ip6Forward (net r) f.skb = some out) :
    (((out.map (f.out P j) : List Flying) : Multiset Flying).map (due P)).sum = f.due P ∧
      (((out.map (f.out P j) : List Flying) : Multiset Flying).map (moves P)).sum + 1 = f.moves P := by
  have hm := List.mem_of_getElem? hr
  rcases h.2 with h | ⟨i, r', h⟩
  · have hjl : f.link = j := by
      rw [router, if_neg (by rw [h.probes.dst_eq]; exact h.ne)] at hj
      exact Option.some.inj hj
    subst hjl
    obtain ⟨rsp, req, h1, h2, h3⟩ := h.clean hr (hA.router _ hpeer r hm) (hA.transmits _ hpeer r hm)
    obtain rfl := Option.some.inj (h1.symm.trans hout)
    rw [← h2, ← h3]
    simp
  · have hlink : f.link = j + 1 := by
      rw [router, if_pos h.probes.dst_eq] at hj
      split at hj
      · cases hj
      · next k hk => rw [hk, Option.some.inj hj]
    obtain ⟨q, h1, h2, h3⟩ := h.clean hlink (net r)
    obtain rfl := Option.some.inj (h1.symm.trans hout)
    rw [← h2, ← h3]
    simp

end Flying

namespace Discovery

variable {P : Paths} {net : In6Addr → Net} {peers : List In6Addr} {s s' : Discovery}

/-- Either a response arrives, or the responses that are due stay the same.  One move is gone in
either case; a response that arrived is still to be read. -/
theorem Clean.account (h : Clean P net s s') (hA : P.Answered net peers) (hs : s.Sound P)
    (hasked : s.asked ⊆ peers) :
    (∃ f j r, f.Answers P j r ∧ s'.arrived = f :: s.arrived ∧
      (s.flight.map (Flying.due P)).sum = (s'.flight.map (Flying.due P)).sum + {f.answer} ∧
      (s.flight.map (Flying.moves P)).sum = (s'.flight.map (Flying.moves P)).sum + 2) ∨
    (s'.arrived = s.arrived ∧
      (s.flight.map (Flying.due P)).sum = (s'.flight.map (Flying.due P)).sum ∧
      (s.flight.map (Flying.moves P)).sum = (s'.flight.map (Flying.moves P)).sum + 1) := by
  cases h with
  | @forward F A R f j r out hj hr hout =>
      have hf := hs.1 f (Multiset.mem_cons_self _ _)
      obtain ⟨h1, h2⟩ := hf.clean hA (hasked hf.1) hj hr hout
      refine Or.inr ⟨rfl, ?_, ?_⟩
      · simp only [Multiset.map_cons, Multiset.sum_cons, Multiset.map_add, Multiset.sum_add, h1]
        exact add_comm _ _
      · simp only [Multiset.map_cons, Multiset.sum_cons, Multiset.map_add, Multiset.sum_add]
        omega
  | @arrive F A R f hdst h0 =>
      rcases (hs.1 f (Multiset.mem_cons_self _ _)).2 with h | ⟨j, r, h⟩
      · exact absurd (h.probes.dst_eq.symm.trans hdst) h.ne
      refine Or.inl ⟨f, j, r, h, rfl, ?_, ?_⟩
      · rw [Multiset.map_cons, Multiset.sum_cons, h.due_eq, Flying.answer, h.probes.saddr_eq]
        exact add_comm _ _
      · rw [Multiset.map_cons, Multiset.sum_cons, h.moves_eq, h0]
        exact add_comm _ _

/-- While something is due, a packet can move. -/
theorem exists_clean (hA : P.Answered net peers) (hs : s.Sound P) (hasked : s.asked ⊆ peers)
    {f : Flying} (hf : f ∈ s.flight) (hdue : f.due P ≠ 0) : ∃ s', Clean P net s s' := by
  obtain ⟨F, A, R⟩ := s
  obtain ⟨F', rfl⟩ := Multiset.exists_cons_of_mem hf
  obtain ⟨hpeer, h | ⟨j, r, h⟩⟩ := hs.1 f hf
  · have hlt : f.link < (P.path f.peer).length := by
      by_contra hle
      rw [h.due_eq, List.drop_eq_nil_of_le (not_lt.mp hle)] at hdue
      exact hdue rfl
    have hr := List.getElem?_eq_getElem hlt
    obtain ⟨rsp, req, h1, -⟩ :=
      h.forward hr (hA.router _ (hasked hpeer) _ (List.getElem_mem hlt))
    exact ⟨_, .forward (by rw [Flying.router, if_neg (by rw [h.probes.dst_eq]; exact h.ne)]) hr h1⟩
  · cases hk : f.link with
    | zero => exact ⟨_, .arrive h.probes.dst_eq hk⟩
    | succ k =>
        have hlt := (List.getElem?_eq_some_iff.mp h.path_eq).1
        have hle := h.link_le
        have hj : f.router P = some k := by
          rw [Flying.router, if_pos h.probes.dst_eq, hk]
        have hr := List.getElem?_eq_getElem (show k < (P.path f.peer).length by omega)
        obtain ⟨q, h1, -⟩ := h.clean hk (net (P.path f.peer)[k])
        exact ⟨_, .forward hj hr h1⟩

end Discovery

end MEADcast
