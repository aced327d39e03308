import MEADcast.Lib.Reach
import MEADcast.Router.WellFormed
import Mathlib.Data.Multiset.Filter
import Mathlib.Tactic.Abel

/-!
# Conservation of endpoints

Routers take MEADcast packets out of the network and put in what they make of them.  With
well-formed headers and no failures no endpoint is lost or duplicated by any sequence of such
steps.

## Main definitions

* `Flight` — the packets in the network.
* `Flight.Step` — some router processes some packet.

## Main results

* `conservation_of_run` — the endpoints of the network are the same after every run.
-/

namespace MEADcast

/-- The packets in the network: the MEADcast packets in flight, and the plain packets produced
so far. -/
structure Flight where
  mdc : Multiset Skb
  uni : Multiset Skb

/-- The router makes the packets `out` of a packet, and nothing fails. -/
def Net.Processes (net : Net) (skb : Skb) (out : List Skb) : Prop :=
  net.Routes ∧ net.Transmits ∧
    ∃ e left t, mdDataRcv net .start skb = some (e, left, t) ∧ out = t.sent ++ [left]

/-- Some router processes some packet. -/
inductive Flight.Step : Flight → Flight → Prop
  | process {net : Net} {skb : Skb} {mdc uni : Multiset Skb} {out : List Skb} :
      net.Processes skb out → Step ⟨skb ::ₘ mdc, uni⟩
        ⟨mdc + ↑(out.filter fun q => q.md.isSome), uni + ↑(out.filter fun q => !q.md.isSome)⟩

/-- A sequence of steps. -/
abbrev Flight.Run : Flight → Flight → Prop := Relation.ReflTransGen Flight.Step

/-- The endpoints that are still to be delivered, and those that plain packets go to. -/
def Flight.endpoints (S : Flight) : Multiset In6Addr :=
  (S.mdc.map Skb.endpoints).sum + S.uni.map fun skb => skb.ip.daddr

/-- A packet with a well-formed header. -/
def Skb.WellFormed (skb : Skb) : Prop := ∃ hd, skb.md = some hd ∧ hd.WellFormed

/-- `q` carries the header of `skb` with a single bit in the delivery map, and goes to the
first endpoint behind the router at this position. -/
def Skb.Replica (skb q : Skb) (hd' : MdcHdr) : Prop :=
  ∃ hd, skb.md = some hd ∧ hd'.addr = hd.addr ∧ hd'.rtm = hd.rtm ∧ hd'.dsts = hd.dsts ∧
    ∃ i, (∀ b, hd'.dlvm.getMsbD b = decide (b = i)) ∧ hd'.addr[i + 1]? = some q.ip.daddr

variable {net : Net} {skb : Skb} {hd : MdcHdr}

/-- The header that marks the router of one segment only is well formed. -/
theorem MdcHdr.WellFormed.toward (W : hd.WellFormed) {p : ℕ × Seg In6Addr In6Addr}
    (hp : p ∈ hd.segs) : ({ hd with dlvm := posBit p.1 } : MdcHdr).WellFormed where
  data := W.data
  length_eq := W.length_eq
  dsts_le := W.dsts_le
  first := W.first
  endpoint := W.endpoint
  beyond := W.beyond
  sub := by
    intro q hq
    dsimp only at hq
    rw [getMsbD_posBit_eq (W.holds hp).pos_lt, decide_eq_true_eq] at hq
    rw [hq]
    exact (W.segs_at.2.marked hp).1
  nonempty := ⟨p.1, by
    dsimp only
    rw [getMsbD_posBit_eq (W.holds hp).pos_lt, decide_eq_true_eq]⟩

/-- Every packet a router makes is plain or a replica with a well-formed header. -/
theorem forwarded_cases (hmd : skb.md = some hd) (W : hd.WellFormed) {q : Skb}
    (hq : q ∈ skb.forwarded net hd) {hd' : MdcHdr} (hq' : q.md = some hd') :
    hd'.WellFormed ∧ skb.Replica q hd' := by
  obtain ⟨p, hp, hpq⟩ := List.mem_flatMap.mp hq
  have hps : p ∈ hd.segs := List.mem_of_mem_filter hp
  unfold Skb.packets at hpq
  split at hpq
  · obtain ⟨a, -, rfl⟩ := List.mem_map.mp hpq
    cases hq'
  · obtain rfl := List.mem_singleton.mp hpq
    obtain rfl := Option.some.inj hq'
    have H := W.holds hps
    refine ⟨W.hopped.toward hps, hd, hmd, rfl, rfl, rfl, p.1,
      fun b => getMsbD_posBit_eq H.pos_lt b, ?_⟩
    obtain ⟨a, ls, hls⟩ := List.exists_cons_of_ne_nil H.leaves_ne
    have hat := W.segs_at.2.getElem? hps (k := 1) (by simp [Seg.size, hls])
    rw [W.segs_at.1, Nat.sub_zero, hls] at hat
    simpa [Skb.toward, hls] using hat

theorem Net.Processes.eq_forwarded {out : List Skb} (h : net.Processes skb out)
    (hmd : skb.md = some hd) (W : hd.WellFormed) : out = skb.forwarded net hd := by
  obtain ⟨hr, ht, e, left, t, h1, rfl⟩ := h
  obtain ⟨left', t', h2, h3⟩ := mdDataRcv_spec hmd W hr ht
  rw [h1] at h2
  obtain ⟨-, rfl, rfl⟩ : e = 0 ∧ left = left' ∧ t = t' := by simpa using h2
  exact h3

theorem exists_processes (net : Net) (hmd : skb.md = some hd) (W : hd.WellFormed) (hr : net.Routes)
    (ht : net.Transmits) : net.Processes skb (skb.forwarded net hd) := by
  obtain ⟨left, t, h1, h2⟩ := mdDataRcv_spec hmd W hr ht
  exact ⟨hr, ht, 0, left, t, h1, h2.symm⟩

/-- What the packets of a list are meant for is what the MEADcast packets among them are meant
for, together with the destinations of the others. -/
theorem endpoints_split (out : List Skb) : (out.map Skb.endpoints).sum =
    ((out.filter fun q => q.md.isSome).map Skb.endpoints).sum +
      ↑((out.filter fun q => !q.md.isSome).map fun q => q.ip.daddr) := by
  induction out with
  | nil => rfl
  | cons q out ih =>
      cases hq : q.md with
      | none =>
          have he : q.endpoints = {q.ip.daddr} := by rw [Skb.endpoints, hq]
          simp only [List.map_cons, List.sum_cons, ih, he, hq, List.filter_cons, Option.isSome_none,
            Bool.not_false, Bool.false_eq_true, if_false, if_true, ← Multiset.cons_coe,
            ← Multiset.singleton_add]
          abel
      | some hd =>
          simp only [List.map_cons, List.sum_cons, ih, hq, List.filter_cons, Option.isSome_some,
            Bool.not_true, Bool.false_eq_true, if_false, if_true]
          abel

namespace Flight

variable {S S' : Flight}

/-- The MEADcast packets in flight have well-formed headers. -/
def WellFormed (S : Flight) : Prop := ∀ skb ∈ S.mdc, skb.WellFormed

theorem Step.wellFormed (W : S.WellFormed) (h : Step S S') : S'.WellFormed := by
  cases h with
  | process h =>
      obtain ⟨hd, hmd, Whd⟩ := W _ (Multiset.mem_cons_self _ _)
      intro q hq
      rcases Multiset.mem_add.mp hq with hq | hq
      · exact W q (Multiset.mem_cons_of_mem hq)
      · obtain ⟨hmem, hsome⟩ := List.mem_filter.mp (Multiset.mem_coe.mp hq)
        obtain ⟨hd', hq'⟩ := Option.isSome_iff_exists.mp hsome
        rw [h.eq_forwarded hmd Whd] at hmem
        exact ⟨hd', hq', (forwarded_cases hmd Whd hmem hq').1⟩

/-- One step neither loses nor duplicates an endpoint. -/
theorem Step.endpoints_eq (W : S.WellFormed) (h : Step S S') : S'.endpoints = S.endpoints := by
  cases h with
  | @process net skb mdc uni out h =>
      obtain ⟨hd, hmd, Whd⟩ := W _ (Multiset.mem_cons_self _ _)
      have hsum := endpoints_forwarded net hmd Whd
      rw [← h.eq_forwarded hmd Whd, endpoints_split] at hsum
      simp only [endpoints, Multiset.map_cons, Multiset.sum_cons, Multiset.map_add,
        Multiset.sum_add, Multiset.map_coe, Multiset.sum_coe, ← hsum]
      abel

end Flight

/-- Whatever packets with well-formed headers are in flight, and whichever routers process them
in whichever order, every endpoint stays in exactly one packet; each MEADcast packet made on the
way is well formed, keeps the addresses and the router map, marks one router only and goes to
the first endpoint behind it. -/
theorem conservation_of_run {S S' : Flight} (hrun : Flight.Run S S') (W : S.WellFormed) :
    S'.endpoints = S.endpoints ∧ ∀ skb ∈ S'.mdc, skb.WellFormed ∧
      ∀ net : Net, net.Routes → net.Transmits → (∃ out, net.Processes skb out) ∧
        ∀ out, net.Processes skb out → ∀ q ∈ out, ∀ hd', q.md = some hd' →
          hd'.WellFormed ∧ skb.Replica q hd' := by
  have hstep : ∀ s s' : Flight, s.WellFormed → Flight.Step s s' → s'.WellFormed :=
    fun _ _ W h => h.wellFormed W
  have W' : S'.WellFormed := Reach.invariant _ hstep hrun W
  refine ⟨Reach.constant _ _ hstep (fun _ _ W h => h.endpoints_eq W) hrun W, fun skb hskb => ?_⟩
  obtain ⟨hd, hmd, Whd⟩ := W' skb hskb
  refine ⟨⟨hd, hmd, Whd⟩, fun net hr ht => ⟨⟨_, exists_processes net hmd Whd hr ht⟩, ?_⟩⟩
  intro out hout q hq hd' hq'
  rw [hout.eq_forwarded hmd Whd] at hq
  exact forwarded_cases hmd Whd hq hq'

/-- A packet of the sender with address 9 for the router 1 with endpoint 2 and the router 3 with
endpoints 4 and 5. -/
def Skb.sample : Skb where
  ip := ⟨100, ipprotoRouting, 64, 9, 2⟩
  md := some (dataHdr [⟨1, [2]⟩, ⟨3, [4, 5]⟩])
  udp := ⟨7, 8, 12, 0xffff, [1, 2, 3, 4]⟩
  dst := 2

/-- The router with address `a` in an environment without failures. -/
def Net.sample (a : In6Addr) : Net where
  ip6_mdcast_enable := true
  ip6_mdcast_min_dsts := 1
  ipv6_chk_addr := fun b => b == a
  ipv6_dev_get_saddr := fun _ => some a
  routeError := fun _ => false
  outputError := fun _ => false

theorem Skb.sample_wellFormed : (dataHdr [⟨1, [2]⟩, ⟨3, [4, 5]⟩]).WellFormed :=
  wellFormed_dataHdr (by decide) (by decide) (by decide)

/-- The theorem at a run of one step. -/
theorem conservation_of_sample : ∃ S, Flight.Run ⟨{Skb.sample}, 0⟩ S ∧ S.endpoints = {2, 4, 5} :=
  have hp : (Net.sample 3).Processes Skb.sample _ :=
    exists_processes _ rfl Skb.sample_wellFormed (fun _ => rfl) fun _ => rfl
  have hstep : Flight.Step ⟨{Skb.sample}, 0⟩ _ := .process hp
  ⟨_, .single hstep, (conservation_of_run (.single hstep) fun skb hskb =>
    ⟨_, by rw [Multiset.mem_singleton.mp hskb]; rfl, Skb.sample_wellFormed⟩).1.trans (by decide)⟩

end MEADcast
