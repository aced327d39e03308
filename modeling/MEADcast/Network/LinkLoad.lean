import MEADcast.Network.System

/-!
# The load of the links

What MEADcast is for: a datagram that is sent to each receiver on its own goes over a link once for
each receiver behind the link.  The packets of a group go over it at most as often, although they
are turned into others on the way, some of which have to go back.  They go back from the first
routers only, since each packet is split there and serves one segment from then on.

## Main definitions

* `RouterTree.Goes` — a packet takes a link next.
* `RouterTree.Descends` — where packets are on their way away from the root.

## Main results

* `RouterTree.down_le`, `RouterTree.up_le`, `RouterTree.not_goes_up` — how often links are taken.
* `link_load_of_system` — the load of the links in every reachable state of the system.
-/

namespace MEADcast

open ParentMap

namespace RouterTree

variable {root : In6Addr} {peers : List In6Addr} (T : RouterTree root peers)

/-- The packet is at `x` and takes the link to `z` next. -/
def Goes (x z : In6Addr) (a : In6Addr × Skb) : Prop := a.1 = x ∧ Next T.par x a.2.ip.daddr z

/-- Away from the root a packet serves at most one segment, and only at the first routers it may
have to go back. -/
def Descends (a : In6Addr × Skb) : Prop :=
  a.1 = root ∨ a.2.level ≤ 1 ∧ (Up T.par a.2.ip.daddr a.1 ∨ T.par a.1 = some root)

variable {T} {net : In6Addr → Net} {u : Udp} {x z c l : In6Addr} {p : Skb}
  {a b : In6Addr × Skb} {out : Multiset (In6Addr × Skb)}

/-! ## One packet -/

/-- A packet goes back from a first router only. -/
theorem Descends.eq_root (D : T.Descends a) (hz : T.par a.1 = some z)
    (hy : ¬ Up T.par a.2.ip.daddr a.1) : z = root ∧ a.2.level ≤ 1 := by
  have hne : a.1 ≠ root := fun h => by simp [h, T.root_par] at hz
  obtain ⟨hlev, hup⟩ := D.resolve_left hne
  exact ⟨Option.some.inj (hz.symm.trans (hup.resolve_left hy)), hlev⟩

/-- A packet moves to one node. -/
theorem Hop.exists_next (h : T.Hop net a out) :
    ∃ z, Next T.par a.1 a.2.ip.daddr z ∧ ∀ b ∈ out, b.1 = z := by
  cases h with
  | @forward x z p out _ hz _ _ =>
      refine ⟨z, hz, fun b hb => ?_⟩
      obtain ⟨q, -, rfl⟩ := List.mem_map.mp (Multiset.mem_coe.mp hb)
      rfl
  | pass _ hz => exact ⟨_, hz, fun b hb => by rw [Multiset.mem_singleton.mp hb]⟩
  | hand _ hz _ => exact ⟨_, hz, fun b hb => by rw [Multiset.mem_singleton.mp hb]⟩

/-- Nothing changes at the root. -/
theorem Hop.eq_of_root (h : T.Hop net a out) (hb : b ∈ out) (hr : b.1 = root) :
    b.2 = a.2 ∧ out = {b} := by
  cases h with
  | forward _ _ hz _ =>
      obtain ⟨q, -, rfl⟩ := List.mem_map.mp (Multiset.mem_coe.mp hb)
      exact absurd hr hz.ne_root
  | pass _ _ =>
      obtain rfl := Multiset.mem_singleton.mp hb
      exact ⟨rfl, rfl⟩
  | hand _ _ hl => 
      obtain rfl := Multiset.mem_singleton.mp hb
      exact ⟨rfl, rfl⟩

namespace Underway

variable {hd : MdcHdr} (h : T.Underway u x p hd)

include h

/-- A packet with one segment serves that of its destination. -/
theorem eq_of_level (hlev : p.level ≤ 1) {s t : ℕ × Seg In6Addr In6Addr} (hs : s ∈ hd.pending)
    (ht : t ∈ hd.pending) : s = t := by
  rw [level_eq h.md_eq] at hlev
  obtain ⟨r, hr⟩ := List.length_eq_one_iff.mp
    (le_antisymm hlev (List.length_pos_of_ne_nil h.wf.pending_ne_nil))
  rw [hr, List.mem_singleton] at hs ht
  rw [hs, ht]

/-- What a router makes of a packet goes to receivers of one segment each. -/
theorem pieces (N : T.Equipped net) (hz : T.Router z) {out : List Skb}
    (hout : ip6Forward (net z) p = some out) : ∀ q ∈ out, ∃ s ∈ hd.pending,
      q.level ≤ 1 ∧ q.ip.daddr ∈ s.2.leaves := by
  have H : (net z).Handles p hd := ⟨N.enabled z hz, h.nexthdr, h.md_eq, h.type_eq⟩
  obtain rfl := Option.some.inj
    ((ip6Forward_forwarded H h.wf (N.routes z hz) (N.transmits z hz)).symm.trans hout)
  intro q hq
  obtain ⟨s, hs, hq⟩ := List.mem_flatMap.mp hq
  have hseg : s ∈ hd.segs := List.mem_of_mem_filter hs
  refine ⟨s, hs, ?_⟩
  rw [Skb.packets] at hq
  split at hq
  · obtain ⟨l, hl, rfl⟩ := List.mem_map.mp hq
    exact ⟨Nat.zero_le 1, hl⟩
  · obtain rfl := List.mem_singleton.mp hq
    refine ⟨(congrArg List.length (pending_toward (h.wf.aged (hd.hops + 1)) hseg)).le, ?_⟩
    obtain ⟨k, ls, hls⟩ := List.exists_cons_of_ne_nil (h.wf.holds hseg).leaves_ne
    simp [Skb.toward, hls]

end Underway

namespace Placed

variable (H : T.Placed u a)

include H

theorem up_root : Up T.par a.1 root := by
  cases H with
  | mdc hx _ => exact hx.up_root
  | plain hx hl _ =>
      rcases hx with hx | rfl
      · exact hx.up_root
      · exact T.up_root (T.peer_par _ hl)

/-- A packet goes to one of those it is meant for. -/
theorem daddr_mem : a.2.ip.daddr ∈ a.2.endpoints := by
  cases H with
  | @mdc x p hd hx h =>
      obtain ⟨s, hs, hh⟩ := h.dest
      rw [Skb.endpoints, h.md_eq]
      exact Multiset.mem_coe.mpr (List.mem_flatMap.mpr ⟨s, hs, List.mem_of_mem_head? hh⟩)
  | @plain x l p hx hl h =>
      rw [Skb.endpoints, h.md_eq]
      exact Multiset.mem_singleton_self _

/-- The receivers of one segment are behind the same first router. -/
theorem up_iff (hlev : a.2.level ≤ 1) (hc : T.par c = some root) :
    ∀ l ∈ a.2.endpoints, (Up T.par l c ↔ Up T.par a.2.ip.daddr c) := by
  intro l hl
  cases H with
  | @plain x k p hx hk h =>
      rw [Skb.endpoints, h.md_eq] at hl
      rw [Multiset.mem_singleton.mp hl]
  | @mdc x p hd hx h =>
      obtain ⟨s, hs, hh⟩ := h.dest
      rw [Skb.endpoints, h.md_eq] at hl
      obtain ⟨t, ht, hlt⟩ := List.mem_flatMap.mp (Multiset.mem_coe.mp hl)
      obtain rfl : t = s := h.eq_of_level hlev ht hs
      obtain ⟨hne, hled⟩ := h.led t (List.mem_of_mem_filter hs)
      have hiff : ∀ k ∈ t.2.leaves, (Up T.par k c ↔ Up T.par t.2.router c) := by
        intro k hk
        have hkr := Up.of_sUp (hled k hk).2
        refine ⟨fun hkc => ?_, hkr.trans⟩
        rcases hkr.total hkc with h | h
        · exact h
        -- only the root is above a first router
        rcases h.cases_head with rfl | ⟨q, hq, hqr⟩
        · exact Up.refl _ _
        · obtain rfl := Option.some.inj (hc.symm.trans hq)
          exact absurd (hqr.eq_of_none T.root_par).symm hne
      rw [hiff l hlt, hiff _ (List.mem_of_mem_head? hh)]

/-- What takes the place of a packet that descends does so too. -/
theorem descends (D : T.Descends a) (N : T.Equipped net) (h : T.Hop net a out) :
    ∀ b ∈ out, T.Descends b := by
  intro b hb
  cases h with
  | pass _ _ =>
      rw [Multiset.mem_singleton.mp hb]
      exact Or.inl rfl
  | @hand x l p _ hz hl =>
      rw [Multiset.mem_singleton.mp hb]
      have hd := eq_of_next_peer hz hl
      refine Or.inr ⟨?_, Or.inl (hd ▸ Up.refl _ _)⟩
      cases H with
      | mdc _ h => exact absurd hl (h.not_dest hz)
      | plain _ _ h => simp [Skb.level, h.md_eq]
  | @forward x z p out _ hz hr hout =>
      obtain ⟨q, hq, rfl⟩ := List.mem_map.mp (Multiset.mem_coe.mp hb)
      obtain ⟨hzx, hyz⟩ : T.par z = some x ∧ Up T.par p.ip.daddr z := by
        cases hz with
        | down hzx hyz => exact ⟨hzx, hyz⟩
        | up hxz hy => exact absurd (D.eq_root hxz hy).1 hr.ne_root
      cases H with
      | plain _ _ h =>
          obtain rfl := Option.some.inj ((h.forward (net z)).symm.trans hout)
          obtain rfl := List.mem_singleton.mp hq
          exact Or.inr ⟨by simp [Skb.level, h.md_eq], Or.inl hyz⟩
      | @mdc _ _ hd hx h =>
          obtain ⟨s, hs, hlev, hmem⟩ := h.pieces N hr hout q hq
          refine Or.inr ⟨hlev, ?_⟩
          rcases D with rfl | ⟨h1, -⟩
          · exact Or.inr hzx
          refine Or.inl ?_
          -- the packet serves the segment of its destination, whose router is not above `z`
          obtain ⟨t, ht, hh, -, hyr⟩ := h.dest_led
          obtain rfl : t = s := h.eq_of_level h1 ht hs
          rcases (Up.of_sUp hyr).total hyz with hrz | hzr
          · exact (Up.of_sUp ((h.led t (List.mem_of_mem_filter hs)).2 _ hmem).2).trans hrz
          rcases hzr.cases_head with he | ⟨x', hx', hxr⟩
          · rw [he]
            exact Up.of_sUp ((h.led t (List.mem_of_mem_filter hs)).2 _ hmem).2
          · obtain rfl := Option.some.inj (hzx.symm.trans hx')
            exact absurd hxr (h.ahead t hs)

end Placed

/-! ## All packets -/

/-- The packets that a bound on a link is about. -/
structure Moving (T : RouterTree root peers) (u : Udp) (a : In6Addr × Skb) : Prop where
  placed : T.Placed u a
  descends : T.Descends a

theorem preserves_moving (N : T.Equipped net) (u : Udp) :
    Swarm.Preserves (T.Hop net) (T.Moving u) :=
  fun _ _ M h b hb => ⟨(M.placed.hop N h).placed b hb, M.placed.descends M.descends N h b hb⟩

variable {f : In6Addr → Prop} [DecidablePred f]

/-- The packets in the place of a packet are for the same of its receivers. -/
theorem sum_countP (F : T.Follows u a out) :
    (out.map fun b => b.2.endpoints.countP f).sum = a.2.endpoints.countP f := by
  rw [← F.endpoints, ← Multiset.coe_countPAddMonoidHom, map_multiset_sum, Multiset.map_map]
  rfl

theorem countP_pos (H : T.Placed u a) (h : f a.2.ip.daddr) : 0 < a.2.endpoints.countP f :=
  Multiset.countP_pos.mpr ⟨_, H.daddr_mem, h⟩

open Classical in
/-- The weight of a packet for the link down to `c`. -/
noncomputable def downWeight (T : RouterTree root peers) (c : In6Addr) (a : In6Addr × Skb) : ℕ :=
  if Up T.par a.1 c then 0 else a.2.endpoints.countP fun l => Up T.par l c

open Classical in
/-- The weight of a packet for the link from the first router `c` up to the root. -/
noncomputable def upWeight (T : RouterTree root peers) (c : In6Addr) (a : In6Addr × Skb) : ℕ :=
  if a.1 = c ∨ a.1 = root ∧ Up T.par a.2.ip.daddr c then
    a.2.endpoints.countP fun l => ¬ Up T.par l c
  else 0

variable {S S' : Multiset (In6Addr × Skb)} {tr : List (In6Addr × Skb)}

/-- If all packets in the place of a packet have no weight, then neither have they together. -/
theorem sum_eq_zero {w : In6Addr × Skb → ℕ} (h : ∀ b ∈ out, w b = 0) : (out.map w).sum = 0 :=
  Multiset.sum_eq_zero fun n hn => by
    obtain ⟨b, hb, rfl⟩ := Multiset.mem_map.mp hn
    exact h b hb

open Classical in
/-- A hop down a link is paid for by the receivers behind it. -/
theorem downWeight_step (hc : T.par c = some x) (M : T.Moving u a) (N : T.Equipped net)
    (h : T.Hop net a out) :
    (out.map (T.downWeight c)).sum + (if T.Goes x c a then 1 else 0) ≤ T.downWeight c a := by
  obtain ⟨H, D⟩ := M
  obtain ⟨z, hz, hout⟩ := h.exists_next
  have hcr := T.rooted c x hc
  by_cases hac : Up T.par a.1 c
  · have hno : ¬ T.Goes x c a := by
      rintro ⟨rfl, -⟩
      exact not_up_of_sUp T.root_par hcr (.single hc) hac
    rw [if_neg hno, downWeight, if_pos hac]
    refine (sum_eq_zero fun b hb => ?_).le
    rw [downWeight]
    split
    · rfl
    rename_i hbc
    rw [hout b hb] at hbc
    -- the packet leaves what is below `c`, which is a first router then
    cases hz with
    | down hzx _ => exact absurd (hac.head hzx) hbc
    | up hxz hy =>
        obtain rfl | ⟨q, hq, hqc⟩ := hac.cases_head
        · obtain ⟨rfl, hlev⟩ := D.eq_root hxz hy
          obtain ⟨hb2, -⟩ := h.eq_of_root hb (hout b hb)
          rw [hb2]
          exact Multiset.countP_eq_zero.mpr fun l hl hlc => hy ((H.up_iff hlev hxz l hl).mp hlc)
        · obtain rfl := Option.some.inj (hxz.symm.trans hq)
          exact absurd hqc hbc
  · rw [downWeight, if_neg hac]
    by_cases hzc : Up T.par z c
    · -- the only way into what is below `c` is the link
      have hsum : (out.map (T.downWeight c)).sum = 0 := sum_eq_zero fun b hb => by
        rw [downWeight, if_pos (hout b hb ▸ hzc)]
      have hdest : Up T.par a.2.ip.daddr c := by
        cases hz with
        | down _ hy => exact hy.trans hzc
        | up hxz _ => exact absurd (Up.head hxz hzc) hac
      have hpos := countP_pos (f := fun l => Up T.par l c) H hdest
      rw [hsum]
      split <;> omega
    · have hno : ¬ T.Goes x c a := by
        rintro ⟨rfl, hx⟩
        exact hzc (hz.unique T.root_par H.up_root hx ▸ Up.refl _ _)
      rw [if_neg hno, ← sum_countP (H.hop N h)]
      refine (congrArg Multiset.sum (Multiset.map_congr rfl fun b hb => ?_)).le
      rw [downWeight, if_neg (hout b hb ▸ hzc)]

open Classical in
/-- A hop up to the root is paid for by the receivers behind other links. -/
theorem upWeight_step (hc : T.par c = some root) (M : T.Moving u a) (N : T.Equipped net)
    (h : T.Hop net a out) :
    (out.map (T.upWeight c)).sum + (if T.Goes c root a then 1 else 0) ≤ T.upWeight c a := by
  obtain ⟨H, D⟩ := M
  obtain ⟨z, hz, hout⟩ := h.exists_next
  have hcroot : c ≠ root := fun h => by simp [h, T.root_par] at hc
  by_cases hac : a.1 = c
  · rw [upWeight, if_pos (Or.inl hac)]
    by_cases hzr : z = root
    · have hdest : ¬ Up T.par a.2.ip.daddr c := by
        rw [hac, hzr] at hz
        cases hz with
        | down hr _ => simp [T.root_par] at hr
        | up _ hy => exact hy
      have hsum : (out.map (T.upWeight c)).sum = 0 := sum_eq_zero fun b hb => by
        have hb1 : b.1 = root := (hout b hb).trans hzr
        obtain ⟨hb2, -⟩ := h.eq_of_root hb hb1
        rw [upWeight, if_neg]
        rintro (h1 | ⟨-, h2⟩)
        · exact hcroot (h1.symm.trans hb1)
        · exact hdest (hb2 ▸ h2)
      have hpos := countP_pos (f := fun l => ¬ Up T.par l c) H hdest
      rw [hsum]
      split <;> omega
    · have hno : ¬ T.Goes c root a := by
        rintro ⟨-, hx⟩
        exact hzr (hz.unique T.root_par H.up_root (hac ▸ hx))
      rw [if_neg hno]
      refine (sum_eq_zero fun b hb => ?_).le.trans (Nat.zero_le _)
      rw [upWeight, if_neg]
      rintro (h1 | ⟨h1, -⟩)
      · -- a packet does not stay where it is
        rw [hout b hb] at h1
        have hloop := not_sUp_self T.root_par H.up_root
        rw [h1, hac] at hz
        cases hz with
        | down hcc _ => exact hloop (hac ▸ .single hcc)
        | up hcc _ => exact hloop (hac ▸ .single hcc)
      · exact hzr ((hout b hb).symm.trans h1)
  · rw [if_neg fun hg : T.Goes c root a => hac hg.1, Nat.add_zero]
    by_cases hzc : z = c
    · have hroot : a.1 = root ∧ Up T.par a.2.ip.daddr c := by
        rw [hzc] at hz
        cases hz with
        | down hca hy => exact ⟨Option.some.inj (hca.symm.trans hc), hy⟩
        | up hca hy => exact absurd (D.eq_root hca hy).1 hcroot
      rw [upWeight, if_pos (Or.inr hroot), ← sum_countP (H.hop N h)]
      refine (congrArg Multiset.sum (Multiset.map_congr rfl fun b hb => ?_)).le
      rw [upWeight, if_pos (Or.inl ((hout b hb).trans hzc))]
    · refine (sum_eq_zero fun b hb => ?_).le.trans (Nat.zero_le _)
      rw [upWeight]
      split
      · -- a packet at the root comes from another first router
        rename_i hb'
        obtain ⟨hb1, hbc⟩ := hb'.resolve_left fun h1 => hzc ((hout b hb).symm.trans h1)
        obtain ⟨hb2, -⟩ := h.eq_of_root hb hb1
        obtain rfl : z = root := (hout b hb).symm.trans hb1
        rw [hb2] at hbc ⊢
        cases hz with
        | down hr _ => simp [T.root_par] at hr
        | up hza hy =>
            refine Multiset.countP_eq_zero.mpr fun l hl hlc => hlc ?_
            exact (H.up_iff (D.eq_root hza hy).2 hc l hl).mpr hbc
      · rfl

/-- A packet never goes up any other link. -/
theorem Descends.not_goes (D : T.Descends a) (hc : T.par c = some x) (hx : x ≠ root) :
    ¬ T.Goes c x a := by
  rintro ⟨rfl, hz⟩
  cases hz with
  | down hxc _ =>
      exact not_up_of_sUp T.root_par (T.rooted _ _ hc) (.single hc) (Up.head hxc (Up.refl _ _))
  | up hax hy => exact hx (D.eq_root hax hy).1

/-- Weights of packets that are bounded by their receivers are so together. -/
theorem sum_weight_le {w : In6Addr × Skb → ℕ} (hw : ∀ a, w a ≤ a.2.endpoints.countP f)
    (hend : (S.map fun a => a.2.endpoints).sum = peers) :
    (S.map w).sum ≤ peers.countP fun l => f l := by
  refine (Multiset.sum_map_le_sum_map _ _ fun a _ => hw a).trans ?_
  rw [← Multiset.coe_countP, ← hend, ← Multiset.coe_countPAddMonoidHom, map_multiset_sum,
    Multiset.map_map]
  rfl

variable (N : T.Equipped net) (hS : ∀ a ∈ S, T.Moving u a)
  (hend : (S.map fun a => a.2.endpoints).sum = peers) (h : Swarm.Trace (T.Hop net) S tr S')

include N hS h

/-- Packets go up no link but those to the root. -/
theorem not_goes_up (hc : T.par c = some x) (hx : x ≠ root) : ∀ a ∈ tr, ¬ T.Goes c x a :=
  fun a ha => (h.forall (preserves_moving N u) hS a ha).descends.not_goes hc hx

include hend

open Classical in
/-- Packets for all receivers go down a link at most once for each receiver behind it. -/
theorem down_le (hc : T.par c = some x) :
    tr.countP (fun a => T.Goes x c a) ≤ peers.countP fun l => Up T.par l c := by
  have hcount := h.countP_add_le (preserves_moving N u) (fun _ _ M h => downWeight_step hc M N h) hS
  refine (Nat.le_of_add_right_le hcount).trans (sum_weight_le (fun a => ?_) hend)
  rw [downWeight]
  split
  · exact Nat.zero_le _
  · exact le_rfl

open Classical in
/-- They go up to the root at most once for each receiver behind another link. -/
theorem up_le (hc : T.par c = some root) :
    tr.countP (fun a => T.Goes c root a) ≤ peers.countP fun l => ¬ Up T.par l c := by
  have hcount := h.countP_add_le (preserves_moving N u) (fun _ _ M h => upWeight_step hc M N h) hS
  refine (Nat.le_of_add_right_le hcount).trans (sum_weight_le (fun a => ?_) hend)
  rw [upWeight]
  split
  · exact le_rfl
  · exact Nat.zero_le _

/-- There are never more packets than receivers. -/
theorem card_le : S'.card ≤ peers.length := by
  have hS' := h.run.forall (preserves_moving N u) hS
  have hsum := h.run.sum_map (preserves_moving N u)
    (fun _ _ M h => (M.placed.hop N h).endpoints) hS
  have hcard := congrArg Multiset.card (hsum.trans hend)
  rw [Multiset.coe_card] at hcard
  rw [← hcard]
  refine le_trans ?_ (Multiset.card_join (S'.map fun a => a.2.endpoints)).ge
  have hone : ∀ n ∈ (S'.map fun a => a.2.endpoints).map Multiset.card, 1 ≤ n := by
    intro n hn
    rw [Multiset.map_map] at hn
    obtain ⟨a, ha, rfl⟩ := Multiset.mem_map.mp hn
    exact Multiset.card_pos_iff_exists_mem.mpr ⟨_, (hS' a ha).placed.daddr_mem⟩
  have hle := Multiset.card_nsmul_le_sum hone
  simpa using hle

end RouterTree

section Main

variable {args : Args} {root : NodeId} {addr : In6Addr} {peers : List In6Addr}
  {T : RouterTree addr peers} {P : Paths} {net : In6Addr → Net} {st₀ st : System}

open Classical in
/-- In every reachable state of the system and in whatever order the packets of a datagram move:
they go down a link at most once for each receiver behind it, as often as if it was sent to each
receiver on its own; they go up to the root at most once for each receiver behind another link, and
up no other link at all; and there are never more of them than receivers. -/
theorem link_load_of_system (hP : T.Charted P) (N : T.Equipped net) (B : st₀.Started root T)
    (hrun : Relation.ReflTransGen (System.Step args T P net) st₀ st) {sk : Sock} {grp : TxGroup}
    {ip : Ipv6Hdr} {u : Udp} {fuel : ℕ} {w : Wire} (hgrp : st.sender.txg = some grp)
    (hsk : ∀ k a, sk.sendError k a = false) (hip : ip.nexthdr = ipprotoUdp) (hf : 3 ≤ fuel)
    (hw : tx sk fuel grp ip u = some w) {tr : List (In6Addr × Skb)}
    {S : Multiset (In6Addr × Skb)}
    (h : Swarm.Trace (T.Hop net) ↑(w.sent.map fun q => (addr, q)) tr S) :
    S.card ≤ peers.length ∧ ∀ c x, T.par c = some x →
      tr.countP (fun a => T.Goes x c a) ≤ peers.countP (fun l => Up T.par l c) ∧
      (x = addr → tr.countP (fun a => T.Goes c x a) ≤ peers.countP fun l => ¬ Up T.par l c) ∧
      (x ≠ addr → ∀ a ∈ tr, ¬ T.Goes c x a) := by
  obtain ⟨grp', hgrp', G⟩ := (B.safe_of_run hP N hrun).group
  obtain rfl := Option.some.inj (hgrp'.symm.trans hgrp)
  obtain ⟨hplaced, hsum⟩ := G.placed hsk hf hip hw
  have hS : ∀ a ∈ (↑(w.sent.map fun q => (addr, q)) : Multiset (In6Addr × Skb)),
      T.Moving u a := by
    intro a ha
    obtain ⟨q, hq, rfl⟩ := List.mem_map.mp (Multiset.mem_coe.mp ha)
    exact ⟨hplaced q hq, Or.inl rfl⟩
  have hend : ((↑(w.sent.map fun q => (addr, q)) : Multiset (In6Addr × Skb)).map
      fun a => a.2.endpoints).sum = ↑peers := by
    rw [Multiset.map_coe, Multiset.sum_coe, List.map_map]
    exact hsum
  refine ⟨RouterTree.card_le N hS hend h, fun c x hc => ⟨RouterTree.down_le N hS hend h hc, ?_, ?_⟩⟩
  · rintro rfl
    exact RouterTree.up_le N hS hend h hc
  · exact fun hx => RouterTree.not_goes_up N hS h hc hx

end Main

open Classical in
/-- The theorem for a MEADcast packet that leaves after the first phase, and the whole trace of it until
the receivers `2` and `3` have their copies. -/
theorem link_load_of_fork : ∃ (st₀ st : System) (w : Wire) (tr : List (In6Addr × Skb))
    (S : Multiset (In6Addr × Skb)), st₀.Started 0 forkTree ∧
    Relation.ReflTransGen (System.Step Args.default forkTree .fork forkNet) st₀ st ∧
    st.sender.txg = some .fork ∧ tx .fork 3 .fork Ipv6Hdr.sample (Udp.bare 7000) = some w ∧
    Swarm.Trace (forkTree.Hop forkNet) ↑(w.sent.map fun q => ((1 : In6Addr), q)) tr S ∧
    (∃ q, (2, q) ∈ S) ∧ (∃ q, (3, q) ∈ S) ∧ (∃ a ∈ tr, forkTree.Goes 1 4 a) ∧ S.card ≤ 2 ∧
    tr.countP (fun a => forkTree.Goes 1 4 a) ≤ [(3 : In6Addr), 2].countP (fun l => Up forkPar l 4) ∧
    ∀ a ∈ tr, ¬ forkTree.Goes 5 4 a := by
  obtain ⟨st₀, st, B, hrun, hgrp, -⟩ := exists_published_fork
  obtain ⟨w, hw⟩ : ∃ w, tx .fork 3 .fork Ipv6Hdr.sample (Udp.bare 7000) = some w := ⟨_, rfl⟩
  obtain ⟨S, hmoves, hcopy⟩ := exists_final_fork rfl hw
  obtain ⟨tr, htr⟩ := Swarm.Run.exists_trace hmoves
  have h2 := hcopy 2 (by simp)
  -- the packet has left the sender
  have hfirst : ∃ a ∈ tr, forkTree.Goes 1 4 a := by
    obtain ⟨q, hq⟩ : ∃ q, w.sent = [q] ∧ q.ip.daddr = 3 := by
      obtain rfl := Option.some.inj hw
      exact ⟨_, rfl, rfl⟩
    rw [hq.1] at htr
    generalize hs : (↑([q].map fun q => ((1 : In6Addr), q)) : Multiset (In6Addr × Skb)) = s at htr
    cases htr with
    | nil =>
        obtain ⟨q', hq'⟩ := h2
        rw [← hs] at hq'
        have he := congrArg Prod.fst (List.mem_singleton.mp (Multiset.mem_coe.mp hq'))
        exact absurd (show (2 : In6Addr) = 1 from he) (by decide)
    | @cons a out rest tr _ h htr =>
        have ha : a = (1, q) := by
          have hm : a ∈ a ::ₘ rest := Multiset.mem_cons_self _ _
          rw [← hs] at hm
          exact List.mem_singleton.mp (Multiset.mem_coe.mp hm)
        refine ⟨a, List.mem_cons_self, by rw [ha], .down rfl ?_⟩
        rw [ha, hq.2]
        exact Up.of_sUp (fork_sUp (by simp) (by simp))
  obtain ⟨hcard, hlinks⟩ := link_load_of_system forkTree_charted forkNet_equipped B hrun hgrp
    (fun _ _ => rfl) rfl le_rfl hw htr
  exact ⟨st₀, st, w, tr, S, B, hrun, hgrp, hw, htr, h2, hcopy 3 (by simp), hfirst, hcard,
    (hlinks 4 1 rfl).1, (hlinks 5 4 rfl).2.2 (by decide)⟩

end MEADcast
