import MEADcast.Router.Conservation

/-!
# Indices of the data path

Nothing relates the number of addresses of an arriving packet to its maps.  The functions of
the data path return `none` as soon as they leave the address list or the 32 bits of a map, so
that it is enough to say when they return something.

## Main definitions

* `Net.InBounds` — all indices, shifts and calls of `md_rcv` on a packet are in range.
* `MdcHdr.Bounded` — the condition under which they are.

## Main results

* `inBounds_of_bounded` — the condition is enough, whatever fails on the way.
* `inBounds_iff_bounded` — it is necessary if transmissions succeed.
-/

namespace MEADcast

variable {net : Net} {skb : Skb} {hd : MdcHdr} {t : Tx}

/-- The router at position `p` is to be delivered. -/
def MdcHdr.Marked (hd : MdcHdr) (p : ℕ) : Prop :=
  hd.rtm.getMsbD p = true ∧ hd.dlvm.getMsbD p = true

/-- There are at most 32 addresses, some router among them is to be delivered, and the last
address is not such a router. -/
structure MdcHdr.Bounded (hd : MdcHdr) : Prop where
  dsts_le : hd.dsts.toNat ≤ 32
  marked : ∃ p, p < hd.dsts.toNat ∧ hd.Marked p
  last : ∀ p, hd.Marked p → p + 1 ≠ hd.dsts.toNat

/-- `md_rcv` reads only `dst[0 .. num_dst)` and bits `0 .. 31`, and calls `md_data_fwd` only
for index pairs within the address list. -/
def Net.InBounds (net : Net) (skb : Skb) (hd : MdcHdr) : Prop :=
  ∃ e left t, mdRcv net .start skb = some (e, left, t) ∧
    ∀ c ∈ t.calls, 0 ≤ c.1 ∧ c.1 < c.2 ∧ c.2 ≤ hd.dsts.toNat

/-! ## One segment -/

theorem dst_ne_none (hd : MdcHdr) {k : Int} (h0 : 0 ≤ k) (hk : k < hd.dsts.toNat) : ∃ a, hd.dst k = some a :=
  ⟨_, if_pos ⟨h0, hk⟩⟩

theorem dst_eq_none {k : Int} (hk : (hd.dsts.toNat : Int) ≤ k) : hd.dst k = none :=
  if_neg (by omega)

theorem m2uLoop_defined (net : Net) (hmd : skb.md = some hd) : ∀ (n : ℕ) (k : Int) (t : Tx), 0 ≤ k →
    k + n ≤ hd.dsts.toNat → ∃ r t', m2uLoop net skb hd n k t = some (r, t') ∧
      t'.calls = t.calls ∧ (r = none ∨ r = some (k + n)) := by
  intro n
  induction n with
  | zero => exact fun k t _ _ => ⟨_, _, rfl, rfl, Or.inr (by simp)⟩
  | succ n ih =>
      intro k t h0 hk
      obtain ⟨a, ha⟩ := dst_ne_none hd h0 (show k < hd.dsts.toNat by omega)
      obtain ⟨e, q, m, hm, -⟩ := m2u_spec hmd net t a
      cases hf : net.outputError t.outputs with
      | true => exact ⟨none, { t with lookups := m, outputs := t.outputs + 1 },
          by simp [m2uLoop, ha, hm, dstOutput, hf], rfl, Or.inl rfl⟩
      | false =>
          obtain ⟨r, t', h1, h2, h3⟩ := ih (k + 1) { t with
            lookups := m, outputs := t.outputs + 1, sent := t.sent ++ [q] } (by omega) (by omega)
          refine ⟨r, t', by simpa [m2uLoop, ha, hm, dstOutput, hf] using h1, h2, h3.imp_right ?_⟩
          rintro rfl
          congr 1
          push_cast
          omega

theorem unicasts_defined (net : Net) {i : Int} (len : Int) (h0 : 0 ≤ i) (hi : i < hd.dsts.toNat) :
    ∃ b, unicasts net hd i len = some b := by
  obtain ⟨a, ha⟩ := dst_ne_none hd h0 hi
  unfold unicasts
  split
  · exact ⟨true, rfl⟩
  · exact ⟨_, by rw [ha]; rfl⟩

/-- `md_data_fwd` between two positions of the address list stays inside it if its router is
not the last address. -/
theorem mdDataFwd_defined (net : Net) (hmd : skb.md = some hd) (t : Tx) {i j : ℕ} (hi : i < 32)
    (hj : j ≤ hd.dsts.toNat) (hlast : i + 1 < hd.dsts.toNat) : ∃ e left t',
    mdDataFwd net t skb i j = some (e, left, t') ∧ t'.calls = t.calls ++ [((i : Int), (j : Int))] := by
  obtain ⟨b, hb⟩ := unicasts_defined net ((j : Int) - i - 1)
    (show (0 : Int) ≤ i by omega) (show (i : Int) < hd.dsts.toNat by omega)
  simp only [mdDataFwd, hmd, Option.bind_eq_bind, Option.bind_some, hb]
  cases b with
  | true =>
      obtain ⟨r, t', h1, h2, h3⟩ := m2uLoop_defined net hmd
        ((j : Int) - 1 - (i + 1)).toNat ((i : Int) + 1)
        { t with calls := t.calls ++ [((i : Int), (j : Int))] } (by omega) (by omega)
      simp only [if_true, h1, Option.bind_some]
      rcases h3 with rfl | rfl
      · exact ⟨_, _, _, rfl, h2⟩
      · obtain ⟨a, ha⟩ := dst_ne_none hd
          (show 0 ≤ (i : Int) + 1 + ((j : Int) - 1 - (i + 1)).toNat by omega) (by omega)
        obtain ⟨e, q, m, hm, -⟩ := m2u_spec hmd net t' a
        exact ⟨e, q, { t' with lookups := m }, by simp only [ha, Option.bind_some, hm], h2⟩
  | false =>
      obtain ⟨a, ha⟩ := dst_ne_none hd (show 0 ≤ (i : Int) + 1 by omega) (by omega)
      simp only [Bool.false_eq_true, if_false, ha, Option.bind_some, shiftOne_getI hi]
      obtain ⟨e, q, m, hs, -⟩ := setDst_spec net
        { t with calls := t.calls ++ [((i : Int), (j : Int))] }
        { skb with
          ip := { skb.ip with daddr := a }, md := some { hd with dlvm := posBit i },
          udp := { skb.udp with check := updateCheck skb.udp.check skb.ip.daddr a } } a
      exact ⟨e, q, _, congrArg some hs, rfl⟩

/-- A router that is the last address: its first endpoint would lie behind the list. -/
theorem mdDataFwd_last (net : Net) (hmd : skb.md = some hd) (t : Tx) {i : ℕ}
    (hi : i + 1 = hd.dsts.toNat) :
    mdDataFwd net t skb i (hd.dsts.toNat : ℕ) = none := by
  have hnone : hd.dst ((i : Int) + 1) = none := dst_eq_none (by omega)
  have hrounds : (((hd.dsts.toNat : ℕ) : Int) - 1 - ((i : Int) + 1)).toNat = 0 := by omega
  simp only [mdDataFwd, hmd, Option.bind_eq_bind, Option.bind_some, hrounds, m2uLoop, hnone]
  cases unicasts net hd i ((hd.dsts.toNat : ℕ) - (i : Int) - 1) with
  | none => rfl
  | some b => cases b <;> rfl

theorem m2u_calls {a : In6Addr} {e : Int} {q : Skb} {t' : Tx}
    (h : m2u net t skb a = some (e, q, t')) : t'.calls = t.calls := by
  cases hmd : skb.md with
  | none => simp [m2u, hmd] at h
  | some hd =>
      obtain ⟨_, _, m, hm, -⟩ := m2u_spec hmd net t a
      rw [hm] at h
      obtain ⟨-, -, rfl⟩ : _ ∧ _ ∧ _ = t' := by simpa using h
      rfl

theorem m2uLoop_calls : ∀ (n : ℕ) (k : Int) (t : Tx) (r : Option Int) (t' : Tx),
    m2uLoop net skb hd n k t = some (r, t') → t'.calls = t.calls := by
  intro n
  induction n with
  | zero =>
      intro k t r t' h
      obtain ⟨-, rfl⟩ : _ ∧ t = t' := by simpa [m2uLoop] using h
      rfl
  | succ n ih =>
      intro k t r t' h
      simp only [m2uLoop, Option.bind_eq_bind, Option.bind_eq_some_iff] at h
      obtain ⟨a, -, ⟨e, q, t₁⟩, hm, h⟩ := h
      rw [← m2u_calls hm]
      simp only [dstOutput] at h
      cases hf : net.outputError t₁.outputs with
      | true =>
          obtain ⟨-, rfl⟩ : _ ∧ _ = t' := by simpa [hf] using h
          rfl
      | false =>
          exact ih (k + 1) { t₁ with outputs := t₁.outputs + 1, sent := t₁.sent ++ [q] } r t'
            (by simpa [hf] using h)

/-- Every call of `md_data_fwd` is recorded. -/
theorem mdDataFwd_calls {i j e : Int} {left : Skb} {t' : Tx}
    (h : mdDataFwd net t skb i j = some (e, left, t')) : t'.calls = t.calls ++ [(i, j)] := by
  simp only [mdDataFwd, Option.bind_eq_bind, Option.bind_eq_some_iff] at h
  obtain ⟨hd, -, b, -, h⟩ := h
  cases b with
  | true =>
      simp only [if_true, Option.bind_eq_some_iff] at h
      obtain ⟨⟨r, t₁⟩, h1, h⟩ := h
      have hc : t₁.calls = t.calls ++ [(i, j)] := m2uLoop_calls _ _ _ _ _ h1
      rw [← hc]
      cases r with
      | none =>
          obtain ⟨-, -, rfl⟩ : _ ∧ _ ∧ t₁ = t' := by simpa using h
          rfl
      | some k =>
          obtain ⟨a, -, h⟩ := Option.bind_eq_some_iff.mp h
          exact m2u_calls h
  | false =>
      simp only [Bool.false_eq_true, if_false, Option.bind_eq_some_iff] at h
      obtain ⟨a, -, m, -, h⟩ := h
      obtain ⟨_, _, n, hs, -⟩ := setDst_spec net { t with calls := t.calls ++ [(i, j)] }
        { skb with
          ip := { skb.ip with daddr := a }, md := some { hd with dlvm := m },
          udp := { skb.udp with check := updateCheck skb.udp.check skb.ip.daddr a } } a
      have h' := hs.symm.trans (Option.some.inj h)
      obtain ⟨-, -, rfl⟩ : _ ∧ _ ∧ _ = t' := by simpa using h'
      rfl

/-! ## All segments -/

/-- `md_data_fwd` is called for the segments in their order; the calls stop early only after a
transmission failed. -/
theorem serve_calls : ∀ (P : List (ℕ × ℕ)) (t : Tx) {e : Int} {left : Skb} {t' : Tx},
    serve net skb P t = some (e, left, t') → ∃ l,
      t'.calls = t.calls ++ l ∧ l <+: P.map (fun p => ((p.1 : Int), (p.2 : Int))) ∧
      (net.Transmits → l = P.map fun p => ((p.1 : Int), (p.2 : Int))) := by
  intro P
  induction P with
  | nil =>
      intro t e left t' h
      obtain ⟨-, -, rfl⟩ : _ ∧ _ ∧ t = t' := by simpa [serve] using h
      exact ⟨[], by simp, List.nil_prefix, fun _ => rfl⟩
  | cons p P ih =>
      intro t e left t' h
      cases P with
      | nil =>
          simp only [serve, Option.bind_eq_bind, Option.bind_eq_some_iff] at h
          obtain ⟨⟨e₁, q, t₁⟩, h1, h⟩ := h
          obtain ⟨-, -, rfl⟩ : _ ∧ _ ∧ t₁ = t' := by simpa using h
          exact ⟨_, mdDataFwd_calls h1, List.prefix_rfl, fun _ => rfl⟩
      | cons q P =>
          simp only [serve, Option.bind_eq_bind, Option.bind_eq_some_iff] at h
          obtain ⟨⟨e₁, cpy, t₁⟩, h1, h⟩ := h
          have hc := mdDataFwd_calls h1
          cases hout : net.outputError t₁.outputs with
          | true =>
              obtain ⟨-, -, rfl⟩ : _ ∧ _ ∧ { t₁ with outputs := t₁.outputs + 1 } = t' := by
                simpa [dstOutput, hout] using h
              refine ⟨_, hc, ⟨_, rfl⟩, fun ht => ?_⟩
              simp [ht t₁.outputs] at hout
          | false =>
              obtain ⟨l, h2, h3, h4⟩ := ih { t₁ with
                outputs := t₁.outputs + 1, sent := t₁.sent ++ [cpy] }
                (by simpa [dstOutput, hout] using h)
              refine ⟨(p.1, p.2) :: l, ?_, ?_, fun ht => ?_⟩
              · rw [h2, hc, List.append_assoc]
                rfl
              · exact List.cons_prefix_cons.mpr ⟨rfl, h3⟩
              · rw [h4 ht]
                rfl

/-- An index pair that stays inside the address list. -/
def MdcHdr.Fits (hd : MdcHdr) (p : ℕ × ℕ) : Prop :=
  p.1 < 32 ∧ p.1 < p.2 ∧ p.2 ≤ hd.dsts.toNat ∧ p.1 + 1 < hd.dsts.toNat

theorem serve_defined (net : Net) (hmd : skb.md = some hd) : ∀ (P : List (ℕ × ℕ)) (t : Tx),
    (∀ p ∈ P, hd.Fits p) → ∃ e left t', serve net skb P t = some (e, left, t') ∧
      ∀ c ∈ t'.calls, c ∈ t.calls ∨ ∃ p ∈ P, c = ((p.1 : Int), (p.2 : Int)) := by
  intro P
  induction P with
  | nil => exact fun t _ => ⟨0, skb, t, rfl, fun c hc => Or.inl hc⟩
  | cons p P ih =>
      intro t hP
      obtain ⟨h1, -, h3, h4⟩ := hP p List.mem_cons_self
      obtain ⟨e, cpy, t₁, hf, hc⟩ := mdDataFwd_defined net hmd t h1 h3 h4
      have hcalls : ∀ c ∈ t₁.calls, c ∈ t.calls ∨ c = ((p.1 : Int), (p.2 : Int)) := by
        intro c hm
        simpa [hc] using hm
      cases P with
      | nil =>
          refine ⟨0, cpy, t₁, by simp [serve, hf], fun c hm => (hcalls c hm).imp_right fun h => ?_⟩
          exact ⟨p, List.mem_cons_self, h⟩
      | cons q P =>
          cases hout : net.outputError t₁.outputs with
          | true =>
              refine ⟨1, skb, { t₁ with outputs := t₁.outputs + 1 },
                by simp [serve, hf, dstOutput, hout], fun c hm => (hcalls c hm).imp_right fun h => ?_⟩
              exact ⟨p, List.mem_cons_self, h⟩
          | false =>
              obtain ⟨e', left, t', hs, hc'⟩ := ih { t₁ with
                outputs := t₁.outputs + 1, sent := t₁.sent ++ [cpy] }
                fun x hx => hP x (List.mem_cons_of_mem _ hx)
              refine ⟨e', left, t', by simpa [serve, hf, dstOutput, hout] using hs, fun c hm => ?_⟩
              rcases hc' c hm with h | ⟨x, hx, h⟩
              · exact (hcalls c h).imp_right fun h => ⟨p, List.mem_cons_self, h⟩
              · exact Or.inr ⟨x, List.mem_cons_of_mem _ hx, h⟩

/-- Serving a router that is the last address leaves the list. -/
theorem serve_last (hmd : skb.md = some hd) (ht : net.Transmits) {i : ℕ}
    (hi : i + 1 = hd.dsts.toNat) : ∀ (P : List (ℕ × ℕ)) (t : Tx),
    serve net skb (P ++ [(i, hd.dsts.toNat)]) t = none := by
  intro P
  induction P with
  | nil => exact fun t => by simp only [List.nil_append, serve, mdDataFwd_last net hmd t hi]; rfl
  | cons p P ih =>
      intro t
      obtain ⟨q, l, hl⟩ : ∃ q l, P ++ [(i, hd.dsts.toNat)] = q :: l :=
        List.exists_cons_of_ne_nil (by simp)
      rw [List.cons_append, hl, serve]
      cases mdDataFwd net t skb p.1 p.2 with
      | none => rfl
      | some r =>
          have := ih { r.2.2 with outputs := r.2.2.outputs + 1, sent := r.2.2.sent ++ [r.2.1] }
          rw [hl] at this
          simpa [dstOutput, ht r.2.2.outputs] using this

/-! ## The whole packet -/

/-- The segments of an address list of `n` unknown addresses. -/
theorem exists_segsAt (rt : ℕ → Bool) (n : ℕ) : ∃ (x : ℕ) (g : List (ℕ × Seg Unit Unit)),
    (∀ j, j < x → rt j = false) ∧ SegsAt rt x g ∧ x + segSize (g.map Prod.snd) = n := by
  have h1 := splitSegs_addrs rt (List.replicate n ()) 0
  obtain ⟨h2, h3⟩ := splitSegs_at rt (List.replicate n ()) 0
  have h4 := congrArg List.length h1
  rw [Nat.zero_add] at h2 h3
  rw [List.length_append, length_segAddrs, List.length_replicate] at h4
  exact ⟨_, _, fun j hj => h2 j (Nat.zero_le j) hj, h3, h4⟩

/-- What `md_rcv` does with a data packet. -/
theorem mdRcv_eq (hmd : skb.md = some hd) (he : net.ip6_mdcast_enable = true)
    (hty : hd.type = ipv6Meadcast) (hdcv : hd.dcv = false) :
    mdRcv net .start skb = (mdDataRcv net .start skb).map fun r => (0, r.2.1, r.2.2) := by
  simp only [mdRcv, hmd, he, hty, hdcv, Option.bind_eq_bind, Option.bind_some, Bool.true_eq_false,
    ne_eq, not_true_eq_false, if_false, Bool.false_eq_true, Option.map_eq_bind]
  rfl

/-- With more than 32 addresses the loop reaches a position that has no bit. -/
theorem mdDataLoop_none (ht : net.Transmits) : ∀ (n i : ℕ) (r1 r2 : Int) (t : Tx), i ≤ 32 →
    32 < i + n → mdDataLoop net skb hd n i r1 r2 t = none := by
  intro n
  induction n with
  | zero => exact fun i _ _ _ h1 h2 => absurd h1 (by omega)
  | succ n ih =>
      intro i r1 r2 t h1 h2
      by_cases hi : i = 32
      · subst hi
        rfl
      · have hlt : i < 32 := by omega
        cases hrt : hd.rtm.getMsbD i with
        | false =>
            have := @mdDataLoop_skip net skb hd t r1 r2 n 1 i (by omega) fun j h3 h4 => by rwa [show j = i by omega]
            rw [Nat.add_comm n 1, this]
            exact ih (i + 1) r1 r2 t (by omega) (by omega)
        | true =>
            rw [mdDataLoop_router hlt hrt]
            have hrec : ∀ r1 r2 t, mdDataLoop net skb hd n (i + 1 : ℕ) r1 r2 t = none :=
              fun r1 r2 t => ih (i + 1) r1 r2 t (by omega) (by omega)
            simp only [hrec]
            split
            · split
              · cases mdDataFwd net t skb r1 (if r2 = 0 then (i : Int) else r2) with
                | none => rfl
                | some r => simp [dstOutput, ht r.2.2.outputs]
              · rfl
            · split <;> rfl

/-- The loop finds nothing if no router is marked. -/
theorem mdDataLoop_unmarked {α : Type*} {g : List (ℕ × Seg α α)} {i : ℕ}
    (hat : SegsAt hd.rtm.getMsbD i g) (hle : i + segSize (g.map Prod.snd) ≤ 32)
    (hno : ∀ p, p < i + segSize (g.map Prod.snd) → ¬ hd.Marked p) :
    mdDataLoop net skb hd (segSize (g.map Prod.snd)) i (-1) 0 t = some (some (-1, 0), t) := by
  induction g generalizing i with
  | nil => rfl
  | cons p g ih =>
      obtain ⟨rfl, hrt, hf, hat⟩ := hat
      simp only [List.map_cons, segSize_cons] at hle hno ⊢
      have hdlv : hd.dlvm.getMsbD p.1 = false := by
        by_contra h
        exact hno p.1 (by omega) ⟨hrt, by simpa using h⟩
      rw [show p.2.leaves.length + 1 + segSize (g.map Prod.snd) =
        p.2.leaves.length + segSize (g.map Prod.snd) + 1 by omega,
        mdDataLoop_router (by omega) hrt, if_neg (by omega), hdlv, if_neg (by simp),
        mdDataLoop_skip _ _ _ (by omega) fun j h1 h2 => hf j (by omega) (by
          simp only [Seg.size]; omega),
        show p.1 + 1 + p.2.leaves.length = p.1 + p.2.size by simp only [Seg.size]; omega]
      refine ih hat ?_ fun q hq => hno q ?_ <;> simp only [Seg.size] at * <;> omega

/-- The index pairs of a bounded header fit. -/
theorem MdcHdr.Bounded.fits (B : hd.Bounded) {α : Type*} {x : ℕ} {g : List (ℕ × Seg α α)}
    (hat : SegsAt hd.rtm.getMsbD x g) (hn : x + segSize (g.map Prod.snd) = hd.dsts.toNat) :
    ∀ p ∈ ends hd.dlvm.getMsbD g, hd.Fits p := by
  intro p hp
  obtain ⟨q, hq, rfl⟩ := List.mem_map.mp hp
  obtain ⟨hqg, hdlv⟩ := List.mem_filter.mp hq
  have hle := (hat.le hqg).2
  have hsz : 1 ≤ q.2.size := by simp [Seg.size]
  have hlast := B.last q.1 ⟨(hat.marked hqg).1, hdlv⟩
  have hdsts := B.dsts_le
  refine ⟨?_, ?_, ?_, ?_⟩ <;> dsimp only <;> omega

/-- The condition is enough, whatever fails on the way. -/
theorem inBounds_of_bounded (net : Net) (hmd : skb.md = some hd) (he : net.ip6_mdcast_enable = true)
    (hty : hd.type = ipv6Meadcast) (hdcv : hd.dcv = false) (hrsp : hd.rsp = false)
    (B : hd.Bounded) : net.InBounds skb hd := by
  obtain ⟨x, g, hx, hat, hn⟩ := exists_segsAt hd.rtm.getMsbD hd.dsts.toNat
  have hne : ends hd.dlvm.getMsbD g ≠ [] := by
    obtain ⟨p, hp, hrt, hdlv⟩ := B.marked
    have hxp : x ≤ p := by
      by_contra h
      simp [hx p (by omega)] at hrt
    obtain ⟨q, hq, rfl⟩ := hat.exists_seg hxp (by omega) hrt
    exact List.ne_nil_of_mem (List.mem_map.mpr ⟨q, List.mem_filter.mpr ⟨hq, hdlv⟩, rfl⟩)
  have hfits := B.fits hat hn
  obtain ⟨e, left, t, hs, hcalls⟩ := serve_defined net
    (show (skb.hopped hd).md = some { hd with hops := hd.hops + 1 } from rfl)
    (ends hd.dlvm.getMsbD g) .start hfits
  refine ⟨0, left, t, ?_, fun c hc => ?_⟩
  · rw [mdRcv_eq hmd he hty hdcv,
      mdDataRcv_eq_serve hmd hdcv hrsp hx hat hn B.dsts_le hne]
    exact congrArg (Option.map _) hs
  · rcases hcalls c hc with h | ⟨p, hp, rfl⟩
    · cases h
    · obtain ⟨-, h2, h3, -⟩ := hfits p hp
      refine ⟨?_, ?_, ?_⟩ <;> dsimp only <;> omega

/-- A packet with more than 32 addresses leaves the bitmaps. -/
theorem dsts_le_of_inBounds (ht : net.Transmits) (hmd : skb.md = some hd)
    (he : net.ip6_mdcast_enable = true) (hty : hd.type = ipv6Meadcast) (hdcv : hd.dcv = false)
    (hrsp : hd.rsp = false) (H : net.InBounds skb hd) : hd.dsts.toNat ≤ 32 := by
  by_contra hgt
  obtain ⟨e, left, t, h, -⟩ := H
  rw [mdRcv_eq hmd he hty hdcv, mdDataRcv_eq_loop hmd hdcv hrsp,
    mdDataLoop_none ht hd.dsts.toNat 0 (-1) 0 .start (by omega) (by omega)] at h
  cases h

/-- A packet without a router that is to be delivered makes `md_data_fwd` start at index
`-1`. -/
theorem marked_of_inBounds (hmd : skb.md = some hd) (he : net.ip6_mdcast_enable = true)
    (hty : hd.type = ipv6Meadcast) (hdcv : hd.dcv = false) (hrsp : hd.rsp = false)
    (hle : hd.dsts.toNat ≤ 32) (H : net.InBounds skb hd) :
    ∃ p, p < hd.dsts.toNat ∧ hd.Marked p := by
  by_contra hno
  obtain ⟨x, g, hx, hat, hn⟩ := exists_segsAt hd.rtm.getMsbD hd.dsts.toNat
  have hloop : mdDataLoop net (skb.hopped hd) { hd with hops := hd.hops + 1 } hd.dsts.toNat
      ((0 : ℕ) : Int) (-1) 0 .start = some (some (-1, 0), .start) := by
    have h1 := @mdDataLoop_skip net (skb.hopped hd) { hd with hops := hd.hops + 1 } .start (-1) 0
      (segSize (g.map Prod.snd)) x 0 (by omega) fun j _ h => hx j (by omega)
    rw [hn, Nat.zero_add] at h1
    rw [h1]
    exact mdDataLoop_unmarked hat (by omega) fun p hp hm => hno ⟨p, by omega, hm⟩
  obtain ⟨e, left, t, h, hcalls⟩ := H
  rw [mdRcv_eq hmd he hty hdcv, mdDataRcv_eq_loop hmd hdcv hrsp] at h
  change Option.map _ ((mdDataLoop net (skb.hopped hd) { hd with hops := hd.hops + 1 }
    hd.dsts.toNat ((0 : ℕ) : Int) (-1) 0 .start).bind _) = _ at h
  rw [hloop] at h
  simp only [Option.bind_some, mdDataEnd, if_true, Option.bind_eq_bind, Option.map_eq_some_iff,
    Option.bind_eq_some_iff] at h
  obtain ⟨r, ⟨⟨e', left', t'⟩, hf, hr⟩, h⟩ := h
  obtain rfl := Option.some.inj hr
  obtain ⟨-, -, rfl⟩ : _ ∧ _ ∧ t' = t := by simpa using h
  have hmem : ((-1 : Int), (hd.dsts.toNat : Int)) ∈ t'.calls := by
    rw [mdDataFwd_calls hf]
    exact List.mem_append_right _ List.mem_cons_self
  have := (hcalls _ hmem).1
  dsimp only at this
  omega

/-- A segment that ends with the list is the last one. -/
theorem SegsAt.eq_concat {α : Type*} {rt : ℕ → Bool} {g : List (ℕ × Seg α α)} {i : ℕ}
    (H : SegsAt rt i g) {p : ℕ × Seg α α} (hp : p ∈ g)
    (hlast : p.1 + 1 = i + segSize (g.map Prod.snd)) : ∃ g', g = g' ++ [p] := by
  induction g generalizing i with
  | nil => cases hp
  | cons q g ih =>
      obtain ⟨hq, -, -, Hg⟩ := H
      simp only [List.map_cons, segSize_cons] at hlast
      rcases List.mem_cons.mp hp with rfl | hp
      · cases g with
        | nil => exact ⟨[], rfl⟩
        | cons r g =>
            simp only [List.map_cons, segSize_cons] at hlast
            omega
      · obtain ⟨g', rfl⟩ := ih Hg hp (by simp only [Seg.size]; omega)
        exact ⟨q :: g', rfl⟩

/-- A router that is the last address and is to be delivered leads out of the list. -/
theorem last_of_inBounds (ht : net.Transmits) (hmd : skb.md = some hd)
    (he : net.ip6_mdcast_enable = true) (hty : hd.type = ipv6Meadcast) (hdcv : hd.dcv = false)
    (hrsp : hd.rsp = false) (hle : hd.dsts.toNat ≤ 32) (H : net.InBounds skb hd) {p : ℕ}
    (hp : hd.Marked p) : p + 1 ≠ hd.dsts.toNat := by
  intro hlast
  obtain ⟨x, g, hx, hat, hn⟩ := exists_segsAt hd.rtm.getMsbD hd.dsts.toNat
  have hxp : x ≤ p := by
    by_contra h
    have := hp.1
    simp [hx p (by omega)] at this
  obtain ⟨q, hq, rfl⟩ := hat.exists_seg hxp (by omega) hp.1
  obtain ⟨g', rfl⟩ := hat.eq_concat hq (by omega)
  have hsz := (hat.le hq).2
  have hends : ends hd.dlvm.getMsbD (g' ++ [q]) =
      ends hd.dlvm.getMsbD g' ++ [(q.1, hd.dsts.toNat)] := by
    have hsize : q.1 + q.2.size = hd.dsts.toNat := by
      simp only [Seg.size] at hsz ⊢
      omega
    simp [ends, hp.2, hsize]
  obtain ⟨e, left, t, h, -⟩ := H
  rw [mdRcv_eq hmd he hty hdcv, mdDataRcv_eq_serve hmd hdcv hrsp hx hat hn hle (by simp [hends]),
    hends] at h
  have hnone := serve_last (show (skb.hopped hd).md = some { hd with hops := hd.hops + 1 } from rfl)
    ht hlast (ends hd.dlvm.getMsbD g') .start
  change Option.map _ (serve net (skb.hopped hd) _ .start) = _ at h
  rw [hnone] at h
  cases h

/-- For every data packet the indices of the data path are in range, whatever the router's
settings and whatever fails, if there are at most 32 addresses, some router among them is to be
delivered and the last address is not such a router; and where transmissions succeed only
then. -/
theorem inBounds_iff (skb : Skb) (hd : MdcHdr) (hmd : skb.md = some hd)
    (hty : hd.type = ipv6Meadcast) (hdcv : hd.dcv = false) (hrsp : hd.rsp = false) :
    (hd.Bounded → ∀ net : Net, net.ip6_mdcast_enable = true → net.InBounds skb hd) ∧
      ∀ net : Net, net.ip6_mdcast_enable = true → net.Transmits →
        (net.InBounds skb hd ↔ hd.Bounded) := by
  refine ⟨fun B net he => inBounds_of_bounded net hmd he hty hdcv hrsp B, fun net he ht => ?_⟩
  refine ⟨fun H => ?_, inBounds_of_bounded net hmd he hty hdcv hrsp⟩
  have hle := dsts_le_of_inBounds ht hmd he hty hdcv hrsp H
  exact ⟨hle, marked_of_inBounds hmd he hty hdcv hrsp hle H,
    fun p hp => last_of_inBounds ht hmd he hty hdcv hrsp hle H hp⟩

/-- Well-formed headers meet the condition. -/
theorem MdcHdr.WellFormed.bounded (W : hd.WellFormed) : hd.Bounded := by
  have hlt : ∀ p, hd.Marked p → p < hd.dsts.toNat := by
    intro p hp
    by_contra h
    have := W.beyond p (by omega)
    simp [hp.1] at this
  obtain ⟨p, hp⟩ := W.nonempty
  have hm : hd.Marked p := ⟨W.sub p hp, hp⟩
  refine ⟨W.dsts_le, ⟨p, hlt p hm, hm⟩, fun q hq => ?_⟩
  have := (W.endpoint q (hlt q hq) hq.1).1
  omega

/-- The theorem at a packet for two routers. -/
theorem inBounds_sample : (Net.sample 3).InBounds Skb.sample (dataHdr [⟨1, [2]⟩, ⟨3, [4, 5]⟩]) :=
  ((inBounds_iff Skb.sample _ rfl rfl rfl rfl).2 (Net.sample 3) rfl fun _ => rfl).mpr
    Skb.sample_wellFormed.bounded

/-- A packet whose delivery map is empty: `md_data_fwd` starts at index `-1` and reads the
address in front of the list. -/
theorem out_of_bounds : ¬ (Net.sample 3).InBounds
    { Skb.sample with md := some { dataHdr [⟨1, [2]⟩, ⟨3, [4, 5]⟩] with dlvm := 0 } }
    { dataHdr [⟨1, [2]⟩, ⟨3, [4, 5]⟩] with dlvm := 0 } := by
  rintro ⟨e, left, t, h, -⟩
  cases h

end MEADcast
