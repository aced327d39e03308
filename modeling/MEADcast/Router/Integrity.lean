import MEADcast.Router.Failures

/-!
# Checksums along the way

Each router corrects the UDP checksum for the destination it writes.  From a field that is
correct modulo `0xffff` come, whatever routers a packet crosses and whatever fails there, only
fields that a receiver accepts, unless no router touched the packet at all.

## Main definitions

* `Skb.Data` — a MEADcast packet with a UDP datagram.
* `Skb.Makes` — what `md_data_fwd` makes of a packet.
* `Skb.Becomes` — what a call of `md_data_fwd` or a whole router makes of it.

## Main results

* `mdDataFwd_makes`, `ip6Forward_makes` — these are rewritten packets, or the packet as it was.
* `accepted_of_run` — the checksums after every run.
-/

namespace MEADcast

/-- The checksum field is correct modulo `0xffff`: the words that it covers add up to zero. -/
def Udp.Correct (u : Udp) (src dst : In6Addr) : Prop := 65535 ∣ wordSum (u.covered src dst)

/-- The receiver of the packet accepts its checksum. -/
def Skb.Accepted (skb : Skb) : Prop := skb.udp.Accepted skb.ip.saddr skb.ip.daddr

/-- A MEADcast data packet that carries a UDP datagram with a correct checksum. -/
structure Skb.Data (skb : Skb) (hd : MdcHdr) : Prop where
  md_eq : skb.md = some hd
  data : hd.dcv = false ∧ hd.rsp = false
  nxt_eq : hd.nxt = ipprotoUdp
  payload_len : skb.ip.payload_len.toNat = hd.rthdrLen + skb.udp.size
  correct : skb.udp.Correct skb.ip.saddr skb.ip.daddr

/-- The IPv6 header describes the datagram alone. -/
def Skb.Inner (skb : Skb) : Prop :=
  skb.ip.payload_len.toNat = skb.udp.size ∧ skb.ip.nexthdr = ipprotoUdp

/-- What `md_data_fwd` makes of a packet, on whichever route `d`: a plain packet to `a`, or the
packet with the destination `a` and another delivery map. -/
inductive Skb.Makes (skb : Skb) (hd : MdcHdr) : Skb → Prop
  | plain (a d : In6Addr) : Makes skb hd
      { ip := { skb.ip with
          payload_len := skb.ip.payload_len - BitVec.ofNat 16 hd.rthdrLen, nexthdr := hd.nxt,
          daddr := a }
        md := none
        udp := { skb.udp with check := updateCheck skb.udp.check skb.ip.daddr a }
        dst := d }
  | toward (m : BitVec 32) (a d : In6Addr) : Makes skb hd
      { ip := { skb.ip with daddr := a }
        md := some { hd with dlvm := m }
        udp := { skb.udp with check := updateCheck skb.udp.check skb.ip.daddr a }
        dst := d }

variable {net : Net} {skb : Skb} {hd : MdcHdr} {t t' : Tx}

/-! ## The packets of one call -/

theorem exists_setDst (net : Net) (t : Tx) (skb : Skb) (a : In6Addr) :
    ∃ e d n, setDst net t skb a = (e, { skb with dst := d }, { t with lookups := n }) := by
  unfold setDst
  split
  · exact ⟨_, skb.dst, _, rfl⟩
  · exact ⟨_, a, _, rfl⟩

theorem m2u_makes (hmd : skb.md = some hd) (net : Net) (t : Tx) (a : In6Addr) :
    ∃ e q n, m2u net t skb a = some (e, q, { t with lookups := n }) ∧
      skb.Makes hd q ∧ q.md = none := by
  obtain ⟨e, d, n, h⟩ := exists_setDst net t { skb with
    ip := { skb.ip with
      payload_len := skb.ip.payload_len - BitVec.ofNat 16 hd.rthdrLen, nexthdr := hd.nxt,
      daddr := a },
    md := none,
    udp := { skb.udp with check := updateCheck skb.udp.check skb.ip.daddr a } } a
  refine ⟨e, _, n, ?_, .plain a d, rfl⟩
  simp only [m2u, hmd, Option.bind_eq_bind, Option.bind_some]
  exact congrArg some h

/-- The loop over endpoints sends plain packets only, and it ends early only if a transmission
fails. -/
theorem m2uLoop_makes (hmd : skb.md = some hd) : ∀ (n : ℕ) (k : Int) (t : Tx)
    (r : Option Int) (t' : Tx), m2uLoop net skb hd n k t = some (r, t') →
    (∃ l, t'.sent = t.sent ++ l ∧ ∀ q ∈ l, skb.Makes hd q ∧ q.md = none) ∧
      (r = none → ∃ m, net.outputError m = true) := by
  intro n
  induction n with
  | zero =>
      intro k t r t' h
      obtain ⟨rfl, rfl⟩ : some k = r ∧ t = t' := by simpa [m2uLoop] using h
      exact ⟨⟨[], by simp, by simp⟩, by simp⟩
  | succ n ih =>
      intro k t r t' h
      rw [m2uLoop, Option.bind_eq_bind, Option.bind_eq_some_iff] at h
      obtain ⟨a, -, h⟩ := h
      obtain ⟨e, q, m, hm, hq⟩ := m2u_makes hmd net t a
      simp only [hm, Option.bind_eq_bind, Option.bind_some, dstOutput] at h
      cases hf : net.outputError t.outputs with
      | true =>
          simp only [hf, if_true, ne_eq, one_ne_zero, not_false_eq_true, Option.pure_def,
            Option.some.injEq, Prod.mk.injEq] at h
          obtain ⟨rfl, rfl⟩ := h
          exact ⟨⟨[], by simp, by simp⟩, fun _ => ⟨_, hf⟩⟩
      | false =>
          simp only [hf, Bool.false_eq_true, if_false, ne_eq, not_true_eq_false] at h
          obtain ⟨⟨l, hl, hall⟩, hr⟩ := ih _ _ _ _ h
          refine ⟨⟨q :: l, by simpa using hl, fun x hx => ?_⟩, hr⟩
          rcases List.mem_cons.mp hx with rfl | hx
          · exact hq
          · exact hall x hx

/-- What a call of `md_data_fwd` sends is rewritten; and so is the packet it leaves, unless a
transmission failed. -/
theorem mdDataFwd_makes (hmd : skb.md = some hd) {i j e : Int} {left : Skb}
    (h : mdDataFwd net t skb i j = some (e, left, t')) :
    (∃ l, t'.sent = t.sent ++ l ∧ ∀ q ∈ l, skb.Makes hd q ∧ q.md = none) ∧
      (skb.Makes hd left ∨ left = skb ∧ ∃ m, net.outputError m = true) := by
  simp only [mdDataFwd, hmd, Option.bind_eq_bind, Option.bind_some, Option.bind_eq_some_iff] at h
  obtain ⟨uni, -, h⟩ := h
  cases uni with
  | true =>
      simp only [if_true, Option.bind_eq_some_iff] at h
      obtain ⟨⟨r, t₁⟩, hloop, h⟩ := h
      obtain ⟨hsent, hr⟩ := m2uLoop_makes hmd _ _ _ _ _ hloop
      cases r with
      | none =>
          obtain ⟨-, rfl, rfl⟩ : (1 : Int) = e ∧ skb = left ∧ t₁ = t' := by simpa using h
          exact ⟨hsent, Or.inr ⟨rfl, hr rfl⟩⟩
      | some k =>
          obtain ⟨a, -, h⟩ := Option.bind_eq_some_iff.mp h
          obtain ⟨e', q, m, hm, hq, -⟩ := m2u_makes hmd net t₁ a
          obtain ⟨-, rfl, rfl⟩ : e' = e ∧ q = left ∧ { t₁ with lookups := m } = t' := by
            simpa [hm] using h
          exact ⟨hsent, Or.inl hq⟩
  | false =>
      simp only [Bool.false_eq_true, if_false, Option.bind_eq_some_iff] at h
      obtain ⟨a, -, m, -, h⟩ := h
      obtain ⟨e', d, n, hs⟩ := exists_setDst net { t with calls := t.calls ++ [(i, j)] }
        { skb with
          ip := { skb.ip with daddr := a }, md := some { hd with dlvm := m },
          udp := { skb.udp with check := updateCheck skb.udp.check skb.ip.daddr a } } a
      have h' := hs.symm.trans (Option.some.inj h)
      simp only [Prod.mk.injEq] at h'
      obtain ⟨-, rfl, rfl⟩ := h'
      exact ⟨⟨[], by simp, by simp⟩, Or.inl (.toward m a d)⟩

/-! ## The packets of a router -/

/-- A packet that leaves the router: a rewritten one, or the packet as it was if a
transmission failed. -/
def Net.Emits (net : Net) (skb : Skb) (hd : MdcHdr) (q : Skb) : Prop :=
  skb.Makes hd q ∨ q = skb ∧ ∃ m, net.outputError m = true

theorem mdDataLoop_makes (hmd : skb.md = some hd) : ∀ (n : ℕ) (i r1 r2 : Int) (t : Tx)
    (r : Option (Int × Int)) (t' : Tx), mdDataLoop net skb hd n i r1 r2 t = some (r, t') →
    (∃ l, t'.sent = t.sent ++ l ∧ ∀ q ∈ l, net.Emits skb hd q) ∧
      (r = none → ∃ m, net.outputError m = true) := by
  intro n
  induction n with
  | zero =>
      intro i r1 r2 t r t' h
      obtain ⟨rfl, rfl⟩ : some (r1, r2) = r ∧ t = t' := by simpa [mdDataLoop] using h
      exact ⟨⟨[], by simp, by simp⟩, by simp⟩
  | succ n ih =>
      intro i r1 r2 t r t' h
      rw [mdDataLoop] at h
      simp only [Option.bind_eq_bind, Option.bind_eq_some_iff] at h
      obtain ⟨rt, -, dlv, -, h⟩ := h
      split at h
      · exact ih _ _ _ _ _ _ h
      split at h
      · split at h
        · -- a copy is made for the segment behind `r1`
          obtain ⟨⟨e, cpy, t₁⟩, hfwd, h⟩ := Option.bind_eq_some_iff.mp h
          obtain ⟨⟨l₁, hl₁, h₁⟩, hleft⟩ := mdDataFwd_makes hmd hfwd
          have h₁' : ∀ q ∈ l₁, net.Emits skb hd q := fun q hq => Or.inl (h₁ q hq).1
          simp only [dstOutput] at h
          cases hf : net.outputError t₁.outputs with
          | true =>
              simp only [hf, if_true, ne_eq, one_ne_zero, not_false_eq_true, Option.pure_def,
                Option.some.injEq, Prod.mk.injEq] at h
              obtain ⟨rfl, rfl⟩ := h
              exact ⟨⟨l₁, hl₁, h₁'⟩, fun _ => ⟨_, hf⟩⟩
          | false =>
              simp only [hf, Bool.false_eq_true, if_false, ne_eq, not_true_eq_false] at h
              obtain ⟨⟨l, hl, hall⟩, hr⟩ := ih _ _ _ _ _ _ h
              refine ⟨⟨l₁ ++ cpy :: l, by simp [hl, hl₁], fun q hq => ?_⟩, hr⟩
              rcases List.mem_append.mp hq with hq | hq
              · exact h₁' q hq
              · rcases List.mem_cons.mp hq with rfl | hq
                · exact hleft
                · exact hall q hq
        · exact ih _ _ _ _ _ _ h
      split at h
      · exact ih _ _ _ _ _ _ h
      · exact ih _ _ _ _ _ _ h

theorem mdDataRcv_makes (hmd : skb.md = some hd) (hdata : hd.dcv = false ∧ hd.rsp = false) {e : Int}
    {left : Skb} (h : mdDataRcv net .start skb = some (e, left, t')) : ∀ q ∈ t'.sent ++ [left],
      net.Emits (skb.hopped hd) { hd with hops := hd.hops + 1 } q := by
  rw [mdDataRcv_eq_loop hmd hdata.1 hdata.2] at h
  obtain ⟨⟨r, t₁⟩, hloop, h⟩ := Option.bind_eq_some_iff.mp h
  obtain ⟨⟨l, hl, hall⟩, hr⟩ := mdDataLoop_makes
    (show (skb.hopped hd).md = _ from rfl) _ _ _ _ _ _ _ hloop
  rw [Tx.start, List.nil_append] at hl
  cases r with
  | none =>
      obtain ⟨-, rfl, rfl⟩ : (1 : Int) = e ∧ skb.hopped hd = left ∧ t₁ = t' := by
        simpa [mdDataEnd, Skb.hopped] using h
      intro q hq
      rcases List.mem_append.mp hq with hq | hq
      · exact hall q (hl ▸ hq)
      · exact Or.inr ⟨List.mem_singleton.mp hq, hr rfl⟩
  | some r =>
      obtain ⟨r1, r2⟩ := r
      obtain ⟨⟨e', left', t₂⟩, hfwd, h⟩ := Option.bind_eq_some_iff.mp h
      obtain ⟨-, rfl, rfl⟩ : (0 : Int) = e ∧ left' = left ∧ t₂ = t' := by simpa using h
      obtain ⟨⟨l₁, hl₁, h₁⟩, hleft⟩ := mdDataFwd_makes
        (show (skb.hopped hd).md = _ from rfl) hfwd
      intro q hq
      rw [hl₁, hl] at hq
      rcases List.mem_append.mp hq with hq | hq
      · rcases List.mem_append.mp hq with hq | hq
        · exact hall q hq
        · exact Or.inl (h₁ q hq).1
      · rw [List.mem_singleton.mp hq]
        exact hleft

/-- The packet with other hop counts in its two headers. -/
def Skb.aged (skb : Skb) (hd : MdcHdr) (x : BitVec 8) (y : BitVec 6) : Skb :=
  { skb with ip := { skb.ip with hop_limit := x }, md := some { hd with hops := y } }

/-- What leaves a router is rewritten, unless the router leaves MEADcast packets alone or a
transmission failed. -/
theorem ip6Forward_makes (hmd : skb.md = some hd) (hdata : hd.dcv = false ∧ hd.rsp = false)
    {out : List Skb} (h : ip6Forward net skb = some out) : ∃ x y, ∀ q ∈ out,
      (skb.aged hd x y).Makes { hd with hops := y } q ∨
        q = skb.aged hd x y ∧ (net.Handles skb hd → ∃ m, net.outputError m = true) := by
  by_cases H : net.Handles skb hd
  · rw [ip6Forward_eq H hdata.1, Option.map_eq_some_iff] at h
    obtain ⟨⟨e, left, t'⟩, hrcv, rfl⟩ := h
    refine ⟨skb.ip.hop_limit - 1, hd.hops + 1, fun q hq => ?_⟩
    have hq' := mdDataRcv_makes
      (show ({ skb with ip := { skb.ip with hop_limit := skb.ip.hop_limit - 1 } } : Skb).md = some hd
        from hmd) hdata hrcv q hq
    exact hq'.imp_right fun ⟨h1, h2⟩ => ⟨h1, fun _ => h2⟩
  · refine ⟨skb.ip.hop_limit - 1, hd.hops, fun q hq => Or.inr ⟨?_, fun h => absurd h H⟩⟩
    have haged : skb.aged hd (skb.ip.hop_limit - 1) hd.hops =
        { skb with ip := { skb.ip with hop_limit := skb.ip.hop_limit - 1 } } := by
      rw [Skb.aged, ← hmd]
    rw [haged]
    obtain rfl := Option.some.inj ((ip6Forward_idle hmd H).symm.trans h)
    exact List.mem_singleton.mp hq

/-! ## The checksums -/

/-- A receiver accepts a corrected field if the field was correct modulo `0xffff`. -/
theorem Udp.Correct.accepted {u : Udp} {src old : In6Addr} (h : u.Correct src old) (new : In6Addr) :
    ({ u with check := updateCheck u.check old new } : Udp).Accepted src new := by
  have hmod := updateCheck_modEq u.check old new
  rw [Udp.accepted_iff]
  refine ⟨updateCheck_ne_zero _ _ _, ?_⟩
  simp only [Udp.Correct, Udp.wordSum_covered, Udp.wordSum_bytes, Nat.ModEq] at h hmod ⊢
  omega

theorem Udp.Accepted.correct {u : Udp} {src dst : In6Addr} (h : u.Accepted src dst) :
    u.Correct src dst := (u.accepted_iff src dst).mp h |>.2

theorem Skb.Data.aged (H : skb.Data hd) (x : BitVec 8) (y : BitVec 6) :
    (skb.aged hd x y).Data { hd with hops := y } :=
  ⟨rfl, H.data, H.nxt_eq, H.payload_len, H.correct⟩

/-- The rewritten packet has a checksum that its receiver accepts; and it is a data packet
again, or a plain one with the length and the protocol of the datagram. -/
theorem Skb.Data.makes (H : skb.Data hd) {q : Skb} (hq : skb.Makes hd q) :
    q.Accepted ∧ ((∃ hd', q.Data hd') ∨ q.md = none ∧ q.Inner) := by
  cases hq with
  | plain a d =>
      refine ⟨H.correct.accepted a, Or.inr ⟨rfl, ?_, H.nxt_eq⟩⟩
      have hlen := H.payload_len
      have hlt := skb.ip.payload_len.isLt
      have hsub : (skb.ip.payload_len - BitVec.ofNat 16 hd.rthdrLen).toNat = skb.udp.size := by
        rw [BitVec.toNat_sub, BitVec.toNat_ofNat]
        omega
      exact hsub
  | toward m a d =>
      exact ⟨H.correct.accepted a,
        Or.inl ⟨_, rfl, H.data, H.nxt_eq, H.payload_len, (H.correct.accepted a).correct⟩⟩

/-- One event in the life of a packet: `q` comes out of a conversion, of a call of
`md_data_fwd`, or of a router. -/
inductive Skb.Becomes : Skb → Skb → Prop
  | converted {net : Net} {t t' : Tx} {p q : Skb} {a : In6Addr} {e : Int} :
      m2u net t p a = some (e, q, t') → Becomes p q
  | left {net : Net} {t t' : Tx} {p q : Skb} {i j e : Int} :
      mdDataFwd net t p i j = some (e, q, t') → Becomes p q
  | sent {net : Net} {t t' : Tx} {p q r : Skb} {i j e : Int} {l : List Skb} :
      mdDataFwd net t p i j = some (e, r, t') → t'.sent = t.sent ++ l → q ∈ l → Becomes p q
  | forwarded {net : Net} {p q : Skb} {out : List Skb} :
      ip6Forward net p = some out → q ∈ out → Becomes p q

/-- The packet has the addresses and the datagram of `p₀`. -/
def Skb.Untouched (p₀ p : Skb) : Prop :=
  p.ip.saddr = p₀.ip.saddr ∧ p.ip.daddr = p₀.ip.daddr ∧ p.udp = p₀.udp

/-- A data packet, or a plain packet that its receiver accepts. -/
def Skb.Sound (p : Skb) : Prop := (∃ hd, p.Data hd) ∨ p.md = none ∧ p.Inner ∧ p.Accepted

/-- One event keeps all this, and it rewrites the packet or leaves addresses and datagram
alone. -/
theorem Skb.Becomes.sound {p q : Skb} (h : p.Becomes q) (H : p.Sound) :
    q.Sound ∧ (q.Accepted ∨ p.Untouched q) := by
  have hmade : ∀ {p hd}, Skb.Data p hd → p.Makes hd q → q.Sound ∧ q.Accepted := by
    intro p hd H hq
    obtain ⟨h1, h2⟩ := H.makes hq
    exact ⟨h2.imp_right fun h => ⟨h.1, h.2, h1⟩, h1⟩
  rcases H with ⟨hd, H⟩ | ⟨hmd, hin, hacc⟩
  · cases h with
    | @converted net t _ _ _ a _ h =>
        obtain ⟨e, q', n, h1, h2, -⟩ := m2u_makes H.md_eq net t a
        obtain ⟨-, rfl, -⟩ : e = _ ∧ q' = q ∧ _ = _ := by simpa [h1] using h
        exact (hmade H h2).imp_right Or.inl
    | left h =>
        rcases (mdDataFwd_makes H.md_eq h).2 with h | ⟨rfl, -⟩
        · exact (hmade H h).imp_right Or.inl
        · exact ⟨Or.inl ⟨hd, H⟩, Or.inr ⟨rfl, rfl, rfl⟩⟩
    | sent h hl hq =>
        obtain ⟨l', hl', hall⟩ := (mdDataFwd_makes H.md_eq h).1
        obtain rfl := List.append_cancel_left (hl.symm.trans hl')
        exact (hmade H (hall q hq).1).imp_right Or.inl
    | forwarded h hq =>
        obtain ⟨x, y, hall⟩ := ip6Forward_makes H.md_eq H.data h
        rcases hall q hq with h | ⟨rfl, -⟩
        · exact (hmade (H.aged x y) h).imp_right Or.inl
        · exact ⟨Or.inl ⟨_, H.aged x y⟩, Or.inr ⟨rfl, rfl, rfl⟩⟩
  · cases h with
    | converted h => simp [m2u, hmd] at h
    | left h => simp [mdDataFwd, hmd] at h
    | sent h => simp [mdDataFwd, hmd] at h
    | forwarded h hq =>
        have hne : p.ip.nexthdr ≠ ipprotoRouting := by
          rw [hin.2]
          decide
        simp only [ip6Forward, hne, if_false] at h
        obtain rfl := Option.some.inj h
        obtain rfl := List.mem_singleton.mp hq
        exact ⟨Or.inr ⟨hmd, hin, hacc⟩, Or.inl hacc⟩

/-- Whatever happens to a data packet, in any number of routers and whatever fails in them, its
receiver accepts the checksum, or it still is the datagram that was sent; a plain packet is
accepted and has the length and the protocol of the datagram.  Every further conversion, every
packet sent by a call of `md_data_fwd` and, if no transmission fails, every packet that a call
or a router leaves has a field that is accepted. -/
theorem accepted_of_run {p₀ p : Skb} {hd₀ : MdcHdr} (H : p₀.Data hd₀)
    (hrun : Relation.ReflTransGen Skb.Becomes p₀ p) :
    (p.Accepted ∨ p₀.Untouched p) ∧ (p.md = none → p.Accepted ∧ p.Inner) ∧
      ∀ hd, p.md = some hd →
        (∀ net t a e q t', m2u net t p a = some (e, q, t') → q.Accepted ∧ q.Inner) ∧
        (∀ net t i j e left t', mdDataFwd net t p i j = some (e, left, t') →
          ∃ l, t'.sent = t.sent ++ l ∧ (∀ q ∈ l, q.Accepted ∧ q.Inner) ∧
            (net.Transmits → left.Accepted)) ∧
        ∀ net out, net.Handles p hd → net.Transmits → ip6Forward net p = some out →
          ∀ q ∈ out, q.Accepted := by
  have hsound : p.Sound ∧ (p.Accepted ∨ p₀.Untouched p) := by
    induction hrun with
    | refl => exact ⟨Or.inl ⟨hd₀, H⟩, Or.inr ⟨rfl, rfl, rfl⟩⟩
    | tail _ hstep ih =>
        obtain ⟨hs, ha⟩ := ih
        obtain ⟨hs', ha'⟩ := hstep.sound hs
        refine ⟨hs', ha'.elim Or.inl fun ⟨h1, h2, h3⟩ => ?_⟩
        rcases ha with ha | ⟨h4, h5, h6⟩
        · refine Or.inl ?_
          rw [Skb.Accepted, h1, h2, h3]
          exact ha
        · exact Or.inr ⟨h1.trans h4, h2.trans h5, h3.trans h6⟩
  refine ⟨hsound.2, fun hmd => ?_, fun hd hmd => ?_⟩
  · rcases hsound.1 with ⟨hd, h⟩ | ⟨-, h1, h2⟩
    · cases hmd.symm.trans h.md_eq
    · exact ⟨h2, h1⟩
  have Hp : p.Data hd := by
    rcases hsound.1 with ⟨hd', h⟩ | ⟨h, -⟩
    · obtain rfl := Option.some.inj (hmd.symm.trans h.md_eq)
      exact h
    · cases hmd.symm.trans h
  have hplain : ∀ q, p.Makes hd q → q.md = none → q.Accepted ∧ q.Inner := by
    intro q hq hnone
    obtain ⟨h1, ⟨hd', h2⟩ | ⟨-, h2⟩⟩ := Hp.makes hq
    · cases hnone.symm.trans h2.md_eq
    · exact ⟨h1, h2⟩
  refine ⟨?_, ?_, ?_⟩
  · intro net t a e q t' h
    obtain ⟨e', q', n, h1, h2, h3⟩ := m2u_makes hmd net t a
    obtain ⟨-, rfl, -⟩ : e' = e ∧ q' = q ∧ _ = t' := by simpa [h1] using h
    exact hplain _ h2 h3
  · intro net t i j e left t' h
    obtain ⟨⟨l, hl, hall⟩, hleft⟩ := mdDataFwd_makes hmd h
    refine ⟨l, hl, fun q hq => hplain q (hall q hq).1 (hall q hq).2, fun ht => ?_⟩
    rcases hleft with h | ⟨-, m, hm⟩
    · exact (Hp.makes h).1
    · cases (ht m).symm.trans hm
  · intro net out Hnet ht h q hq
    obtain ⟨x, y, hall⟩ := ip6Forward_makes hmd Hp.data h
    rcases hall q hq with h | ⟨-, h⟩
    · exact ((Hp.aged x y).makes h).1
    · obtain ⟨m, hm⟩ := h Hnet
      cases (ht m).symm.trans hm

/-- The sample packet with the lengths and the checksum of its datagram. -/
def Skb.summed : Skb :=
  { Skb.sample with
    ip := { Skb.sample.ip with payload_len := 108 }, udp := { Skb.sample.udp with check := 0xfbb6 } }

theorem Skb.summed_data : Skb.summed.Data (dataHdr [⟨1, [2]⟩, ⟨3, [4, 5]⟩]) :=
  ⟨rfl, ⟨rfl, rfl⟩, rfl, by decide, by unfold Udp.Correct; decide +kernel⟩

/-- The theorem for what the router with address 1 leaves of the sample packet, when it has served the
first receiver: the router with address 3 converts it for the other two. -/
theorem accepted_of_summed : ∃ out₁ p out, ip6Forward (Net.sample 1) Skb.summed = some out₁ ∧
    out₁.length = 2 ∧ p ∈ out₁ ∧ p.md.isSome ∧ ip6Forward (Net.sample 3) p = some out ∧
    out.length = 2 ∧ ∀ q ∈ out, q.md = none ∧ q.Accepted := by
  let hd₁ : MdcHdr := { dataHdr [⟨1, [2]⟩, ⟨3, [4, 5]⟩] with dlvm := 0x20000000, hops := 1 }
  have hall : (ip6Forward (Net.sample 1) Skb.summed).any fun out₁ => decide (out₁.length = 2 ∧
      (out₁[1]?).any fun p => decide (p.md = some hd₁ ∧ p.ip.nexthdr = ipprotoRouting ∧
        ((ip6Forward (Net.sample 3) p).any fun out => decide (out.length = 2 ∧ ∀ q ∈ out, q.md = none)) =
          true)) := by
    decide +kernel
  obtain ⟨out₁, h₁, hany⟩ := (Option.any_eq_true _ _).mp hall
  obtain ⟨hlen, hany⟩ := of_decide_eq_true hany
  obtain ⟨p, hp, hany⟩ := (Option.any_eq_true _ _).mp hany
  obtain ⟨hmd, hnext, hany⟩ := of_decide_eq_true hany
  obtain ⟨out, hout, hany⟩ := (Option.any_eq_true _ _).mp hany
  obtain ⟨hlen', hnone⟩ := of_decide_eq_true hany
  have hmem : p ∈ out₁ := List.mem_of_getElem? hp
  obtain ⟨-, -, h⟩ := accepted_of_run Skb.summed_data (.single (.forwarded h₁ hmem))
  have hacc := (h hd₁ hmd).2.2 (Net.sample 3) out ⟨rfl, hnext, hmd, rfl⟩ (fun _ => rfl) hout
  exact ⟨out₁, p, out, h₁, hlen, hmem, hmd ▸ rfl, hout, hlen', fun q hq => ⟨hnone q hq, hacc q hq⟩⟩

end MEADcast
