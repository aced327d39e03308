import MEADcast.Router.Forward
import MEADcast.Segments

/-!
# What the data path does

`md_data_rcv` keeps two indices while it runs over the positions of a header.  It amounts
to a recursion over the segments that are still to be delivered: each of them but the last
is served through a copy, the last one through the packet itself.

## Main definitions

* `serve` — the recursion over index pairs.
* `Skb.packets` — the packets a router makes for a segment.
* `Net.Clear`, `Net.FailsAt` — which of the next transmissions fails first.
* `Net.Forwards`, `Net.Serves` — what is sent and left for one segment, and for all of them.

## Main results

* `mdDataRcv_eq_serve` — the loop with two indices is that recursion.
* `mdDataFwd_spec` — what happens to a segment if a transmission fails and if none does.
* `serve_spec` — what happens to all of them.
-/

namespace MEADcast

variable {net : Net} {skb : Skb} {hdr : MdcHdr} {t : Tx}

/-! ## The loop over the positions -/

/-- Serve the segments between the index pairs: all but the last one through copies. -/
def serve (net : Net) (skb : Skb) : List (ℕ × ℕ) → Tx → Option (Int × Skb × Tx)
  | [], t => some (0, skb, t)
  | [p], t => do
      let (_, skb, t) ← mdDataFwd net t skb p.1 p.2
      return (0, skb, t)
  | p :: q :: l, t => do
      let (_, cpy, t) ← mdDataFwd net t skb p.1 p.2
      let (err, t) := dstOutput net t cpy
      if err ≠ 0 then return (1, skb, t)
      serve net skb (q :: l) t

/-- The index pairs of the segments whose router is marked. -/
def ends {α : Type*} (dlv : ℕ → Bool) (g : List (ℕ × Seg α α)) : List (ℕ × ℕ) :=
  (g.filter fun p => dlv p.1).map fun p => (p.1, p.1 + p.2.size)

/-- What `md_data_rcv` does after its loop. -/
def mdDataEnd (net : Net) (skb : Skb) (hdr : MdcHdr) (r : Option (Int × Int) × Tx) :
    Option (Int × Skb × Tx) :=
  match r.1 with
  | none => some (1, skb, r.2)
  | some (r1, r2) => do
      let r2 := if r2 = 0 then (hdr.dsts.toNat : Int) else r2
      let (_, skb, t) ← mdDataFwd net r.2 skb r1 r2
      return (0, skb, t)

theorem checkBit_getI (var : BitVec 32) {i : ℕ} (hi : i < 32) :
    checkBit var (getI i) = some (var.getMsbD i) := by
  have h1 : ((31 : Int) - i).toNat = 31 - i := by omega
  rw [checkBit, getI, if_pos (by omega), h1, BitVec.getMsbD]
  simp [hi]

theorem shiftOne_getI {i : ℕ} (hi : i < 32) : shiftOne (getI i) = some (posBit i) := by
  have h1 : ((31 : Int) - i).toNat = 31 - i := by omega
  rw [shiftOne, getI, if_pos (by omega), h1, posBit]

/-- Positions that are not marked change nothing. -/
theorem mdDataLoop_skip {r1 r2 : Int} (n : ℕ) : ∀ (m i : ℕ), i + m ≤ 32 →
    (∀ j, i ≤ j → j < i + m → hdr.rtm.getMsbD j = false) →
    mdDataLoop net skb hdr (m + n) i r1 r2 t = mdDataLoop net skb hdr n (i + m : ℕ) r1 r2 t := by
  intro m
  induction m with
  | zero => simp
  | succ m ih =>
      intro i hi hrt
      have := ih (i + 1) (by omega) fun j h1 h2 => hrt j (by omega) (by omega)
      rw [show m + 1 + n = (m + n) + 1 by omega, mdDataLoop, checkBit_getI _ (by omega),
        checkBit_getI _ (by omega), hrt i le_rfl (by omega)]
      simp only [Option.bind_eq_bind, Option.bind_some, Bool.not_false, if_true]
      rw [show ((i : Int) + 1) = ((i + 1 : ℕ) : Int) by push_cast; rfl, this]
      congr 1
      push_cast
      omega

/-- One marked position. -/
theorem mdDataLoop_router {r1 r2 : Int} {n i : ℕ} (hi : i < 32) (hrt : hdr.rtm.getMsbD i = true) :
    mdDataLoop net skb hdr (n + 1) i r1 r2 t =
      if 0 ≤ r1 then
        if hdr.dlvm.getMsbD i then do
          let (_, cpy, t) ← mdDataFwd net t skb r1 (if r2 = 0 then (i : Int) else r2)
          let (err, t) := dstOutput net t cpy
          if err ≠ 0 then return (none, t)
          mdDataLoop net skb hdr n (i + 1 : ℕ) i 0 t
        else mdDataLoop net skb hdr n (i + 1 : ℕ) r1 (if r2 = 0 then (i : Int) else r2) t
      else if hdr.dlvm.getMsbD i then mdDataLoop net skb hdr n (i + 1 : ℕ) i r2 t
      else mdDataLoop net skb hdr n (i + 1 : ℕ) r1 r2 t := by
  rw [mdDataLoop, checkBit_getI _ hi, checkBit_getI _ hi, hrt]
  simp only [Option.bind_eq_bind, Option.bind_some, Bool.not_true, Bool.false_eq_true, if_false]
  rfl

section Loop

variable {α : Type*} {g : List (ℕ × Seg α α)}

/-- The loop while the segment between `a` and `b` is not served yet. -/
theorem mdDataLoop_open {i : ℕ} (hat : SegsAt hdr.rtm.getMsbD i g)
    (hn : i + segSize (g.map Prod.snd) = hdr.dsts.toNat) (hle : hdr.dsts.toNat ≤ 32) {a b : ℕ}
    {r2 : Int} (hb : b ≠ 0) (hr2 : (r2 = 0 ∧ b = i) ∨ r2 = b) :
    (mdDataLoop net skb hdr (segSize (g.map Prod.snd)) i a r2 t).bind (mdDataEnd net skb hdr) =
      serve net skb ((a, b) :: ends hdr.dlvm.getMsbD g) t := by
  induction g generalizing i a b r2 t with
  | nil =>
      have hr2' : (if r2 = 0 then (hdr.dsts.toNat : Int) else r2) = b := by
        simp only [List.map_nil, segSize_nil] at hn
        split
        · omega
        · omega
      simp [mdDataLoop, mdDataEnd, hr2', ends, serve]
  | cons p g ih =>
      obtain ⟨rfl, hrt, hf, hat⟩ := hat
      simp only [List.map_cons, segSize_cons] at hn ⊢
      have hi : p.1 < 32 := by omega
      have hr2' : (if r2 = 0 then (p.1 : Int) else r2) = b := by
        split
        · omega
        · omega
      have hskip : ∀ (r1 r2 : Int) (t : Tx),
          mdDataLoop net skb hdr (p.2.leaves.length + segSize (g.map Prod.snd)) (p.1 + 1 : ℕ) r1 r2 t =
            mdDataLoop net skb hdr (segSize (g.map Prod.snd)) (p.1 + p.2.size : ℕ) r1 r2 t := by
        intro r1 r2 t
        rw [mdDataLoop_skip _ _ _ (by omega) fun j h1 h2 => hf j (by omega) (by
          simp only [Seg.size]; omega)]
        congr 2
        simp only [Seg.size]
        omega
      rw [show p.2.leaves.length + 1 + segSize (g.map Prod.snd) =
        p.2.leaves.length + segSize (g.map Prod.snd) + 1 by omega, mdDataLoop_router hi hrt,
        if_pos (by omega), hr2']
      have hsz : p.1 + p.2.size + segSize (g.map Prod.snd) = hdr.dsts.toNat := by
        simp only [Seg.size]
        omega
      by_cases hd : hdr.dlvm.getMsbD p.1 = true
      · have he : ends hdr.dlvm.getMsbD (p :: g) =
            (p.1, p.1 + p.2.size) :: ends hdr.dlvm.getMsbD g := by
          simp [ends, hd]
        rw [he, if_pos hd, serve]
        simp only [Option.bind_eq_bind, Option.bind_assoc]
        congr 1
        funext r
        by_cases herr : (dstOutput net r.2.2 r.2.1).1 = 0
        · simp only [herr, ne_eq, not_true_eq_false, if_false, hskip]
          exact ih hat hsz (by simp [Seg.size]) (Or.inl ⟨rfl, rfl⟩)
        · simp [herr, mdDataEnd]
      · have he : ends hdr.dlvm.getMsbD (p :: g) = ends hdr.dlvm.getMsbD g := by
          simp [ends, hd]
        rw [he, if_neg hd, hskip]
        exact ih hat hsz hb (Or.inr rfl)

/-- The loop before the first segment that is to be delivered. -/
theorem mdDataLoop_idle {i : ℕ} (hat : SegsAt hdr.rtm.getMsbD i g)
    (hn : i + segSize (g.map Prod.snd) = hdr.dsts.toNat) (hle : hdr.dsts.toNat ≤ 32)
    (hne : ends hdr.dlvm.getMsbD g ≠ []) :
    (mdDataLoop net skb hdr (segSize (g.map Prod.snd)) i (-1) 0 t).bind (mdDataEnd net skb hdr) =
      serve net skb (ends hdr.dlvm.getMsbD g) t := by
  induction g generalizing i with
  | nil => simp [ends] at hne
  | cons p g ih =>
      obtain ⟨rfl, hrt, hf, hat⟩ := hat
      simp only [List.map_cons, segSize_cons] at hn ⊢
      have hi : p.1 < 32 := by omega
      have hsz : p.1 + p.2.size + segSize (g.map Prod.snd) = hdr.dsts.toNat := by
        simp only [Seg.size]
        omega
      have hskip : ∀ r1 : Int,
          mdDataLoop net skb hdr (p.2.leaves.length + segSize (g.map Prod.snd)) (p.1 + 1 : ℕ) r1 0 t =
            mdDataLoop net skb hdr (segSize (g.map Prod.snd)) (p.1 + p.2.size : ℕ) r1 0 t := by
        intro r1
        rw [mdDataLoop_skip _ _ _ (by omega) fun j h1 h2 => hf j (by omega) (by
          simp only [Seg.size]; omega)]
        congr 2
        simp only [Seg.size]
        omega
      rw [show p.2.leaves.length + 1 + segSize (g.map Prod.snd) =
        p.2.leaves.length + segSize (g.map Prod.snd) + 1 by omega, mdDataLoop_router hi hrt,
        if_neg (by omega)]
      by_cases hd : hdr.dlvm.getMsbD p.1 = true
      · have he : ends hdr.dlvm.getMsbD (p :: g) =
            (p.1, p.1 + p.2.size) :: ends hdr.dlvm.getMsbD g := by
          simp [ends, hd]
        rw [he, if_pos hd, hskip]
        exact mdDataLoop_open hat hsz hle (by simp [Seg.size]) (Or.inl ⟨rfl, rfl⟩)
      · have he : ends hdr.dlvm.getMsbD (p :: g) = ends hdr.dlvm.getMsbD g := by
          simp [ends, hd]
        rw [he] at hne ⊢
        rw [if_neg hd, hskip]
        exact ih hat hsz hne

end Loop

/-- `md_data_rcv` is its loop and what comes after it, with the hop count incremented. -/
theorem mdDataRcv_eq_loop (hmd : skb.md = some hdr) (hdcv : hdr.dcv = false)
    (hrsp : hdr.rsp = false) : mdDataRcv net t skb =
      (mdDataLoop net { skb with md := some { hdr with hops := hdr.hops + 1 } }
        { hdr with hops := hdr.hops + 1 } hdr.dsts.toNat ((0 : ℕ) : Int) (-1) 0 t).bind
        (mdDataEnd net { skb with md := some { hdr with hops := hdr.hops + 1 } }
          { hdr with hops := hdr.hops + 1 }) := by
  rw [mdDataRcv]
  simp only [hmd, hdcv, hrsp, Option.bind_eq_bind, Option.bind_some, Bool.false_eq_true, or_self,
    if_false]
  rfl

/-- `md_data_rcv` serves the segments that are marked in both maps, with the hop count of the
packet incremented. -/
theorem mdDataRcv_eq_serve (hmd : skb.md = some hdr) (hdcv : hdr.dcv = false)
    (hrsp : hdr.rsp = false) {α : Type*} {x : ℕ} {g : List (ℕ × Seg α α)}
    (hx : ∀ j, j < x → hdr.rtm.getMsbD j = false) (hat : SegsAt hdr.rtm.getMsbD x g)
    (hn : x + segSize (g.map Prod.snd) = hdr.dsts.toNat) (hle : hdr.dsts.toNat ≤ 32)
    (hne : ends hdr.dlvm.getMsbD g ≠ []) :
    mdDataRcv net t skb = serve net { skb with md := some { hdr with hops := hdr.hops + 1 } }
      (ends hdr.dlvm.getMsbD g) t := by
  have hskip := @mdDataLoop_skip net { skb with md := some { hdr with hops := hdr.hops + 1 } }
    { hdr with hops := hdr.hops + 1 } t (-1) 0 (segSize (g.map Prod.snd)) x 0 (by omega)
    fun j _ h => hx j (by omega)
  have hidle := @mdDataLoop_idle net { skb with md := some { hdr with hops := hdr.hops + 1 } }
    { hdr with hops := hdr.hops + 1 } t α g x hat hn hle hne
  rw [hn, Nat.zero_add] at hskip
  rw [← hskip] at hidle
  rw [mdDataRcv_eq_loop hmd hdcv hrsp]
  exact hidle

/-! ## One segment -/

/-- The plain packet to `a` that `m2u` makes of `skb`. -/
def Skb.plain (skb : Skb) (hdr : MdcHdr) (a : In6Addr) : Skb where
  ip := { skb.ip with
    payload_len := skb.ip.payload_len - BitVec.ofNat 16 hdr.rthdrLen, nexthdr := hdr.nxt, daddr := a }
  md := none
  udp := { skb.udp with check := updateCheck skb.udp.check skb.ip.daddr a }
  dst := a

/-- The MEADcast packet to `a` in which only the router at position `i` is marked. -/
def Skb.toward (skb : Skb) (hdr : MdcHdr) (i : ℕ) (a : In6Addr) : Skb where
  ip := { skb.ip with daddr := a }
  md := some { hdr with dlvm := posBit i }
  udp := { skb.udp with check := updateCheck skb.udp.check skb.ip.daddr a }
  dst := a

/-- Whether the router turns a segment into plain packets. -/
def Net.unicasts (net : Net) (s : Seg In6Addr In6Addr) : Bool :=
  s.leaves.length < net.ip6_mdcast_min_dsts || net.ipv6_chk_addr s.router

/-- The packets the router makes for a segment. -/
def Skb.packets (net : Net) (skb : Skb) (hdr : MdcHdr) (p : ℕ × Seg In6Addr In6Addr) : List Skb :=
  if net.unicasts p.2 then p.2.leaves.map (skb.plain hdr)
  else [skb.toward hdr p.1 (p.2.leaves.headD 0)]

/-- No route lookup fails. -/
def Net.Routes (net : Net) : Prop := ∀ n, net.routeError n = false

/-- No transmission fails. -/
def Net.Transmits (net : Net) : Prop := ∀ n, net.outputError n = false

/-- `q` is `p` on the route to its destination, or, if a lookup failed, on another one. -/
def Net.Sends (net : Net) (p q : Skb) : Prop :=
  ∃ d, q = { p with dst := d } ∧ (net.Routes → d = p.dst)

/-- None of the `n` transmissions from number `a` on fails. -/
def Net.Clear (net : Net) (a n : ℕ) : Prop := ∀ b < n, net.outputError (a + b) = false

/-- The first of the `n` transmissions from number `a` on that fails is the one `c` places
further. -/
def Net.FailsAt (net : Net) (a n c : ℕ) : Prop :=
  c < n ∧ net.outputError (a + c) = true ∧ net.Clear a c

theorem Net.clear_zero (net : Net) (a : ℕ) : net.Clear a 0 := fun _ h => absurd h (Nat.not_lt_zero _)

theorem Net.Transmits.clear (H : net.Transmits) (a n : ℕ) : net.Clear a n := fun _ _ => H _

theorem Net.clear_or_failsAt (net : Net) (a n : ℕ) : net.Clear a n ∨ ∃ c, net.FailsAt a n c := by
  induction n with
  | zero => exact Or.inl (net.clear_zero a)
  | succ n ih =>
      rcases ih with h | ⟨c, hc, h1, h2⟩
      · cases hn : net.outputError (a + n) with
        | true => exact Or.inr ⟨n, Nat.lt_succ_self n, hn, h⟩
        | false =>
            refine Or.inl fun b hb => ?_
            rcases Nat.lt_succ_iff_lt_or_eq.mp hb with hb | rfl
            · exact h b hb
            · exact hn
      · exact Or.inr ⟨c, Nat.lt_succ_of_lt hc, h1, h2⟩

theorem Net.Clear.of_succ {a n : ℕ} (h : net.Clear a (n + 1)) :
    net.outputError a = false ∧ net.Clear (a + 1) n := by
  refine ⟨h 0 (Nat.succ_pos n), fun b hb => ?_⟩
  rw [Nat.add_assoc, Nat.add_comm 1 b]
  exact h (b + 1) (Nat.succ_lt_succ hb)

theorem Net.FailsAt.of_succ {a n c : ℕ} (h : net.FailsAt a (n + 1) (c + 1)) :
    net.outputError a = false ∧ net.FailsAt (a + 1) n c := by
  obtain ⟨h1, h2, h3⟩ := h
  obtain ⟨h4, h5⟩ := h3.of_succ
  refine ⟨h4, Nat.lt_of_succ_lt_succ h1, ?_, h5⟩
  rw [Nat.add_assoc, Nat.add_comm 1 c]
  exact h2

theorem Net.FailsAt.unique {a n m c d : ℕ} (h : net.FailsAt a n c) (h' : net.FailsAt a m d) :
    c = d := by
  rcases Nat.lt_trichotomy c d with hlt | rfl | hlt
  · exact absurd ((h'.2.2 c hlt).symm.trans h.2.1) (by decide)
  · rfl
  · exact absurd ((h.2.2 d hlt).symm.trans h'.2.1) (by decide)

theorem Net.Clear.not_failsAt {a n c : ℕ} (h : net.Clear a n) : ¬ net.FailsAt a n c := fun hf =>
  absurd ((h c hf.1).symm.trans hf.2.1) (by decide)

/-- The first failure lies behind transmissions that are known to succeed. -/
theorem Net.FailsAt.of_clear {a n m c : ℕ} (h : net.FailsAt a n c) (hc : net.Clear a m) :
    m ≤ c ∧ net.FailsAt (a + m) (n - m) (c - m) := by
  have hmc : m ≤ c := by
    by_contra hlt
    exact absurd ((hc c (by omega)).symm.trans h.2.1) (by decide)
  refine ⟨hmc, ?_, ?_, fun b hb => ?_⟩
  · have := h.1
    omega
  · rw [Nat.add_assoc, Nat.add_sub_cancel' hmc]
    exact h.2.1
  · rw [Nat.add_assoc]
    exact h.2.2 _ (by omega)

theorem Net.Clear.drop {a n : ℕ} (h : net.Clear a n) (m : ℕ) : net.Clear (a + m) (n - m) := by
  intro b hb
  rw [Nat.add_assoc]
  exact h _ (by omega)

theorem Net.Clear.mono {a n m : ℕ} (h : net.Clear a n) (hm : m ≤ n) : net.Clear a m :=
  fun b hb => h b (by omega)

theorem setDst_spec (net : Net) (t : Tx) (skb : Skb) (a : In6Addr) :
    ∃ e q n, setDst net t skb a = (e, q, { t with lookups := n }) ∧
      net.Sends { skb with dst := a } q := by
  unfold setDst
  cases h : net.routeError t.lookups with
  | true =>
      refine ⟨_, _, _, rfl, skb.dst, rfl, fun H => ?_⟩
      rw [H] at h
      cases h
  | false => exact ⟨_, _, _, rfl, a, rfl, fun _ => rfl⟩

theorem m2u_spec (hmd : skb.md = some hdr) (net : Net) (t : Tx) (a : In6Addr) :
    ∃ e q n, m2u net t skb a = some (e, q, { t with lookups := n }) ∧
      net.Sends (skb.plain hdr a) q := by
  obtain ⟨e, q, n, h, hs⟩ := setDst_spec net t { skb with
    ip := { skb.ip with
      payload_len := skb.ip.payload_len - BitVec.ofNat 16 hdr.rthdrLen, nexthdr := hdr.nxt,
      daddr := a },
    md := none,
    udp := { skb.udp with check := updateCheck skb.udp.check skb.ip.daddr a } } a
  refine ⟨e, q, n, ?_, hs⟩
  simp only [m2u, hmd, Option.bind_eq_bind, Option.bind_some]
  exact congrArg some h

/-- The loop over all endpoints of a segment but the last one. -/
theorem m2uLoop_spec (hmd : skb.md = some hdr) : ∀ (ls : List In6Addr) (k : ℕ) (t : Tx),
    (∀ (q : ℕ) (a : In6Addr), ls[q]? = some a → hdr.dst ((k + q : ℕ) : Int) = some a) →
    ∃ r t' l, m2uLoop net skb hdr ls.length k t = some (r, t') ∧ t'.calls = t.calls ∧
      t'.sent = t.sent ++ l ∧
      (net.Clear t.outputs ls.length → r = some ((k + ls.length : ℕ) : Int) ∧
        t'.outputs = t.outputs + ls.length ∧ List.Forall₂ net.Sends (ls.map (skb.plain hdr)) l) ∧
      ∀ c, net.FailsAt t.outputs ls.length c → r = none ∧ t'.outputs = t.outputs + c + 1 ∧
        List.Forall₂ net.Sends ((ls.take c).map (skb.plain hdr)) l := by
  intro ls
  induction ls with
  | nil =>
      intro k t _
      exact ⟨_, _, [], rfl, rfl, by simp, fun _ => ⟨rfl, rfl, .nil⟩, fun c h => absurd h.1 (Nat.not_lt_zero c)⟩
  | cons a ls ih =>
      intro k t hls
      have ha : hdr.dst (k : Int) = some a := hls 0 a rfl
      obtain ⟨e, q, n, hm, hs⟩ := m2u_spec hmd net t a
      rw [List.length_cons, m2uLoop]
      simp only [ha, hm, Option.bind_eq_bind, Option.bind_some, dstOutput]
      cases hf : net.outputError t.outputs with
      | true =>
          refine ⟨none, { t with lookups := n, outputs := t.outputs + 1 }, [], by simp, rfl, by simp,
            fun h => ?_, fun c h => ?_⟩
          · simp [(h.of_succ).1] at hf
          · cases c with
            | zero => exact ⟨rfl, rfl, .nil⟩
            | succ c => simp [(h.of_succ).1] at hf
      | false =>
          obtain ⟨r, t', l, h1, h2, h3, h4, h5⟩ := ih (k + 1)
            { t with lookups := n, outputs := t.outputs + 1, sent := t.sent ++ [q] }
            fun q b hb => by
              have := hls (q + 1) b (by simpa using hb)
              rw [← this]
              congr 2
              omega
          refine ⟨r, t', q :: l, by simpa [hf] using h1, h2, by simpa using h3, fun h => ?_,
            fun c h => ?_⟩
          · obtain ⟨e1, e2, e3⟩ := h4 h.of_succ.2
            refine ⟨?_, ?_, .cons hs e3⟩
            · rw [e1]
              congr 2
              omega
            · rw [e2]
              dsimp only
              omega
          · cases c with
            | zero => exact absurd (hf.symm.trans h.2.1) (by decide)
            | succ c =>
                obtain ⟨e1, e2, e3⟩ := h5 c h.of_succ.2
                refine ⟨e1, ?_, .cons hs e3⟩
                rw [e2]
                dsimp only
                omega

/-- The header has the addresses of a segment behind its position, and at least one of them
is an endpoint. -/
structure MdcHdr.Holds (hdr : MdcHdr) (p : ℕ × Seg In6Addr In6Addr) : Prop where
  pos_lt : p.1 < 32
  leaves_ne : p.2.leaves ≠ []
  dst_eq : ∀ (k : ℕ) (a : In6Addr), (p.2.router :: p.2.leaves)[k]? = some a →
    hdr.dst ((p.1 + k : ℕ) : Int) = some a

theorem Skb.packets_ne_nil (net : Net) (skb : Skb) {p : ℕ × Seg In6Addr In6Addr} (H : hdr.Holds p) :
    skb.packets net hdr p ≠ [] := by
  unfold Skb.packets
  split
  · simpa using H.leaves_ne
  · simp

/-- A call of `md_data_fwd` for the packets `L` of a segment, from transmission `a` to `b`: what it sent
and the packet it left. -/
structure Net.Forwards (net : Net) (skb : Skb) (L : List Skb) (a : ℕ) (l : List Skb) (left : Skb) (b : ℕ) :
    Prop where
  clear : net.Clear a (L.length - 1) → b = a + (L.length - 1) ∧ List.Forall₂ net.Sends L (l ++ [left])
  fails : ∀ c, net.FailsAt a (L.length - 1) c →
    left = skb ∧ b = a + c + 1 ∧ List.Forall₂ net.Sends (L.take c) l

/-- Whether the receivers of a segment are served by unicast. -/
theorem MdcHdr.Holds.unicasts_eq {p : ℕ × Seg In6Addr In6Addr} (H : hdr.Holds p) (net : Net) :
    unicasts net hdr p.1 (((p.1 + p.2.size : ℕ) : Int) - p.1 - 1) = some (net.unicasts p.2) := by
  have h0 : hdr.dst (p.1 : Int) = some p.2.router := H.dst_eq 0 _ rfl
  have hlen : (((p.1 + p.2.size : ℕ) : Int) - p.1 - 1 < net.ip6_mdcast_min_dsts) ↔
      p.2.leaves.length < net.ip6_mdcast_min_dsts := by
    simp only [Seg.size]
    omega
  unfold unicasts
  by_cases h : p.2.leaves.length < net.ip6_mdcast_min_dsts
  · rw [if_pos (hlen.mpr h)]
    simp [Net.unicasts, h]
  · rw [if_neg (mt hlen.mp h), h0]
    simp [Net.unicasts, h]

/-- The packet goes on to the first receiver of the segment. -/
theorem mdDataFwd_toward (net : Net) (hmd : skb.md = some hdr) {p : ℕ × Seg In6Addr In6Addr}
    (H : hdr.Holds p) (hu : net.unicasts p.2 = false) (t : Tx) : ∃ e left t',
    mdDataFwd net t skb p.1 (p.1 + p.2.size : ℕ) = some (e, left, t') ∧ t'.sent = t.sent ∧
      net.Forwards skb (skb.packets net hdr p) t.outputs [] left t'.outputs := by
  have hown := H.unicasts_eq net
  obtain ⟨i, r, ls⟩ := p
  obtain ⟨hi, hne, hdst⟩ := H
  dsimp only at hi hne hdst hu hown
  obtain ⟨a, ls, rfl⟩ := List.exists_cons_of_ne_nil hne
  have h1 : hdr.dst ((i : Int) + 1) = some a := hdst 1 a rfl
  have hpk : skb.packets net hdr (i, ⟨r, a :: ls⟩) = [skb.toward hdr i a] := by
    simp [Skb.packets, hu]
  let t₁ : Tx := { t with calls := t.calls ++
    [((i : Int), ((i + (⟨r, a :: ls⟩ : Seg In6Addr In6Addr).size : ℕ) : Int))] }
  obtain ⟨e, q, n, hs, hq⟩ := setDst_spec net t₁ { skb with
      ip := { skb.ip with daddr := a }, md := some { hdr with dlvm := posBit i },
      udp := { skb.udp with check := updateCheck skb.udp.check skb.ip.daddr a } } a
  rw [hpk]
  refine ⟨e, q, { t₁ with lookups := n }, ?_, rfl, fun _ => ⟨rfl, .cons hq .nil⟩,
    fun c h => absurd h.1 (Nat.not_lt_zero c)⟩
  simp only [mdDataFwd, hmd, Option.bind_eq_bind, Option.bind_some, hown, hu, Bool.false_eq_true,
    if_false, h1, shiftOne_getI hi]
  exact congrArg some hs

/-- All receivers of the segment are served by unicast. -/
theorem mdDataFwd_plain (net : Net) (hmd : skb.md = some hdr) {p : ℕ × Seg In6Addr In6Addr}
    (H : hdr.Holds p) (hu : net.unicasts p.2 = true) (t : Tx) : ∃ e left t' l,
    mdDataFwd net t skb p.1 (p.1 + p.2.size : ℕ) = some (e, left, t') ∧ t'.sent = t.sent ++ l ∧
      net.Forwards skb (skb.packets net hdr p) t.outputs l left t'.outputs := by
  have hown := H.unicasts_eq net
  obtain ⟨i, r, ls⟩ := p
  obtain ⟨-, hne, hdst⟩ := H
  dsimp only at hne hdst hu hown
  obtain ⟨ms, a, rfl⟩ := List.eq_nil_or_concat ls |>.resolve_left hne
  rw [List.concat_eq_append] at hdst hown hu ⊢
  have hpk : skb.packets net hdr (i, ⟨r, ms ++ [a]⟩) =
      ms.map (skb.plain hdr) ++ [skb.plain hdr a] := by
    simp [Skb.packets, hu]
  have hlen : (ms.map (skb.plain hdr) ++ [skb.plain hdr a]).length - 1 = ms.length := by simp
  have hms : ∀ (q : ℕ) (b : In6Addr), ms[q]? = some b →
      hdr.dst ((i + 1 + q : ℕ) : Int) = some b := by
    intro q b hb
    rw [← hdst (q + 1) b]
    · congr 2
      omega
    · obtain ⟨hq, -⟩ := List.getElem?_eq_some_iff.mp hb
      rw [List.getElem?_cons_succ, List.getElem?_append_left hq, hb]
  have ha : hdr.dst ((i + 1 + ms.length : ℕ) : Int) = some a := by
    rw [← hdst (ms.length + 1) a]
    · congr 2
      omega
    · simp
  let t₁ : Tx := { t with calls := t.calls ++
    [((i : Int), ((i + (⟨r, ms ++ [a]⟩ : Seg In6Addr In6Addr).size : ℕ) : Int))] }
  obtain ⟨res, t', l, h1, -, h3, h4, h5⟩ := @m2uLoop_spec net skb hdr hmd ms (i + 1) t₁ hms
  have hn : (((i + (⟨r, ms ++ [a]⟩ : Seg In6Addr In6Addr).size : ℕ) : Int) - 1 -
      ((i : Int) + 1)).toNat = ms.length := by
    simp only [Seg.size, List.length_append, List.length_singleton]
    omega
  -- the loop leaves the last receiver to the packet itself
  have hrun : mdDataFwd net t skb i (i + (⟨r, ms ++ [a]⟩ : Seg In6Addr In6Addr).size : ℕ) =
      res.elim (some (1, skb, t')) fun k => (hdr.dst k).bind fun daddr => m2u net t' skb daddr := by
    simp only [mdDataFwd, hmd, Option.bind_eq_bind, Option.bind_some, hown, hu, if_true]
    rw [hn, show ((i : Int) + 1) = ((i + 1 : ℕ) : Int) by push_cast; rfl, h1]
    cases res <;> rfl
  rw [hpk, hrun]
  rcases net.clear_or_failsAt t.outputs ms.length with hc | ⟨c, hc⟩
  · obtain ⟨rfl, e2, e3⟩ := h4 hc
    obtain ⟨e, q, n, hm, hq⟩ := m2u_spec hmd net t' a
    refine ⟨e, q, { t' with lookups := n }, l, by rw [Option.elim_some, ha, Option.bind_some, hm], h3,
      fun _ => ⟨by rw [hlen]; exact e2, List.rel_append e3 (.cons hq .nil)⟩, fun c hf => ?_⟩
    rw [hlen] at hf
    exact absurd hf hc.not_failsAt
  · obtain ⟨rfl, -, -⟩ := h5 c hc
    refine ⟨1, skb, t', l, rfl, h3, fun hf => ?_, fun c' hf => ⟨rfl, ?_⟩⟩
    · rw [hlen] at hf
      exact absurd hc hf.not_failsAt
    · rw [hlen] at hf
      obtain ⟨-, e2, e3⟩ := h5 c' hf
      refine ⟨e2, ?_⟩
      rw [List.take_append_of_le_length (by simpa using le_of_lt hf.1), ← List.map_take]
      exact e3

/-- One segment: its last packet is the one that `md_data_fwd` leaves, the others were sent.
If one of these transmissions fails the packet is left as it was. -/
theorem mdDataFwd_spec (net : Net) (hmd : skb.md = some hdr) {p : ℕ × Seg In6Addr In6Addr}
    (H : hdr.Holds p) (t : Tx) : ∃ e left t' l,
    mdDataFwd net t skb p.1 (p.1 + p.2.size : ℕ) = some (e, left, t') ∧ t'.sent = t.sent ++ l ∧
      net.Forwards skb (skb.packets net hdr p) t.outputs l left t'.outputs := by
  cases hu : net.unicasts p.2 with
  | true => exact mdDataFwd_plain net hmd H hu t
  | false =>
      obtain ⟨e, left, t', h, hsent, F⟩ := mdDataFwd_toward net hmd H hu t
      exact ⟨e, left, t', [], h, by rw [hsent, List.append_nil], F⟩

/-! ## All segments -/

/-- The packets the router makes for a list of segments. -/
def Skb.allPackets (net : Net) (skb : Skb) (hdr : MdcHdr) (P : List (ℕ × Seg In6Addr In6Addr)) :
    List Skb :=
  P.flatMap (skb.packets net hdr)

/-- What leaves the router or stays with it when the first of the transmissions that serve the
segments fails `c` places from the start: the packets before it, then the packet as it was,
and nothing else if the failure is the first transmission of all and either does not concern a
copy or also keeps that copy from leaving. -/
structure Net.Broken (net : Net) (skb : Skb) (hdr : MdcHdr) (P : List (ℕ × Seg In6Addr In6Addr))
    (a c : ℕ) (out : List Skb) : Prop where
  split : ∃ l rest, out = l ++ skb :: rest ∧
    List.Forall₂ net.Sends ((skb.allPackets net hdr P).take c) l ∧
    (c = 0 → (rest = [] ↔ P.length = 1 ∨
      (P.head?.map fun p => (skb.packets net hdr p).length) = some 1 ∨
      net.outputError (a + 1) = true))

/-- Every packet that leaves stems from a segment or is the packet as it was. -/
def Net.Stems (net : Net) (skb : Skb) (hdr : MdcHdr) (P : List (ℕ × Seg In6Addr In6Addr))
    (out : List Skb) : Prop :=
  ∀ q ∈ out, q = skb ∨ ∃ p ∈ skb.allPackets net hdr P, net.Sends p q

theorem exists_of_forall₂ {α β : Type*} {R : α → β → Prop} {l : List α} {l' : List β}
    (h : List.Forall₂ R l l') {b : β} (hb : b ∈ l') : ∃ a ∈ l, R a b := by
  induction h with
  | nil => cases hb
  | cons hab _ ih =>
      rcases List.mem_cons.mp hb with rfl | hb
      · exact ⟨_, List.mem_cons_self, hab⟩
      · obtain ⟨a, ha, hr⟩ := ih hb
        exact ⟨a, List.mem_cons_of_mem _ ha, hr⟩

theorem Net.Stems.mono {P Q : List (ℕ × Seg In6Addr In6Addr)} {out : List Skb} (hPQ : P ⊆ Q)
    (h : net.Stems skb hdr P out) : net.Stems skb hdr Q out := by
  intro q hq
  refine (h q hq).imp_right fun ⟨p, hp, hs⟩ => ⟨p, ?_, hs⟩
  obtain ⟨x, hx, hpx⟩ := List.mem_flatMap.mp hp
  exact List.mem_flatMap.mpr ⟨x, hPQ hx, hpx⟩

theorem Net.Stems.append {P : List (ℕ × Seg In6Addr In6Addr)} {out out' : List Skb}
    (h : net.Stems skb hdr P out) (h' : net.Stems skb hdr P out') :
    net.Stems skb hdr P (out ++ out') := by
  intro q hq
  rcases List.mem_append.mp hq with hq | hq
  · exact h q hq
  · exact h' q hq

theorem Net.Stems.of_forall₂ {P : List (ℕ × Seg In6Addr In6Addr)} {l out : List Skb}
    (h : List.Forall₂ net.Sends l out) (hl : l ⊆ skb.allPackets net hdr P) :
    net.Stems skb hdr P out := by
  intro q hq
  obtain ⟨p, hp, hs⟩ := exists_of_forall₂ h hq
  exact Or.inr ⟨p, hl hp, hs⟩

theorem Skb.allPackets_pos (net : Net) (skb : Skb) {p : ℕ × Seg In6Addr In6Addr} {P : List (ℕ × Seg In6Addr In6Addr)}
    (hP : ∀ x ∈ p :: P, hdr.Holds x) : 0 < (skb.allPackets net hdr (p :: P)).length := by
  have := List.length_pos_of_ne_nil
    (Skb.packets_ne_nil net skb (hP p List.mem_cons_self))
  simp only [Skb.allPackets, List.flatMap_cons, List.length_append]
  omega

/-- A segment that is not the last one: the packet that `md_data_fwd` leaves is a copy, which
`dst_output` is called with. -/
theorem serve_cons {p q : ℕ × Seg In6Addr In6Addr} {P : List (ℕ × Seg In6Addr In6Addr)}
    {e : Int} {cpy : Skb} {t₁ : Tx}
    (h : mdDataFwd net t skb p.1 (p.1 + p.2.size : ℕ) = some (e, cpy, t₁)) :
    serve net skb ((p :: q :: P).map fun p => (p.1, p.1 + p.2.size)) t =
      if net.outputError t₁.outputs then some (1, skb, { t₁ with outputs := t₁.outputs + 1 })
      else serve net skb ((q :: P).map fun p => (p.1, p.1 + p.2.size))
        { t₁ with outputs := t₁.outputs + 1, sent := t₁.sent ++ [cpy] } := by
  simp only [List.map_cons, serve, h, Option.bind_eq_bind, Option.bind_some, dstOutput]
  cases net.outputError t₁.outputs <;> simp

/-- What leaves the router or stays with it when the segments are served from transmission `a` on. -/
structure Net.Serves (net : Net) (skb : Skb) (hdr : MdcHdr) (P : List (ℕ × Seg In6Addr In6Addr)) (a : ℕ)
    (e : Int) (out : List Skb) : Prop where
  stems : net.Stems skb hdr P out
  clear : net.Clear a ((skb.allPackets net hdr P).length - 1) →
    e = 0 ∧ List.Forall₂ net.Sends (skb.allPackets net hdr P) out
  fails : ∀ c, net.FailsAt a ((skb.allPackets net hdr P).length - 1) c → net.Broken skb hdr P a c out

namespace Net.Forwards

variable {p q : ℕ × Seg In6Addr In6Addr} {P : List (ℕ × Seg In6Addr In6Addr)} {a b : ℕ} {l out : List Skb}
  {cpy : Skb} {e : Int}

theorem stems (F : net.Forwards skb (skb.packets net hdr p) a l cpy b)
    (P : List (ℕ × Seg In6Addr In6Addr)) : net.Stems skb hdr (p :: P) (l ++ [cpy]) := by
  have hsub : skb.packets net hdr p ⊆ skb.allPackets net hdr (p :: P) := fun x hx =>
    List.mem_flatMap.mpr ⟨p, List.mem_cons_self, hx⟩
  rcases net.clear_or_failsAt a ((skb.packets net hdr p).length - 1) with hc | ⟨c, hc⟩
  · exact .of_forall₂ (F.clear hc).2 hsub
  · obtain ⟨rfl, -, hl⟩ := F.fails c hc
    exact (Net.Stems.of_forall₂ hl fun x hx => hsub (List.mem_of_mem_take hx)).append
      fun q hq => Or.inl (List.mem_singleton.mp hq)

/-- The last segment. -/
theorem serves (F : net.Forwards skb (skb.packets net hdr p) a l cpy b) :
    net.Serves skb hdr [p] a 0 (l ++ [cpy]) := by
  have hall : skb.allPackets net hdr [p] = skb.packets net hdr p := by simp [Skb.allPackets]
  refine ⟨F.stems [], fun hc => ⟨rfl, ?_⟩, fun c hc => ⟨l, [], ?_, ?_, fun _ => iff_of_true rfl (Or.inl rfl)⟩⟩
  · rw [hall] at hc ⊢
    exact (F.clear hc).2
  · rw [hall] at hc
    rw [(F.fails c hc).1]
  · rw [hall] at hc ⊢
    exact (F.fails c hc).2.2

/-- The transmission that fails is one of those for this segment. -/
theorem exists_failsAt {L : List Skb} (F : net.Forwards skb L a l cpy b) (hpos : 0 < L.length)
    (hout : net.outputError b = true) : ∃ d, net.FailsAt a L.length d ∧
      List.Forall₂ net.Sends (L.take d) l ∧ (d = 0 → L.length = 1 ∨ net.outputError (a + 1) = true) := by
  rcases net.clear_or_failsAt a (L.length - 1) with hc | ⟨d, hd⟩
  · obtain ⟨ho, hf⟩ := F.clear hc
    have hlen := hf.length_eq
    simp only [List.length_append, List.length_singleton] at hlen
    have htake := List.forall₂_take (L.length - 1) hf
    rw [List.take_left' (by omega)] at htake
    exact ⟨_, ⟨by omega, ho ▸ hout, hc⟩, htake, by omega⟩
  · obtain ⟨-, ho, hf⟩ := F.fails d hd
    have hlt := hd.1
    refine ⟨d, ⟨by omega, hd.2⟩, hf, fun h0 => Or.inr ?_⟩
    subst h0
    rwa [ho] at hout

/-- The copy of a segment that is not the last one does not leave: the loop ends. -/
theorem serves_of_fails (F : net.Forwards skb (skb.packets net hdr p) a l cpy b) (hp : hdr.Holds p)
    (hout : net.outputError b = true) (hQ : 0 < (skb.allPackets net hdr (q :: P)).length) :
    net.Serves skb hdr (p :: q :: P) a 1 (l ++ [skb]) := by
  have hpos := List.length_pos_of_ne_nil (Skb.packets_ne_nil net skb hp)
  have hall : skb.allPackets net hdr (p :: q :: P) =
      skb.packets net hdr p ++ skb.allPackets net hdr (q :: P) := rfl
  obtain ⟨d, hd, hf, hd0⟩ := F.exists_failsAt hpos hout
  refine ⟨fun x hx => ?_, fun hc => ?_, fun c hc =>
    ⟨l, [], rfl, ?_, fun h0 => iff_of_true rfl (Or.inr ?_)⟩⟩
  · rcases List.mem_append.mp hx with hx | hx
    · exact F.stems _ x (List.mem_append_left _ hx)
    · exact Or.inl (List.mem_singleton.mp hx)
  · rw [hall, List.length_append] at hc
    exact absurd hd (hc.mono (by omega)).not_failsAt
  · rw [hc.unique hd, hall, List.take_append_of_le_length (le_of_lt hd.1)]
    exact hf
  · simpa using hd0 (hc.unique hd ▸ h0)

/-- The first failure when the copy leaves and the rest is served. -/
theorem broken_append (F : net.Forwards skb (skb.packets net hdr p) a l cpy b) (hp : hdr.Holds p)
    (hout : net.outputError b = false) (S : net.Serves skb hdr (q :: P) (b + 1) e out) (hne : out ≠ [])
    {c : ℕ} (hc : net.FailsAt a ((skb.allPackets net hdr (p :: q :: P)).length - 1) c) :
    net.Broken skb hdr (p :: q :: P) a c (l ++ cpy :: out) := by
  have hpos := List.length_pos_of_ne_nil (Skb.packets_ne_nil net skb hp)
  have hall : skb.allPackets net hdr (p :: q :: P) =
      skb.packets net hdr p ++ skb.allPackets net hdr (q :: P) := rfl
  rw [hall, List.length_append] at hc
  rcases net.clear_or_failsAt a ((skb.packets net hdr p).length - 1) with hcl | ⟨d, hd⟩
  · -- it lies in the rest
    obtain ⟨ho, hf⟩ := F.clear hcl
    have hcl' : net.Clear a (skb.packets net hdr p).length := by
      intro i hi
      by_cases hi' : i < (skb.packets net hdr p).length - 1
      · exact hcl i hi'
      · rw [← hout, ho]
        congr 1
        omega
    obtain ⟨hle, hc'⟩ := hc.of_clear hcl'
    rw [show a + (skb.packets net hdr p).length = b + 1 by omega,
      show (skb.packets net hdr p).length + (skb.allPackets net hdr (q :: P)).length - 1 -
        (skb.packets net hdr p).length = (skb.allPackets net hdr (q :: P)).length - 1 by omega] at hc'
    obtain ⟨⟨l₂, rest, hsplit, hl₂, -⟩⟩ := S.fails _ hc'
    refine ⟨l ++ [cpy] ++ l₂, rest, ?_, ?_, fun h0 => by omega⟩
    · simp [hsplit]
    · rw [hall, List.take_append, List.take_of_length_le hle]
      exact List.rel_append hf hl₂
  · -- it lies in this segment, whose copy is the packet as it was
    obtain ⟨rfl, ho, hf⟩ := F.fails d hd
    have hdc := hc.unique hd
    have := hd.1
    refine ⟨l, out, rfl, ?_, fun h0 => iff_of_false hne ?_⟩
    · rw [hdc, hall, List.take_append_of_le_length (by omega)]
      exact hf
    · obtain rfl : d = 0 := hdc.symm.trans h0
      rw [ho] at hout
      simp only [List.length_cons, List.head?_cons, Option.map_some, Option.some.injEq, hout,
        Bool.false_eq_true, or_false, not_or]
      omega

/-- The copy of a segment that is not the last one leaves, and the rest is served. -/
theorem serves_append (F : net.Forwards skb (skb.packets net hdr p) a l cpy b) (hp : hdr.Holds p)
    (hout : net.outputError b = false) (S : net.Serves skb hdr (q :: P) (b + 1) e out) (hne : out ≠ []) :
    net.Serves skb hdr (p :: q :: P) a e (l ++ cpy :: out) := by
  have hpos := List.length_pos_of_ne_nil (Skb.packets_ne_nil net skb hp)
  have hall : skb.allPackets net hdr (p :: q :: P) =
      skb.packets net hdr p ++ skb.allPackets net hdr (q :: P) := rfl
  refine ⟨?_, fun hc => ?_, fun c hc => F.broken_append hp hout S hne hc⟩
  · have := (F.stems (q :: P)).append (S.stems.mono (List.subset_cons_self p _))
    simpa using this
  · rw [hall, List.length_append] at hc
    obtain ⟨ho, hf⟩ := F.clear (hc.mono (by omega))
    have hdrop := hc.drop (skb.packets net hdr p).length
    rw [show a + (skb.packets net hdr p).length = b + 1 by omega] at hdrop
    obtain ⟨he, hf'⟩ := S.clear (hdrop.mono (by omega))
    refine ⟨he, ?_⟩
    rw [hall]
    simpa using List.rel_append hf hf'

end Net.Forwards

/-- All segments, one after another. -/
theorem serve_spec (net : Net) (hmd : skb.md = some hdr) (P : List (ℕ × Seg In6Addr In6Addr)) (t : Tx)
    (hne : P ≠ []) (hP : ∀ p ∈ P, hdr.Holds p) : ∃ e left t' l,
    serve net skb (P.map fun p => (p.1, p.1 + p.2.size)) t = some (e, left, t') ∧
      t'.sent = t.sent ++ l ∧ net.Serves skb hdr P t.outputs e (l ++ [left]) := by
  induction P generalizing t with
  | nil => exact absurd rfl hne
  | cons p P ih =>
      have hp := hP p List.mem_cons_self
      obtain ⟨e, cpy, t₁, l₁, h1, h2, F⟩ := mdDataFwd_spec net hmd hp t
      cases P with
      | nil =>
          refine ⟨0, cpy, t₁, l₁, ?_, h2, F.serves⟩
          simp only [List.map_cons, List.map_nil, serve, h1, Option.bind_eq_bind, Option.bind_some]
          rfl
      | cons q P =>
          rw [serve_cons h1]
          have hQ : ∀ x ∈ q :: P, hdr.Holds x := fun x hx => hP x (List.mem_cons_of_mem _ hx)
          cases hout : net.outputError t₁.outputs with
          | true =>
              exact ⟨1, skb, { t₁ with outputs := t₁.outputs + 1 }, l₁, rfl, h2,
                F.serves_of_fails hp hout (Skb.allPackets_pos net skb hQ)⟩
          | false =>
              obtain ⟨e', left, t', l', h5, h6, S⟩ := ih
                { t₁ with outputs := t₁.outputs + 1, sent := t₁.sent ++ [cpy] } (by simp) hQ
              dsimp only at h6
              refine ⟨e', left, t', l₁ ++ cpy :: l', by simpa using h5, by simp [h6, h2], ?_⟩
              rw [List.append_assoc]
              exact F.serves_append hp hout S (by simp)

end MEADcast
