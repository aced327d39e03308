import MEADcast.Lib.TimerFd
import MEADcast.Network.System

/-!
# The event loop of the discovery thread (`discover.c`)

The thread waits for three descriptors: its socket, a timer for the time between two discovery
phases, and one for the length of a phase.  It handles what is ready one after the other, while time
passes and packets arrive.  Reads of the timers and of the socket block, so that the loop relies on
handling an event only if it is still there: no handler may take away what another one waits for.

## Main definitions

* `updateTimer`, `flipTimers`, `Dx.tintHandler`, `Dx.toutHandler`, `Dx.rxDcvr` — the functions.
* `Dx.Step` — the loop in the system.
* `Paced` — phases alternate, and no time is shorter than configured.

## Main results

* `paced_of_loop` — in every reachable state phases are paced, no handler blocks, those of the timers
  succeed, and the loop did what the system does.
* `phases_iff` — when discovery goes on forever.
-/

namespace MEADcast

/-! ## Timers -/

/-- `init_timerfd`: the timer, and what the pointer `ts` points to. -/
def initTimerfd (its : Itimerspec) : Option (TimerFd × Timespec) :=
  let fd := TimerFd.create.settime its
  if fd.1 < 0 then none else some (fd.2, its.it_interval)

/-- `update_timer`. -/
def updateTimer (t : TimerFd) (sec nsec : ℤ) : Int × TimerFd :=
  t.settime { t.gettime with it_value := ⟨sec, nsec⟩ }

/-- `flip_timers`. -/
def flipTimers (t1 t2 : TimerFd) (ts : Option Timespec) : Int × TimerFd × TimerFd :=
  match ts with
  | none => (-1, t1, t2)
  | some ts =>
    let r1 := updateTimer t1 0 0
    if r1.1 < 0 then (r1.1, r1.2, t2)
    else
      let r2 := updateTimer t2 ts.tv_sec ts.tv_nsec
      (r2.1, r1.2, r2.2)

/-- What `init_timerfd` accepts. -/
theorem initTimerfd_eq_some {its : Itimerspec} {t : TimerFd} {ts : Timespec}
    (h : initTimerfd its = some (t, ts)) : its.it_value.Valid ∧ its.it_interval.Valid ∧
      t = ⟨its.it_value.ns, its.it_interval.ns, 0⟩ ∧ ts = its.it_interval := by
  by_cases hv : its.it_value.Valid ∧ its.it_interval.Valid
  · rw [initTimerfd, TimerFd.settime_of_valid hv.1 hv.2] at h
    obtain ⟨rfl, rfl⟩ := Prod.mk.inj (Option.some.inj h)
    exact ⟨hv.1, hv.2, rfl, rfl⟩
  · simp [initTimerfd, TimerFd.settime, hv] at h

theorem initTimerfd_of_valid {its : Itimerspec} (hv : its.it_value.Valid)
    (hi : its.it_interval.Valid) :
    initTimerfd its = some (⟨its.it_value.ns, its.it_interval.ns, 0⟩, its.it_interval) := by
  rw [initTimerfd, TimerFd.settime_of_valid hv hi]
  rfl

theorem updateTimer_eq (t : TimerFd) {ts : Timespec} (h : ts.Valid) :
    updateTimer t ts.tv_sec ts.tv_nsec = (0, ⟨ts.ns, t.it_interval, 0⟩) := by
  obtain ⟨sec, nsec⟩ := ts
  rw [updateTimer, TimerFd.settime_of_valid h (Timespec.valid_ofNs _)]
  simp only [TimerFd.gettime, Timespec.ns_ofNs]

/-- The first timer is off afterwards, and the second one starts from `ts`. -/
theorem flipTimers_eq (t1 t2 : TimerFd) {ts : Timespec} (h : ts.Valid) :
    flipTimers t1 t2 (some ts) = (0, ⟨0, t1.it_interval, 0⟩, ⟨ts.ns, t2.it_interval, 0⟩) := by
  have h0 := updateTimer_eq t1 Timespec.valid_zero
  rw [Timespec.ns_zero] at h0
  rw [flipTimers, h0, updateTimer_eq t2 h]
  exact if_neg (lt_irrefl 0)

/-! ## Handlers -/

/-- The descriptors of the thread: its socket, the end of a phase and the start of a phase. -/
inductive Fd
  | mdc
  | tout
  | tint
  deriving DecidableEq, Repr

/-- The thread in the system: both timers with the times they are set to, the events of
`epoll_wait` that are left, the time, and when which timer was handled, the last one first. -/
structure Dx where
  sys : System
  tint : TimerFd
  tout : TimerFd
  tint_ts : Option Timespec
  tout_ts : Option Timespec
  evs : List Fd
  now : ℕ
  log : List (Fd × ℕ)

/-- `start_dx` until it enters the loop.  It gives up if a timer cannot be set. -/
def startDx (sys : System) (tint tout : Itimerspec) : Option Dx := do
  let (tout, tout_ts) ← initTimerfd tout
  let (tint, tint_ts) ← initTimerfd tint
  return {
    sys := sys, tint := tint, tout := tout, tint_ts := some tint_ts, tout_ts := some tout_ts,
    evs := [], now := 0, log := [] }

/-- The packets of `send_dcvr` are on their way. -/
def System.requested (st : System) (w : Wire) : System :=
  { st with
    dcv := ⟨st.dcv.flight + ↑(w.sent.map fun p => (⟨p, p.dst, 0, none⟩ : Flying)),
      st.dcv.arrived, st.sender.members.map Addr.sin6_addr ++ st.dcv.asked⟩ }

namespace Dx

/-- `tint_handler`. -/
def tintHandler (sk : Sock) (txbuf : MdcHdr) (x : Dx) : Option (Int × Dx) := do
  let (_, tint) ← x.tint.read
  let (_, w) := sendDcvr sk txbuf x.sys.sender.members .start
  let r := flipTimers tint x.tout x.tout_ts
  return (if r.1 < 0 then r.1 else 0,
    { x with
      sys := x.sys.requested w, tint := r.2.1, tout := r.2.2, log := (.tint, x.now) :: x.log })

/-- `tout_handler`. -/
def toutHandler (args : Args) (fuel : ℕ) (x : Dx) : Option (Int × Dx) := do
  let (_, tout) ← x.tout.read
  let (s, ret) ← MEADcast.toutHandler args fuel x.sys.sender
  let x := { x with
    sys := { x.sys with sender := s }, tout := tout, log := (.tout, x.now) :: x.log }
  if ret < 0 then return (-1, x)
  let r := flipTimers x.tout x.tint x.tint_ts
  return (if r.1 < 0 then r.1 else 0, { x with tint := r.2.2, tout := r.2.1 })

/-- `rx_dcvr`; it blocks if nothing arrived. -/
def rxDcvr (fuel : ℕ) (x : Dx) : Option (Int × Dx) := do
  let f ← x.sys.next
  let sys := { x.sys with read := x.sys.read + 1 }
  match MEADcast.rxDcvr f.skb with
  | none => return (-1, { x with sys := sys })
  | some d => do
      let (s, _) ← sys.sender.updateTopo fuel d.rsa d.paddr d.hops
      return (0, { x with sys := { sys with sender := s } })

/-- The body of `dx_loop` for one event. -/
def handle (args : Args) (fuel : ℕ) (sk : Sock) (txbuf : MdcHdr) (x : Dx) : Fd → Option (Int × Dx)
  | .mdc => x.rxDcvr fuel
  | .tout => x.toutHandler args fuel
  | .tint => x.tintHandler sk txbuf

/-- There is something to read. -/
def Ready (x : Dx) : Fd → Prop
  | .mdc => x.sys.next ≠ none
  | .tout => 0 < x.tout.ticks
  | .tint => 0 < x.tint.ticks

/-- Time passes. -/
def elapse (d : ℕ) (x : Dx) : Dx :=
  { x with now := x.now + d, tint := x.tint.elapse d, tout := x.tout.elapse d }

/-- Time passes, something happens elsewhere, `epoll_wait` returns what is ready, or the thread
handles the next event.  The results of the handlers are not used. -/
inductive Step (args : Args) {root : In6Addr} {peers : List In6Addr} (T : RouterTree root peers)
    (P : Paths) (net : In6Addr → Net) : Dx → Dx → Prop
  | elapse {x : Dx} (d : ℕ) : Step args T P net x (x.elapse d)
  | other {x : Dx} {sys : System} (h : System.Step args T P net x.sys sys)
      (hsender : sys.sender = x.sys.sender) (hread : sys.read = x.sys.read)
      (hasked : sys.dcv.asked = x.sys.dcv.asked) : Step args T P net x { x with sys := sys }
  | wait {x : Dx} {evs : List Fd} (hevs : x.evs = []) (hne : evs ≠ []) (hnd : evs.Nodup)
      (hready : ∀ e ∈ evs, x.Ready e) : Step args T P net x { x with evs := evs }
  | handle {x x' : Dx} {e : Fd} {evs : List Fd} {fuel : ℕ} {sk : Sock} {txbuf : MdcHdr} {ret : Int}
      (hevs : x.evs = e :: evs) (hsk : sk.baddr = P.src)
      (h : x.handle args fuel sk txbuf e = some (ret, x')) :
      Step args T P net x { x' with evs := evs }

end Dx

/-! ## Phases -/

/-- After these events, which timer expires next and how long after the last of them: `delay` is the
first value of the timer between phases, and `interval` and `timeout` are the times that the timers
are set to. -/
def wait (delay interval timeout : ℕ) : List (Fd × ℕ) → Fd × ℕ
  | [] => (.tint, delay)
  | (.tint, _) :: _ => (.tout, timeout)
  | (_, _) :: _ => (.tint, interval)

/-- When the last event was. -/
def last : List (Fd × ℕ) → ℕ
  | [] => 0
  | (_, t) :: _ => t

/-- Starts and ends of phases alternate.  No phase is shorter than `timeout`, and between two of them
is at least the time `interval`; if that time is zero there is no further event. -/
inductive Paced (delay interval timeout : ℕ) : List (Fd × ℕ) → Prop
  | nil : Paced delay interval timeout []
  | cons {e : Fd} {t : ℕ} {log : List (Fd × ℕ)} (h : Paced delay interval timeout log)
      (he : (wait delay interval timeout log).1 = e)
      (hpos : 0 < (wait delay interval timeout log).2)
      (ht : last log + (wait delay interval timeout log).2 ≤ t) :
      Paced delay interval timeout ((e, t) :: log)

/-- Three events take all three times. -/
theorem Paced.pos_of_three {d i o : ℕ} {log : List (Fd × ℕ)} (h : Paced d i o log)
    (hlen : 3 ≤ log.length) : 0 < d ∧ 0 < i ∧ 0 < o := by
  induction h with
  | nil => exact absurd hlen (by decide)
  | @cons e t log h he hi ht ih =>
      by_cases h3 : 3 ≤ log.length
      · exact ih h3
      have h2 : log.length = 2 := by
        rw [List.length_cons] at hlen
        omega
      obtain ⟨a, b, rfl⟩ := List.length_eq_two.mp h2
      obtain _ | ⟨h', ha, ho, -⟩ := h
      obtain _ | ⟨-, hb, hd, -⟩ := h'
      obtain rfl : Fd.tint = _ := hb
      obtain rfl : Fd.tout = _ := ha
      exact ⟨hd, hi, ho⟩

theorem wait_pos {d i o : ℕ} (hd : 0 < d) (hi : 0 < i) (ho : 0 < o) (log : List (Fd × ℕ)) :
    0 < (wait d i o log).2 := by
  rcases log with _ | ⟨⟨e, t⟩, log⟩
  · exact hd
  · cases e
    · exact hi
    · exact hi
    · exact ho

namespace Dx

/-- The timer with this descriptor; `other` is the other one. -/
def timer (x : Dx) : Fd → TimerFd
  | .tint => x.tint
  | _ => x.tout

def other (x : Dx) : Fd → TimerFd
  | .tint => x.tout
  | _ => x.tint

/-- The invariant of the timers: the one that expires next was set when the last event was handled,
and the other one is off.  What `epoll_wait` returned is still there. -/
structure Timed (x : Dx) (cint cout : Itimerspec) : Prop where
  tint_ts : x.tint_ts = some cint.it_interval
  tout_ts : x.tout_ts = some cout.it_interval
  tint_valid : cint.it_interval.Valid
  tout_valid : cout.it_interval.Valid
  paced : Paced cint.it_value.ns cint.it_interval.ns cout.it_interval.ns x.log
  on : ∀ w, wait cint.it_value.ns cint.it_interval.ns cout.it_interval.ns x.log = w →
    (x.timer w.1).SetTo w.2 (last x.log) x.now ∧ (x.other w.1).Quiet
  nodup : x.evs.Nodup
  ready : ∀ e ∈ x.evs, x.Ready e

variable {args : Args} {root : NodeId} {addr : In6Addr} {peers : List In6Addr}
  {T : RouterTree addr peers} {P : Paths} {net : In6Addr → Net} {x x' : Dx} {st : System} {e : Fd}
  {evs : List Fd} {fuel : ℕ} {sk : Sock} {txbuf : MdcHdr} {ret : Int} {cint cout : Itimerspec}

theorem timed_of_startDx (h : startDx st cint cout = some x) (h0 : cout.it_value.ns = 0) :
    x.Timed cint cout ∧ x.sys = st := by
  simp only [startDx, Option.bind_eq_bind, Option.bind_eq_some_iff, Prod.exists] at h
  obtain ⟨tout, tout_ts, h1, tint, tint_ts, h2, h3⟩ := h
  obtain ⟨-, hi1, rfl, rfl⟩ := initTimerfd_eq_some h1
  obtain ⟨-, hi2, rfl, rfl⟩ := initTimerfd_eq_some h2
  obtain rfl := Option.some.inj h3
  refine ⟨⟨rfl, rfl, hi2, hi1, .nil, ?_, List.nodup_nil, fun e he => absurd he List.not_mem_nil⟩, rfl⟩
  rintro w rfl
  exact ⟨TimerFd.setTo_settime _ _ _, h0, rfl⟩

/-! ### What a handler does -/

theorem tintHandler_eq_some {ts : Timespec} (hts : x.tout_ts = some ts) (hv : ts.Valid)
    (h : x.tintHandler sk txbuf = some (ret, x')) : 0 < x.tint.ticks ∧ ret = 0 ∧ x' = { x with
      sys := x.sys.requested (sendDcvr sk txbuf x.sys.sender.members .start).2
      tint := ⟨0, x.tint.it_interval, 0⟩
      tout := ⟨ts.ns, x.tout.it_interval, 0⟩
      log := (.tint, x.now) :: x.log } := by
  simp only [tintHandler, Option.bind_eq_bind, Option.bind_eq_some_iff, Prod.exists] at h
  obtain ⟨n, tint, hread, h⟩ := h
  have hpos := TimerFd.pos_of_read hread
  obtain ⟨-, rfl⟩ := Prod.mk.inj (Option.some.inj ((TimerFd.read_of_pos hpos).symm.trans hread))
  have hflip := flipTimers_eq { x.tint with ticks := 0 } x.tout hv
  rw [← hts] at hflip
  rw [hflip] at h
  obtain ⟨rfl, rfl⟩ := Prod.mk.inj (Option.some.inj h)
  exact ⟨hpos, rfl, rfl⟩

theorem toutHandler_eq_some {ts : Timespec} (hts : x.tint_ts = some ts) (hv : ts.Valid)
    (I : x.sys.sender.Inv root) (h : x.toutHandler args fuel = some (ret, x')) :
    ∃ s, Completes args x.sys.sender .tout s 0 ∧ 0 < x.tout.ticks ∧ ret = 0 ∧ x' = { x with
      sys := { x.sys with sender := s }
      tint := ⟨ts.ns, x.tint.it_interval, 0⟩
      tout := ⟨0, x.tout.it_interval, 0⟩
      log := (.tout, x.now) :: x.log } := by
  simp only [toutHandler, Option.bind_eq_bind, Option.bind_eq_some_iff, Prod.exists] at h
  obtain ⟨n, tout, hread, s, r, hs, h⟩ := h
  have hpos := TimerFd.pos_of_read hread
  obtain ⟨-, rfl⟩ := Prod.mk.inj (Option.some.inj ((TimerFd.read_of_pos hpos).symm.trans hread))
  have hc : Completes args x.sys.sender .tout s r := ⟨fuel, hs⟩
  obtain ⟨rfl, -⟩ := I.tout hc
  have hflip := flipTimers_eq { x.tout with ticks := 0 } x.tint hv
  rw [← hts] at hflip
  rw [if_neg (lt_irrefl 0), hflip] at h
  obtain ⟨rfl, rfl⟩ := Prod.mk.inj (Option.some.inj h)
  exact ⟨s, hc, hpos, rfl, rfl⟩

/-- What one handler does, and what the system does meanwhile. -/
theorem handle_cases (C : x.Timed cint cout) (H : x.sys.Safe root T P net) (hsk : sk.baddr = P.src)
    (h : x.handle args fuel sk txbuf e = some (ret, x')) :
    ∃ sys, System.Step args T P net x.sys sys ∧ (e ≠ .mdc → sys.read = x.sys.read) ∧
      (e = .mdc ∧ x' = { x with sys := sys } ∨
      e = .tint ∧ 0 < x.tint.ticks ∧ ret = 0 ∧ x' = { x with
        sys := sys
        tint := ⟨0, x.tint.it_interval, 0⟩
        tout := ⟨cout.it_interval.ns, x.tout.it_interval, 0⟩
        log := (.tint, x.now) :: x.log } ∨
      e = .tout ∧ 0 < x.tout.ticks ∧ ret = 0 ∧ x' = { x with
        sys := sys
        tint := ⟨cint.it_interval.ns, x.tint.it_interval, 0⟩
        tout := ⟨0, x.tout.it_interval, 0⟩
        log := (.tout, x.now) :: x.log }) := by
  cases e with
  | mdc =>
      simp only [handle, rxDcvr, Option.bind_eq_bind, Option.bind_eq_some_iff] at h
      obtain ⟨f, hf, h⟩ := h
      cases hd : MEADcast.rxDcvr f.skb with
      | none =>
          simp only [hd] at h
          obtain ⟨rfl, rfl⟩ := Prod.mk.inj (Option.some.inj h)
          exact ⟨_, .discard hf hd, fun h => absurd rfl h, Or.inl ⟨rfl, rfl⟩⟩
      | some d =>
          simp only [hd, Option.bind_eq_some_iff, Prod.exists] at h
          obtain ⟨s, r, hs, h⟩ := h
          obtain ⟨rfl, rfl⟩ := Prod.mk.inj (Option.some.inj h)
          exact ⟨_, .receive hf hd ⟨fuel, hs⟩, fun h => absurd rfl h, Or.inl ⟨rfl, rfl⟩⟩
  | tint =>
      obtain ⟨hpos, hret, hx⟩ := tintHandler_eq_some C.tout_ts C.tout_valid h
      exact ⟨_, .request hsk rfl, fun _ => rfl, Or.inr (Or.inl ⟨rfl, hpos, hret, hx⟩)⟩
  | tout =>
      obtain ⟨s, hc, hpos, hret, hx⟩ :=
        toutHandler_eq_some C.tint_ts C.tint_valid H.sketches.inv h
      exact ⟨_, .timeout hc, fun _ => rfl, Or.inr (Or.inr ⟨rfl, hpos, hret, hx⟩)⟩

variable (args) in
/-- A handler comes to an end if there is something to read. -/
theorem exists_handle (C : x.Timed cint cout) (H : x.sys.Safe root T P net) (hP : T.Charted P)
    (he : x.Ready e) : ∃ fuel, ∀ sk txbuf, ∃ ret x',
      x.handle args fuel sk txbuf e = some (ret, x') ∧ (e ≠ .mdc → ret = 0) := by
  cases e with
  | mdc =>
      obtain ⟨f, hf⟩ := Option.ne_none_iff_exists'.mp he
      rcases H.next_cases hP hf with hn | ⟨d, hd, ho, -⟩
      · refine ⟨0, fun sk txbuf => ?_⟩
        simp only [handle, rxDcvr, hf, hn, Option.bind_eq_bind, Option.bind_some]
        exact ⟨_, _, rfl, fun h => absurd rfl h⟩
      · obtain ⟨s, r, ⟨fuel, hs⟩, -⟩ := H.sketches.planted.rsp args d.paddr d.hops ho.ne_root
        have hs' : x.sys.sender.updateTopo fuel d.rsa d.paddr d.hops = some (s, r) := hs
        refine ⟨fuel, fun sk txbuf => ?_⟩
        simp only [handle, rxDcvr, hf, hd, hs', Option.bind_eq_bind, Option.bind_some]
        exact ⟨_, _, rfl, fun _ => rfl⟩
  | tint =>
      refine ⟨0, fun sk txbuf => ?_⟩
      simp only [handle, tintHandler, TimerFd.read_of_pos he, C.tout_ts, Option.bind_eq_bind,
        Option.bind_some, flipTimers_eq _ _ C.tout_valid]
      exact ⟨_, _, rfl, fun _ => rfl⟩
  | tout =>
      obtain ⟨s, fuel, hs⟩ := H.sketches.inv.tout_completes args
      have hs' : MEADcast.toutHandler args fuel x.sys.sender = some (s, 0) := hs
      refine ⟨fuel, fun sk txbuf => ?_⟩
      simp only [handle, toutHandler, TimerFd.read_of_pos he, hs', C.tint_ts, Option.bind_eq_bind,
        Option.bind_some, flipTimers_eq _ _ C.tint_valid, lt_irrefl, if_false]
      exact ⟨_, _, rfl, fun _ => rfl⟩

/-! ### One step -/

theorem wait_cases (d i o : ℕ) (log : List (Fd × ℕ)) :
    (wait d i o log).1 = .tint ∨ (wait d i o log).1 = .tout := by
  rcases log with _ | ⟨⟨e, t⟩, log⟩
  · exact Or.inl rfl
  · cases e
    · exact Or.inl rfl
    · exact Or.inl rfl
    · exact Or.inr rfl

theorem exists_arrived {d d' : Discovery} (h : Discovery.Step P d d') :
    ∃ l, d'.arrived = l ++ d.arrived := by
  cases h with
  | arrive _ _ => exact ⟨[_], rfl⟩
  | request _ _ _ => exact ⟨[], rfl⟩
  | forward _ _ _ _ => exact ⟨[], rfl⟩
  | lose => exact ⟨[], rfl⟩
  | again => exact ⟨[], rfl⟩

/-- What arrived at the socket stays there. -/
theorem next_of_step {st' : System} (h : System.Step args T P net st st')
    (hread : st'.read = st.read) (hn : st.next ≠ none) : st'.next ≠ none := by
  have hgrow : ∃ l, st'.dcv.arrived = l ++ st.dcv.arrived := by
    cases h with
    | travel h _ => exact exists_arrived h
    | request _ _ => exact ⟨[], rfl⟩
    | receive _ _ _ => exact ⟨[], rfl⟩
    | discard _ _ => exact ⟨[], rfl⟩
    | timeout _ => exact ⟨[], rfl⟩
    | send _ _ _ _ _ => exact ⟨[], rfl⟩
    | hop _ _ => exact ⟨[], rfl⟩
  obtain ⟨l, hl⟩ := hgrow
  simp only [System.next, ne_eq, List.getElem?_eq_none_iff, List.length_reverse, not_le] at hn ⊢
  rw [hread, hl, List.length_append]
  omega

/-- The timer that was read is the one that was waited for, and its time is over. -/
theorem Timed.expired (C : x.Timed cint cout) (he : e ≠ .mdc) (hp : x.Ready e) :
    (wait cint.it_value.ns cint.it_interval.ns cout.it_interval.ns x.log).1 = e ∧
      0 < (wait cint.it_value.ns cint.it_interval.ns cout.it_interval.ns x.log).2 ∧
      last x.log + (wait cint.it_value.ns cint.it_interval.ns cout.it_interval.ns x.log).2 ≤
        x.now := by
  obtain ⟨hset, hquiet⟩ := C.on _ rfl
  cases e with
  | mdc => exact absurd rfl he
  | tint =>
      rcases wait_cases cint.it_value.ns cint.it_interval.ns cout.it_interval.ns x.log with h | h
      · rw [h] at hset
        exact ⟨h, hset.past hp⟩
      · rw [h] at hquiet
        exact absurd hp hquiet.not_pos
  | tout =>
      rcases wait_cases cint.it_value.ns cint.it_interval.ns cout.it_interval.ns x.log with h | h
      · rw [h] at hquiet
        exact absurd hp hquiet.not_pos
      · rw [h] at hset
        exact ⟨h, hset.past hp⟩

/-- What is left of the events of `epoll_wait` after one of them was handled. -/
theorem Timed.rest (C : x.Timed cint cout) (hevs : x.evs = e :: evs) :
    evs.Nodup ∧ e ∉ evs ∧ ∀ f ∈ evs, x.Ready f := by
  obtain ⟨hno, hnd⟩ := List.nodup_cons.mp (hevs ▸ C.nodup)
  exact ⟨hnd, hno, fun f hf => C.ready f (hevs ▸ List.mem_cons_of_mem _ hf)⟩

/-- Only one timer is ready at a time. -/
theorem Timed.eq_mdc (C : x.Timed cint cout) (hevs : x.evs = e :: evs) (he : e ≠ .mdc) :
    ∀ f ∈ evs, f = .mdc := by
  obtain ⟨-, hno, hready⟩ := C.rest hevs
  intro f hf
  by_contra hmdc
  have h1 := (C.expired he (C.ready e (hevs ▸ List.mem_cons_self))).1
  have h2 := (C.expired hmdc (hready f hf)).1
  exact hno (h1.symm.trans h2 ▸ hf)

/-- Every step keeps the invariant of the timers. -/
theorem Step.timed (h : Step args T P net x x') (C : x.Timed cint cout)
    (H : x.sys.Safe root T P net) : x'.Timed cint cout := by
  cases h with
  | elapse d =>
      refine { C with on := fun w hw => ?_, ready := fun e he => ?_ }
      · obtain ⟨hset, hquiet⟩ := C.on w hw
        cases hw1 : w.1 with
        | tint =>
            rw [hw1] at hset hquiet
            exact ⟨hset.elapse d, hquiet.elapse d⟩
        | _ =>
            rw [hw1] at hset hquiet
            exact ⟨hset.elapse d, hquiet.elapse d⟩
      · have hr := C.ready e he
        cases e with
        | mdc => exact hr
        | tout => exact lt_of_lt_of_le hr (TimerFd.le_elapse_ticks d _)
        | tint => exact lt_of_lt_of_le hr (TimerFd.le_elapse_ticks d _)
  | other h _ hread _ =>
      refine { C with ready := fun e he => ?_ }
      have hr := C.ready e he
      cases e with
      | mdc => exact next_of_step h hread hr
      | _ => exact hr
  | wait _ _ hnd hready => exact { C with nodup := hnd, ready := hready }
  | @handle y e evs fuel sk txbuf ret hevs hsk h =>
      obtain ⟨hnd, hno, hready⟩ := C.rest hevs
      obtain ⟨sys, hstep, hread, ⟨rfl, rfl⟩ | ⟨rfl, hpos, -, rfl⟩ | ⟨rfl, hpos, -, rfl⟩⟩ :=
        handle_cases C H hsk h
      · refine { C with nodup := hnd, ready := fun f hf => ?_ }
        have hr := hready f hf
        cases f with
        | mdc => exact absurd hf hno
        | _ => exact hr
      · obtain ⟨hw, hv, hlast⟩ := C.expired (e := .tint) (by decide) hpos
        refine { C with paced := .cons C.paced hw hv hlast, on := ?_, nodup := hnd, ready := ?_ }
        · rintro w rfl
          exact ⟨TimerFd.setTo_settime _ _ _, rfl, rfl⟩
        · intro f hf
          obtain rfl := C.eq_mdc hevs (by decide) f hf
          exact next_of_step hstep (hread (by decide)) (hready _ hf)
      · obtain ⟨hw, hv, hlast⟩ := C.expired (e := .tout) (by decide) hpos
        refine { C with paced := .cons C.paced hw hv hlast, on := ?_, nodup := hnd, ready := ?_ }
        · rintro w rfl
          exact ⟨TimerFd.setTo_settime _ _ _, rfl, rfl⟩
        · intro f hf
          obtain rfl := C.eq_mdc hevs (by decide) f hf
          exact next_of_step hstep (hread (by decide)) (hready _ hf)

/-- What the loop does is what the system does. -/
theorem Step.refines (h : Step args T P net x x') (C : x.Timed cint cout)
    (H : x.sys.Safe root T P net) :
    x'.sys = x.sys ∨ System.Step args T P net x.sys x'.sys := by
  cases h with
  | elapse d => exact Or.inl rfl
  | other h _ _ _ => exact Or.inr h
  | wait _ _ _ _ => exact Or.inl rfl
  | handle hevs hsk h =>
      obtain ⟨sys, hstep, -, ⟨-, rfl⟩ | ⟨-, -, -, rfl⟩ | ⟨-, -, -, rfl⟩⟩ := handle_cases C H hsk h
      · exact Or.inr hstep
      · exact Or.inr hstep
      · exact Or.inr hstep

/-! ### Runs -/

/-- The invariant of the loop in the system. -/
structure Works (x : Dx) (root : NodeId) {addr : In6Addr} {peers : List In6Addr}
    (T : RouterTree addr peers) (P : Paths) (net : In6Addr → Net) (cint cout : Itimerspec) :
    Prop where
  timed : x.Timed cint cout
  safe : x.sys.Safe root T P net

theorem Step.works (h : Step args T P net x x') (hP : T.Charted P) (N : T.Equipped net)
    (W : x.Works root T P net cint cout) : x'.Works root T P net cint cout := by
  refine ⟨h.timed W.timed W.safe, ?_⟩
  rcases h.refines W.timed W.safe with he | hs
  · exact he ▸ W.safe
  · exact hs.safe hP N W.safe

theorem works_of_run (hP : T.Charted P) (N : T.Equipped net) (W : x.Works root T P net cint cout)
    (hrun : Relation.ReflTransGen (Step args T P net) x x') :
    x'.Works root T P net cint cout ∧
      Relation.ReflTransGen (System.Step args T P net) x.sys x'.sys := by
  induction hrun with
  | refl => exact ⟨W, .refl⟩
  | tail _ h ih =>
      obtain ⟨W', hsys⟩ := ih
      refine ⟨h.works hP N W', ?_⟩
      rcases h.refines W'.timed W'.safe with he | hs
      · exact he ▸ hsys
      · exact hsys.tail hs

/-- The next event can be handled. -/
theorem Works.exists_step (args : Args) (W : x.Works root T P net cint cout) (hP : T.Charted P)
    (hevs : x.evs = e :: evs) : ∃ x', Step args T P net x x' ∧ x'.evs = evs ∧
      if e = .mdc then x'.log = x.log else x'.log.length = x.log.length + 1 := by
  have he : x.Ready e := W.timed.ready e (hevs ▸ List.mem_cons_self)
  obtain ⟨fuel, hfuel⟩ := exists_handle args W.timed W.safe hP he
  obtain ⟨ret, x', h, -⟩ := hfuel ⟨P.src, P.src, 64, fun _ _ => false⟩ (dcvHdr 0 0 false)
  refine ⟨_, .handle hevs rfl h, rfl, ?_⟩
  obtain ⟨sys, -, -, ⟨rfl, rfl⟩ | ⟨rfl, -, -, rfl⟩ | ⟨rfl, -, -, rfl⟩⟩ :=
    handle_cases W.timed W.safe rfl h
  · rfl
  · rfl
  · rfl

/-- The events that are left can be handled, one of which may be that of a timer. -/
theorem Works.exists_run (args : Args) (hP : T.Charted P) (N : T.Equipped net) :
    ∀ (evs : List Fd) (x : Dx), x.Works root T P net cint cout → x.evs = evs →
      ∃ x', Relation.ReflTransGen (Step args T P net) x x' ∧
        (x.log.length < x'.log.length ∨ x'.evs = [] ∧ x'.log = x.log) := by
  intro evs
  induction evs with
  | nil => exact fun x _ hevs => ⟨x, .refl, Or.inr ⟨hevs, rfl⟩⟩
  | cons e evs ih =>
      intro x W hevs
      obtain ⟨x', h, hevs', hlog⟩ := W.exists_step args hP hevs
      split at hlog
      · obtain ⟨x'', hrun, hx⟩ := ih x' (h.works hP N W) hevs'
        exact ⟨x'', .head h hrun, hlog ▸ hx⟩
      · exact ⟨x', .single h, Or.inl (by omega)⟩

/-- If all times are positive, the timer that is waited for expires and is handled. -/
theorem Works.goes_on (args : Args) (hP : T.Charted P) (N : T.Equipped net)
    (W : x.Works root T P net cint cout)
    (hpos : 0 < (wait cint.it_value.ns cint.it_interval.ns cout.it_interval.ns x.log).2) :
    ∃ x', Relation.ReflTransGen (Step args T P net) x x' ∧ x.log.length < x'.log.length := by
  obtain ⟨y, hrun, hlt | ⟨hevs, hlog⟩⟩ := exists_run args hP N x.evs x W rfl
  · exact ⟨y, hrun, hlt⟩
  have Wy := (works_of_run hP N W hrun).1
  rw [← hlog] at hpos
  generalize hw : wait cint.it_value.ns cint.it_interval.ns cout.it_interval.ns y.log = w at hpos
  obtain ⟨hset, -⟩ := Wy.timed.on w hw
  have hne : w.1 ≠ .mdc := by
    rcases wait_cases cint.it_value.ns cint.it_interval.ns cout.it_interval.ns y.log with h | h
    · rw [← hw, h]
      decide
    · rw [← hw, h]
      decide
  -- the time passes, and the event is waited for and handled
  have h₁ : Step args T P net y (y.elapse (y.timer w.1).it_value) := .elapse _
  have hready : (y.elapse (y.timer w.1).it_value).Ready w.1 := by
    have hel := (hset.on hpos).elapsed
    cases h : w.1 with
    | mdc => exact absurd h hne
    | _ =>
        rw [h] at hel
        exact hel
  have hevs' : (y.elapse (y.timer w.1).it_value).evs = [] := hevs
  have h₂ : Step args T P net (y.elapse (y.timer w.1).it_value)
      { y.elapse (y.timer w.1).it_value with evs := [w.1] } :=
    .wait hevs' (List.cons_ne_nil w.1 []) (List.nodup_singleton _) fun e he =>
      List.mem_singleton.mp he ▸ hready
  obtain ⟨z, h₃, -, hz⟩ := (h₂.works hP N (h₁.works hP N Wy)).exists_step args hP rfl
  rw [if_neg hne] at hz
  have hz' : z.log.length = y.log.length + 1 := hz
  refine ⟨z, ((hrun.tail h₁).tail h₂).tail h₃, ?_⟩
  rw [hz', hlog]
  exact Nat.lt_succ_self _

end Dx

/-! ## Main results -/

section Main

variable {args : Args} {root : NodeId} {addr : In6Addr} {peers : List In6Addr}
  {T : RouterTree addr peers} {P : Paths} {net : In6Addr → Net} {st : System} {x₀ x : Dx}
  {cint cout : Itimerspec}

/-- In every reachable state of the loop, starts and ends of phases alternated and were at least the
configured times apart (they may be later, since the loop handles an event when it comes to it);
whatever `epoll_wait` returned, no handler blocks and those of the timers succeed; and what happened is
a run of the system, so that all datagrams that were sent are delivered. -/
theorem paced_of_loop (hP : T.Charted P) (N : T.Equipped net) (B : st.Started root T)
    (hx : startDx st cint cout = some x₀) (h0 : cout.it_value.ns = 0)
    (hrun : Relation.ReflTransGen (Dx.Step args T P net) x₀ x) :
    Paced cint.it_value.ns cint.it_interval.ns cout.it_interval.ns x.log ∧
    (∀ e ∈ x.evs, ∃ fuel, ∀ sk txbuf, ∃ ret x', x.handle args fuel sk txbuf e = some (ret, x') ∧
      (e ≠ .mdc → ret = 0)) ∧
    Relation.ReflTransGen (System.Step args T P net) st x.sys ∧
    ∀ y ∈ x.sys.data, T.Delivers net y.1 y.2 := by
  obtain ⟨C, rfl⟩ := Dx.timed_of_startDx hx h0
  obtain ⟨W, hsys⟩ := Dx.works_of_run hP N ⟨C, B.safe⟩ hrun
  exact ⟨W.timed.paced, fun e he => Dx.exists_handle args W.timed W.safe hP (W.timed.ready e he), hsys,
    W.safe.data⟩

/-- Discovery goes on from every reachable state if and only if none of the three times is zero:
the delay before the first phase, the time between two phases and the length of a phase. -/
theorem phases_iff (args : Args) (hP : T.Charted P) (N : T.Equipped net) (B : st.Started root T)
    (hx : startDx st cint cout = some x₀) (h0 : cout.it_value.ns = 0) :
    (∀ x, Relation.ReflTransGen (Dx.Step args T P net) x₀ x →
      ∃ x', Relation.ReflTransGen (Dx.Step args T P net) x x' ∧ x.log.length < x'.log.length) ↔
    0 < cint.it_value.ns ∧ 0 < cint.it_interval.ns ∧ 0 < cout.it_interval.ns := by
  obtain ⟨C, rfl⟩ := Dx.timed_of_startDx hx h0
  have W₀ : x₀.Works root T P net cint cout := ⟨C, B.safe⟩
  constructor
  · intro h
    -- three events need all three times
    obtain ⟨x₁, h₁, hlt₁⟩ := h x₀ .refl
    obtain ⟨x₂, h₂, hlt₂⟩ := h x₁ h₁
    obtain ⟨x₃, h₃, hlt₃⟩ := h x₂ (h₁.trans h₂)
    have W := (Dx.works_of_run hP N W₀ ((h₁.trans h₂).trans h₃)).1
    exact W.timed.paced.pos_of_three (by omega)
  · rintro ⟨hd, hi, ho⟩ x hrun
    have W := (Dx.works_of_run hP N W₀ hrun).1
    exact W.goes_on args hP N (wait_pos hd hi ho x.log)

end Main

/-- The defaults: a phase of two seconds every five seconds, the first one after five seconds. -/
def dcvrInt : Itimerspec := ⟨⟨5, 0⟩, ⟨5, 0⟩⟩
def dcvrTout : Itimerspec := ⟨⟨2, 0⟩, ⟨0, 0⟩⟩

theorem exists_startDx (st : System) : ∃ x, startDx st dcvrInt dcvrTout = some x := by
  have h5 : (⟨5, 0⟩ : Timespec).Valid := ⟨by decide, le_rfl, Timespec.valid_zero.2.2⟩
  have h2 : (⟨2, 0⟩ : Timespec).Valid := ⟨by decide, le_rfl, Timespec.valid_zero.2.2⟩
  have hint : initTimerfd dcvrInt = _ := initTimerfd_of_valid h5 h5
  have htout : initTimerfd dcvrTout = _ := initTimerfd_of_valid Timespec.valid_zero h2
  rw [startDx, hint, htout]
  exact ⟨_, rfl⟩

theorem dcvr_pos : 0 < dcvrInt.it_value.ns ∧ 0 < dcvrInt.it_interval.ns ∧
    0 < dcvrTout.it_interval.ns := by
  decide

/-- The theorem for the defaults, after the first phase. -/
theorem paced_of_defaults : ∃ (st : System) (x₀ x : Dx), st.Started 0 forkTree ∧
    startDx st dcvrInt dcvrTout = some x₀ ∧
    Relation.ReflTransGen (Dx.Step Args.default forkTree .fork forkNet) x₀ x ∧ 2 ≤ x.log.length ∧
    Paced dcvrInt.it_value.ns dcvrInt.it_interval.ns dcvrTout.it_interval.ns x.log := by
  obtain ⟨st, B⟩ := exists_started_fork
  obtain ⟨x₀, hx⟩ := exists_startDx st
  have h0 : dcvrTout.it_value.ns = 0 := Timespec.ns_zero
  obtain ⟨hd, hi, ho⟩ := dcvr_pos
  obtain ⟨C, hsys⟩ := Dx.timed_of_startDx hx h0
  have W₀ : x₀.Works 0 forkTree .fork forkNet dcvrInt dcvrTout := ⟨C, hsys ▸ B.safe⟩
  obtain ⟨x₁, h₁, hlt₁⟩ := W₀.goes_on Args.default forkTree_charted forkNet_equipped
    (wait_pos hd hi ho x₀.log)
  have W₁ := (Dx.works_of_run forkTree_charted forkNet_equipped W₀ h₁).1
  obtain ⟨x₂, h₂, hlt₂⟩ := W₁.goes_on Args.default forkTree_charted forkNet_equipped
    (wait_pos hd hi ho x₁.log)
  exact ⟨st, x₀, x₂, B, hx, h₁.trans h₂, by omega,
    (paced_of_loop forkTree_charted forkNet_equipped B hx h0 (h₁.trans h₂)).1⟩

/-- The theorem for the defaults. -/
theorem phases_of_defaults : ∃ (st : System) (x₀ : Dx), st.Started 0 forkTree ∧
    startDx st dcvrInt dcvrTout = some x₀ ∧
    ∀ x, Relation.ReflTransGen (Dx.Step Args.default forkTree .fork forkNet) x₀ x →
      ∃ x', Relation.ReflTransGen (Dx.Step Args.default forkTree .fork forkNet) x x' ∧
        x.log.length < x'.log.length := by
  obtain ⟨st, B⟩ := exists_started_fork
  obtain ⟨x₀, hx⟩ := exists_startDx st
  exact ⟨st, x₀, B, hx, (phases_iff Args.default forkTree_charted forkNet_equipped B hx
    Timespec.ns_zero).mpr dcvr_pos⟩

end MEADcast
