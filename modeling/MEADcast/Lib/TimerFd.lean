import Mathlib.Data.Nat.Basic
import Mathlib.Tactic.Ring

/-!
# Timers with a file descriptor

A timer counts down from `it_value`, and from `it_interval` after it expired, unless they are zero.
Reading it returns how often it expired since it was set or read, and blocks if it did not.

## Main definitions

* `Timespec`, `Itimerspec` — times in seconds and nanoseconds.
* `TimerFd` — a timer; `settime`, `gettime`, `read` are the system calls.
* `TimerFd.elapse` — time passes.
* `TimerFd.Quiet`, `TimerFd.Due` — a timer that is off, and one that expires at a given time.
* `TimerFd.SetTo` — a timer that was set at a given time.
-/

namespace MEADcast

/-- `struct timespec`. -/
structure Timespec where
  tv_sec : ℤ
  tv_nsec : ℤ
  deriving DecidableEq, Repr

/-- `struct itimerspec`. -/
structure Itimerspec where
  it_interval : Timespec
  it_value : Timespec
  deriving DecidableEq, Repr

namespace Timespec

/-- Nanoseconds in a second. -/
def second : ℕ := 1000000000

/-- What the kernel accepts. -/
def Valid (t : Timespec) : Prop := 0 ≤ t.tv_sec ∧ 0 ≤ t.tv_nsec ∧ t.tv_nsec < second

instance (t : Timespec) : Decidable t.Valid := inferInstanceAs (Decidable (_ ∧ _ ∧ _))

/-- The time in nanoseconds. -/
def ns (t : Timespec) : ℕ := t.tv_sec.toNat * second + t.tv_nsec.toNat

def ofNs (n : ℕ) : Timespec := ⟨(n / second : ℕ), (n % second : ℕ)⟩

@[simp] theorem ns_ofNs (n : ℕ) : (ofNs n).ns = n := Nat.div_add_mod' n second

@[simp] theorem ns_zero : (⟨0, 0⟩ : Timespec).ns = 0 := Nat.zero_mul second

theorem valid_zero : (⟨0, 0⟩ : Timespec).Valid :=
  ⟨le_rfl, le_rfl, Int.ofNat_lt.mpr (show 0 < second by decide)⟩

theorem valid_ofNs (n : ℕ) : (ofNs n).Valid := by
  exact ⟨Int.natCast_nonneg _, Int.natCast_nonneg _,
    Int.ofNat_lt.mpr (Nat.mod_lt n (show 0 < second by decide))⟩

end Timespec

/-- A timer: the time until it expires or `0` if it is off, the time between further expirations,
and how often it expired. -/
structure TimerFd where
  it_value : ℕ
  it_interval : ℕ
  ticks : ℕ
  deriving DecidableEq, Repr

namespace TimerFd

/-- `timerfd_create`. -/
def create : TimerFd := ⟨0, 0, 0⟩

/-- `timerfd_settime`. -/
def settime (t : TimerFd) (new_value : Itimerspec) : Int × TimerFd :=
  if new_value.it_value.Valid ∧ new_value.it_interval.Valid then
    (0, ⟨new_value.it_value.ns, new_value.it_interval.ns, 0⟩)
  else (-1, t)

/-- `timerfd_gettime`. -/
def gettime (t : TimerFd) : Itimerspec := ⟨.ofNs t.it_interval, .ofNs t.it_value⟩

/-- `read`; it blocks if the timer did not expire. -/
def read (t : TimerFd) : Option (ℕ × TimerFd) :=
  if t.ticks = 0 then none else some (t.ticks, { t with ticks := 0 })

/-- Time passes. -/
def elapse (d : ℕ) (t : TimerFd) : TimerFd :=
  if t.it_value = 0 then t
  else if d < t.it_value then { t with it_value := t.it_value - d }
  else if t.it_interval = 0 then { t with it_value := 0, ticks := t.ticks + 1 }
  else
    { t with
      it_value := t.it_interval - (d - t.it_value) % t.it_interval
      ticks := t.ticks + 1 + (d - t.it_value) / t.it_interval }

/-- The timer is off, and there is nothing to read. -/
structure Quiet (t : TimerFd) : Prop where
  it_value : t.it_value = 0
  ticks : t.ticks = 0

/-- At the time `now` the timer expires at the time `deadline` next, or it did so. -/
structure Due (t : TimerFd) (now deadline : ℕ) : Prop where
  ahead : t.ticks = 0 → 0 < t.it_value ∧ now + t.it_value = deadline
  past : 0 < t.ticks → deadline ≤ now

/-- The timer was set to `v` at the time `since`, and not read since it expired. -/
structure SetTo (t : TimerFd) (v since now : ℕ) : Prop where
  off : v = 0 → t.Quiet
  on : 0 < v → t.Due now (since + v)

variable {t t' : TimerFd} {d n v i since now deadline : ℕ} {its : Itimerspec}

theorem settime_of_valid (hv : its.it_value.Valid) (hi : its.it_interval.Valid) :
    t.settime its = (0, ⟨its.it_value.ns, its.it_interval.ns, 0⟩) := if_pos ⟨hv, hi⟩

theorem read_of_pos (h : 0 < t.ticks) : t.read = some (t.ticks, { t with ticks := 0 }) :=
  if_neg (by omega)

theorem pos_of_read (h : t.read = some (n, t')) : 0 < t.ticks := by
  by_contra h0
  simp [read, Nat.eq_zero_of_not_pos h0] at h

@[simp] theorem elapse_interval (d : ℕ) (t : TimerFd) :
    (t.elapse d).it_interval = t.it_interval := by
  rw [elapse]
  split_ifs <;> rfl

theorem le_elapse_ticks (d : ℕ) (t : TimerFd) : t.ticks ≤ (t.elapse d).ticks := by
  rw [elapse]
  split_ifs
  · exact le_rfl
  · exact le_rfl
  · exact Nat.le_succ _
  · exact (Nat.le_succ _).trans (Nat.le_add_right _ _)

/-- A timer that is off stays so. -/
theorem Quiet.elapse (h : t.Quiet) (d : ℕ) : (t.elapse d).Quiet := by
  rw [TimerFd.elapse, if_pos h.it_value]
  exact h

theorem Quiet.not_pos (h : t.Quiet) : ¬ 0 < t.ticks := by
  rw [h.ticks]
  exact lt_irrefl 0

/-- The deadline stays the same while time passes. -/
theorem Due.elapse (h : t.Due now deadline) (d : ℕ) : (t.elapse d).Due (now + d) deadline := by
  by_cases hlt : t.it_value = 0 ∨ d < t.it_value
  · -- it does not expire
    have he : t.elapse d = { t with it_value := t.it_value - d } := by
      rw [TimerFd.elapse]
      split_ifs with h0 hd
      · rw [h0, Nat.zero_sub, ← h0]
      · rfl
      · exact absurd hlt (by tauto)
      · exact absurd hlt (by tauto)
    rw [he]
    refine ⟨fun h0 => ?_, fun hp => (h.past hp).trans (Nat.le_add_right _ _)⟩
    obtain ⟨hpos, hd⟩ := h.ahead h0
    dsimp only
    omega
  · push Not at hlt
    have hpos : 0 < (t.elapse d).ticks := by
      rw [TimerFd.elapse, if_neg hlt.1, if_neg (by omega)]
      split_ifs <;> simp
    refine ⟨fun h0 => absurd h0 (by omega), fun _ => ?_⟩
    rcases Nat.eq_zero_or_pos t.ticks with h0 | hp
    · have := (h.ahead h0).2
      omega
    · exact (h.past hp).trans (Nat.le_add_right _ _)

/-- When its time is over it has expired. -/
theorem Due.elapsed (h : t.Due now deadline) : 0 < (t.elapse t.it_value).ticks := by
  rcases Nat.eq_zero_or_pos t.ticks with h0 | hp
  · have hpos := (h.ahead h0).1
    rw [TimerFd.elapse, if_neg (by omega), if_neg (by omega)]
    split_ifs <;> simp
  · exact hp.trans_le (le_elapse_ticks _ _)

theorem setTo_settime (v i now : ℕ) : (⟨v, i, 0⟩ : TimerFd).SetTo v now now :=
  ⟨fun h => ⟨h, rfl⟩, fun h => ⟨fun _ => ⟨h, rfl⟩, fun h0 => absurd h0 (lt_irrefl 0)⟩⟩

theorem SetTo.elapse (h : t.SetTo v since now) (d : ℕ) : (t.elapse d).SetTo v since (now + d) :=
  ⟨fun h0 => (h.off h0).elapse d, fun hp => (h.on hp).elapse d⟩

/-- A timer that expired was set, and its time is over. -/
theorem SetTo.past (h : t.SetTo v since now) (hp : 0 < t.ticks) : 0 < v ∧ since + v ≤ now := by
  have hv : 0 < v := Nat.pos_of_ne_zero fun h0 => (h.off h0).not_pos hp
  exact ⟨hv, (h.on hv).past hp⟩

end TimerFd

end MEADcast
