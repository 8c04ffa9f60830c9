import Mathlib.Algebra.Order.Field.Basic
import Mathlib.Data.Rat.Cast.Order
import Mathlib.Tactic.FieldSimp
import Mathlib.Tactic.Linarith
import Mathlib.Tactic.NormNum
import Mathlib.Tactic.Ring

/-!
# The timer of the local APIC

`apic_timer::init` measures the input clock with one divider, and `oneshot` programs intervals with
another.
-/

namespace FishOS.Sched

inductive LapicReg where
  | lvtTimer
  | timerInitial
  | timerCurrent
  | timerDivide

/-- The registers of the timer. -/
structure Lapic where
  lvtTimer : UInt32
  timerInitial : UInt32
  timerCurrent : UInt32
  timerDivide : UInt32

/-- The input clock, and by how much it is divided for a value of the divide register. -/
structure TimerClock where
  hertz : Nat
  divider : UInt32 → Nat
  by_two : divider 0 = 2
  by_sixteen : divider 3 = 16

namespace Lapic

def readReg (l : Lapic) : LapicReg → UInt32
  | .lvtTimer => l.lvtTimer
  | .timerInitial => l.timerInitial
  | .timerCurrent => l.timerCurrent
  | .timerDivide => l.timerDivide

/-- The countdown begins anew with its initial count. It is read only. -/
def writeReg (l : Lapic) (reg : LapicReg) (val : UInt32) : Lapic :=
  match reg with
  | .lvtTimer => { l with lvtTimer := val }
  | .timerInitial => { l with timerInitial := val, timerCurrent := val }
  | .timerCurrent => l
  | .timerDivide => { l with timerDivide := val }

def setVector (l : Lapic) (reg : LapicReg) (vector : UInt8) (nmi active_low level_trigger mask : Bool) : Lapic :=
  l.writeReg reg (vector.toUInt32 ||| (nmi.toUInt32 <<< 10) ||| (active_low.toUInt32 <<< 13) |||
    (level_trigger.toUInt32 <<< 15) ||| (mask.toUInt32 <<< 16))

def maskVector (l : Lapic) (reg : LapicReg) : Lapic := l.writeReg reg (l.readReg reg ||| ((1 : UInt32) <<< 16))

/-- How far the timer counts in a time. -/
def counted (l : Lapic) (clock : TimerClock) (ms : Nat) : Nat :=
  clock.hertz * ms / (1000 * clock.divider l.timerDivide)

/-- The countdown stops at zero. -/
def after (l : Lapic) (clock : TimerClock) (ms : Nat) : Lapic :=
  { l with timerCurrent := UInt32.ofNat (l.timerCurrent.toNat - l.counted clock ms) }

def stop (l : Lapic) : Lapic := (l.writeReg .timerInitial 0).maskVector .lvtTimer

end Lapic

structure ApicTimer where
  lapic : Lapic
  vector : UInt8
  freq : UInt64

namespace ApicTimer

/-- The counts are 32-bit words, and so is the product. -/
def init (clock : TimerClock) (vector : UInt8) (l : Lapic) : ApicTimer :=
  let l := l.stop
  let l := l.setVector .lvtTimer vector false false false true
  let l := l.writeReg .timerDivide 3
  let l := l.writeReg .timerInitial 0xFFFFFFFF
  -- the wait is timed by the HPET or by the PIT
  let l := l.after clock 100
  let freq := (0xFFFFFFFF - l.readReg .timerCurrent) * 10 * 16
  { lapic := l.stop, vector := vector, freq := freq.toUInt64 }

def oneshot (t : ApicTimer) (us : UInt64) : ApicTimer :=
  let l := t.lapic.stop
  let ticks := (us * (t.freq / 1000000)).toUInt32
  let l := l.setVector .lvtTimer t.vector false false false false
  let l := l.writeReg .timerDivide 0
  { t with lapic := l.writeReg .timerInitial ticks }

end ApicTimer

namespace TimerClock

/-- One tick of the timer, in microseconds. -/
def tick (clock : TimerClock) (l : Lapic) : ℚ := clock.divider l.timerDivide / clock.hertz * 10 ^ 6

/-- The time until the countdown gets to zero, in microseconds. -/
def interval (clock : TimerClock) (l : Lapic) : ℚ := l.timerInitial.toNat * clock.tick l

/-- What the time of `us` microseconds loses when the clock is rounded down to a whole MHz. -/
def rounding (clock : TimerClock) (us : Nat) : ℚ := us * ((clock.hertz % 10 ^ 6 : Nat) / clock.hertz)

/-- The whole MHz that `init` takes the clock for. -/
def measured (clock : TimerClock) : Nat := 160 * (clock.hertz / 160) % 2 ^ 32 / 10 ^ 6

/-- The interval is right up to that rounding and one tick. -/
def Lasts (clock : TimerClock) (l : Lapic) (us : Nat) : Prop :=
  |clock.interval l - us| ≤ clock.rounding us + clock.tick l

end TimerClock

variable {clock : TimerClock} {vector : UInt8} {l : Lapic} {t : ApicTimer} {us : UInt64}

/-- What `init` measures: the clock rounded down to a multiple of 160 Hz, in 32 bits. -/
theorem freq_init (fits : clock.hertz / 160 < 2 ^ 32) (vector : UInt8) (l : Lapic) :
    (ApicTimer.init clock vector l).freq.toNat = 160 * (clock.hertz / 160) % 2 ^ 32 := by
  have count : clock.hertz * 100 / (1000 * clock.divider 3) = clock.hertz / 160 := by
    rw [clock.by_sixteen, show 1000 * 16 = 160 * 100 from rfl, Nat.mul_div_mul_right _ _ (by decide)]
  have left : (0xFFFFFFFF - UInt32.ofNat (0xFFFFFFFF - clock.hertz / 160)).toNat = clock.hertz / 160 := by
    have same : (UInt32.ofNat (0xFFFFFFFF - clock.hertz / 160)).toNat = 0xFFFFFFFF - clock.hertz / 160 := by
      rw [UInt32.toNat_ofNat', Nat.mod_eq_of_lt (by omega)]
    rw [UInt32.toNat_sub_of_le]
    · rw [same]
      show 4294967295 - _ = _
      omega
    · rw [UInt32.le_iff_toNat_le, same]
      show _ ≤ 4294967295
      omega
  have measured : (ApicTimer.init clock vector l).freq =
      ((0xFFFFFFFF - UInt32.ofNat (0xFFFFFFFF - clock.hertz * 100 / (1000 * clock.divider 3))) * 10 * 16).toUInt64 := rfl
  rw [measured, count, UInt32.toNat_toUInt64, UInt32.toNat_mul, UInt32.toNat_mul, left]
  show clock.hertz / 160 * 10 % 2 ^ 32 * 16 % 2 ^ 32 = _
  omega

/-- Whole MHz are multiples of 160 Hz. -/
theorem measured_eq (slow : clock.hertz < 2 ^ 32) : clock.measured = clock.hertz / 10 ^ 6 := by
  unfold TimerClock.measured
  have below := Nat.mul_div_le clock.hertz 160
  rw [Nat.mod_eq_of_lt (by omega), show 10 ^ 6 = 160 * 6250 from rfl, Nat.mul_div_mul_left _ _ (by decide),
    Nat.div_div_eq_div_mul]

theorem initial_oneshot (small : us.toNat * (t.freq.toNat / 10 ^ 6) < 2 ^ 32) :
    (t.oneshot us).lapic.timerInitial.toNat = us.toNat * (t.freq.toNat / 10 ^ 6) := by
  have written : (t.oneshot us).lapic.timerInitial = (us * (t.freq / 1000000)).toUInt32 := rfl
  rw [written, UInt64.toNat_toUInt32, UInt64.toNat_mul, UInt64.toNat_div]
  show us.toNat * (t.freq.toNat / 10 ^ 6) % 2 ^ 64 % 2 ^ 32 = _
  omega

theorem divide_oneshot (t : ApicTimer) (us : UInt64) : (t.oneshot us).lapic.timerDivide = 0 := rfl

/-- The distance between the time that `ticks` ticks of half the clock take and the time asked for. -/
theorem lasts_iff_int (positive : 0 < clock.hertz) (halved : l.timerDivide = 0) (us : Nat) :
    clock.Lasts l us ↔
      |(2 * (l.timerInitial.toNat * 10 ^ 6) - us * clock.hertz : ℤ)| ≤ us * (clock.hertz % 10 ^ 6 : Nat) + 2 * 10 ^ 6 := by
  have hertz : (0 : ℚ) < clock.hertz := Nat.cast_pos.mpr positive
  have early : clock.interval l - us =
      (2 * (l.timerInitial.toNat * 10 ^ 6) - us * clock.hertz : ℤ) / (clock.hertz : ℚ) := by
    rw [TimerClock.interval, TimerClock.tick, halved, clock.by_two]
    push_cast
    field_simp
    ring
  have allowed : clock.rounding us + clock.tick l =
      (us * (clock.hertz % 10 ^ 6 : Nat) + 2 * 10 ^ 6 : ℤ) / (clock.hertz : ℚ) := by
    rw [TimerClock.rounding, TimerClock.tick, halved, clock.by_two]
    generalize clock.hertz % 10 ^ 6 = rest
    push_cast
    field_simp
    ring
  rw [TimerClock.Lasts, early, allowed, abs_div, abs_of_pos hertz, div_le_div_iff_of_pos_right hertz, ← Int.cast_abs,
    Int.cast_le]

/-- The arithmetic of the interval, for a clock of `whole` MHz and `rest` Hz that is taken for one of
`measured` MHz. -/
theorem interval_bound_iff (us whole measured rest : Nat) :
    |(2 * ((us * measured : Nat) * 10 ^ 6) - us * (whole * 10 ^ 6 + rest : Nat) : ℤ)| ≤ us * rest + 2 * 10 ^ 6 ↔
      us * (whole - 2 * measured) ≤ 2 ∧ us * (2 * measured - whole) * 10 ^ 6 ≤ 2 * (us * rest) + 2 * 10 ^ 6 := by
  have asked : us * (whole * 10 ^ 6 + rest) = us * whole * 10 ^ 6 + us * rest := by ring
  have above : us * (whole - 2 * measured) = us * whole - 2 * (us * measured) := by
    rw [Nat.mul_sub, Nat.mul_left_comm]
  have below : us * (2 * measured - whole) = 2 * (us * measured) - us * whole := by
    rw [Nat.mul_sub, Nat.mul_left_comm]
  rw [above, below, ← Nat.cast_mul, ← Nat.cast_mul, asked, abs_le]
  push_cast
  omega

/-- After `init` has measured the clock, an interval is right if and only if the ticks of half the clock
do not run too short or too long. -/
theorem oneshot_lasts_iff (fast : 10 ^ 6 ≤ clock.hertz) (fits : clock.hertz / 160 < 2 ^ 32)
    (calibrated : t.freq = (ApicTimer.init clock vector l).freq) (small : us.toNat * clock.measured < 2 ^ 32) :
    clock.Lasts (t.oneshot us).lapic us.toNat ↔
      us.toNat * (clock.hertz / 10 ^ 6 - 2 * clock.measured) ≤ 2 ∧
        us.toNat * (2 * clock.measured - clock.hertz / 10 ^ 6) * 10 ^ 6 ≤
          2 * (us.toNat * (clock.hertz % 10 ^ 6)) + 2 * 10 ^ 6 := by
  have freq : t.freq.toNat / 10 ^ 6 = clock.measured := by
    rw [calibrated, freq_init fits]
    rfl
  have split : clock.hertz = clock.hertz / 10 ^ 6 * 10 ^ 6 + clock.hertz % 10 ^ 6 := (Nat.div_add_mod' _ _).symm
  have ticks : (t.oneshot us).lapic.timerInitial.toNat = us.toNat * clock.measured := by
    rw [initial_oneshot (by rwa [freq]), freq]
  rw [lasts_iff_int (by omega) (divide_oneshot t us), ticks, ← interval_bound_iff, ← split]

/-- From 4 MHz to 4 GHz every interval is too long, as the divider of `oneshot` is not the one of the
frequency. -/
theorem too_long {us : Nat} (fast : 4 * 10 ^ 6 ≤ clock.hertz) (slow : clock.hertz < 2 ^ 32)
    (fits : us * (2 * clock.measured - clock.hertz / 10 ^ 6) * 10 ^ 6 ≤ 2 * (us * (clock.hertz % 10 ^ 6)) + 2 * 10 ^ 6) :
    us = 0 := by
  rw [measured_eq slow, show 2 * (clock.hertz / 10 ^ 6) - clock.hertz / 10 ^ 6 = clock.hertz / 10 ^ 6 by omega] at fits
  by_contra asked
  have whole : us * 4 ≤ us * (clock.hertz / 10 ^ 6) := Nat.mul_le_mul_left _ (by omega)
  have rest : us * (clock.hertz % 10 ^ 6) ≤ us * (10 ^ 6 - 1) := Nat.mul_le_mul_left _ (by omega)
  omega

/-- A local APIC whose input clock runs at this frequency. -/
def sampleClock (hertz : Nat) : TimerClock where
  hertz := hertz
  divider value := if value = 0 then 2 else 16
  by_two := rfl
  by_sixteen := rfl

def blankLapic : Lapic := { lvtTimer := 0x10000, timerInitial := 0, timerCurrent := 0, timerDivide := 0 }

/-- At 1.6 MHz the rounding to 1 MHz is as large as the error. -/
theorem oneshot_lasts_iff_slow :
    (sampleClock 1600000).Lasts ((ApicTimer.init (sampleClock 1600000) 34 blankLapic).oneshot 100).lapic 100 := by
  let t := ApicTimer.init (sampleClock 1600000) 34 blankLapic
  have calibrated : t.freq = (ApicTimer.init (sampleClock 1600000) 34 blankLapic).freq := rfl
  have small : (100 : UInt64).toNat * (sampleClock 1600000).measured < 2 ^ 32 := by decide
  exact (oneshot_lasts_iff (by decide) (by decide) calibrated small).mpr (by decide)

/-- At 1 GHz, a millisecond is programmed as two. -/
theorem oneshot_twice_as_long :
    (sampleClock 1000000000).interval ((ApicTimer.init (sampleClock 1000000000) 34 blankLapic).oneshot 1000).lapic = 2000 ∧
      ¬(sampleClock 1000000000).Lasts
        ((ApicTimer.init (sampleClock 1000000000) 34 blankLapic).oneshot 1000).lapic 1000 := by
  let t := ApicTimer.init (sampleClock 1000000000) 34 blankLapic
  have initial : (t.oneshot 1000).lapic.timerInitial.toNat = 1000000 := by decide +kernel
  constructor
  · rw [TimerClock.interval, TimerClock.tick, initial, divide_oneshot]
    norm_num [sampleClock]
  · rw [lasts_iff_int (by decide) (divide_oneshot _ _), initial]
    decide

end FishOS.Sched
