/-
From seconds to a slot of the wheel, in `int`s.

The hooked `sleep` multiplies an `unsigned int` by 1000 and `io_func` an `int`
that `setTimeOut` has read from a `uint32_t`; both products are passed on as the
`int timing` of `addTimer`, which divides it down to a slot and a round.  The
products are taken in 32 bits, as in the source.

* `toInt_ticks`, `toInt_round`, `toInt_slot` — what `addTimer` computes in 32 bits
  is the slot and the round of the model: division and remainder are those of the
  integers, and the sum `mCurSlot + ticks % mSlotNum` wraps around;
* `timing_exact_iff` — the product is right exactly when it is below 2^31;
* `keptInWheel_iff` — so the timer gets a place in the wheel exactly when the
  product is below 2^31 and the sum does not wrap around, or happens to wrap to a
  multiple of `mSlotNum`.
-/
import AsyncServer.FdManager
import AsyncServer.Hook
import AsyncServer.TimerWheel

namespace Server

/-- `seconds * 1000`, as `sleep` passes it on: the bits of an `unsigned int` taken
for an `int`. -/
def sleepTiming (seconds : BitVec 32) : BitVec 32 := seconds * 1000

/-- `to * 1000` in `io_func`; without a timeout, that is for -1, there is no timer. -/
def ioTiming (ctx : FdCtx) (type : ℤ) : Option (BitVec 32) :=
  if ctx.getTimeOut type ≠ -1 then some (ctx.getTimeOut type * 1000) else none

/-- The integer that the timers of the hooked calls are made with. -/
theorem millis_eq (seconds : BitVec 32) : millis seconds = (sleepTiming seconds).toInt := rfl

namespace TimerManager

variable {N : ℕ} {κ : Type*} (m : TimerManager N κ)

/-- What is to hold of the `timing` that is handed to `addTimer` for a number of
seconds: it is their number of milliseconds, and gets a slot of the wheel and a
round that `tick` can count down. -/
structure KeptInWheel (seconds timing : BitVec 32) : Prop where
  exact : timing.toInt = 1000 * (seconds.toNat : ℤ)
  nonneg : 0 ≤ timing.toInt
  slot : 0 ≤ m.slot timing.toInt ∧ m.slot timing.toInt < N
  round : 0 ≤ m.round timing.toInt

/-- `mCurSlot + ticks % mSlotNum` for a delay of `seconds`, as a number. -/
def reach (seconds : ℕ) : ℕ := m.mCurSlot + 1000 * seconds / m.mTickTime % N

/-- The product does not wrap around, and neither does the sum, or only to a
multiple of `mSlotNum`. -/
def InInts (seconds : ℕ) : Prop :=
  1000 * seconds < 2 ^ 31 ∧ (m.reach seconds < 2 ^ 31 ∨ N ∣ 2 ^ 32 - m.reach seconds)

/-! ### The arithmetic of `addTimer` -/

/-- A number that is an `int`. -/
theorem toInt_ofNat_int {n : ℕ} (h : n < 2 ^ 31) : (BitVec.ofNat 32 n).toInt = n := by
  rw [BitVec.toInt_ofNat', Int.bmod_eq_of_le] <;> omega

/-- Division by a positive `int` is that of the integers. -/
theorem toInt_sdiv_ofNat (x : BitVec 32) {n : ℕ} (h : n < 2 ^ 31) :
    (x.sdiv (.ofNat 32 n)).toInt = x.toInt.tdiv n := by
  have hne : BitVec.ofNat 32 n ≠ -1#32 := by
    intro heq
    have := congrArg BitVec.toInt heq
    rw [toInt_ofNat_int h] at this
    have hneg : (-1#32).toInt = -1 := by decide
    omega
  rw [BitVec.toInt_sdiv_of_ne_or_ne _ _ (.inr hne), toInt_ofNat_int h]

theorem toInt_srem_ofNat (x : BitVec 32) {n : ℕ} (h : n < 2 ^ 31) :
    (x.srem (.ofNat 32 n)).toInt = x.toInt.tmod n := by
  rw [BitVec.toInt_srem, toInt_ofNat_int h]

theorem toInt_ticks (timing : BitVec 32) :
    (timing.sdiv (.ofNat 32 m.mTickTime)).toInt = m.ticks timing.toInt :=
  toInt_sdiv_ofNat timing m.tickTime_int

theorem toInt_round (hN : N < 2 ^ 31) (timing : BitVec 32) :
    ((timing.sdiv (.ofNat 32 m.mTickTime)).sdiv (.ofNat 32 N)).toInt = m.round timing.toInt := by
  rw [toInt_sdiv_ofNat _ hN, toInt_ticks]
  rfl

/-- **The slot is what the `int`s of `addTimer` give.** -/
theorem toInt_slot (hN : N < 2 ^ 31) (timing : BitVec 32) :
    ((BitVec.ofNat 32 m.mCurSlot + (timing.sdiv (.ofNat 32 m.mTickTime)).srem
      (.ofNat 32 N)).srem (.ofNat 32 N)).toInt = m.slot timing.toInt := by
  have hcur : (m.mCurSlot : ℕ) < 2 ^ 31 := m.mCurSlot.isLt.trans hN
  rw [slot_bmod, toInt_srem_ofNat _ hN, BitVec.toInt_add, toInt_ofNat_int hcur,
    toInt_srem_ofNat _ hN, toInt_ticks]
  rfl

/-! ### The products -/

/-- The product by 1000, read as an `int`, is right exactly when it is an `int`. -/
theorem timing_exact_iff (x : BitVec 32) :
    (x * 1000).toInt = 1000 * (x.toNat : ℤ) ↔ 1000 * x.toNat < 2 ^ 31 := by
  constructor
  · intro h
    have := BitVec.toInt_lt (x := x * 1000)
    omega
  · intro h
    have hnat : (x * 1000).toNat = 1000 * x.toNat := by
      rw [BitVec.toNat_mul, Nat.mul_comm]
      exact Nat.mod_eq_of_lt (by show 1000 * x.toNat < 2 ^ 32; omega)
    rw [BitVec.toInt_eq_toNat_of_lt (by omega), hnat, Nat.cast_mul]
    rfl

/-- What wraps around to below 0 is a slot only if it is a multiple of the number
of slots. -/
theorem tmod_bmod_mem_iff {y : ℕ} (hN : 0 < N) (hy : y < 2 ^ 32) :
    0 ≤ (((y : ℤ).bmod (2 ^ 32)).tmod N) ∧ ((y : ℤ).bmod (2 ^ 32)).tmod N < N ↔
      y < 2 ^ 31 ∨ N ∣ 2 ^ 32 - y := by
  have hpos : (0 : ℤ) < N := by omega
  refine (and_iff_left (Int.tmod_lt_of_pos _ hpos)).trans ?_
  by_cases hlt : y < 2 ^ 31
  · rw [Int.bmod_eq_of_le (by omega) (by omega)]
    exact iff_of_true (Int.tmod_nonneg _ (by omega)) (.inl hlt)
  · rw [bmod_wrapped (by omega) hy, Int.neg_tmod, or_iff_right hlt, ← Int.natCast_dvd_natCast,
      Int.dvd_iff_tmod_eq_zero]
    have := Int.tmod_nonneg (N : ℤ) (Int.natCast_nonneg (2 ^ 32 - y))
    omega

theorem keptInWheel_iff_inInts (hN : N < 2 ^ 31) (x : BitVec 32) :
    m.KeptInWheel x (x * 1000) ↔ m.InInts x.toNat := by
  have hcur := m.mCurSlot.isLt
  have hmod := Nat.mod_lt (1000 * x.toNat / m.mTickTime) (show 0 < N by omega)
  have hreach : m.reach x.toNat < 2 ^ 32 := by
    unfold reach
    omega
  -- with the right product the slot is that of `reach`
  have hslot : (x * 1000).toInt = 1000 * (x.toNat : ℤ) → m.slot (x * 1000).toInt =
      ((m.reach x.toNat : ℤ).bmod (2 ^ 32)).tmod N := by
    intro hexact
    rw [slot_bmod, slotSum, hexact, ticks, Int.tdiv_eq_ediv_of_nonneg (by omega)]
    have hnonneg : 0 ≤ 1000 * (x.toNat : ℤ) / m.mTickTime :=
      Int.ediv_nonneg (by omega) (Int.natCast_nonneg _)
    rw [Int.tmod_eq_emod_of_nonneg hnonneg, reach]
    push_cast
    rfl
  constructor
  · intro h
    refine ⟨(timing_exact_iff x).mp h.exact, ?_⟩
    rw [← tmod_bmod_mem_iff (by omega) hreach, ← hslot h.exact]
    exact h.slot
  · rintro ⟨hprod, hsum⟩
    have hexact := (timing_exact_iff x).mpr hprod
    refine ⟨hexact, by omega, ?_, ?_⟩
    · rw [hslot hexact]
      exact (tmod_bmod_mem_iff (by omega) hreach).mpr hsum
    · rw [hexact, TimerManager.round, ticks]
      exact Int.tdiv_nonneg (Int.tdiv_nonneg (by omega) (Int.natCast_nonneg _))
        (Int.natCast_nonneg _)

/-- **When a number of seconds keeps a timer in the wheel.**  For every wheel whose
number of slots is an `int` and every position of its cursor, the timing that
`sleep` hands to `addTimer` is exact and has a slot and a round exactly when the
product by 1000 is an `int` and the sum of the slots does not wrap around, or only
to a multiple of their number; and the same holds of the timing of every timeout
that `setTimeOut` accepts, but for the one that reads back as -1. -/
theorem keptInWheel_iff (hN : N < 2 ^ 31) :
    (∀ seconds, m.KeptInWheel seconds (sleepTiming seconds) ↔ m.InInts seconds.toNat) ∧
      ∀ (ctx : FdCtx) (type : ℤ) (t : BitVec 32), t ≠ -1 →
        ∃ timing, ioTiming (ctx.setTimeOut type t) type = some timing ∧
          (m.KeptInWheel t timing ↔ m.InInts t.toNat) := by
  refine ⟨keptInWheel_iff_inInts m hN, fun ctx type t ht => ⟨t * 1000, ?_, ?_⟩⟩
  · rw [ioTiming, FdCtx.getTimeOut_setTimeOut, if_pos ht]
  · exact keptInWheel_iff_inInts m hN t

/-- A `sleep(10)` on the default wheel. -/
theorem keptInWheel_ten :
    (defaultWheel : TimerManager 60 Unit).KeptInWheel 10 (sleepTiming 10) := by
  refine ((keptInWheel_iff defaultWheel (by decide)).1 10).mpr ⟨by decide, .inl ?_⟩
  decide

/-- A `sleep(2147484)`, of some 25 days: the product is above 2^31, is read as a
negative number, and `addTimer` writes below the wheel. -/
theorem sleep_leaves_wheel :
    (sleepTiming 2147484).toInt = -2147483296 ∧
      (defaultWheel : TimerManager 60 Unit).slot (sleepTiming 2147484).toInt = -56 ∧
      (defaultWheel : TimerManager 60 Unit).round (sleepTiming 2147484).toInt = -178956 ∧
      ¬ (defaultWheel : TimerManager 60 Unit).KeptInWheel 2147484 (sleepTiming 2147484) := by
  refine ⟨by decide, by decide, by decide, fun h => ?_⟩
  exact absurd h.nonneg (by decide)

end TimerManager

end Server
