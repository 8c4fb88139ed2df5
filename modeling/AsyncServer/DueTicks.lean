/-
Whether a tick happens exactly when it is due.

`tick` takes the 64-bit difference of the clock reading and `mLastExpireTime`, cuts it
to an `int` and compares that with `mTickTime`.  The readings of all threads are made
under `mLock`, so that on a clock that does not go back they form one sequence.

* `expired_iff` — the test on the cut difference, in numbers;
* `advances_apart` — consecutive advances are at least `mTickTime` apart in any case;
* `ticksDue_iff` — every call of a run does what is due, and returns, if and only if at each
  reading that is due the difference, taken modulo 2^32, is due as well and below 2^31, and
  the slot at the cursor can be worked off.
-/
import AsyncServer.TimerFiring
import Mathlib.Data.BitVec

namespace Server

open Transition

namespace TimerManager

variable {N : ℕ} {κ : Type*} {m : TimerManager N κ} {now now' : BitVec 64}

/-- The milliseconds from `mLastExpireTime` to a reading. -/
def gap (m : TimerManager N κ) (now : BitVec 64) : ℕ := now.toNat - m.mLastExpireTime.toNat

/-- What a call of `tick` is to do: return and advance when it is due, and nothing before
that. -/
structure OnTime (m : TimerManager N κ) (now now' : BitVec 64) : Prop where
  due : m.mTickTime ≤ m.gap now → ∀ cbs, ∃ r, m.tick now now' cbs = some r ∧
    (r.mgr.mCurSlot : ℕ) = (m.mCurSlot + 1) % N ∧ r.mgr.mLastExpireTime = now'
  early : m.gap now < m.mTickTime → ∀ cbs, m.tick now now' cbs = some ⟨m, cbs, []⟩

/-- The condition on a call: its reading is before the time; or the cut difference is due as
the difference is, and the loops over the slot at the cursor end. -/
def Prompt (m : TimerManager N κ) (now : BitVec 64) : Prop :=
  m.gap now < m.mTickTime ∨
    (m.mTickTime ≤ m.gap now % 2 ^ 32 ∧ m.gap now % 2 ^ 32 < 2 ^ 31) ∧ m.SlotReturns

/-- **The test of `tick`**, on a clock that has not gone back. -/
theorem expired_iff (h : m.mLastExpireTime ≤ now) :
    m.expired now = true ↔
      m.mTickTime ≤ m.gap now % 2 ^ 32 ∧ m.gap now % 2 ^ 32 < 2 ^ 31 := by
  have hpos := m.tickTime_pos
  have hcut : ((now - m.mLastExpireTime).setWidth 32).toNat = m.gap now % 2 ^ 32 := by
    rw [BitVec.toNat_setWidth, BitVec.toNat_sub_of_le h]
    rfl
  rw [expired, decide_eq_true_eq, BitVec.toInt_eq_toNat_cond, hcut]
  split_ifs with hsmall <;> omega

/-- Before its time the test fails. -/
theorem expired_of_early (h : m.mLastExpireTime ≤ now) (hearly : m.gap now < m.mTickTime) :
    m.expired now = false := by
  have hint := m.tickTime_int
  have hsame : m.gap now % 2 ^ 32 = m.gap now := Nat.mod_eq_of_lt (by omega)
  rw [← Bool.not_eq_true, expired_iff h, hsame]
  omega

/-- What an effective tick does to the cursor and to `mLastExpireTime`. -/
theorem tick_advances {cbs : List κ} {r : Tick N κ} (h : m.tick now now' cbs = some r)
    (he : m.expired now = true) :
    (r.mgr.mCurSlot : ℕ) = (m.mCurSlot + 1) % N ∧ r.mgr.mLastExpireTime = now' ∧
      r.mgr.mTickTime = m.mTickTime := by
  obtain ⟨m₁, h₁, rfl⟩ := tick_effective h he
  have hsame := (reinsert_fold h₁).1
  refine ⟨?_, rfl, hsame.mTickTime⟩
  show ((m₁.mCurSlot : ℕ) + 1) % N = _
  rw [hsame.mCurSlot]
  rfl

/-- **When a call is on time.** -/
theorem onTime_iff (hlast : m.mLastExpireTime ≤ now) (hnow : now ≤ now') :
    m.OnTime now now' ↔ m.Prompt now := by
  have hnone : ∀ cbs, m.expired now = false → m.tick now now' cbs = some ⟨m, cbs, []⟩ := by
    intro cbs he
    rw [tick, if_neg (by rw [he]; exact Bool.false_ne_true)]
  constructor
  · intro h
    refine or_iff_not_imp_left.mpr fun hdue => ?_
    obtain ⟨r, htick, -, hexpire⟩ := h.due (not_lt.mp hdue) []
    have he : m.expired now = true := by
      by_contra hrefused
      -- the call is refused, and `mLastExpireTime` is not its second reading
      rw [hnone [] (Bool.not_eq_true _ ▸ hrefused), Option.some_inj] at htick
      subst htick
      have hsame : m.mLastExpireTime = now' := hexpire
      have hpos := m.tickTime_pos
      rw [gap, hsame] at hdue
      have : now.toNat ≤ now'.toNat := hnow
      omega
    exact ⟨(expired_iff hlast).mp he, (tick_returns_iff he now' []).mp ⟨r, htick⟩⟩
  · intro hprompt
    refine ⟨fun hdue cbs => ?_, fun hearly cbs => hnone cbs (expired_of_early hlast hearly)⟩
    obtain ⟨hcut, hslot⟩ := hprompt.resolve_left (not_lt.mpr hdue)
    have he := (expired_iff hlast).mpr hcut
    obtain ⟨r, h⟩ := (tick_returns_iff he now' cbs).mpr hslot
    exact ⟨r, h, (tick_advances h he).1, (tick_advances h he).2.1⟩

end TimerManager

/-! ### Runs on a clock that does not go back -/

/-- A wheel with the latest clock reading, and the two readings of each advance. -/
structure ClockedWheel (N : ℕ) (κ : Type*) where
  mgr : TimerManager N κ
  clock : BitVec 64
  advances : List (BitVec 64 × BitVec 64)

namespace ClockedWheel

variable {N : ℕ} {κ : Type*} {s s' : ClockedWheel N κ}

/-- The constructor, which reads the clock. -/
def start [Inhabited κ] (hN : 0 < N) (ticktime : ℕ) (hpos : 0 < ticktime)
    (hint : ticktime < 2 ^ 31) (now : BitVec 64) : ClockedWheel N κ :=
  ⟨.create hN ticktime hpos hint now, now, []⟩

/-- One call by some thread. -/
def step (s : ClockedWheel N κ) : TimerOp κ → Option (ClockedWheel N κ)
  | .addTimer timing cb recurr =>
    (s.mgr.addTimer timing cb recurr).map fun r => { s with mgr := r.2 }
  | .delTimer timer => some { s with mgr := s.mgr.delTimer timer }
  | .tick now now' =>
    if s.clock ≤ now ∧ now ≤ now' then
      (s.mgr.tick now now' []).map fun r =>
        -- the second reading is that of an effective tick
        if s.mgr.expired now then ⟨r.mgr, now', s.advances ++ [(now, now')]⟩
        else ⟨r.mgr, now, s.advances⟩
    else none

/-- What a call of `tick` does to a run. -/
theorem step_tick {now now' : BitVec 64} (h : s.step (.tick now now') = some s') :
    s.clock ≤ now ∧ now ≤ now' ∧
      ((s.mgr.expired now = false ∧ s' = ⟨s.mgr, now, s.advances⟩) ∨
        (s.mgr.expired now = true ∧ ∃ r, s.mgr.tick now now' [] = some r ∧
          s' = ⟨r.mgr, now', s.advances ++ [(now, now')]⟩)) := by
  rw [step] at h
  by_cases hclock : s.clock ≤ now ∧ now ≤ now'
  · rw [if_pos hclock] at h
    obtain ⟨r, hr, rfl⟩ := Option.map_eq_some_iff.mp h
    refine ⟨hclock.1, hclock.2, ?_⟩
    obtain ⟨he, rfl⟩ | ⟨he, -⟩ := TimerManager.tick_cases hr
    · exact .inl ⟨he, by rw [if_neg (by simp [he])]⟩
    · exact .inr ⟨he, r, hr, if_pos he⟩
  · rw [if_neg hclock] at h
    exact absurd h (by simp)

/-- A call of `tick` whose readings do not go back does what is due. -/
def TicksDue (s : ClockedWheel N κ) : TimerOp κ → Prop
  | .tick now now' => s.clock ≤ now → now ≤ now' → s.mgr.OnTime now now'
  | _ => True

/-- The condition on such a call. -/
def TicksPrompt (s : ClockedWheel N κ) : TimerOp κ → Prop
  | .tick now now' => s.clock ≤ now → now ≤ now' → s.mgr.Prompt now
  | _ => True

/-- At least `ticktime` ms from the end of one advance to the next one. -/
def Apart (ticktime : ℕ) (a b : BitVec 64 × BitVec 64) : Prop :=
  a.2.toNat + ticktime ≤ b.1.toNat

/-- What every run keeps. -/
structure Clocked (ticktime : ℕ) (s : ClockedWheel N κ) : Prop where
  tickTime : s.mgr.mTickTime = ticktime
  past : s.mgr.mLastExpireTime ≤ s.clock
  last : ∀ a ∈ s.advances.getLast?, a.2 = s.mgr.mLastExpireTime
  apart : s.advances.IsChain (Apart ticktime)

theorem clocked_start [Inhabited κ] (hN : 0 < N) (ticktime : ℕ) (hpos : 0 < ticktime)
    (hint : ticktime < 2 ^ 31) (now : BitVec 64) :
    Clocked ticktime (start hN ticktime hpos hint now : ClockedWheel N κ) where
  tickTime := rfl
  past := BitVec.le_refl now
  last a ha := absurd ha (by simp [start])
  apart := List.isChain_nil

/-- The step lemma. -/
theorem clocked_step {ticktime : ℕ} {op : TimerOp κ} (hs : Clocked ticktime s)
    (h : s.step op = some s') : Clocked ticktime s' := by
  cases op with
  | addTimer timing cb recurr =>
    obtain ⟨⟨p, m⟩, hadd, rfl⟩ := Option.map_eq_some_iff.mp h
    obtain ⟨rfl, slot, -, rfl⟩ := TimerManager.addTimer_eq_some hadd
    exact ⟨hs.tickTime, hs.past, hs.last, hs.apart⟩
  | delTimer timer =>
    obtain rfl : _ = s' := Option.some_inj.mp h
    exact ⟨hs.tickTime, hs.past, hs.last, hs.apart⟩
  | tick now now' =>
    obtain ⟨hnow, -, hcases⟩ := step_tick h
    have hlast : s.mgr.mLastExpireTime ≤ now := BitVec.le_trans hs.past hnow
    rcases hcases with ⟨-, rfl⟩ | ⟨he, r, hr, rfl⟩
    · exact ⟨hs.tickTime, hlast, hs.last, hs.apart⟩
    obtain ⟨-, hexpire, htick⟩ := TimerManager.tick_advances hr he
    refine ⟨htick.trans hs.tickTime, ?_, fun a ha => ?_, ?_⟩
    · rw [hexpire]
      exact BitVec.le_refl now'
    · rw [List.getLast?_concat, Option.mem_some_iff] at ha
      rw [← ha, hexpire]
    · refine List.isChain_append.mpr ⟨hs.apart, List.isChain_singleton _, fun a ha b hb => ?_⟩
      rw [List.head?_cons, Option.mem_some_iff] at hb
      rw [Apart, ← hb, hs.last a ha, ← hs.tickTime]
      -- the cut difference is no more than the difference
      have hdue := ((TimerManager.expired_iff hlast).mp he).1
      have hle := Nat.mod_le (s.mgr.gap now) (2 ^ 32)
      have hnonneg : s.mgr.mLastExpireTime.toNat ≤ now.toNat := hlast
      rw [TimerManager.gap] at hdue hle
      show s.mgr.mLastExpireTime.toNat + s.mgr.mTickTime ≤ now.toNat
      omega

theorem ticksDue_iff_ticksPrompt {ticktime : ℕ} (hs : Clocked ticktime s) (op : TimerOp κ) :
    s.TicksDue op ↔ s.TicksPrompt op := by
  cases op with
  | tick now now' =>
    exact forall_congr' fun hnow => forall_congr' fun hnow' =>
      TimerManager.onTime_iff (BitVec.le_trans hs.past hnow) hnow'
  | _ => exact Iff.rfl

variable [Inhabited κ] {hN : 0 < N} {ticktime : ℕ} {hpos : 0 < ticktime}
  {hint : ticktime < 2 ^ 31} {now : BitVec 64} {ops : List (TimerOp κ)}

theorem clocked_run (h : run step ops (start hN ticktime hpos hint now) = some s) :
    Clocked ticktime s :=
  Reachable.run_invariant (fun _ _ _ _ hs hstep => clocked_step hs hstep)
    (clocked_start hN ticktime hpos hint now) h

/-- **Consecutive advances are at least a tick apart.** -/
theorem advances_apart (h : run step ops (start hN ticktime hpos hint now) = some s) :
    s.advances.IsChain (Apart ticktime) :=
  (clocked_run h).apart

/-- **A tick happens exactly when it is due**: the calls of a sequence all return and do what
is due, and the advances are apart at any moment, if and only if all calls are prompt. -/
theorem ticksDue_iff (hN : 0 < N) (ticktime : ℕ) (hpos : 0 < ticktime) (hint : ticktime < 2 ^ 31)
    (now : BitVec 64) (ops : List (TimerOp κ)) :
    (Along step TicksDue ops (start hN ticktime hpos hint now) ∧
        ∀ before after s, ops = before ++ after →
          run step before (start hN ticktime hpos hint now) = some s →
          s.advances.IsChain (Apart ticktime)) ↔
      Along step TicksPrompt ops (start hN ticktime hpos hint now) := by
  have hstart : Clocked ticktime (start hN ticktime hpos hint now : ClockedWheel N κ) :=
    clocked_start hN ticktime hpos hint now
  refine (and_iff_left fun _ _ _ _ hrun => advances_apart hrun).trans ⟨fun hdue => ?_,
    fun hprompt => ?_⟩
  · exact hdue.mono (fun _ op hs => (ticksDue_iff_ticksPrompt hs op).mp)
      (fun _ _ _ hs hstep => clocked_step hs hstep) hstart
  · exact hprompt.mono (fun _ op hs => (ticksDue_iff_ticksPrompt hs op).mpr)
      (fun _ _ _ hs hstep => clocked_step hs hstep) hstart

/-- A wheel of 60 slots of 200 ms, made at the reading 0. -/
def wheelAt0 : ClockedWheel 60 Unit :=
  start TimerManager.defaultSlots_pos 200 TimerManager.defaultTick_pos
    TimerManager.defaultTick_int 0

/-- A tick before its time, and one at it, over an empty slot. -/
theorem ticksDue_second :
    (∃ s, run step [.tick 100 100, .tick 200 203] wheelAt0 = some s ∧
      s.advances = [(200, 203)]) ∧
    Along step TicksDue [.tick 100 100, .tick 200 203] wheelAt0 := by
  refine ⟨⟨_, rfl, rfl⟩, ((ticksDue_iff TimerManager.defaultSlots_pos 200
    TimerManager.defaultTick_pos TimerManager.defaultTick_int 0
    [.tick 100 100, .tick 200 203]).mpr ⟨fun _ _ => .inl ?_, fun t ht => ?_⟩).1⟩
  · show 100 < 200
    decide
  · obtain ⟨-, -, ⟨-, rfl⟩ | ⟨he, -⟩⟩ := step_tick ht
    · refine ⟨fun _ _ => .inr ⟨show 200 ≤ 200 ∧ 200 < 2 ^ 31 by decide, ?_⟩, fun _ _ => trivial⟩
      exact fun p hp => absurd hp List.not_mem_nil
    · exact absurd he (by decide)

/-- **A call 2^31 ms after the last advance** is refused. -/
theorem overdue_refused :
    ∃ s, run step [.tick (2 ^ 31) (2 ^ 31)] wheelAt0 = some s ∧ s.mgr.mCurSlot = 0 ∧
      s.advances = [] ∧ ¬ Along step TicksDue [.tick (2 ^ 31) (2 ^ 31)] wheelAt0 := by
  have hrun : ∃ s, run step [.tick (2 ^ 31) (2 ^ 31)] wheelAt0 = some s ∧ s.mgr.mCurSlot = 0 ∧
      s.advances = [] ∧ wheelAt0.mgr.tick (2 ^ 31) (2 ^ 31) [] = some ⟨s.mgr, [], []⟩ :=
    ⟨_, rfl, rfl, rfl, rfl⟩
  obtain ⟨s, hs, hcur, hadvances, htick⟩ := hrun
  refine ⟨s, hs, hcur, hadvances, fun h => ?_⟩
  have hdue := h.1 (by decide) (by decide)
  obtain ⟨r, hr, hmoved, -⟩ := hdue.due (show 200 ≤ 2 ^ 31 by decide) []
  -- the cursor has not moved
  obtain rfl := Option.some_inj.mp (htick.symm.trans hr)
  have hone : (s.mgr.mCurSlot : ℕ) = 1 := hmoved
  rw [hcur] at hone
  exact absurd hone (by decide)

end ClockedWheel

end Server
