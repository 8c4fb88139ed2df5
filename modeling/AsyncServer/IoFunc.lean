/-
One call of `io_func`, from its first line to its return (hook.cpp).

A call is given the results of the raw calls that it makes, each with how the wait ends
that a result `EAGAIN` leads to: whether the timer of the wait has expired by then, and
the manager as others have left it.

* `ioFunc` — the call, with the results it has taken and its calls of `addTimer` and
  `delTimer` as history variables;
* `Transparent` — it takes results up to the first one that is neither `EINTR` nor
  `EAGAIN`, or to the wait that its timer ends, and deletes each timer that it adds;
* `transparent_iff` — it does so for all results if and only if there is no timeout, or
  one for which `addTimer` finds a slot wherever the cursor stands; on wheels of up to 2^30
  slots that is one whose ticks are not negative modulo `mSlotNum` (`slotForAll_iff`).
-/
import AsyncServer.DescriptorIndices
import AsyncServer.Hook
import AsyncServer.TimerWheel
import Mathlib.Data.BitVec

namespace Server

open Epoll

def EINTR : ℤ := 4
def EBADF : ℤ := 9
def EAGAIN : ℤ := 11
def EWOULDBLOCK : ℤ := 11
def ETIMEDOUT : ℤ := 110

/-- What a raw call returns, and the `errno` that it leaves. -/
structure RawResult where
  n : ℤ
  errno : ℤ
  deriving DecidableEq

namespace RawResult

/-- `n == -1 && errno == EINTR`. -/
def Interrupted (r : RawResult) : Prop := r.n = -1 ∧ r.errno = EINTR

/-- `n == -1 && (errno == EAGAIN || errno == EWOULDBLOCK)`. -/
def Again (r : RawResult) : Prop := r.n = -1 ∧ (r.errno = EAGAIN ∨ r.errno = EWOULDBLOCK)

instance : DecidablePred Interrupted := fun _ => inferInstanceAs (Decidable (_ ∧ _))

instance : DecidablePred Again := fun _ => inferInstanceAs (Decidable (_ ∧ _))

end RawResult

/-- How a wait goes: whether the `epoll_ctl` fails, whether the timer expires, and the
manager when the fiber goes on, with a wheel of the tick time `T`. -/
structure Wake (N : ℕ) (φ κ : Type*) (T : ℕ) where
  fault : Bool
  expired : Bool
  iom : IOManager N φ κ
  pool : iom.PoolWf
  tickTime : iom.mTimerManager.mTickTime = T

/-- A call of `io_func` to the timers. -/
inductive TimerCall where
  | addTimer (timer : TimerPtr)
  | delTimer (timer : TimerPtr)
  deriving DecidableEq

/-- The manager, and the history of a call: the results it has taken, its calls to the
timers, and by how much others have changed `mTimerCnt` while it waited. -/
structure IoState (N : ℕ) (φ κ : Type*) where
  iom : IOManager N φ κ
  raws : List RawResult
  timers : List TimerCall
  others : BitVec 32

namespace IoState

variable {N : ℕ} {φ κ : Type*} {T : ℕ}

/-- `if(to != -1) timer = iom->addTimer(to * 1000, cb)`. -/
def arm (s : IoState N φ κ) (timeOut : BitVec 32) (cb : κ) : Option (Option TimerPtr × IoState N φ κ) :=
  if timeOut ≠ -1 then
    (s.iom.addTimer (millis timeOut) cb false).map fun r =>
      (some r.1, { s with iom := r.2, timers := s.timers ++ [.addTimer r.1] })
  else some (none, s)

/-- `iom->addEvent(fd, event)`, in the fiber `cur`. -/
def register (s : IoState N φ κ) (fd : ℤ) (d : Dir) (cur : φ) (fault : Bool) :
    Option (IoState N φ κ) :=
  (s.iom.addEvent fd d none ET cur fault).map fun iom => { s with iom := iom }

/-- `yieldToHold`, until the fiber is resumed. -/
def held (s : IoState N φ κ) (w : Wake N φ κ T) : IoState N φ κ :=
  { s with
    iom := w.iom
    others := s.others + (w.iom.mTimerCnt - s.iom.mTimerCnt) }

/-- `if(timer) iom->delTimer(timer)`. -/
def disarm (s : IoState N φ κ) : Option TimerPtr → IoState N φ κ
  | none => s
  | some timer => { s with
      iom := s.iom.delTimer timer
      timers := s.timers ++ [.delTimer timer] }

/-- The waiting branch, up to the test of `cancel`. -/
def wait (fd : ℤ) (d : Dir) (timeOut : BitVec 32) (cb : κ) (cur : φ) (s : IoState N φ κ)
    (w : Wake N φ κ T) : Option (Bool × IoState N φ κ) :=
  (s.arm timeOut cb).bind fun r =>
    (r.2.register fd d cur w.fault).map fun s =>
      -- only the callback of the timer sets `cancel`
      (r.1.isSome && w.expired, (s.held w).disarm r.1)

/-- From the label `Retry` on; `none` as the result if the raw call has not returned. -/
def retry (fd : ℤ) (d : Dir) (timeOut : BitVec 32) (cb : κ) (cur : φ) :
    List (RawResult × Wake N φ κ T) → IoState N φ κ →
      Option (Option RawResult × IoState N φ κ)
  | [], s => some (none, s)
  | (r, w) :: answers, s =>
    let s := { s with raws := s.raws ++ [r] }
    -- the inner loop and `goto Retry` both make the raw call again
    if r.Interrupted then retry fd d timeOut cb cur answers s
    else if r.Again then
      (s.wait fd d timeOut cb cur w).bind fun x =>
        if x.1 then some (some ⟨-1, ETIMEDOUT⟩, x.2) else retry fd d timeOut cb cur answers x.2
    else some (some r, s)

/-- The raw call alone, for a descriptor that is not a socket with a context. -/
def plain : List (RawResult × Wake N φ κ T) → IoState N φ κ →
    Option (Option RawResult × IoState N φ κ)
  | [], s => some (none, s)
  | (r, _) :: _, s => some (some r, { s with raws := s.raws ++ [r] })

/-- `io_func`; `cb` is the callback of its timer, and `cur` the calling fiber. -/
def ioFunc (m : FdManager) (fd : ℤ) (d : Dir) (type : ℤ) (cb : κ) (cur : φ)
    (answers : List (RawResult × Wake N φ κ T)) (s : IoState N φ κ) :
    Option (Option RawResult × IoState N φ κ) :=
  (m.get fd false false).bind fun r =>
    match r.1 with
    | none => plain answers s
    | some p =>
      if (m.heap p).isClose then some (some ⟨-1, EBADF⟩, s)
      else if !(m.heap p).isSocket then plain answers s
      else retry fd d ((m.heap p).getTimeOut type) cb cur answers s

/-! ### What a call is to do -/

/-- An answer after which the call goes on: `EINTR`, or `EAGAIN` and a wait that is not
ended by a timer. -/
def Transient (timeOut : BitVec 32) (a : RawResult × Wake N φ κ T) : Prop :=
  a.1.Interrupted ∨ a.1.Again ∧ (timeOut = -1 ∨ a.2.expired = false)

/-- What the call returns for an answer that is not. -/
def resultOf (a : RawResult × Wake N φ κ T) : RawResult :=
  if a.1.Again then ⟨-1, ETIMEDOUT⟩ else a.1

/-- The results that a call takes and what it returns: up to the first answer that is
not transient, and no further. -/
def Takes (timeOut : BitVec 32) (answers : List (RawResult × Wake N φ κ T)) (raws : List RawResult)
    (result : Option RawResult) : Prop :=
  (∃ before a after, answers = before ++ a :: after ∧ (∀ b ∈ before, Transient timeOut b) ∧
      ¬ Transient timeOut a ∧ raws = before.map Prod.fst ++ [a.1] ∧ result = some (resultOf a)) ∨
    ((∀ a ∈ answers, Transient timeOut a) ∧ raws = answers.map Prod.fst ∧ result = none)

/-- From one state of a call to another, each timer that was added has been deleted, and
`mTimerCnt` differs by what others have done to it. -/
structure Balanced (s s' : IoState N φ κ) : Prop where
  timers : ∃ ts : List TimerPtr,
    s'.timers = s.timers ++ ts.flatMap fun timer => [.addTimer timer, .delTimer timer]
  mTimerCnt : s'.iom.mTimerCnt = s.iom.mTimerCnt + (s'.others - s.others)

/-- The call is defined, takes the results that it is to, and is balanced. -/
def Transparent (timeOut : BitVec 32) (answers : List (RawResult × Wake N φ κ T))
    (s : IoState N φ κ) (outcome : Option (Option RawResult × IoState N φ κ)) : Prop :=
  ∃ result s', outcome = some (result, s') ∧
    (∃ raws, s'.raws = s.raws ++ raws ∧ Takes timeOut answers raws result) ∧ s.Balanced s'

end IoState

namespace TimerManager

variable {N : ℕ} {κ : Type*} (m : TimerManager N κ)

/-- The wheel with the cursor at `c`. -/
def atCursor (c : Fin N) : TimerManager N κ := { m with mCurSlot := c }

/-- There is a slot wherever the cursor stands. -/
def SlotForAll (timing : ℤ) : Prop :=
  ∀ c : Fin N, ∃ slot, slotAt N ((m.atCursor c).slot timing) = some slot

variable {m}

/-- A sum of at most 2^30 slots that is negative leads below the wheel. -/
theorem slotAt_slot_iff (hN : N ≤ 2 ^ 30) (timing : ℤ) :
    (∃ slot, slotAt N (m.slot timing) = some slot) ↔ 0 ≤ m.slotSum timing := by
  have hcur := m.mCurSlot.isLt
  have hpos : (0 : ℤ) < N := by omega
  have hgt := Int.lt_tmod_of_pos (m.ticks timing) hpos
  have hlow : -(N : ℤ) < m.slotSum timing := by
    rw [slotSum]
    omega
  have hhigh := slotSum_lt m hN timing
  rw [slot_bmod, Int.bmod_eq_of_le (by omega) (by omega), slotAt]
  by_cases hneg : 0 ≤ m.slotSum timing
  · rw [dif_pos ⟨Int.tmod_nonneg _ hneg, Int.tmod_lt_of_pos _ hpos⟩]
    exact iff_of_true ⟨_, rfl⟩ hneg
  · -- a negative sum is less than one round below 0
    have hsmall : (m.slotSum timing).tmod N = m.slotSum timing := by
      rw [← neg_neg (m.slotSum timing), Int.neg_tmod, Int.tmod_eq_of_lt (by omega) (by omega)]
    rw [dif_neg (by rw [hsmall]; exact fun h => hneg h.1)]
    exact iff_of_false (by simp) hneg

/-- On a wheel of up to 2^30 slots the first slot of the cursor decides. -/
theorem slotForAll_iff (hN : N ≤ 2 ^ 30) (timing : ℤ) :
    m.SlotForAll timing ↔ 0 ≤ (m.ticks timing).tmod N := by
  have hcur := m.mCurSlot.isLt
  have hc : ∀ c : Fin N, (m.atCursor c).slotSum timing = (c : ℤ) + (m.ticks timing).tmod N :=
    fun _ => rfl
  simp only [SlotForAll, slotAt_slot_iff hN, hc]
  constructor
  · intro h
    simpa using h ⟨0, by omega⟩
  · exact fun h c => add_nonneg (Int.natCast_nonneg _) h

theorem SlotForAll.congr {m' : TimerManager N κ} {timing : ℤ} (h : m.SlotForAll timing)
    (htick : m'.mTickTime = m.mTickTime) : m'.SlotForAll timing := by
  intro c
  rw [slot_congr (m.atCursor c) (m'.atCursor c) rfl htick]
  exact h c

theorem SlotForAll.addTimer {timing : ℤ} (h : m.SlotForAll timing) (cb : κ) (recurr : Bool) :
    (m.addTimer timing cb recurr).isSome := by
  obtain ⟨slot, hslot⟩ := h m.mCurSlot
  rw [TimerManager.addTimer, Option.isSome_map]
  exact Option.isSome_iff_exists.mpr ⟨slot, hslot⟩

end TimerManager

namespace IOManager

variable {N : ℕ} {φ κ : Type*} {s : IOManager N φ κ} {fd : ℤ}

/-- On a valid descriptor `addEvent` is defined. -/
theorem addEvent_isSome (hs : s.PoolWf) (h0 : 0 ≤ fd) (d : Dir) (cb : Option κ) (flag : Mask)
    (cur : φ) (fault : Bool) : (s.addEvent fd d cb flag cur fault).isSome := by
  obtain ⟨r, hctl⟩ := Option.isSome_iff_exists.mp
    ((addEventCtl_isSome_iff s fd d flag fault).mpr (addEventIndices_within hs h0))
  rw [addEvent, hctl, Option.bind_some]
  split_ifs
  · rw [addEventUpdate, Option.isSome_map]
    exact (addEventCtl_cases hs hctl).2.2.2.1
  · rfl

end IOManager

namespace IoState

variable {N : ℕ} {φ κ : Type*} {T : ℕ} {s s' : IoState N φ κ} {fd : ℤ} {d : Dir}
  {timeOut : BitVec 32} {cb : κ} {cur : φ}

/-! ### One wait -/

theorem Balanced.refl (s : IoState N φ κ) : Balanced s s :=
  ⟨⟨[], (List.append_nil _).symm⟩, by rw [sub_self, add_zero]⟩

theorem Balanced.trans {s'' : IoState N φ κ} (h : Balanced s s') (h' : Balanced s' s'') :
    Balanced s s'' := by
  obtain ⟨⟨ts, hts⟩, hcnt⟩ := h
  obtain ⟨⟨ts', hts'⟩, hcnt'⟩ := h'
  refine ⟨⟨ts ++ ts', ?_⟩, ?_⟩
  · rw [hts', hts, List.append_assoc, List.flatMap_append]
  · rw [hcnt', hcnt]
    abel

theorem arm_spec (hs : s.iom.PoolWf)
    (htimer : timeOut = -1 ∨ s.iom.mTimerManager.SlotForAll (millis timeOut)) (cb : κ) :
    ∃ timer s', s.arm timeOut cb = some (timer, s') ∧
      timer.isSome = decide (timeOut ≠ -1) ∧ s'.iom.PoolWf ∧ s'.raws = s.raws ∧
      s'.others = s.others ∧ s'.timers = s.timers ++ timer.toList.map .addTimer ∧
      s'.iom.mTimerCnt = s.iom.mTimerCnt + if timer.isSome then 1 else 0 := by
  rw [arm]
  by_cases hnone : timeOut = -1
  · rw [if_neg (not_not.mpr hnone)]
    refine ⟨none, s, rfl, ?_, hs, rfl, rfl, (List.append_nil _).symm, ?_⟩
    · rw [hnone]
      rfl
    · exact (add_zero s.iom.mTimerCnt).symm
  · obtain ⟨⟨timer, iom⟩, hadd⟩ : ∃ r, s.iom.addTimer (millis timeOut) cb false = some r := by
      refine Option.isSome_iff_exists.mp ?_
      rw [IOManager.addTimer, Option.isSome_map]
      exact (htimer.resolve_left hnone).addTimer cb false
    obtain ⟨m, -, rfl⟩ := IOManager.addTimer_eq_some hadd
    rw [if_pos hnone, hadd]
    exact ⟨some timer, _, rfl, (decide_eq_true hnone).symm, hs.congr rfl rfl, rfl, rfl, rfl, rfl⟩

theorem register_spec (hs : s.iom.PoolWf) (h0 : 0 ≤ fd) (d : Dir) (cur : φ) (fault : Bool) :
    ∃ s', s.register fd d cur fault = some s' ∧ s'.raws = s.raws ∧ s'.others = s.others ∧
      s'.timers = s.timers ∧ s'.iom.mTimerCnt = s.iom.mTimerCnt := by
  obtain ⟨iom, hadd⟩ := Option.isSome_iff_exists.mp
    (IOManager.addEvent_isSome hs h0 d none ET cur fault)
  refine ⟨{ s with iom := iom }, ?_, rfl, rfl, rfl, (IOManager.frame_addEvent hs hadd).mTimerCnt⟩
  rw [register, hadd, Option.map_some]

/-- **A wait is balanced**, if its timer finds a slot. -/
theorem wait_spec (hs : s.iom.PoolWf) (h0 : 0 ≤ fd)
    (htimer : timeOut = -1 ∨ s.iom.mTimerManager.SlotForAll (millis timeOut)) (d : Dir) (cb : κ)
    (cur : φ) (w : Wake N φ κ T) :
    ∃ s', s.wait fd d timeOut cb cur w = some (decide (timeOut ≠ -1) && w.expired, s') ∧
      s'.iom.PoolWf ∧ s'.iom.mTimerManager.mTickTime = T ∧ s'.raws = s.raws ∧
      s.Balanced s' := by
  obtain ⟨timer, s₁, harm, hsome, hs₁, hraws₁, hothers₁, htimers₁, hcnt₁⟩ :=
    arm_spec hs htimer cb
  obtain ⟨s₂, hregister, hraws₂, hothers₂, htimers₂, hcnt₂⟩ :=
    register_spec hs₁ h0 d cur w.fault
  refine ⟨(s₂.held w).disarm timer, ?_, ?_⟩
  · rw [wait, harm, Option.bind_some, hregister, Option.map_some, hsome]
  · cases timer with
    | none =>
      refine ⟨w.pool, w.tickTime, hraws₂.trans hraws₁, ⟨[], ?_⟩, ?_⟩
      · exact htimers₂.trans htimers₁
      · simp only [disarm, held, hcnt₂, hcnt₁, hothers₂, hothers₁, Option.isSome_none]
        simp
    | some timer =>
      refine ⟨w.pool.congr rfl rfl, w.tickTime, hraws₂.trans hraws₁, ⟨[timer], ?_⟩, ?_⟩
      · show s₂.timers ++ [.delTimer timer] = _
        rw [htimers₂, htimers₁]
        exact List.append_assoc _ _ _
      · simp only [disarm, held, IOManager.delTimer, hcnt₂, hcnt₁, hothers₂, hothers₁,
          Option.isSome_some, if_true]
        abel

/-! ### All waits -/

/-- **With a slot for each timer, a call is transparent.** -/
theorem retry_transparent (h0 : 0 ≤ fd) (d : Dir) (cb : κ) (cur : φ)
    (htimer : timeOut = -1 ∨ ∀ m : TimerManager N κ, m.mTickTime = T →
      m.SlotForAll (millis timeOut))
    (answers : List (RawResult × Wake N φ κ T)) (hs : s.iom.PoolWf)
    (hT : s.iom.mTimerManager.mTickTime = T) :
    Transparent timeOut answers s (retry fd d timeOut cb cur answers s) := by
  induction answers generalizing s with
  | nil =>
    exact ⟨none, s, rfl, ⟨[], (List.append_nil _).symm, .inr ⟨by simp, rfl, rfl⟩⟩, .refl s⟩
  | cons a answers ih =>
    obtain ⟨r, w⟩ := a
    -- a transient answer is one more result taken, and the rest is the induction's
    have hon : ∀ s' : IoState N φ κ, Transient timeOut (r, w) → s'.iom.PoolWf →
        s'.iom.mTimerManager.mTickTime = T → s'.raws = s.raws ++ [r] → s.Balanced s' →
        retry fd d timeOut cb cur ((r, w) :: answers) s =
          retry fd d timeOut cb cur answers s' →
        Transparent timeOut ((r, w) :: answers) s
          (retry fd d timeOut cb cur ((r, w) :: answers) s) := by
      intro s' htrans hs' hT' hraws' hbalanced heq
      obtain ⟨result, t, hretry, ⟨raws, hraws, htakes⟩, hrest⟩ := ih hs' hT'
      refine ⟨result, t, heq.trans hretry, ⟨r :: raws, ?_, ?_⟩, hbalanced.trans hrest⟩
      · rw [hraws, hraws', List.append_assoc, List.singleton_append]
      · rcases htakes with ⟨before, a, after, rfl, hbefore, ha, rfl, hresult⟩ | ⟨hall, rfl, hnone⟩
        · exact .inl ⟨(r, w) :: before, a, after, rfl, List.forall_mem_cons.mpr ⟨htrans, hbefore⟩,
            ha, rfl, hresult⟩
        · exact .inr ⟨List.forall_mem_cons.mpr ⟨htrans, hall⟩, rfl, hnone⟩
    -- any other answer is the last one
    have hend : ∀ s' : IoState N φ κ, ¬ Transient timeOut (r, w) → s'.raws = s.raws ++ [r] →
        s.Balanced s' → retry fd d timeOut cb cur ((r, w) :: answers) s =
          some (some (resultOf (r, w)), s') →
        Transparent timeOut ((r, w) :: answers) s
          (retry fd d timeOut cb cur ((r, w) :: answers) s) := fun s' hlast hraws hbalanced heq =>
      ⟨_, s', heq, ⟨[r], hraws, .inl ⟨[], (r, w), answers, rfl, by simp, hlast, rfl, rfl⟩⟩,
        hbalanced⟩
    by_cases hintr : r.Interrupted
    · refine hon { s with raws := s.raws ++ [r] } (.inl hintr) hs hT rfl ⟨⟨[], ?_⟩, ?_⟩ ?_
      · exact (List.append_nil _).symm
      · exact (Balanced.refl s).mTimerCnt
      · rw [retry, if_pos hintr]
    by_cases hagain : r.Again
    · obtain ⟨s', hwait, hs', hT', hraws', hbalanced⟩ :=
        wait_spec (s := { s with raws := s.raws ++ [r] }) hs h0
          (htimer.imp_right fun h => h _ hT) d cb cur w
      have hretry : retry fd d timeOut cb cur ((r, w) :: answers) s =
          if (decide (timeOut ≠ -1) && w.expired) = true then some (some ⟨-1, ETIMEDOUT⟩, s')
          else retry fd d timeOut cb cur answers s' := by
        rw [retry, if_neg hintr, if_pos hagain, hwait, Option.bind_some]
      by_cases hcancel : (decide (timeOut ≠ -1) && w.expired) = true
      · have hlast : ¬ Transient timeOut (r, w) := by
          rw [Bool.and_eq_true, decide_eq_true_eq] at hcancel
          rintro (h | ⟨-, h | h⟩)
          · exact hintr h
          · exact hcancel.1 h
          · exact absurd (h.symm.trans hcancel.2) Bool.false_ne_true
        refine hend s' hlast hraws' ⟨hbalanced.timers, hbalanced.mTimerCnt⟩ ?_
        rw [hretry, if_pos hcancel, resultOf, if_pos hagain]
      · have htrans : Transient timeOut (r, w) := by
          rw [Bool.and_eq_true, decide_eq_true_eq, not_and_or, not_not] at hcancel
          exact .inr ⟨hagain, hcancel.imp_right (Bool.eq_false_iff.mpr ·)⟩
        refine hon s' htrans hs' hT' hraws' ⟨hbalanced.timers, hbalanced.mTimerCnt⟩ ?_
        rw [hretry, if_neg hcancel]
    · have hlast : ¬ Transient timeOut (r, w) := by
        rintro (h | ⟨h, -⟩)
        · exact hintr h
        · exact hagain h
      refine hend { s with raws := s.raws ++ [r] } hlast rfl ⟨⟨[], ?_⟩, ?_⟩ ?_
      · exact (List.append_nil _).symm
      · exact (Balanced.refl s).mTimerCnt
      · rw [retry, if_neg hintr, if_neg hagain, resultOf, if_neg hagain]

/-! ### A timer without a slot -/

/-- Where `addTimer` finds no slot, the wait has no outcome. -/
theorem wait_eq_none (hne : timeOut ≠ -1)
    (hslot : ¬ ∃ slot, TimerManager.slotAt N (s.iom.mTimerManager.slot (millis timeOut)) =
      some slot) (w : Wake N φ κ T) :
    s.wait fd d timeOut cb cur w = none := by
  have hadd : s.iom.addTimer (millis timeOut) cb false = none := by
    rw [IOManager.addTimer, Option.map_eq_none_iff, TimerManager.addTimer,
      Option.map_eq_none_iff, ← Option.not_isSome_iff_eq_none, Option.isSome_iff_exists]
    exact hslot
  rw [wait, arm, if_pos hne, hadd]
  rfl

/-- After a wait the wheel is the one that others have left. -/
theorem wheel_wait {w : Wake N φ κ T} {x : Bool × IoState N φ κ}
    (h : s.wait fd d timeOut cb cur w = some x) :
    x.2.iom.mTimerManager.mCurSlot = w.iom.mTimerManager.mCurSlot ∧
      x.2.iom.mTimerManager.mTickTime = w.iom.mTimerManager.mTickTime ∧
      (x.1 = true → w.expired = true) := by
  obtain ⟨⟨timer, s₁⟩, -, h⟩ := Option.bind_eq_some_iff.mp h
  obtain ⟨s₂, -, rfl⟩ := Option.map_eq_some_iff.mp h
  refine ⟨?_, ?_, fun hx => ((Bool.and_eq_true _ _).mp hx).2⟩ <;> cases timer <;> rfl

/-- Others can leave the cursor anywhere. -/
theorem exists_wake_cursor (hs : s.iom.PoolWf) (hT : s.iom.mTimerManager.mTickTime = T)
    (c : Fin N) : ∃ w : Wake N φ κ T, w.expired = false ∧ w.iom.mTimerManager.mCurSlot = c :=
  ⟨{ fault := false
     expired := false
     iom := { s.iom with mTimerManager := { s.iom.mTimerManager with mCurSlot := c } }
     pool := hs.congr rfl rfl
     tickTime := hT }, rfl, rfl⟩

/-- **When a hooked call is transparent.**  On an open socket that `FdManager` knows, the
call is transparent for all results of the raw call, all wake-ups and all that others do
to the manager meanwhile, if and only if there is no timeout or its timer has a slot. -/
theorem transparent_iff {m : FdManager} {p : FdCtxPtr} {type : ℤ} (hctx : m.ctxAt fd = some p)
    (hopen : (m.heap p).isClose = false) (hsock : (m.heap p).isSocket = true)
    (hs : s.iom.PoolWf) (hT : s.iom.mTimerManager.mTickTime = T) :
    (∀ answers : List (RawResult × Wake N φ κ T),
        Transparent ((m.heap p).getTimeOut type) answers s
          (ioFunc m fd d type cb cur answers s)) ↔
      (m.heap p).getTimeOut type = -1 ∨
        s.iom.mTimerManager.SlotForAll (millis ((m.heap p).getTimeOut type)) := by
  have h0 := FdManager.nonneg_of_ctxAt hctx
  have henter : ∀ answers : List (RawResult × Wake N φ κ T),
      ioFunc m fd d type cb cur answers s =
        retry fd d ((m.heap p).getTimeOut type) cb cur answers s := by
    intro answers
    rw [ioFunc, FdManager.get_false h0, Option.bind_some, hctx]
    simp only [hopen, hsock]
    rfl
  simp only [henter]
  generalize (m.heap p).getTimeOut type = timeOut
  constructor
  · intro h
    by_contra hcond
    obtain ⟨hne, hslot⟩ := not_or.mp hcond
    obtain ⟨c, hc⟩ := not_forall.mp hslot
    obtain ⟨w, hw, hcursor⟩ := exists_wake_cursor hs hT c
    -- `EAGAIN` twice, and the cursor where there is no slot when the second wait begins
    let again : RawResult := ⟨-1, EAGAIN⟩
    obtain ⟨result, s', hretry, -⟩ := h [(again, w), (again, w)]
    obtain ⟨x, hwait, hretry⟩ := Option.bind_eq_some_iff.mp hretry
    obtain ⟨hcur, htick, hcancel⟩ := wheel_wait hwait
    rw [if_neg fun hx => absurd (hw.symm.trans (hcancel hx)) Bool.false_ne_true] at hretry
    obtain ⟨y, hwait', -⟩ := Option.bind_eq_some_iff.mp hretry
    rw [wait_eq_none hne] at hwait'
    · exact absurd hwait' (by simp)
    · show ¬ ∃ slot, TimerManager.slotAt N (x.2.iom.mTimerManager.slot (millis timeOut)) =
        some slot
      rw [TimerManager.slot_congr (s.iom.mTimerManager.atCursor c) x.2.iom.mTimerManager
        (hcur.trans hcursor) ((htick.trans w.tickTime).trans hT.symm)]
      exact hc
  · intro hcond answers
    exact retry_transparent h0 d cb cur
      (hcond.imp_right fun h m' hm' => h.congr (hm'.trans hT.symm)) answers hs hT

/-- The descriptors of a server with the socket 5, whose timeout for reading is set. -/
def socketWith (seconds : BitVec 32) : FdManager :=
  let m := FdManager.create.build 5 true
  { m with heap := Function.update m.heap 0 ((m.heap 0).setTimeOut 0 seconds) }

/-- A call that begins, on a new manager. -/
def beginning : IoState 60 Unit Unit := ⟨.create 1 TimerManager.defaultWheel 3, [], [], 0⟩

theorem pool_beginning : beginning.iom.PoolWf := IOManager.poolWf_create 1 _ 3

/-- A wait that an event ends, on that manager. -/
def eventWake : Wake 60 Unit Unit 200 := ⟨false, false, beginning.iom, pool_beginning, rfl⟩

/-- With a timeout of two seconds. -/
theorem transparent_two_seconds :
    (socketWith 2).ctxAt 5 = some 0 ∧ ∀ answers : List (RawResult × Wake 60 Unit Unit 200),
      Transparent (((socketWith 2).heap 0).getTimeOut 0) answers beginning
        (ioFunc (socketWith 2) 5 .read 0 () () answers beginning) :=
  ⟨rfl, (transparent_iff rfl rfl rfl pool_beginning rfl).mpr
    (.inr ((TimerManager.slotForAll_iff (by decide) _).mpr (by decide)))⟩

/-- **With a timeout of 2147484 seconds**, the first `EAGAIN` leads below the wheel. -/
theorem no_slot_for_timeout :
    ioFunc (socketWith 2147484) 5 .read 0 () () [(⟨-1, EAGAIN⟩, eventWake)] beginning = none ∧
      ¬ ∀ answers : List (RawResult × Wake 60 Unit Unit 200),
        Transparent (((socketWith 2147484).heap 0).getTimeOut 0) answers beginning
          (ioFunc (socketWith 2147484) 5 .read 0 () () answers beginning) := by
  have hnone : ioFunc (socketWith 2147484) 5 .read 0 () () [(⟨-1, EAGAIN⟩, eventWake)]
      beginning = none := rfl
  refine ⟨hnone, fun h => ?_⟩
  obtain ⟨result, s', heq, -⟩ := h [(⟨-1, EAGAIN⟩, eventWake)]
  exact absurd (hnone.symm.trans heq) (by simp)

end IoState

end Server
