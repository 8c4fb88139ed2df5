/-
The waiting time of `idle` between two ticks.

`idle` waits in `epoll_wait` for `mTickTime` at first, and after notifications only
for what is left of it: the time from before the wait to after the dispatch is taken
off.  Other time, that of the tasks between two iterations, is not.

The clock of the model counts milliseconds; a reading of it is a `uint64_t`.  Its value
at the last tick, the milliseconds in waits that were taken off since then (`waited`),
and the number of ticks are history variables.

* `Remains` — the invariant: what is left is `mTickTime` less `waited`, as an `int`;
* `punctual_iff` — so every iteration that is due ticks exactly if `waited` reaches
  `mTickTime` in all of them;
* `starved` — while each wait is over at once, no time in tasks ever leads to a tick.
-/
import AsyncServer.EventPool
import AsyncServer.Transition

namespace Server

open Epoll Transition

/-- The one worker of an `IOManager`, in the `idle` of which `waitTime` is a variable. -/
structure IdleLoop (N : ℕ) (φ κ : Type*) where
  iom : IOManager N φ κ
  mTickTime : BitVec 32
  waitTime : BitVec 32
  clock : ℕ
  lastTick : ℕ
  waited : ℕ
  ticks : ℕ

namespace IdleLoop

variable {N : ℕ} {φ κ : Type*} {s s' : IdleLoop N φ κ}

/-- `idle` is entered. -/
def enter (iom : IOManager N φ κ) (mTickTime : BitVec 32) (clock : ℕ) : IdleLoop N φ κ where
  iom := iom
  mTickTime := mTickTime
  waitTime := mTickTime
  clock := clock
  lastTick := clock
  waited := 0
  ticks := 0

/-- `getCurTimeMS()` at a time of the clock. -/
def getCurTimeMS (clock : ℕ) : BitVec 64 := BitVec.ofNat 64 clock

inductive Act (N : ℕ) (φ κ : Type*) where
  /-- between two iterations the worker runs tasks for `d` ms, and they leave the manager
  as `iom` -/
  | tasks (iom : IOManager N φ κ) (d : ℕ)
  /-- `epoll_wait` is interrupted after `d` ms -/
  | interrupted (d : ℕ)
  /-- `epoll_wait` times out after `d` ms; the tick comes `a` ms later and takes `b` ms -/
  | timeout (d a b : ℕ)
  /-- `epoll_wait` brings notifications, the last of which is handled `d` ms after the wait
  began; a tick comes `a` ms later and takes `b` ms -/
  | notified (ns : List (ℤ × Mask × Bool)) (d a b : ℕ)

/-- The loop over the notifications. -/
def dispatchAll (iom : IOManager N φ κ) : List (ℤ × Mask × Bool) → Option (IOManager N φ κ)
  | [] => some iom
  | (fd, events, fault) :: ns => (iom.dispatch fd events fault).bind fun iom => dispatchAll iom ns

/-- The end of an iteration with `timeout` set. -/
def tick (s : IdleLoop N φ κ) (a b : ℕ) : Option (IdleLoop N φ κ) :=
  (s.iom.idleTick (getCurTimeMS (s.clock + a)) (getCurTimeMS (s.clock + a + b))).map fun r =>
    { s with
      iom := r.2
      waitTime := s.mTickTime
      clock := s.clock + a + b
      lastTick := s.clock + a
      waited := 0
      ticks := s.ticks + 1 }

/-- `waitTime -= (end - begin)` after `d` ms. -/
def countDown (s : IdleLoop N φ κ) (d : ℕ) : IdleLoop N φ κ :=
  { s with
    waitTime := (s.waitTime.signExtend 64 -
      (getCurTimeMS (s.clock + d) - getCurTimeMS s.clock)).setWidth 32
    clock := s.clock + d
    waited := s.waited + d }

/-- One iteration of `idle`, or what is between two of them. -/
def step (s : IdleLoop N φ κ) : Act N φ κ → Option (IdleLoop N φ κ)
  | .tasks iom d => some { s with iom := iom, clock := s.clock + d }
  -- EINTR: the loop begins again with the same `waitTime`
  | .interrupted d => some { s with clock := s.clock + d }
  | .timeout d a b => tick { s with clock := s.clock + d } a b
  | .notified ns d a b =>
    if ns = [] then none
    else (dispatchAll s.iom ns).bind fun iom =>
      -- `end` is read after the dispatch, and only this path takes anything off
      let s := countDown { s with iom := iom } d
      if s.waitTime.toInt ≤ 0 then s.tick a b else some s

/-- The clock after the wait of an iteration. -/
def endOfWait (s : IdleLoop N φ κ) : Act N φ κ → Option ℕ
  | .timeout d _ _ | .notified _ d _ _ => some (s.clock + d)
  | _ => none

/-- **An iteration that is due ticks**: one after whose wait `mTickTime` is over since the
last tick. -/
def Punctual (s : IdleLoop N φ κ) (a : Act N φ κ) : Prop :=
  ∀ s' now, s.step a = some s' → s.endOfWait a = some now →
    s.mTickTime.toInt ≤ (now : ℤ) - s.lastTick → s'.ticks = s.ticks + 1

/-- The condition on an iteration with notifications: if it is due, then the milliseconds
in waits alone reach `mTickTime`, in the arithmetic of an `int`. -/
def DueByWaits (s : IdleLoop N φ κ) : Act N φ κ → Prop
  | .notified _ d _ _ => s.mTickTime.toInt ≤ (s.clock + d : ℕ) - (s.lastTick : ℤ) →
      (s.mTickTime.toInt - (s.waited + d : ℕ)).bmod (2 ^ 32) ≤ 0
  | _ => True

/-! ### The remaining time -/

/-- The `int` survives the detour through `uint64_t`. -/
theorem setWidth_signExtend_sub (x : BitVec 32) (d : ℕ) :
    (x.signExtend 64 - BitVec.ofNat 64 d).setWidth 32 = x - BitVec.ofNat 32 d := by
  -- the low half of the difference depends on the low halves only
  have hx : (x.signExtend 64).setWidth 32 = x := by
    ext i hi
    rw [BitVec.getElem_setWidth, BitVec.getLsbD_signExtend]
    simp [hi, show i < 64 by omega]
  rw [BitVec.sub_eq_add_neg, BitVec.setWidth_add _ _ (by decide),
    BitVec.setWidth_neg_of_le (by decide), hx, BitVec.setWidth_ofNat_of_le (by decide),
    ← BitVec.sub_eq_add_neg]

theorem getCurTimeMS_sub (clock d : ℕ) :
    getCurTimeMS (clock + d) - getCurTimeMS clock = BitVec.ofNat 64 d := by
  rw [getCurTimeMS, getCurTimeMS, BitVec.ofNat_add, BitVec.add_comm, BitVec.add_sub_cancel]

theorem waitTime_countDown (s : IdleLoop N φ κ) (d : ℕ) :
    (s.countDown d).waitTime = s.waitTime - BitVec.ofNat 32 d := by
  show (s.waitTime.signExtend 64 - _).setWidth 32 = _
  rw [getCurTimeMS_sub, setWidth_signExtend_sub]

/-- What is left is `mTickTime` less what was taken off. -/
def Remains (s : IdleLoop N φ κ) : Prop := s.waitTime = s.mTickTime - BitVec.ofNat 32 s.waited

theorem remains_tick {a b : ℕ} (h : s.tick a b = some s') : s'.Remains ∧ s'.ticks = s.ticks + 1 := by
  obtain ⟨r, -, rfl⟩ := Option.map_eq_some_iff.mp h
  refine ⟨?_, rfl⟩
  -- a tick starts afresh: nothing has been taken off
  show s.mTickTime = s.mTickTime - BitVec.ofNat 32 0
  exact (BitVec.sub_zero s.mTickTime).symm

theorem remains_countDown (hs : s.Remains) (d : ℕ) : (s.countDown d).Remains := by
  rw [Remains, waitTime_countDown, hs]
  show _ = s.mTickTime - BitVec.ofNat 32 (s.waited + d)
  rw [BitVec.ofNat_add]
  bv_omega

/-- The test after the dispatch, in terms of the time in waits. -/
theorem toInt_waitTime (hs : s.Remains) :
    s.waitTime.toInt = (s.mTickTime.toInt - s.waited).bmod (2 ^ 32) := by
  rw [hs, BitVec.toInt_sub, BitVec.toInt_ofNat', Int.sub_bmod_bmod]

/-- The step lemma. -/
theorem remains_step {a : Act N φ κ} (hs : s.Remains) (h : s.step a = some s') : s'.Remains := by
  cases a with
  | tasks iom d =>
    obtain rfl := Option.some_inj.mp h
    exact hs
  | interrupted d =>
    obtain rfl := Option.some_inj.mp h
    exact hs
  | timeout d a b => exact (remains_tick h).1
  | notified ns d a b =>
    rw [step] at h
    split_ifs at h
    obtain ⟨iom, -, h⟩ := Option.bind_eq_some_iff.mp h
    have hcount := remains_countDown (s := { s with iom := iom }) hs d
    dsimp only at h
    split_ifs at h
    · exact (remains_tick h).1
    · obtain rfl := Option.some_inj.mp h
      exact hcount

/-- An iteration with notifications ticks if and only if the time in waits says so. -/
theorem ticks_notified (hs : s.Remains) {ns : List (ℤ × Mask × Bool)} {d a b : ℕ}
    (h : s.step (.notified ns d a b) = some s') :
    s'.ticks = s.ticks + 1 ↔
      (s.mTickTime.toInt - (s.waited + d : ℕ)).bmod (2 ^ 32) ≤ 0 := by
  rw [step] at h
  split_ifs at h
  obtain ⟨iom, -, h⟩ := Option.bind_eq_some_iff.mp h
  have hcount := toInt_waitTime (remains_countDown (s := { s with iom := iom }) hs d)
  change _ = (s.mTickTime.toInt - (s.waited + d : ℕ)).bmod (2 ^ 32) at hcount
  rw [← hcount]
  dsimp only at h
  split_ifs at h with hle
  · exact iff_of_true (remains_tick h).2 hle
  · obtain rfl := Option.some_inj.mp h
    exact iff_of_false (Nat.lt_succ_self _).ne hle

/-- One iteration is punctual exactly under the condition. -/
theorem punctual_step (hs : s.Remains) {a : Act N φ κ} (h : s.step a = some s') :
    s.Punctual a ↔ s.DueByWaits a := by
  cases a with
  -- neither is the end of a wait
  | tasks iom d => exact iff_of_true (fun _ _ _ hnow => absurd hnow (by simp [endOfWait])) trivial
  | interrupted d =>
    exact iff_of_true (fun _ _ _ hnow => absurd hnow (by simp [endOfWait])) trivial
  | timeout d a b =>
    refine iff_of_true (fun t now ht _ _ => ?_) trivial
    exact (remains_tick ht).2
  | notified ns d a b =>
    constructor
    · intro hpunctual hdue
      exact (ticks_notified hs h).mp (hpunctual s' (s.clock + d) h rfl hdue)
    · intro hcond t now ht hnow hdue
      obtain rfl := Option.some_inj.mp hnow
      exact (ticks_notified hs ht).mpr (hcond hdue)

/-- **Timers are not starved** in a run, that is, each of its iterations that is due
ticks, if and only if in all of them the milliseconds in waits since the last tick reach
`mTickTime` as soon as those of the clock do. -/
theorem punctual_iff {iom : IOManager N φ κ} {mTickTime : BitVec 32} {clock : ℕ}
    {as : List (Act N φ κ)} (h : run step as (enter iom mTickTime clock) = some s) :
    Along step Punctual as (enter iom mTickTime clock) ↔
      Along step DueByWaits as (enter iom mTickTime clock) := by
  have hstart : (enter iom mTickTime clock).Remains := (BitVec.sub_zero mTickTime).symm
  constructor
  · intro halong
    exact halong.imp (fun s a s' hs hstep hP => ⟨(punctual_step hs hstep).mp hP,
      remains_step hs hstep⟩) hstart h
  · intro halong
    exact halong.imp (fun s a s' hs hstep hP => ⟨(punctual_step hs hstep).mpr hP,
      remains_step hs hstep⟩) hstart h

/-- The worker runs tasks for `d` ms and finds `mEventfd` readable when it comes back, `n`
times. -/
def busy (iom : IOManager N φ κ) (d : ℕ) : ℕ → List (Act N φ κ)
  | 0 => []
  | n + 1 => .tasks iom d :: .notified [(iom.mEventfd, IN, false)] 0 0 0 :: busy iom d n

/-- **A busy worker does not tick**, however long it goes on. -/
theorem starved (iom : IOManager N φ κ) {mTickTime : BitVec 32} (hpos : 0 < mTickTime.toInt)
    (d n clock : ℕ) :
    run step (busy iom d n) (enter iom mTickTime clock) =
      some { enter iom mTickTime clock with clock := clock + n * d } := by
  -- for the induction the clock is any, and `waitTime` is all of `mTickTime` after each round
  have hround : ∀ c : ℕ, run step (busy iom d n) { enter iom mTickTime clock with clock := c } =
      some { enter iom mTickTime clock with clock := c + n * d } := by
    induction n with
    | zero => simp [busy]
    | succ n ih =>
      intro c
      have hwait : (mTickTime.signExtend 64 -
          (getCurTimeMS (c + d + 0) - getCurTimeMS (c + d))).setWidth 32 = mTickTime := by
        rw [Nat.add_zero, BitVec.sub_self, setWidth_signExtend_sub]
        exact BitVec.sub_zero mTickTime
      rw [busy, run_cons, step, Option.bind_some, run_cons, step, if_neg (by simp), dispatchAll,
        IOManager.dispatch, if_pos rfl, Option.bind_some, dispatchAll, Option.bind_some]
      simp only [countDown, enter, hwait, if_neg (not_le.mpr hpos), Option.bind_some]
      refine (ih (c + d)).trans ?_
      rw [Nat.succ_mul, Nat.add_comm (n * d), Nat.add_assoc]
      rfl
  exact hround clock

/-- An `IOManager` with `mEventfd` 3, and the `mTickTime` that is its default. -/
def idleOf3 : IdleLoop 60 ℕ ℕ := enter (.create 1 TimerManager.defaultWheel 3) 200 0

set_option maxRecDepth 2000 in
/-- All the time is spent in waits: the second one is due. -/
theorem punctual_waits :
    ∃ s, run step [.notified [(3, IN, false)] 150 0 0, .notified [(3, IN, false)] 50 0 0]
        idleOf3 = some s ∧ s.ticks = 1 ∧
      Along step Punctual [.notified [(3, IN, false)] 150 0 0,
        .notified [(3, IN, false)] 50 0 0] idleOf3 := by
  have hrun : ∃ s, run step [.notified [(3, IN, false)] 150 0 0,
      .notified [(3, IN, false)] 50 0 0] idleOf3 = some s ∧ s.ticks = 1 := ⟨_, rfl, rfl⟩
  obtain ⟨s, hs, hticks⟩ := hrun
  refine ⟨s, hs, hticks, (punctual_iff hs).mpr ⟨?_, fun t ht => ⟨?_, fun _ _ => trivial⟩⟩⟩
  · exact fun h => absurd h (by decide)
  · obtain rfl := Option.some_inj.mp ht
    exact fun _ => by decide

set_option maxRecDepth 2000 in
/-- 150 ms in tasks and 100 ms in a wait: the iteration is 50 ms late and does not tick. -/
theorem tasks_not_counted :
    ∃ s, run step [.tasks idleOf3.iom 150, .notified [(3, IN, false)] 100 0 0] idleOf3 = some s ∧
      s.clock = 250 ∧ s.ticks = 0 ∧
      ¬ Along step Punctual [.tasks idleOf3.iom 150, .notified [(3, IN, false)] 100 0 0]
        idleOf3 := by
  refine ⟨_, rfl, rfl, rfl, fun h => ?_⟩
  have hlate := (h.2 _ rfl).1 _ 250 rfl rfl (by decide)
  exact absurd hlate (by decide)

end IdleLoop

end Server
