/-
Hooked calls (hook.cpp): fibers, the event loop and the timers in one system.

Any number of fibers make hooked calls.  `io_func` runs the raw call until it
has a result; while the result is `EAGAIN` it arms a timer, registers the fiber
with `addEvent`, yields, and looks when it is resumed at whether the timer has
set `cancel`.  One pass through that branch is a `Wait`: `cancel` and the timer
are its own.

The steps are those that other threads can get between.  A worker's dequeue of
a fiber and its switch onto the fiber are one step here, and so are the store of
`HOLD` and the switch out: what happens between these is the subject of
`FiberExclusion`.  The unlocked part of `addEvent` is one step, with the result
of its `epoll_ctl` up to the kernel.

`io_func` is modelled from the point where it has the descriptor's context, that
of an open socket, in hand.  What user code does with its results is left open;
fibers are numbered, and one that has not been made yet takes no step.
-/
import AsyncServer.IOManager

namespace Server

open Epoll

/-- A call of `io_func`: the descriptor, the event, and the timeout in seconds
(`to`), -1 for none. -/
structure Call where
  fd : ℤ
  dir : Dir
  timeOut : BitVec 32

/-- What the runtime puts into the task queue as a function. -/
inductive Callback where
  /-- the timer callback of a wait -/
  | timeout (w : ℕ)
  /-- the timer callback of `sleep` in a fiber: `addTask` of the fiber -/
  | wake (fiber : ℕ)
  /-- a callback of user code -/
  | user (k : ℕ)
  deriving DecidableEq

instance : Inhabited Callback := ⟨.user 0⟩

/-- One pass of `io_func` through its waiting branch.  `expired` is a history
variable: a tick has emitted the timer while the wait was going on. -/
structure Wait where
  fiber : ℕ
  call : Call
  timer : Option TimerPtr
  cancel : Bool
  expired : Bool

/-- Where `io_func` is in its waiting branch. -/
inductive Stage where
  /-- before the timer is added -/
  | arming
  /-- before `addEvent` -/
  | adding
  /-- in `addEvent`, between the `epoll_ctl` and the update -/
  | updating
  /-- at `yieldToHold` -/
  | yielding
  /-- has yielded -/
  | held
  /-- `yieldToHold` has returned -/
  | resumed
  /-- the timer has been deleted -/
  | checking
  deriving DecidableEq

/-- The wait is going on: the fiber has not been resumed. -/
def Stage.live : Stage → Bool
  | .arming | .adding | .updating | .yielding | .held => true
  | .resumed | .checking => false

/-- Where a fiber is. -/
inductive FiberPc where
  | user
  /-- at the label `Retry` -/
  | calling (c : Call)
  | io (st : Stage) (w : ℕ)
  /-- in `sleep`, and whether it has yielded -/
  | sleeping (yielded : Bool)

/-- The fiber is in the wait `w`, which is going on. -/
def FiberPc.liveIn (w : ℕ) : FiberPc → Bool
  | .io st v => v = w && st.live
  | _ => false

/-- `seconds * 1000` as the `int` that `addTimer` gets. -/
def millis (seconds : BitVec 32) : ℤ := (seconds * 1000).toInt

/-- The fibers and the manager.  `running` holds the timer callbacks that
workers are in: that of which wait, and whether it has set `cancel`. -/
structure Runtime (N : ℕ) where
  iom : IOManager N ℕ Callback
  pc : ℕ → FiberPc
  waits : ℕ → Wait
  nextWait : ℕ
  running : List (ℕ × Bool)

namespace Runtime

variable {N : ℕ}

/-- The arguments of the `IOManager` constructor, a clock reading, and the
descriptor that `eventfd` returns. -/
structure Config (N : ℕ) where
  threadCnt : ℕ
  ticktime : ℕ
  now : BitVec 64
  mEventfd : ℤ
  slotnum_pos : 0 < N
  ticktime_pos : 0 < ticktime
  ticktime_int : ticktime < 2 ^ 31

/-- One worker, 60 slots of 200 ms. -/
def defaultConfig : Config 60 :=
  ⟨1, 200, 0, 3, TimerManager.defaultSlots_pos, TimerManager.defaultTick_pos,
    TimerManager.defaultTick_int⟩

/-- All fibers in user code. -/
def start (iom : IOManager N ℕ Callback) : Runtime N where
  iom := iom
  pc := fun _ => .user
  waits := fun _ => ⟨0, ⟨0, .read, -1⟩, none, false, false⟩
  nextWait := 0
  running := []

/-- The state after the constructor. -/
def Config.boot (c : Config N) : Runtime N :=
  start (.create c.threadCnt
    (.create c.slotnum_pos c.ticktime c.ticktime_pos c.ticktime_int c.now) c.mEventfd)

/-- The steps. -/
inductive Act where
  /-- fiber `f` makes a hooked call -/
  | call (f : ℕ) (c : Call)
  /-- the raw call has a result other than `EAGAIN`, and `io_func` returns -/
  | rawDone (f : ℕ)
  /-- the raw call has `EAGAIN` -/
  | rawAgain (f : ℕ)
  /-- `io_func`: `addTimer`, if there is a timeout -/
  | arm (f : ℕ)
  /-- `io_func`: `addEvent` up to its `epoll_ctl` -/
  | addCtl (f : ℕ) (fault : Bool)
  /-- `io_func`: the rest of `addEvent` -/
  | update (f : ℕ)
  /-- `yieldToHold` of `io_func`, `yield` of `sleep` -/
  | yield (f : ℕ)
  /-- `io_func`: `delTimer`, if there is a timer -/
  | delTimer (f : ℕ)
  /-- `io_func`: the test of `cancel`; return `ETIMEDOUT` or `goto Retry` -/
  | check (f : ℕ)
  /-- `sleep`: `addTimer` -/
  | sleep (f : ℕ) (seconds : BitVec 32)
  /-- user code adds a timer -/
  | addTimer (timing : ℤ) (k : ℕ) (recurr : Bool)
  /-- user code deletes a timer -/
  | delUserTimer (timer : TimerPtr)
  /-- hooked `close` -/
  | close (fd : ℤ) (fault : Bool)
  /-- the idle loop handles a notification -/
  | dispatch (fd : ℤ) (events : Mask) (fault : Bool)
  /-- the idle loop handles the timers -/
  | tick (now now' : BitVec 64)
  /-- worker `worker` takes a task and starts it -/
  | take (worker : ℕ)
  /-- a timer callback: `cancel = 1`.  Each wait has a cell of its own here; in the code
  it is a place on the fiber's stack, and when the call has returned another one may use it -/
  | setCancel (w : ℕ)
  /-- a timer callback: `cancelEvent` -/
  | cancelEvent (w : ℕ) (fault : Bool)

/-- Fiber `f` goes to `p`. -/
def goto (s : Runtime N) (f : ℕ) (p : FiberPc) : Runtime N :=
  { s with pc := Function.update s.pc f p }

/-- The wait with number `w` changes. -/
def setWait (s : Runtime N) (w : ℕ) (wait : Wait) : Runtime N :=
  { s with waits := Function.update s.waits w wait }

/-- `m_state` of a fiber. -/
def state (s : Runtime N) (f : ℕ) : FiberState :=
  match s.pc f with
  | .io .held _ | .sleeping true => .hold
  | _ => .exec

/-- The wait `w` is going on. -/
def live (s : Runtime N) (w : ℕ) : Bool := (s.pc (s.waits w).fiber).liveIn w

/-- `resume` of a fiber that has yielded. -/
def resume (s : Runtime N) (f : ℕ) : Option (Runtime N) :=
  match s.pc f with
  | .io .held w => some (s.goto f (.io .resumed w))
  | .sleeping true => some (s.goto f .user)
  | _ => none

/-- A worker starts a task: it resumes the fiber, or calls the function on a
fresh one. -/
def runTask (s : Runtime N) (t : Task ℕ Callback) : Option (Runtime N) :=
  match t.fiber, t.func with
  -- `task->fiber` is tested first
  | some f, _ => s.resume f
  | none, some (.timeout w) => some { s with running := s.running ++ [(w, false)] }
  | none, some (.wake f) => some { s with iom := s.iom.addTask (.ofFiber f) }
  -- user code is left open: what it does are steps of its own
  | none, some (.user _) => some s
  | none, none => some s

/-- The timers in `emitted` have expired. -/
def expire (s : Runtime N) (emitted : List TimerPtr) : Runtime N :=
  { s with waits := fun w =>
      if (s.waits w).timer.any (· ∈ emitted) && s.live w then
        { s.waits w with expired := true }
      else s.waits w }

/-- One step. -/
def step (s : Runtime N) : Act → Option (Runtime N)
  | .call f c =>
    match s.pc f with
    | .user => some (s.goto f (.calling c))
    | _ => none
  | .rawDone f =>
    match s.pc f with
    | .calling _ => some (s.goto f .user)
    | _ => none
  | .rawAgain f =>
    match s.pc f with
    | .calling c =>
      some ({ s with nextWait := s.nextWait + 1 }.setWait s.nextWait
        ⟨f, c, none, false, false⟩ |>.goto f (.io .arming s.nextWait))
    | _ => none
  | .arm f =>
    match s.pc f with
    | .io .arming w =>
      -- `if(to != -1)`; the callback refers to `cancel` on the stack of this wait
      if (s.waits w).call.timeOut ≠ -1 then
        (s.iom.addTimer (millis (s.waits w).call.timeOut) (.timeout w) false).map fun r =>
          { s with iom := r.2 }.setWait w { s.waits w with timer := some r.1 }
            |>.goto f (.io .adding w)
      else some (s.goto f (.io .adding w))
    | _ => none
  | .addCtl f fault =>
    match s.pc f with
    | .io .adding w =>
      (s.iom.addEventCtl (s.waits w).call.fd (s.waits w).call.dir ET fault).map fun r =>
        -- when `addEvent` returns early the fiber yields all the same
        { s with iom := r.2 }.goto f (.io (if r.1 then .updating else .yielding) w)
    | _ => none
  | .update f =>
    match s.pc f with
    | .io .updating w =>
      (s.iom.addEventUpdate (s.waits w).call.fd (s.waits w).call.dir none f).map fun iom =>
        { s with iom := iom }.goto f (.io .yielding w)
    | _ => none
  | .yield f =>
    match s.pc f with
    | .io .yielding w => some (s.goto f (.io .held w))
    | .sleeping false => some (s.goto f (.sleeping true))
    | _ => none
  | .delTimer f =>
    match s.pc f with
    | .io .resumed w =>
      -- `if(timer)`
      match (s.waits w).timer with
      | some timer => some ({ s with iom := s.iom.delTimer timer }.goto f (.io .checking w))
      | none => some (s.goto f (.io .checking w))
    | _ => none
  | .check f =>
    match s.pc f with
    | .io .checking w =>
      some (s.goto f (if (s.waits w).cancel then .user else .calling (s.waits w).call))
    | _ => none
  | .sleep f seconds =>
    match s.pc f with
    | .user => (s.iom.addTimer (millis seconds) (.wake f) false).map fun r =>
        { s with iom := r.2 }.goto f (.sleeping false)
    | _ => none
  | .addTimer timing k recurr =>
    (s.iom.addTimer timing (.user k) recurr).map fun r => { s with iom := r.2 }
  | .delUserTimer timer =>
    -- a pointer that user code has got from `addTimer`
    if timer < s.iom.mTimerManager.next then some { s with iom := s.iom.delTimer timer } else none
  | .close fd fault =>
    -- the kernel forgets a descriptor that is closed
    (s.iom.delEvent fd fault).map fun iom =>
      { s with iom := { iom with epoll := Function.update iom.epoll fd none } }
  | .dispatch fd events fault =>
    (s.iom.dispatch fd events fault).map fun iom => { s with iom := iom }
  | .tick now now' =>
    (s.iom.idleTick now now').map fun r => { s.expire r.1 with iom := r.2 }
  | .take worker =>
    (scan s.iom.threadCnt worker s.state s.iom.mTasks).bind fun r =>
      r.1.bind { s with iom := { s.iom with mTasks := r.2 } }.runTask
  | .setCancel w =>
    if (w, false) ∈ s.running then
      some ({ s with running := s.running.erase (w, false) ++ [(w, true)] }.setWait w
        { s.waits w with cancel := true })
    else none
  | .cancelEvent w fault =>
    if (w, true) ∈ s.running then
      (s.iom.cancelEvent (s.waits w).call.fd (s.waits w).call.dir fault).map fun iom =>
        { s with iom := iom, running := s.running.erase (w, true) }
    else none

/-! ### What a step can do -/

/-- The task queue of the manager is `rest`. -/
def setTasks (s : Runtime N) (rest : List (Task ℕ Callback)) : Runtime N :=
  { s with iom := { s.iom with mTasks := rest } }

/-- The steps, one constructor for each branch of `step` that has an outcome. -/
inductive Stepped (s : Runtime N) : Act → Runtime N → Prop
  | call {f : ℕ} {c : Call} (hpc : s.pc f = .user) : Stepped s (.call f c) (s.goto f (.calling c))
  | rawDone {f : ℕ} {c : Call} (hpc : s.pc f = .calling c) : Stepped s (.rawDone f) (s.goto f .user)
  | rawAgain {f : ℕ} {c : Call} (hpc : s.pc f = .calling c) :
      Stepped s (.rawAgain f) (({ s with nextWait := s.nextWait + 1 }.setWait s.nextWait
        ⟨f, c, none, false, false⟩).goto f (.io .arming s.nextWait))
  | arm {f w : ℕ} {timer : TimerPtr} {iom : IOManager N ℕ Callback}
      (hpc : s.pc f = .io .arming w)
      (hadd : s.iom.addTimer (millis (s.waits w).call.timeOut) (.timeout w) false =
        some (timer, iom)) :
      Stepped s (.arm f) (({ s with iom := iom }.setWait w
        { s.waits w with timer := some timer }).goto f (.io .adding w))
  | noTimer {f w : ℕ} (hpc : s.pc f = .io .arming w) :
      Stepped s (.arm f) (s.goto f (.io .adding w))
  | addCtl {f w : ℕ} {fault go : Bool} {iom : IOManager N ℕ Callback}
      (hpc : s.pc f = .io .adding w)
      (hctl : s.iom.addEventCtl (s.waits w).call.fd (s.waits w).call.dir ET fault =
        some (go, iom)) :
      Stepped s (.addCtl f fault)
        ({ s with iom := iom }.goto f (.io (if go then .updating else .yielding) w))
  | update {f w : ℕ} {iom : IOManager N ℕ Callback} (hpc : s.pc f = .io .updating w)
      (hupd : s.iom.addEventUpdate (s.waits w).call.fd (s.waits w).call.dir none f = some iom) :
      Stepped s (.update f) ({ s with iom := iom }.goto f (.io .yielding w))
  | yield {f w : ℕ} (hpc : s.pc f = .io .yielding w) :
      Stepped s (.yield f) (s.goto f (.io .held w))
  | yieldSleep {f : ℕ} (hpc : s.pc f = .sleeping false) :
      Stepped s (.yield f) (s.goto f (.sleeping true))
  | delTimer {f w : ℕ} {timer : TimerPtr} (hpc : s.pc f = .io .resumed w)
      (htimer : (s.waits w).timer = some timer) :
      Stepped s (.delTimer f) ({ s with iom := s.iom.delTimer timer }.goto f (.io .checking w))
  | delNoTimer {f w : ℕ} (hpc : s.pc f = .io .resumed w) (htimer : (s.waits w).timer = none) :
      Stepped s (.delTimer f) (s.goto f (.io .checking w))
  | check {f w : ℕ} (hpc : s.pc f = .io .checking w) :
      Stepped s (.check f)
        (s.goto f (if (s.waits w).cancel then .user else .calling (s.waits w).call))
  | sleep {f : ℕ} {seconds : BitVec 32} {timer : TimerPtr} {iom : IOManager N ℕ Callback}
      (hpc : s.pc f = .user)
      (hadd : s.iom.addTimer (millis seconds) (.wake f) false = some (timer, iom)) :
      Stepped s (.sleep f seconds) ({ s with iom := iom }.goto f (.sleeping false))
  | addTimer {timing : ℤ} {k : ℕ} {recurr : Bool} {timer : TimerPtr}
      {iom : IOManager N ℕ Callback}
      (hadd : s.iom.addTimer timing (.user k) recurr = some (timer, iom)) :
      Stepped s (.addTimer timing k recurr) { s with iom := iom }
  | delUserTimer {timer : TimerPtr} (hlt : timer < s.iom.mTimerManager.next) :
      Stepped s (.delUserTimer timer) { s with iom := s.iom.delTimer timer }
  | close {fd : ℤ} {fault : Bool} {iom : IOManager N ℕ Callback}
      (hdel : s.iom.delEvent fd fault = some iom) :
      Stepped s (.close fd fault)
        { s with iom := { iom with epoll := Function.update iom.epoll fd none } }
  | dispatch {fd : ℤ} {events : Mask} {fault : Bool} {iom : IOManager N ℕ Callback}
      (hdisp : s.iom.dispatch fd events fault = some iom) :
      Stepped s (.dispatch fd events fault) { s with iom := iom }
  | tick {now now' : BitVec 64} {emitted : List TimerPtr} {iom : IOManager N ℕ Callback}
      (htick : s.iom.idleTick now now' = some (emitted, iom)) :
      Stepped s (.tick now now') { s.expire emitted with iom := iom }
  | takeFiber {worker f : ℕ} {t : Task ℕ Callback} {rest : List (Task ℕ Callback)}
      (hscan : scan s.iom.threadCnt worker s.state s.iom.mTasks = some (some t, rest))
      (hf : t.fiber = some f) {s' : Runtime N} (hres : (s.setTasks rest).resume f = some s') :
      Stepped s (.take worker) s'
  | takeTimeout {worker w : ℕ} {t : Task ℕ Callback} {rest : List (Task ℕ Callback)}
      (hscan : scan s.iom.threadCnt worker s.state s.iom.mTasks = some (some t, rest))
      (hf : t.fiber = none) (hk : t.func = some (.timeout w)) :
      Stepped s (.take worker) { s.setTasks rest with running := s.running ++ [(w, false)] }
  | takeWake {worker f : ℕ} {t : Task ℕ Callback} {rest : List (Task ℕ Callback)}
      (hscan : scan s.iom.threadCnt worker s.state s.iom.mTasks = some (some t, rest))
      (hf : t.fiber = none) (hk : t.func = some (.wake f)) :
      Stepped s (.take worker)
        (s.setTasks (addTaskNoLock s.iom.threadCnt rest (.ofFiber f)))
  | takeUser {worker : ℕ} {t : Task ℕ Callback} {rest : List (Task ℕ Callback)}
      (hscan : scan s.iom.threadCnt worker s.state s.iom.mTasks = some (some t, rest))
      (hf : t.fiber = none) (hk : ∀ w, t.func ≠ some (.timeout w)) :
      Stepped s (.take worker) (s.setTasks rest)
  | setCancel {w : ℕ} (hrun : (w, false) ∈ s.running) :
      Stepped s (.setCancel w)
        ({ s with running := s.running.erase (w, false) ++ [(w, true)] }.setWait w
          { s.waits w with cancel := true })
  | cancelEvent {w : ℕ} {fault : Bool} {iom : IOManager N ℕ Callback} (hrun : (w, true) ∈ s.running)
      (hcancel : s.iom.cancelEvent (s.waits w).call.fd (s.waits w).call.dir fault = some iom) :
      Stepped s (.cancelEvent w fault)
        { s with iom := iom, running := s.running.erase (w, true) }

variable {s s' : Runtime N}

theorem stepped_take {worker : ℕ} (h : s.step (.take worker) = some s') :
    Stepped s (.take worker) s' := by
  obtain ⟨⟨o, rest⟩, hscan, h⟩ := Option.bind_eq_some_iff.mp h
  obtain ⟨t, rfl : o = some t, h⟩ := Option.bind_eq_some_iff.mp h
  unfold runTask at h
  split at h
  · exact .takeFiber hscan (by assumption) h
  · obtain rfl := Option.some_inj.mp h
    exact .takeTimeout hscan (by assumption) (by assumption)
  · obtain rfl := Option.some_inj.mp h
    exact .takeWake hscan (by assumption) (by assumption)
  · rename_i hf hk
    obtain rfl := Option.some_inj.mp h
    exact .takeUser hscan hf (by simp [hk])
  · rename_i hf hk
    obtain rfl := Option.some_inj.mp h
    exact .takeUser hscan hf (by simp [hk])

/-- **Every step is one of these.** -/
theorem stepped {a : Act} (h : s.step a = some s') : Stepped s a s' := by
  cases a with
  | call f c =>
    simp only [step] at h
    split at h
    · obtain rfl := Option.some_inj.mp h
      exact .call (by assumption)
    · exact absurd h (by simp)
  | rawDone f =>
    simp only [step] at h
    split at h
    · obtain rfl := Option.some_inj.mp h
      exact .rawDone (by assumption)
    · exact absurd h (by simp)
  | rawAgain f =>
    simp only [step] at h
    split at h
    · obtain rfl := Option.some_inj.mp h
      exact .rawAgain (by assumption)
    · exact absurd h (by simp)
  | arm f =>
    simp only [step] at h
    split at h
    · rename_i w hpc
      split_ifs at h
      · obtain ⟨⟨timer, iom⟩, hadd, rfl⟩ := Option.map_eq_some_iff.mp h
        exact .arm hpc hadd
      · obtain rfl := Option.some_inj.mp h
        exact .noTimer hpc
    · exact absurd h (by simp)
  | addCtl f fault =>
    simp only [step] at h
    split at h
    · rename_i w hpc
      obtain ⟨⟨go, iom⟩, hctl, rfl⟩ := Option.map_eq_some_iff.mp h
      exact .addCtl hpc hctl
    · exact absurd h (by simp)
  | update f =>
    simp only [step] at h
    split at h
    · rename_i w hpc
      obtain ⟨iom, hupd, rfl⟩ := Option.map_eq_some_iff.mp h
      exact .update hpc hupd
    · exact absurd h (by simp)
  | yield f =>
    simp only [step] at h
    split at h
    · obtain rfl := Option.some_inj.mp h
      exact .yield (by assumption)
    · obtain rfl := Option.some_inj.mp h
      exact .yieldSleep (by assumption)
    · exact absurd h (by simp)
  | delTimer f =>
    simp only [step] at h
    split at h
    · split at h
      · obtain rfl := Option.some_inj.mp h
        exact .delTimer (by assumption) (by assumption)
      · obtain rfl := Option.some_inj.mp h
        exact .delNoTimer (by assumption) (by assumption)
    · exact absurd h (by simp)
  | check f =>
    simp only [step] at h
    split at h
    · obtain rfl := Option.some_inj.mp h
      exact .check (by assumption)
    · exact absurd h (by simp)
  | sleep f seconds =>
    simp only [step] at h
    split at h
    · obtain ⟨⟨timer, iom⟩, hadd, rfl⟩ := Option.map_eq_some_iff.mp h
      exact .sleep (by assumption) hadd
    · exact absurd h (by simp)
  | addTimer timing k recurr =>
    obtain ⟨⟨timer, iom⟩, hadd, rfl⟩ := Option.map_eq_some_iff.mp h
    exact .addTimer hadd
  | delUserTimer timer =>
    simp only [step] at h
    split_ifs at h with hlt
    obtain rfl := Option.some_inj.mp h
    exact .delUserTimer hlt
  | close fd fault =>
    obtain ⟨iom, hdel, rfl⟩ := Option.map_eq_some_iff.mp h
    exact .close hdel
  | dispatch fd events fault =>
    obtain ⟨iom, hdisp, rfl⟩ := Option.map_eq_some_iff.mp h
    exact .dispatch hdisp
  | tick now now' =>
    obtain ⟨⟨emitted, iom⟩, htick, rfl⟩ := Option.map_eq_some_iff.mp h
    exact .tick htick
  | take worker => exact stepped_take h
  | setCancel w =>
    simp only [step] at h
    split_ifs at h with hrun
    obtain rfl := Option.some_inj.mp h
    exact .setCancel hrun
  | cancelEvent w fault =>
    simp only [step] at h
    split_ifs at h with hrun
    obtain ⟨iom, hcancel, rfl⟩ := Option.map_eq_some_iff.mp h
    exact .cancelEvent hrun hcancel

end Runtime

end Server
