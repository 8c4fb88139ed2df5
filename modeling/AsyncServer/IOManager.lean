/-
The event loop: descriptors, timers and the task queue (IOManager.h,
IOManager.cpp).

* `addEvent` comes in the two halves that other threads can get between:
  `addEventCtl`, up to the `epoll_ctl`, and `addEventUpdate`, under the lock of
  the `Event`;
* `cancelEvent`, `delEvent` — removing one waiter, or both without waking them;
* `dispatch`, `idleTick` — what the idle loop does with one notification, and
  with the timers.

`mEvents` is a vector of pointers to objects that are never replaced, so an
`Event` is known by its index.  An index outside the vector is undefined
behaviour (`none`).  The result of an `epoll_ctl` is decided by the interest set
and by an argument `fault`.  The kernel hands out no descriptor from 2^30 on, so
that `fd * 1.5` stays inside `int`.
-/
import AsyncServer.Epoll
import AsyncServer.Scheduler
import AsyncServer.Timer

namespace Server

open Epoll

/-! ### Events -/

/-- `IOManager::Event::EventCtx`. -/
structure EventCtx (φ κ : Type*) where
  cb : Option κ
  fiber : Option φ

/-- The task that wakes a waiter: its fiber, else its callback. -/
def EventCtx.task {φ κ : Type*} (ctx : EventCtx φ κ) : Option (Task φ κ) :=
  match ctx.fiber, ctx.cb with
  | some fiber, _ => some (.ofFiber fiber)
  | none, some cb => some (.ofFunc cb)
  | none, none => none

/-- `IOManager::Event`; `event` holds the directions waited for. -/
structure Event (φ κ : Type*) where
  event : Mask
  write : EventCtx φ κ
  read : EventCtx φ κ
  fd : ℤ

namespace Event

variable {φ κ : Type*}

/-- The `Event` that `ctxResize` puts at index `fd`. -/
def new (fd : ℤ) : Event φ κ := ⟨0, ⟨none, none⟩, ⟨none, none⟩, fd⟩

/-- `Event::getEvent`. -/
def getEvent (task : Event φ κ) : Dir → EventCtx φ κ
  | .read => task.read
  | .write => task.write

/-- Assignment to what `getEvent` returns. -/
def setEvent (task : Event φ κ) (d : Dir) (ctx : EventCtx φ κ) : Event φ κ :=
  match d with
  | .read => { task with read := ctx }
  | .write => { task with write := ctx }

/-- `op` of `addEvent`. -/
def addOp (task : Event φ κ) : Op := if task.event = (0 : Mask) then .add else .mod

/-- `Event::reset`. -/
def reset (task : Event φ κ) (d : Dir) : Event φ κ := task.setEvent d ⟨none, none⟩

/-- `Event::triggerEvent` on an event and the task queue. -/
def triggerEvent (threadCnt : ℕ) (d : Dir) (r : Event φ κ × List (Task φ κ)) :
    Event φ κ × List (Task φ κ) :=
  let task := { r.1 with event := r.1.event &&& ~~~d.mask }
  let mTasks :=
    match (task.getEvent d).fiber, (task.getEvent d).cb with
    | some fiber, _ => addTaskNoLock threadCnt r.2 (.ofFiber fiber)
    | none, some cb => addTaskNoLock threadCnt r.2 (.ofFunc cb)
    | none, none => r.2
  (task.reset d, mTasks)

/-- The locked part of `addEvent`. -/
def register (task : Event φ κ) (d : Dir) (cb : Option κ) (cur : φ) : Event φ κ :=
  let task := { task with event := task.event ||| d.mask }
  let ctx := task.getEvent d
  -- the other field of the slot is left as it is
  task.setEvent d (if cb.isSome then { ctx with cb := cb } else { ctx with fiber := some cur })

@[simp] theorem event_setEvent (task : Event φ κ) (d : Dir) (ctx : EventCtx φ κ) :
    (task.setEvent d ctx).event = task.event := by
  cases d <;> rfl

@[simp] theorem fd_setEvent (task : Event φ κ) (d : Dir) (ctx : EventCtx φ κ) :
    (task.setEvent d ctx).fd = task.fd := by
  cases d <;> rfl

@[simp] theorem getEvent_setEvent (task : Event φ κ) (d : Dir) (ctx : EventCtx φ κ) :
    (task.setEvent d ctx).getEvent d = ctx := by
  cases d <;> rfl

theorem getEvent_setEvent_of_ne (task : Event φ κ) {d e : Dir} (h : e ≠ d)
    (ctx : EventCtx φ κ) : (task.setEvent d ctx).getEvent e = task.getEvent e := by
  cases d <;> cases e <;> first | rfl | exact absurd rfl h

@[simp] theorem getEvent_with_event (task : Event φ κ) (event : Mask) (d : Dir) :
    ({ task with event := event } : Event φ κ).getEvent d = task.getEvent d := by
  cases d <;> rfl

@[simp] theorem event_register (task : Event φ κ) (d : Dir) (cb : Option κ) (cur : φ) :
    (task.register d cb cur).event = task.event ||| d.mask := by
  simp [register]

section Trigger

variable (threadCnt : ℕ) (d : Dir) (r : Event φ κ × List (Task φ κ))

@[simp] theorem event_triggerEvent :
    (triggerEvent threadCnt d r).1.event = r.1.event &&& ~~~d.mask := by
  simp [triggerEvent, reset]

@[simp] theorem fd_triggerEvent : (triggerEvent threadCnt d r).1.fd = r.1.fd := by
  simp [triggerEvent, reset]

@[simp] theorem getEvent_triggerEvent :
    (triggerEvent threadCnt d r).1.getEvent d = ⟨none, none⟩ := by
  simp [triggerEvent, reset]

theorem getEvent_triggerEvent_of_ne {e : Dir} (h : e ≠ d) :
    (triggerEvent threadCnt d r).1.getEvent e = r.1.getEvent e := by
  simp [triggerEvent, reset, getEvent_setEvent_of_ne _ h]

/-- What a trigger queues. -/
theorem tasks_triggerEvent :
    (triggerEvent threadCnt d r).2 = r.2 ++ (r.1.getEvent d).task.toList := by
  simp only [triggerEvent, getEvent_with_event, EventCtx.task]
  split <;> simp

end Trigger

theorem getEvent_register (task : Event φ κ) (d : Dir) (cur : φ) :
    (task.register d none cur).getEvent d = { task.getEvent d with fiber := some cur } := by
  simp [register]

theorem getEvent_register_of_ne (task : Event φ κ) {d e : Dir} (h : e ≠ d) (cb : Option κ)
    (cur : φ) : (task.register d cb cur).getEvent e = task.getEvent e := by
  simp [register, getEvent_setEvent_of_ne _ h]

end Event

/-- `op` of `cancelEvent` and of `idle`, from the events that are left. -/
def leaveOp (left : Mask) : Op := if left = 0 then .del else .mod

/-! ### The manager -/

/-- `IOManager`, over fibers `φ` and callbacks `κ`: the task queue and timer
count of its `Scheduler`, an `atomic<int>`, its timers, its event pool, and the
interest set of `mEpollfd`. -/
structure IOManager (N : ℕ) (φ κ : Type*) where
  threadCnt : ℕ
  mTasks : List (Task φ κ)
  mTimerCnt : BitVec 32
  mTimerManager : TimerManager N κ
  mEvents : List (Event φ κ)
  mEventCnt : ℕ
  mEventfd : ℤ
  epoll : InterestSet

namespace IOManager

variable {N : ℕ} {φ κ : Type*}

/-- The element of `mEvents` that `mEvents[fd]` names, if there is one. -/
def eventPtr (s : IOManager N φ κ) (fd : ℤ) : Option (Event φ κ) :=
  if 0 ≤ fd then s.mEvents[fd.toNat]? else none

/-- Assignment through `mEvents[fd]`. -/
def assign (s : IOManager N φ κ) (fd : ℤ) (task : Event φ κ) : IOManager N φ κ :=
  { s with mEvents := s.mEvents.set fd.toNat task }

/-- `IOManager::ctxResize`. -/
def ctxResize (s : IOManager N φ κ) (size : ℕ) : IOManager N φ κ :=
  -- `resize`, and a new `Event` for each null pointer
  let mEvents := s.mEvents.take size ++
    (List.range' s.mEvents.length (size - s.mEvents.length)).map fun i => .new i
  { s with mEvents := mEvents, mEventCnt := mEvents.length }

/-- The constructor, with `start()` done. -/
def create (threadCnt : ℕ) (mTimerManager : TimerManager N κ) (mEventfd : ℤ) :
    IOManager N φ κ :=
  ctxResize
    { threadCnt := threadCnt
      mTasks := []
      mTimerCnt := 0
      mTimerManager := mTimerManager
      mEvents := []
      mEventCnt := 0
      mEventfd := mEventfd
      epoll := Function.update (fun _ => none) mEventfd (some (IN ||| ET)) } 128

/-- The first lines of `addEvent`: `fd >= mEventCnt * 0.8` calls for
`ctxResize(fd * 1.5)`. -/
def grow (s : IOManager N φ κ) (fd : ℤ) : IOManager N φ κ :=
  if 4 * (s.mEventCnt : ℤ) ≤ 5 * fd then s.ctxResize (3 * fd / 2).toNat else s

/-- `addEvent` up to the `epoll_ctl`: whether it goes on to the update. -/
def addEventCtl (s : IOManager N φ κ) (fd : ℤ) (d : Dir) (flag : Mask) (fault : Bool) :
    Option (Bool × IOManager N φ κ) :=
  let s := s.grow fd
  (s.eventPtr fd).map fun task =>
    -- the test is made without the lock
    if task.event &&& d.mask ≠ 0 then (false, s)
    else
      match ctl s.epoll task.addOp fd (flag ||| d.mask ||| task.event) fault with
      | none => (false, s)
      | some epoll => (true, { s with epoll := epoll })

/-- `addEvent` under the lock of the event; `cur` is the calling fiber. -/
def addEventUpdate (s : IOManager N φ κ) (fd : ℤ) (d : Dir) (cb : Option κ) (cur : φ) :
    Option (IOManager N φ κ) :=
  (s.eventPtr fd).map fun task => s.assign fd (task.register d cb cur)

/-- `IOManager::addEvent`, run to completion. -/
def addEvent (s : IOManager N φ κ) (fd : ℤ) (d : Dir) (cb : Option κ) (flag : Mask) (cur : φ)
    (fault : Bool) : Option (IOManager N φ κ) :=
  (s.addEventCtl fd d flag fault).bind fun r =>
    if r.1 then r.2.addEventUpdate fd d cb cur else some r.2

/-- `IOManager::cancelEvent`. -/
def cancelEvent (s : IOManager N φ κ) (fd : ℤ) (d : Dir) (fault : Bool) :
    Option (IOManager N φ κ) :=
  if (s.mEventCnt : ℤ) ≤ fd then some s
  else (s.eventPtr fd).map fun task =>
    if task.event &&& d.mask ≠ 0 then
      let op := leaveOp (task.event &&& ~~~d.mask)
      -- the mask of a `MOD` is that of the events before the cancellation
      let epoll := (ctl s.epoll op fd (task.event ||| ET) fault).getD s.epoll
      let r := Event.triggerEvent s.threadCnt d (task, s.mTasks)
      { s.assign fd r.1 with epoll := epoll, mTasks := r.2 }
    else s

/-- `IOManager::delEvent`. -/
def delEvent (s : IOManager N φ κ) (fd : ℤ) (fault : Bool) : Option (IOManager N φ κ) :=
  if (s.mEventCnt : ℤ) ≤ fd then some s
  else (s.eventPtr fd).map fun task =>
    if task.event = 0 then s
    else
      let epoll := (ctl s.epoll .del fd 0 fault).getD s.epoll
      -- `reset` on both directions, and no `triggerEvent`
      { s.assign fd ((({ task with event := 0 } : Event φ κ).reset .read).reset .write) with
        epoll := epoll }

/-- `realEvent` of a notification. -/
def realEvent (events : Mask) : Mask :=
  (if events &&& IN ≠ 0 then IN else 0) ||| (if events &&& OUT ≠ 0 then OUT else 0)

/-- The triggers of a notification. -/
def triggerAll (threadCnt : ℕ) (realEvent : Mask) (r : Event φ κ × List (Task φ κ)) :
    Event φ κ × List (Task φ κ) :=
  let r := if realEvent &&& IN ≠ 0 then Event.triggerEvent threadCnt .read r else r
  if realEvent &&& OUT ≠ 0 then Event.triggerEvent threadCnt .write r else r

/-- The body of the loop of `idle` over the notifications, for the one with
`events` and the pointer to `mEvents[fd]` (or the descriptor `mEventfd`). -/
def dispatch (s : IOManager N φ κ) (fd : ℤ) (events : Mask) (fault : Bool) :
    Option (IOManager N φ κ) :=
  if fd = s.mEventfd then some s
  else (s.eventPtr fd).map fun task =>
    let real := realEvent events
    if task.event &&& real = 0 then s
    else
      let leftEvent := task.event &&& ~~~real
      -- an `epoll_ctl` that fails is logged, and the notification is dropped
      match ctl s.epoll (leaveOp leftEvent) task.fd (ET ||| leftEvent) fault with
      | none => s
      | some epoll =>
        let r := triggerAll s.threadCnt real (task, s.mTasks)
        { s.assign fd r.1 with epoll := epoll, mTasks := r.2 }

/-- `IOManager::addTimer`. -/
def addTimer (s : IOManager N φ κ) (timing : ℤ) (cb : κ) (recurr : Bool) :
    Option (TimerPtr × IOManager N φ κ) :=
  (s.mTimerManager.addTimer timing cb recurr).map fun r =>
    (r.1, { s with mTimerCnt := s.mTimerCnt + 1, mTimerManager := r.2 })

/-- `IOManager::delTimer`. -/
def delTimer (s : IOManager N φ κ) (timer : TimerPtr) : IOManager N φ κ :=
  { s with mTimerCnt := s.mTimerCnt - 1, mTimerManager := s.mTimerManager.delTimer timer }

/-- `IOManager::stopping`, which asks for `mTimerCnt` again in
`Scheduler::stopping`. -/
def stopping (s : IOManager N φ κ) (mStopping : Bool) (mActiveCnt : ℤ) : Bool :=
  s.mTimerCnt = 0 && (mStopping && s.mTasks.isEmpty && mActiveCnt = 0 && s.mTimerCnt = 0)

/-- `Scheduler::addTask` of one task. -/
def addTask (s : IOManager N φ κ) (t : Task φ κ) : IOManager N φ κ :=
  { s with mTasks := addTaskNoLock s.threadCnt s.mTasks t }

/-- The end of an iteration of `idle` on a timeout: a tick, and its callbacks
are queued.  The timers that were emitted are returned as a history variable. -/
def idleTick (s : IOManager N φ κ) (now now' : BitVec 64) :
    Option (List TimerPtr × IOManager N φ κ) :=
  (s.mTimerManager.tick now now' []).map fun r =>
    (r.emitted,
      r.cbs.foldl (fun s cb => s.addTask (.ofFunc cb)) { s with mTimerManager := r.mgr })

end IOManager

end Server
