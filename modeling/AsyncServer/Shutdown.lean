/-
Leaving the loop of `threadFunc`.

A worker that finds no task is in `idle`, and after that in `stopping()`, which loads
`mTimerCnt`, `mStopping`, `mTasks.empty()`, `mActiveCnt` and `mTimerCnt` again, one after
the other.  Meanwhile other workers take tasks (the task is gone from the queue before
`mActiveCnt` counts it), run them, and come back.  The lock of the queue is left out,
which only adds interleavings.

Work is parked in the queue, on the timer wheel, in the event table, or, between the
`tick` of an idle worker and its `addTask`, in that worker's list of callbacks.

* `InView` — no work is parked where `stopping()` does not look: it asks neither for
  waiters nor for callbacks on their way, and for timers only their count;
* `Watched` — the invariant: what a worker in the middle of `stopping()` can rely on;
* `quiet_when_left` — in every run whose steps are `Orderly`, once a worker has left,
  no worker has a task and nothing is parked;
* `leaves_early` — after a step that is not, a worker can leave although there is work;
* `leaves_when_quiet` — a worker without work does leave;
* `work_left_behind` — a fiber that waits for an event, and a task, are left behind.
-/
import AsyncServer.TimerCount
import AsyncServer.WaiterLedger

namespace Server

open Epoll Transition

/-- Where a worker is in `threadFunc`. -/
inductive WorkerPc (φ κ : Type*) where
  /-- before the critical section -/
  | loop
  /-- has erased `t` from the queue, and not counted itself yet -/
  | taken (t : Task φ κ)
  /-- runs `t` -/
  | running (t : Task φ κ)
  /-- in `idle` -/
  | idle
  /-- in `idle`, with the callbacks of a `tick` -/
  | expired (cbs : List κ)
  /-- in `stopping()`, before the load of `mTimerCnt` -/
  | timerCnt
  /-- before that of `mStopping` -/
  | stopping
  /-- before that of `mTasks.empty()` -/
  | tasks
  /-- before that of `mActiveCnt` -/
  | activeCnt
  /-- before that of `mTimerCnt` in `Scheduler::stopping()` -/
  | timerCntAgain
  /-- `stopping()` has returned true -/
  | stopped
  /-- out of the loop -/
  | left

/-- The worker has a task. -/
def WorkerPc.busy {φ κ : Type*} : WorkerPc φ κ → Bool
  | .taken _ | .running _ => true
  | _ => false

/-- The task of a worker that `mActiveCnt` counts. -/
def WorkerPc.counted {φ κ : Type*} : WorkerPc φ κ → ℤ
  | .running _ => 1
  | _ => 0

/-- `n` workers of an `IOManager`; `mActiveCnt` counts workers, at most `n`. -/
structure Workers (n N : ℕ) (φ κ : Type*) where
  iom : IOManager N φ κ
  mStopping : Bool
  mActiveCnt : ℤ
  pc : Fin n → WorkerPc φ κ

namespace Workers

variable {n N : ℕ} {φ κ : Type*} {s s' : Workers n N φ κ}

/-- `start()`, with the tasks that are queued before the workers come to it. -/
def start (iom : IOManager N φ κ) (mTasks : List (Task φ κ)) : Workers n N φ κ where
  iom := { iom with mTasks := mTasks }
  mStopping := false
  mActiveCnt := 0
  pc := fun _ => .loop

inductive Act (n : ℕ) (φ κ : Type*) where
  /-- `stop()`, by anyone -/
  | stop
  /-- the critical section of worker `w`, up to the `erase` -/
  | take (w : Fin n) (state : φ → FiberState)
  /-- `++mActiveCnt` -/
  | count (w : Fin n)
  /-- the task of worker `w` calls `addTask` -/
  | addTask (w : Fin n) (t : Task φ κ)
  /-- the task of worker `w` calls `addEvent`, `cancelEvent` or `delEvent`, or worker `w`
  dispatches a notification in `idle` -/
  | event (w : Fin n) (op : EventOp φ κ)
  /-- the task of worker `w` calls `addTimer` -/
  | addTimer (w : Fin n) (timing : ℤ) (cb : κ) (recurr : Bool)
  /-- the task of worker `w` calls `delTimer` -/
  | delTimer (w : Fin n) (timer : TimerPtr)
  /-- the task of worker `w` ends or yields: `--mActiveCnt` -/
  | complete (w : Fin n)
  /-- worker `w` calls `tick` in `idle` -/
  | tick (w : Fin n) (now now' : BitVec 64)
  /-- and queues the callbacks, and yields -/
  | addExpired (w : Fin n)
  /-- worker `w` yields from `idle` without a tick -/
  | yield (w : Fin n)
  /-- the next load of worker `w` in `stopping()` -/
  | load (w : Fin n)
  /-- `break` -/
  | leave (w : Fin n)

/-- Worker `w` goes to `p`. -/
def goto (s : Workers n N φ κ) (w : Fin n) (p : WorkerPc φ κ) : Workers n N φ κ :=
  { s with pc := Function.update s.pc w p }

/-- Who performs an operation on the events. -/
def performs : EventOp φ κ → WorkerPc φ κ → Bool
  | .dispatch .., .idle => true
  | .dispatch .., _ => false
  | _, .running _ => true
  | _, _ => false

/-- The next load of `stopping()`. -/
def load (s : Workers n N φ κ) : WorkerPc φ κ → Option (WorkerPc φ κ)
  | .timerCnt => some (if s.iom.mTimerCnt = 0 then .stopping else .loop)
  | .stopping => some (if s.mStopping then .tasks else .loop)
  | .tasks => some (if s.iom.mTasks.isEmpty then .activeCnt else .loop)
  | .activeCnt => some (if s.mActiveCnt = 0 then .timerCntAgain else .loop)
  | .timerCntAgain => some (if s.iom.mTimerCnt = 0 then .stopped else .loop)
  | _ => none

/-- One step. -/
def step (s : Workers n N φ κ) : Act n φ κ → Option (Workers n N φ κ)
  | .stop => some { s with mStopping := true }
  -- the lock is held from the search to the `erase`, so that they are one step
  | .take w state =>
    match s.pc w with
    | .loop => (scan s.iom.threadCnt w state s.iom.mTasks).map fun r =>
      { s with iom := { s.iom with mTasks := r.2 } }.goto w (r.1.elim .idle .taken)
    | _ => none
  | .count w =>
    match s.pc w with
    | .taken t => some ({ s with mActiveCnt := s.mActiveCnt + 1 }.goto w (.running t))
    | _ => none
  | .addTask w t =>
    match s.pc w with
    | .running _ => some { s with iom := s.iom.addTask t }
    | _ => none
  -- an operation runs to its end: what matters here is only what it leaves registered and queued
  | .event w op =>
    if performs op (s.pc w) then (s.iom.step op).map fun iom => { s with iom := iom } else none
  | .addTimer w timing cb recurr =>
    match s.pc w with
    | .running _ => (s.iom.addTimer timing cb recurr).map fun r => { s with iom := r.2 }
    | _ => none
  | .delTimer w timer =>
    match s.pc w with
    | .running _ => some { s with iom := s.iom.delTimer timer }
    | _ => none
  | .complete w =>
    match s.pc w with
    | .running _ => some ({ s with mActiveCnt := s.mActiveCnt - 1 }.goto w .loop)
    | _ => none
  -- the callbacks leave the wheel here and reach the queue at `addExpired`
  | .tick w now now' =>
    match s.pc w with
    | .idle => (s.iom.mTimerManager.tick now now' []).map fun r =>
      { s with iom := { s.iom with mTimerManager := r.mgr } }.goto w (.expired r.cbs)
    | _ => none
  | .addExpired w =>
    match s.pc w with
    | .expired cbs => some ({ s with
        iom := cbs.foldl (fun iom cb => iom.addTask (.ofFunc cb)) s.iom }.goto w .timerCnt)
    | _ => none
  | .yield w =>
    match s.pc w with
    | .idle => some (s.goto w .timerCnt)
    | _ => none
  | .load w => (s.load (s.pc w)).map (s.goto w)
  | .leave w =>
    match s.pc w with
    | .stopped => some (s.goto w .left)
    | _ => none

/-- Some worker has a task. -/
def Busy (s : Workers n N φ κ) : Prop := ∃ w, (s.pc w).busy = true

/-- No task is queued, no timer is pending, no callback of an expired timer is on its way
to the queue, and nobody waits for an event. -/
structure NothingParked (s : Workers n N φ κ) : Prop where
  tasks : s.iom.mTasks = []
  timers : s.iom.mTimerManager.pending = 0
  expired : ∀ w cbs, s.pc w = .expired cbs → cbs = []
  events : s.iom.registered = []

/-- There is no work. -/
structure Quiet (s : Workers n N φ κ) : Prop where
  idle : ¬ s.Busy
  parked : s.NothingParked

/-- Nothing is parked where `stopping()` does not look: the count is not 0 over pending
timers, no callback of an expired timer is on its way to the queue, and nobody waits for an
event. -/
structure InView (s : Workers n N φ κ) : Prop where
  timers : s.iom.mTimerCnt = 0 → s.iom.mTimerManager.pending = 0
  expired : ∀ w cbs, s.pc w = .expired cbs → cbs = []
  events : s.iom.registered = []

/-- The condition on a step.

* When the queue is found empty, with no worker busy and the timer count 0, what is parked
  is in view.
* When a last task ends under a worker that has found the queue empty, with the timer count
  0, what is parked is in view, and the task has left none in the queue.
* When `mActiveCnt` and `mTimerCnt` are both 0 at the load of the former, no worker has
  taken a task without being counted.
* No timer is added or deleted, with the count becoming 0, between a worker's load of
  `mActiveCnt` and its last load of `mTimerCnt`. -/
def Orderly (s : Workers n N φ κ) : Act n φ κ → Prop
  | .load w =>
    (s.pc w = .tasks → s.iom.mTasks = [] → s.iom.mTimerCnt = 0 → ¬ s.Busy → s.InView) ∧
    (s.pc w = .activeCnt → s.mActiveCnt = 0 → s.iom.mTimerCnt = 0 → ∀ v t, s.pc v ≠ .taken t)
  | .complete w => (∃ v, s.pc v = .activeCnt) → s.iom.mTimerCnt = 0 →
      (∀ v, v ≠ w → (s.pc v).busy = false) → s.InView ∧ s.iom.mTasks = []
  | .addTimer _ _ _ _ => s.iom.mTimerCnt = -1 → ∀ v, s.pc v ≠ .timerCntAgain
  | .delTimer _ _ => s.iom.mTimerCnt = 1 → ∀ v, s.pc v ≠ .timerCntAgain
  | _ => True

/-- Where what is parked is in view, an empty queue and a timer count of 0 mean that nothing
is. -/
theorem InView.nothingParked (h : s.InView) (htasks : s.iom.mTasks = [])
    (hcnt : s.iom.mTimerCnt = 0) : s.NothingParked :=
  ⟨htasks, h.timers hcnt, h.expired, h.events⟩

theorem NothingParked.inView (h : s.NothingParked) : s.InView :=
  ⟨fun _ => h.timers, h.expired, h.events⟩

/-! ### Program counters -/

theorem pc_goto (w v : Fin n) (p : WorkerPc φ κ) :
    (s.goto w p).pc v = if v = w then p else s.pc v :=
  Function.update_apply s.pc w p v

/-- The other workers are counted as before. -/
theorem sum_counted_update (pc : Fin n → WorkerPc φ κ) (w : Fin n) (p : WorkerPc φ κ) :
    ∑ v, (Function.update pc w p v).counted = ∑ v, (pc v).counted - (pc w).counted + p.counted := by
  have := sum_update WorkerPc.counted pc w p
  omega

/-- A worker without a task goes where it may; the busy ones stay. -/
theorem busy_goto {w : Fin n} (hw : (s.pc w).busy = false) (p : WorkerPc φ κ) (h : s.Busy) :
    (s.goto w p).Busy := by
  obtain ⟨v, hv⟩ := h
  refine ⟨v, ?_⟩
  rw [pc_goto, if_neg]
  · exact hv
  · rintro rfl
    exact absurd (hw.symm.trans hv) (by decide)

theorem not_busy_goto {w : Fin n} {p : WorkerPc φ κ} (hp : p.busy = false) (h : ¬ s.Busy) :
    ¬ (s.goto w p).Busy := by
  rintro ⟨v, hv⟩
  rw [pc_goto] at hv
  split_ifs at hv
  · exact absurd (hp.symm.trans hv) (by decide)
  · exact h ⟨v, hv⟩

/-- A worker's way does not concern the parked work, unless it takes callbacks with it. -/
theorem NothingParked.goto (h : s.NothingParked) (w : Fin n) {p : WorkerPc φ κ}
    (hp : ∀ cbs, p = .expired cbs → cbs = []) : (s.goto w p).NothingParked where
  tasks := h.tasks
  timers := h.timers
  expired v cbs hv := by
    rw [pc_goto] at hv
    split_ifs at hv
    · exact hp cbs hv
    · exact h.expired v cbs hv
  events := h.events

theorem Quiet.goto (h : s.Quiet) (w : Fin n) {p : WorkerPc φ κ} (hp : p.busy = false)
    (hexpired : ∀ cbs, p ≠ .expired cbs) : (s.goto w p).Quiet :=
  ⟨not_busy_goto hp h.idle, h.parked.goto w fun cbs hcbs => absurd hcbs (hexpired cbs)⟩

/-! ### What a worker in `stopping()` can rely on -/

/-- The invariant. -/
structure Watched (s : Workers n N φ κ) : Prop where
  pool : s.iom.Ordered
  count : s.mActiveCnt = ∑ w, (s.pc w).counted
  -- the queue was found empty, and what has come since has come from a worker that is still busy
  activeCnt : ∀ w, s.pc w = .activeCnt → s.Busy ∨ s.iom.mTimerCnt ≠ 0 ∨ s.NothingParked
  -- nobody was busy, so that from here on only a pending timer can bring work
  timerCntAgain : ∀ w, s.pc w = .timerCntAgain → s.iom.mTimerCnt ≠ 0 ∨ s.Quiet
  gone : ∀ w, s.pc w = .stopped ∨ s.pc w = .left → s.Quiet

/-- With no task counted, a worker that has one is between the `erase` and the count. -/
theorem Watched.not_busy (hs : s.Watched) (h : s.mActiveCnt = 0)
    (htaken : ∀ w t, s.pc w ≠ .taken t) : ¬ s.Busy := by
  rintro ⟨w, hw⟩
  have hnonneg : ∀ v ∈ Finset.univ, 0 ≤ (s.pc v).counted := by
    intro v _
    cases s.pc v <;> simp [WorkerPc.counted]
  -- each term of the sum is at most the whole, which is 0
  have hle := Finset.single_le_sum hnonneg (Finset.mem_univ w)
  rw [← hs.count, h] at hle
  cases hpc : s.pc w with
  | taken t => exact htaken w t hpc
  | running t =>
    rw [hpc] at hle
    exact absurd hle (by simp [WorkerPc.counted])
  | _ =>
    rw [hpc] at hw
    exact absurd hw (by simp [WorkerPc.busy])

theorem counted_of_not_busy {p : WorkerPc φ κ} (h : p.busy = false) : p.counted = 0 := by
  cases p <;> first | rfl | exact absurd h (by simp [WorkerPc.busy])

/-- The worker is past the load of `mTasks.empty()`. -/
def Deciding (p : WorkerPc φ κ) : Prop :=
  p = .activeCnt ∨ p = .timerCntAgain ∨ p = .stopped ∨ p = .left

/-- A step outside of `stopping()` that no task takes part in. -/
theorem Watched.calm (hs : s.Watched) (hpool : s'.iom.Ordered)
    (hcount : s'.mActiveCnt = ∑ w, (s'.pc w).counted) (hcnt : s'.iom.mTimerCnt = s.iom.mTimerCnt)
    (hpc : ∀ w, Deciding (s'.pc w) → s'.pc w = s.pc w) (hbusy : s.Busy → s'.Busy)
    (hparked : s.NothingParked → s'.NothingParked) (hquiet : s.Quiet → ¬ s'.Busy) :
    s'.Watched where
  pool := hpool
  count := hcount
  -- a worker past its load of `mTasks.empty()` stands where it stood
  activeCnt w hw := by
    have hw' := hpc w (.inl hw)
    rw [hcnt]
    exact (hs.activeCnt w (hw' ▸ hw)).imp hbusy (Or.imp_right hparked)
  timerCntAgain w hw := by
    have hw' := hpc w (.inr (.inl hw))
    rw [hcnt]
    exact (hs.timerCntAgain w (hw' ▸ hw)).imp_right fun hq => ⟨hquiet hq, hparked hq.parked⟩
  gone w hw := by
    have hw' := hpc w (hw.elim (fun h => .inr (.inr (.inl h))) fun h => .inr (.inr (.inr h)))
    have hq := hs.gone w (hw' ▸ hw)
    exact ⟨hquiet hq, hparked hq.parked⟩

/-- A step of a task, after which its worker may or may not have one. -/
theorem Watched.task (hs : s.Watched) (hpool : s'.iom.Ordered)
    (hcount : s'.mActiveCnt = ∑ w, (s'.pc w).counted)
    (hpc : ∀ w, Deciding (s'.pc w) → s'.pc w = s.pc w) (hbusy : s.Busy)
    (hcnt : (∃ w, s.pc w = .timerCntAgain) → s.iom.mTimerCnt ≠ 0 → s'.iom.mTimerCnt ≠ 0)
    (hbusy' : (∃ w, s.pc w = .activeCnt) →
      s'.Busy ∨ s'.iom.mTimerCnt ≠ 0 ∨ s'.NothingParked) : s'.Watched where
  pool := hpool
  count := hcount
  -- nothing is known of what is parked now, but the worker of the task was busy before the step
  activeCnt w hw := by
    have hw' := hpc w (.inl hw)
    exact hbusy' ⟨w, hw' ▸ hw⟩
  timerCntAgain w hw := by
    have hw' := hpc w (.inr (.inl hw))
    rcases hs.timerCntAgain w (hw' ▸ hw) with hne | hq
    · exact .inl (hcnt ⟨w, hw' ▸ hw⟩ hne)
    · exact absurd hbusy hq.idle
  gone w hw := by
    have hw' := hpc w (hw.elim (fun h => .inr (.inr (.inl h))) fun h => .inr (.inr (.inr h)))
    exact absurd hbusy (hs.gone w (hw' ▸ hw)).idle

theorem deciding_goto {w : Fin n} {p : WorkerPc φ κ} (hp : ¬ Deciding p) (v : Fin n)
    (h : Deciding ((s.goto w p).pc v)) : (s.goto w p).pc v = s.pc v := by
  rw [pc_goto] at h ⊢
  split_ifs at h ⊢
  · exact absurd h hp
  · rfl

/-- A worker without a task does something to the manager and goes to `p`, outside of
`stopping()`. -/
theorem Watched.work (hs : s.Watched) {w : Fin n} {p : WorkerPc φ κ} {iom : IOManager N φ κ}
    (hpool : iom.Ordered) (hcnt : iom.mTimerCnt = s.iom.mTimerCnt)
    (hw : (s.pc w).busy = false) (hp : p.counted = 0) (hpc : ¬ Deciding p)
    (hparked : s.NothingParked → p.busy = false ∧
      (({ s with iom := iom } : Workers n N φ κ).goto w p).NothingParked) :
    (({ s with iom := iom } : Workers n N φ κ).goto w p).Watched := by
  set t : Workers n N φ κ := { s with iom := iom } with ht
  refine hs.calm hpool ?_ hcnt (deciding_goto (s := t) hpc) (busy_goto (s := t) hw p)
    (fun h => (hparked h).2) fun hq => not_busy_goto (s := t) (hparked hq.parked).1 hq.idle
  show s.mActiveCnt = ∑ v, (Function.update s.pc w p v).counted
  rw [sum_counted_update, hs.count, counted_of_not_busy hw, hp]
  omega

/-! ### The steps -/

theorem watched_take {w : Fin n} {state : φ → FiberState} (hs : s.Watched)
    (h : s.step (.take w state) = some s') : s'.Watched := by
  rw [step] at h
  split at h
  · rename_i hw
    obtain ⟨⟨o, rest⟩, hscan, rfl⟩ := Option.map_eq_some_iff.mp h
    refine hs.work (hs.pool.congr rfl rfl) rfl (by rw [hw]; rfl) (by cases o <;> rfl)
      (by cases o <;> simp [Deciding]) fun hparked => ?_
    -- from an empty queue nothing is taken
    rw [hparked.tasks] at hscan
    obtain ⟨rfl, rfl⟩ := Prod.mk.inj (Option.some_inj.mp hscan)
    have hsame : ({ s with iom := { s.iom with mTasks := [] } } :
        Workers n N φ κ).NothingParked := ⟨rfl, hparked.timers, hparked.expired, hparked.events⟩
    exact ⟨rfl, hsame.goto w fun _ h => absurd h (by simp)⟩
  · exact absurd h (by simp)

theorem watched_count {w : Fin n} (hs : s.Watched) (h : s.step (.count w) = some s') :
    s'.Watched := by
  rw [step] at h
  split at h
  · rename_i t hw
    obtain rfl := Option.some_inj.mp h
    have hbusy : s.Busy := ⟨w, by rw [hw]; rfl⟩
    have hbusy' : ({ s with mActiveCnt := s.mActiveCnt + 1 }.goto w (.running t)).Busy := by
      refine ⟨w, ?_⟩
      rw [pc_goto, if_pos rfl]
      rfl
    refine hs.calm hs.pool ?_ rfl ?_ (fun _ => hbusy') ?_ (fun hq => absurd hbusy hq.idle)
    · show s.mActiveCnt + 1 = ∑ v, (Function.update s.pc w _ v).counted
      rw [sum_counted_update, hs.count, hw]
      simp [WorkerPc.counted]
    · exact deciding_goto (s := { s with mActiveCnt := s.mActiveCnt + 1 }) (by simp [Deciding])
    · intro hparked
      have hsame : ({ s with mActiveCnt := s.mActiveCnt + 1 } : Workers n N φ κ).NothingParked :=
        ⟨hparked.tasks, hparked.timers, hparked.expired, hparked.events⟩
      exact hsame.goto w fun _ h => absurd h (by simp)
  · exact absurd h (by simp)

/-- The task of a worker does something to the manager. -/
theorem watched_running {w : Fin n} {t : Task φ κ} {iom : IOManager N φ κ} (hs : s.Watched)
    (hw : s.pc w = .running t) (hpool : iom.Ordered)
    (hcnt : (∃ v, s.pc v = .timerCntAgain) → s.iom.mTimerCnt ≠ 0 → iom.mTimerCnt ≠ 0) :
    ({ s with iom := iom } : Workers n N φ κ).Watched := by
  have hbusy : s.Busy := ⟨w, by rw [hw]; rfl⟩
  exact hs.task hpool hs.count (fun _ _ => rfl) hbusy hcnt fun _ => .inl hbusy

/-- Where nobody waits, a dispatch queues nothing. -/
theorem NothingParked.moves {iom : IOManager N φ κ} (h : s.NothingParked) {fd : ℤ}
    {put : List (Task φ κ)} (hmoves : IOManager.Moves fd s.iom iom [] put []) :
    ({ s with iom := iom } : Workers n N φ κ).NothingParked := by
  have hperm := hmoves.registered
  rw [h.events, List.append_nil, List.append_nil] at hperm
  obtain ⟨hevents, hput⟩ := List.append_eq_nil_iff.mp (List.nil_perm.mp hperm)
  refine ⟨?_, ?_, h.expired, hevents⟩
  · show iom.mTasks = []
    rw [hmoves.queue, h.tasks, hput]
    rfl
  · show iom.mTimerManager.pending = 0
    rw [hmoves.frame.mTimerManager]
    exact h.timers

theorem watched_event {w : Fin n} {op : EventOp φ κ} (hs : s.Watched)
    (h : s.step (.event w op) = some s') : s'.Watched := by
  rw [step] at h
  split_ifs at h with hperforms
  obtain ⟨iom, hop, rfl⟩ := Option.map_eq_some_iff.mp h
  -- an operation of a running task: the task is busy before and after
  have hrunning : ∀ t, s.pc w = .running t → ({ s with iom := iom } : Workers n N φ κ).Watched := by
    intro t hw
    obtain ⟨fd, came, put, lost, hmoves⟩ := IOManager.moves_step hs.pool hop
    exact watched_running hs hw (hmoves.ordered hs.pool) fun _ hne => by
      rw [hmoves.frame.mTimerCnt]
      exact hne
  cases op with
  -- a dispatch of an idle worker: waiters go to the queue, and where there are none nothing does
  | dispatch fd events fault =>
    obtain ⟨put, hmoves⟩ := IOManager.moves_dispatch hs.pool.wf (hs.pool.tidy fd) hop
    exact hs.calm (hmoves.ordered hs.pool) hs.count hmoves.frame.mTimerCnt (fun _ _ => rfl)
      (fun hbusy => hbusy) (fun hparked => hparked.moves hmoves) fun hq => hq.idle
  | addEvent _ _ _ _ _ _ | cancelEvent _ _ _ | delEvent _ _ =>
    cases hw : s.pc w with
    | running t => exact hrunning t hw
    | _ =>
      rw [hw] at hperforms
      exact absurd hperforms (by simp [performs])

theorem watched_complete {w : Fin n} (hs : s.Watched) (hok : s.Orderly (.complete w))
    (h : s.step (.complete w) = some s') : s'.Watched := by
  rw [step] at h
  split at h
  · rename_i t hw
    obtain rfl := Option.some_inj.mp h
    have hbusy : s.Busy := ⟨w, by rw [hw]; rfl⟩
    refine hs.task hs.pool ?_ ?_ hbusy (fun _ hne => hne) ?_
    · show s.mActiveCnt - 1 = ∑ v, (Function.update s.pc w _ v).counted
      rw [sum_counted_update, hs.count, hw]
      simp [WorkerPc.counted]
    · exact deciding_goto (s := { s with mActiveCnt := s.mActiveCnt - 1 }) (by simp [Deciding])
    · intro hload
      by_cases hothers : ∀ v, v ≠ w → (s.pc v).busy = false
      · -- the last task ends
        by_cases hcnt : s.iom.mTimerCnt = 0
        · obtain ⟨hview, htasks⟩ := hok hload hcnt hothers
          have hparked := hview.nothingParked htasks hcnt
          have hsame : ({ s with mActiveCnt := s.mActiveCnt - 1 } :
              Workers n N φ κ).NothingParked :=
            ⟨hparked.tasks, hparked.timers, hparked.expired, hparked.events⟩
          exact .inr (.inr (hsame.goto w fun _ h => absurd h (by simp)))
        · exact .inr (.inl hcnt)
      -- another worker is busy still, and will look at the queue itself
      · obtain ⟨v, hv⟩ := not_forall.mp hothers
        obtain ⟨hne, hv⟩ := Classical.not_imp.mp hv
        refine .inl ⟨v, ?_⟩
        rw [pc_goto, if_neg hne]
        exact Bool.not_eq_false _ ▸ hv
  · exact absurd h (by simp)

/-- Over an empty wheel a tick emits nothing. -/
theorem tick_empty {m : TimerManager N κ} {now now' : BitVec 64} {r : TimerManager.Tick N κ}
    (h : m.tick now now' [] = some r) (hm : m.pending = 0) : r.mgr.pending = 0 ∧ r.cbs = [] := by
  constructor
  -- a tick takes timers off and never adds one
  · have := TimerManager.pending_tick h
    omega
  · obtain ⟨-, rfl⟩ | ⟨-, m₁, -, rfl⟩ := TimerManager.tick_cases h
    · rfl
    -- the slot at the cursor is empty like all the others
    · have hslot : m.mWheel m.mCurSlot = [] :=
        List.length_eq_zero_iff.mp (Finset.sum_eq_zero_iff.mp hm _ (Finset.mem_univ _))
      show [] ++ (m.mWheel m.mCurSlot).map _ = []
      rw [hslot]
      rfl

theorem watched_tick {w : Fin n} {now now' : BitVec 64} (hs : s.Watched)
    (h : s.step (.tick w now now') = some s') : s'.Watched := by
  rw [step] at h
  split at h
  · rename_i hw
    obtain ⟨r, hr, rfl⟩ := Option.map_eq_some_iff.mp h
    refine hs.work (hs.pool.congr rfl rfl) rfl (by rw [hw]; rfl) rfl (by simp [Deciding])
      fun hparked => ⟨rfl, ?_⟩
    obtain ⟨hpending, hcbs⟩ := tick_empty hr hparked.timers
    have hsame : ({ s with iom := { s.iom with mTimerManager := r.mgr } } :
        Workers n N φ κ).NothingParked :=
      ⟨hparked.tasks, hpending, hparked.expired, hparked.events⟩
    refine hsame.goto w fun cbs h => ?_
    rw [← WorkerPc.expired.inj h]
    exact hcbs
  · exact absurd h (by simp)

theorem watched_addExpired {w : Fin n} (hs : s.Watched)
    (h : s.step (.addExpired w) = some s') : s'.Watched := by
  rw [step] at h
  split at h
  · rename_i cbs hw
    obtain rfl := Option.some_inj.mp h
    rw [IOManager.foldl_addTask]
    refine hs.work (hs.pool.congr rfl rfl) rfl (by rw [hw]; rfl) rfl (by simp [Deciding])
      fun hparked => ⟨rfl, ?_⟩
    have htasks : s.iom.mTasks ++ cbs.map .ofFunc = [] := by
      rw [hparked.tasks, hparked.expired w cbs hw]
      rfl
    have hsame : ({ s with iom := { s.iom with mTasks := s.iom.mTasks ++ cbs.map .ofFunc } } :
        Workers n N φ κ).NothingParked :=
      ⟨htasks, hparked.timers, hparked.expired, hparked.events⟩
    exact hsame.goto w fun _ h => absurd h (by simp)
  · exact absurd h (by simp)

/-- A worker inside `stopping()` goes on to `p`, and `p` can rely on what it has to. -/
theorem Watched.advance (hs : s.Watched) {w : Fin n} {p : WorkerPc φ κ}
    (hw : (s.pc w).busy = false) (hp : p.busy = false) (hexpired : ∀ cbs, p ≠ .expired cbs)
    (hactive : p = .activeCnt → s.Busy ∨ s.iom.mTimerCnt ≠ 0 ∨ s.NothingParked)
    (hagain : p = .timerCntAgain → s.iom.mTimerCnt ≠ 0 ∨ s.Quiet)
    (hgone : p = .stopped ∨ p = .left → s.Quiet) : (s.goto w p).Watched := by
  have hparked : s.NothingParked → (s.goto w p).NothingParked :=
    fun h => h.goto w fun cbs hcbs => absurd hcbs (hexpired cbs)
  have hquiet : s.Quiet → (s.goto w p).Quiet := fun h => h.goto w hp hexpired
  constructor
  · exact hs.pool
  · show s.mActiveCnt = ∑ v, (Function.update s.pc w p v).counted
    rw [sum_counted_update, hs.count, counted_of_not_busy hw, counted_of_not_busy hp]
    omega
  -- each of the three splits into the worker that goes on and the others, which stand still
  · intro v hv
    refine Or.imp (busy_goto hw p) (Or.imp_right hparked) ?_
    rw [pc_goto] at hv
    split_ifs at hv
    · exact hactive hv
    · exact hs.activeCnt v hv
  · intro v hv
    refine Or.imp_right hquiet ?_
    rw [pc_goto] at hv
    split_ifs at hv
    · exact hagain hv
    · exact hs.timerCntAgain v hv
  · intro v hv
    apply hquiet
    rw [pc_goto] at hv
    split_ifs at hv
    · exact hgone hv
    · exact hs.gone v hv

theorem watched_yield {w : Fin n} (hs : s.Watched) (h : s.step (.yield w) = some s') :
    s'.Watched := by
  rw [step] at h
  split at h
  · rename_i hw
    obtain rfl := Option.some_inj.mp h
    exact hs.advance (by rw [hw]; rfl) rfl (by simp) (by simp) (by simp) (by simp)
  · exact absurd h (by simp)

theorem watched_load {w : Fin n} (hs : s.Watched) (hok : s.Orderly (.load w))
    (h : s.step (.load w) = some s') : s'.Watched := by
  obtain ⟨p, hload, rfl⟩ := Option.map_eq_some_iff.mp h
  obtain ⟨htasks, hactive⟩ := hok
  -- a load that finds work sends the worker back to the head of the loop
  have hloop : (s.pc w).busy = false → (s.goto w .loop).Watched := fun hfree =>
    hs.advance hfree rfl (by simp) (by simp) (by simp) (by simp)
  cases hw : s.pc w with
  | timerCnt =>
    obtain rfl := Option.some_inj.mp (hw ▸ hload)
    split_ifs
    · exact hs.advance (by rw [hw]; rfl) rfl (by simp) (by simp) (by simp) (by simp)
    · exact hloop (by rw [hw]; rfl)
  | stopping =>
    obtain rfl := Option.some_inj.mp (hw ▸ hload)
    split_ifs
    · exact hs.advance (by rw [hw]; rfl) rfl (by simp) (by simp) (by simp) (by simp)
    · exact hloop (by rw [hw]; rfl)
  -- the first load at which the condition is needed: the queue is empty, and the rest is watched
  | tasks =>
    obtain rfl := Option.some_inj.mp (hw ▸ hload)
    split_ifs with hempty
    · refine hs.advance (by rw [hw]; rfl) rfl (by simp) (fun _ => ?_) (by simp) (by simp)
      by_cases hbusy : s.Busy
      · exact .inl hbusy
      · by_cases hcnt : s.iom.mTimerCnt = 0
        · have hnone := List.isEmpty_iff.mp hempty
          exact .inr (.inr ((htasks hw hnone hcnt hbusy).nothingParked hnone hcnt))
        · exact .inr (.inl hcnt)
    · exact hloop (by rw [hw]; rfl)
  -- a count of 0 and no worker before its `++mActiveCnt` leave nobody busy
  | activeCnt =>
    obtain rfl := Option.some_inj.mp (hw ▸ hload)
    split_ifs with hzero
    · refine hs.advance (by rw [hw]; rfl) rfl (by simp) (by simp) (fun _ => ?_) (by simp)
      by_cases hcnt : s.iom.mTimerCnt = 0
      · have hidle := hs.not_busy hzero (hactive hw hzero hcnt)
        rcases hs.activeCnt w hw with hbusy | hne | hparked
        · exact absurd hbusy hidle
        · exact .inl hne
        · exact .inr ⟨hidle, hparked⟩
      · exact .inl hcnt
    · exact hloop (by rw [hw]; rfl)
  -- a timer that was pending at the load of `mActiveCnt` still shows
  | timerCntAgain =>
    obtain rfl := Option.some_inj.mp (hw ▸ hload)
    split_ifs with hcnt
    · refine hs.advance (by rw [hw]; rfl) rfl (by simp) (by simp) (by simp) fun _ => ?_
      exact (hs.timerCntAgain w hw).resolve_left fun hne => hne hcnt
    · exact hloop (by rw [hw]; rfl)
  | _ =>
    rw [hw] at hload
    exact absurd hload (by simp [load])

theorem watched_leave {w : Fin n} (hs : s.Watched) (h : s.step (.leave w) = some s') :
    s'.Watched := by
  rw [step] at h
  split at h
  · rename_i hw
    obtain rfl := Option.some_inj.mp h
    exact hs.advance (by rw [hw]; rfl) rfl (by simp) (by simp) (by simp) fun _ => hs.gone w (.inl hw)
  · exact absurd h (by simp)

/-- The step lemma. -/
theorem watched_step {a : Act n φ κ} (hs : s.Watched) (hok : s.Orderly a)
    (h : s.step a = some s') : s'.Watched := by
  cases a with
  | stop =>
    obtain rfl := Option.some_inj.mp h
    exact hs.calm hs.pool hs.count rfl (fun _ _ => rfl) (fun hbusy => hbusy)
      (fun hparked => ⟨hparked.tasks, hparked.timers, hparked.expired, hparked.events⟩)
      fun hq => hq.idle
  | take w state => exact watched_take hs h
  | count w => exact watched_count hs h
  | addTask w t =>
    rw [step] at h
    split at h
    · rename_i hw
      obtain rfl := Option.some_inj.mp h
      exact watched_running hs hw (hs.pool.congr rfl rfl) fun _ hne => hne
    · exact absurd h (by simp)
  | event w op => exact watched_event hs h
  | addTimer w timing cb recurr =>
    rw [step] at h
    split at h
    · rename_i hw
      obtain ⟨⟨p, iom⟩, hadd, rfl⟩ := Option.map_eq_some_iff.mp h
      obtain ⟨m, -, rfl⟩ := IOManager.addTimer_eq_some hadd
      refine watched_running hs hw (hs.pool.congr rfl rfl) ?_
      rintro ⟨v, hv⟩ -
      have hne : s.iom.mTimerCnt ≠ -1 := fun hcnt => hok hcnt v hv
      exact fun hzero => hne (eq_neg_of_add_eq_zero_left hzero)
    · exact absurd h (by simp)
  | delTimer w timer =>
    rw [step] at h
    split at h
    · rename_i hw
      obtain rfl := Option.some_inj.mp h
      refine watched_running hs hw (hs.pool.congr rfl rfl) ?_
      rintro ⟨v, hv⟩ -
      have hne : s.iom.mTimerCnt ≠ 1 := fun hcnt => hok hcnt v hv
      exact sub_ne_zero.mpr hne
    · exact absurd h (by simp)
  | complete w => exact watched_complete hs hok h
  | tick w now now' => exact watched_tick hs h
  | addExpired w => exact watched_addExpired hs h
  | yield w => exact watched_yield hs h
  | load w => exact watched_load hs hok h
  | leave w => exact watched_leave hs h

theorem watched_start (threadCnt : ℕ) (mTimerManager : TimerManager N κ) (mEventfd : ℤ)
    (mTasks : List (Task φ κ)) :
    (start (.create threadCnt mTimerManager mEventfd) mTasks : Workers n N φ κ).Watched where
  pool := (WaiterLedger.ordered_create threadCnt mTimerManager mEventfd).congr rfl rfl
  count := by simp [start, WorkerPc.counted]
  activeCnt _ hw := absurd hw (by simp [start])
  timerCntAgain _ hw := absurd hw (by simp [start])
  gone _ hw := absurd hw (by simp [start])

/-- **A worker leaves only when there is no work**, in any run of any number of workers whose
steps are orderly: nothing is queued, running, pending on the wheel or waiting for an
event. -/
theorem quiet_when_left {threadCnt : ℕ} {mTimerManager : TimerManager N κ} {mEventfd : ℤ}
    {mTasks : List (Task φ κ)}
    (h : Reachable step Orderly (start (.create threadCnt mTimerManager mEventfd) mTasks) s)
    (w : Fin n) (hw : s.pc w = .left) : s.Quiet := by
  have hs : s.Watched := h.invariant (watched_start threadCnt mTimerManager mEventfd mTasks)
    fun _ _ _ hs hok hstep => watched_step hs hok hstep
  exact hs.gone w (.inr hw)

/-! ### Leaving too early -/

/-- A worker at its last load leaves when it finds the timer count 0. -/
theorem leaves_from_timerCntAgain {w : Fin n} (hw : s.pc w = .timerCntAgain)
    (hcnt : s.iom.mTimerCnt = 0) :
    run step [.load w, .leave w] s = some ((s.goto w .stopped).goto w .left) := by
  have hload : s.step (.load w) = some (s.goto w .stopped) := by
    rw [step, hw, load, if_pos hcnt, Option.map_some]
  have hpc : (s.goto w .stopped).pc w = .stopped := by rw [pc_goto, if_pos rfl]
  have hleave : (s.goto w .stopped).step (.leave w) = some ((s.goto w .stopped).goto w .left) := by
    rw [step, hpc]
  rw [run_cons, hload, Option.bind_some, run_cons, hleave, Option.bind_some, run_nil]

theorem leaves_from_activeCnt {w : Fin n} (hw : s.pc w = .activeCnt) (hzero : s.mActiveCnt = 0)
    (hcnt : s.iom.mTimerCnt = 0) :
    run step [.load w, .load w, .leave w] s =
      some (((s.goto w .timerCntAgain).goto w .stopped).goto w .left) := by
  have hload : s.step (.load w) = some (s.goto w .timerCntAgain) := by
    rw [step, hw, load, if_pos hzero, Option.map_some]
  rw [run_cons, hload, Option.bind_some]
  exact leaves_from_timerCntAgain (by rw [pc_goto, if_pos rfl]) hcnt

/-- Work does not go away when a worker inside `stopping()` goes on. -/
theorem quiet_of_goto {w : Fin n} {p : WorkerPc φ κ} (hw : (s.pc w).busy = false)
    (hexpired : ∀ cbs, s.pc w ≠ .expired cbs) (h : (s.goto w p).Quiet) : s.Quiet := by
  refine ⟨fun hbusy => h.idle (busy_goto hw p hbusy), h.parked.tasks, h.parked.timers, ?_,
    h.parked.events⟩
  intro v cbs hv
  by_cases hvw : v = w
  · exact absurd (hvw ▸ hv) (hexpired cbs)
  · exact h.parked.expired v cbs (by rw [pc_goto, if_neg hvw]; exact hv)

/-- A worker that finds both counts 0 after it found the queue empty leaves work behind, if
there is any. -/
theorem left_behind {w : Fin n} (hwork : ¬ s.Quiet) (hcnt : s.iom.mTimerCnt = 0)
    (hw : s.pc w = .timerCntAgain ∨ (s.pc w = .activeCnt ∧ s.mActiveCnt = 0)) :
    ∃ as s', run step as s = some s' ∧ s'.pc w = .left ∧ ¬ s'.Quiet := by
  -- one load is left in the first case and two in the second, and none of them sees the work
  rcases hw with hw | ⟨hw, hzero⟩
  · refine ⟨_, _, leaves_from_timerCntAgain hw hcnt, by rw [pc_goto, if_pos rfl], fun hq => ?_⟩
    refine hwork (quiet_of_goto (by rw [hw]; rfl) (by rw [hw]; simp) (p := .stopped) ?_)
    exact quiet_of_goto (by rw [pc_goto, if_pos rfl]; rfl) (by rw [pc_goto, if_pos rfl]; simp) hq
  · refine ⟨_, _, leaves_from_activeCnt hw hzero hcnt, by rw [pc_goto, if_pos rfl], fun hq => ?_⟩
    refine hwork (quiet_of_goto (by rw [hw]; rfl) (by rw [hw]; simp) (p := .timerCntAgain) ?_)
    refine quiet_of_goto (by rw [pc_goto, if_pos rfl]; rfl) (by rw [pc_goto, if_pos rfl]; simp)
      (p := .stopped) ?_
    exact quiet_of_goto (by rw [pc_goto, if_pos rfl]; rfl) (by rw [pc_goto, if_pos rfl]; simp) hq

/-- **The condition is no stronger than it has to be**: after a step that does not meet it,
a worker can leave although there is work. -/
theorem leaves_early {a : Act n φ κ} (hs : s.Watched) (hnot : ¬ s.Orderly a)
    (h : s.step a = some s') :
    ∃ w as s'', run step as s' = some s'' ∧ s''.pc w = .left ∧ ¬ s''.Quiet := by
  cases a with
  -- the load itself goes through, and the ones after it too
  | load w =>
    obtain ⟨p, hload, rfl⟩ := Option.map_eq_some_iff.mp h
    refine ⟨w, ?_⟩
    rcases not_and_or.mp hnot with htasks | hactive
    · simp only [Classical.not_imp] at htasks
      obtain ⟨hw, hempty, hcnt, hidle, hview⟩ := htasks
      rw [hw, load, if_pos (List.isEmpty_iff.mpr hempty), Option.some_inj] at hload
      subst hload
      have hzero : s.mActiveCnt = 0 := by
        rw [hs.count]
        refine Finset.sum_eq_zero fun v _ => counted_of_not_busy ?_
        exact Bool.eq_false_iff.mpr fun hv => hidle ⟨v, hv⟩
      refine left_behind (fun hq => hview ?_) hcnt (.inr ⟨by rw [pc_goto, if_pos rfl], hzero⟩)
      exact (quiet_of_goto (by rw [hw]; rfl) (by rw [hw]; simp) hq).parked.inView
    · simp only [Classical.not_imp, not_forall, not_not] at hactive
      obtain ⟨hw, hzero, hcnt, v, t, hv⟩ := hactive
      rw [hw, load, if_pos hzero, Option.some_inj] at hload
      subst hload
      refine left_behind (fun hq => ?_) hcnt (.inl (by rw [pc_goto, if_pos rfl]))
      exact hq.idle (busy_goto (by rw [hw]; rfl) _ ⟨v, by rw [hv]; rfl⟩)
  -- with the last task gone `mActiveCnt` is 0, whatever the task has left behind
  | complete w =>
    simp only [Orderly, Classical.not_imp] at hnot
    obtain ⟨⟨v, hv⟩, hcnt, hothers, hparked⟩ := hnot
    rw [step] at h
    split at h
    · rename_i t hw
      obtain rfl := Option.some_inj.mp h
      have hvw : v ≠ w := by
        rintro rfl
        exact absurd (hv.symm.trans hw) (by simp)
      have hzero : s.mActiveCnt - 1 = 0 := by
        rw [hs.count, ← Finset.add_sum_erase _ _ (Finset.mem_univ w), hw, Finset.sum_eq_zero]
        · rfl
        · intro u hu
          exact counted_of_not_busy (hothers u (Finset.ne_of_mem_erase hu))
      refine ⟨v, left_behind (fun hq => hparked ⟨?_, hq.parked.tasks⟩) hcnt
        (.inr ⟨by rw [pc_goto, if_neg hvw]; exact hv, hzero⟩)⟩
      refine ⟨fun _ => hq.parked.timers, fun u cbs hu => ?_, hq.parked.events⟩
      refine hq.parked.expired u cbs ?_
      rw [pc_goto, if_neg]
      · exact hu
      · rintro rfl
        exact absurd (hu.symm.trans hw) (by simp)
    · exact absurd h (by simp)
  -- the count comes back to 0 while the task that changes it runs
  | addTimer w timing cb recurr =>
    simp only [Orderly, Classical.not_imp, not_forall, not_not] at hnot
    obtain ⟨hcnt, v, hv⟩ := hnot
    rw [step] at h
    split at h
    · rename_i t hw
      obtain ⟨⟨p, iom⟩, hadd, rfl⟩ := Option.map_eq_some_iff.mp h
      obtain ⟨m, -, rfl⟩ := IOManager.addTimer_eq_some hadd
      refine ⟨v, left_behind (fun hq => hq.idle ⟨w, by rw [hw]; rfl⟩) ?_ (.inl hv)⟩
      show s.iom.mTimerCnt + 1 = 0
      rw [hcnt]
      decide
    · exact absurd h (by simp)
  | delTimer w timer =>
    simp only [Orderly, Classical.not_imp, not_forall, not_not] at hnot
    obtain ⟨hcnt, v, hv⟩ := hnot
    rw [step] at h
    split at h
    · rename_i t hw
      obtain rfl := Option.some_inj.mp h
      refine ⟨v, left_behind (fun hq => hq.idle ⟨w, by rw [hw]; rfl⟩) ?_ (.inl hv)⟩
      show s.iom.mTimerCnt - 1 = 0
      rw [hcnt]
      decide
    · exact absurd h (by simp)
  | _ => exact absurd trivial hnot

/-- Conversely, with no work and both counts 0 a worker does leave, once `stop()` was
called. -/
theorem leaves_when_quiet (hq : s.Quiet) (hstop : s.mStopping = true) (hzero : s.mActiveCnt = 0)
    (hcnt : s.iom.mTimerCnt = 0) {w : Fin n} (hw : s.pc w = .timerCnt) :
    ∃ s', Reachable step Orderly s s' ∧ s'.pc w = .left := by
  -- no load changes the manager, so there is no work at any of them
  have hnext : ∀ {t : Workers n N φ κ} {p : WorkerPc φ κ}, Reachable step Orderly s t → t.Quiet →
      t.load (t.pc w) = some p → p.busy = false → (∀ cbs, p ≠ .expired cbs) →
      Reachable step Orderly s (t.goto w p) ∧ (t.goto w p).Quiet := by
    intro t p ht hq hload hp hexpired
    refine ⟨ht.step (.load w) ⟨fun _ _ _ _ => hq.parked.inView, ?_⟩ (by rw [step, hload]; rfl),
      hq.goto w hp hexpired⟩
    exact fun _ _ _ v u hv => hq.idle ⟨v, by rw [hv]; rfl⟩
  obtain ⟨h₁, hq₁⟩ := hnext (p := .stopping) .init hq (by rw [hw, load, if_pos hcnt]) rfl (by simp)
  obtain ⟨h₂, hq₂⟩ := hnext (p := .tasks) h₁ hq₁
    (by rw [pc_goto, if_pos rfl, load, if_pos (by exact hstop)]) rfl (by simp)
  obtain ⟨h₃, hq₃⟩ := hnext (p := .activeCnt) h₂ hq₂
    (by rw [pc_goto, if_pos rfl, load, if_pos (List.isEmpty_iff.mpr hq₂.parked.tasks)]) rfl (by simp)
  obtain ⟨h₄, hq₄⟩ := hnext (p := .timerCntAgain) h₃ hq₃
    (by rw [pc_goto, if_pos rfl, load, if_pos (by exact hzero)]) rfl (by simp)
  obtain ⟨h₅, -⟩ := hnext (p := .stopped) h₄ hq₄
    (by rw [pc_goto, if_pos rfl, load, if_pos (by exact hcnt)]) rfl (by simp)
  exact ⟨_, h₅.step (.leave w) trivial (by rw [step, pc_goto, if_pos rfl]),
    by rw [pc_goto, if_pos rfl]⟩

/-- Two workers of an `IOManager` with `mEventfd` 3, and fiber 0 in the queue. -/
def twoWorkers : Workers 2 60 ℕ Unit := start (.create 2 TimerManager.defaultWheel 3) [.ofFiber 0]

set_option maxRecDepth 2000 in
/-- Fiber 0 is run by worker 0, and waits for nothing; then worker 1 leaves. -/
theorem quiet_after_task :
    ∃ s, Reachable step Orderly twoWorkers s ∧ s.pc 1 = .left ∧ s.Quiet := by
  -- the run in two pieces: the step between them is the one whose condition needs an argument
  have hrun : ∃ s, run step [.take 0 fun _ => .hold, .count 0, .stop] twoWorkers = some s ∧
      s.pc 0 = .running (.ofFiber 0) ∧ s.pc 1 = .loop ∧
      ∃ s', run step [.complete 0, .take 1 fun _ => .hold, .yield 1] s = some s' ∧
        s'.pc 0 = .loop ∧ s'.pc 1 = .timerCnt ∧ s'.mStopping = true ∧ s'.mActiveCnt = 0 ∧
        s'.iom.mTimerCnt = 0 ∧ s'.iom.mTasks = [] ∧ s'.iom.registered = [] ∧
        s'.iom.mTimerManager = TimerManager.defaultWheel :=
    ⟨_, rfl, rfl, rfl, _, rfl, rfl, rfl, rfl, rfl, rfl, rfl, rfl, rfl⟩
  obtain ⟨s, hs, h0, h1, s', hs', h0', h1', hstop, hzero, hcnt, htasks, hevents, htimers⟩ := hrun
  obtain ⟨t, ht, hs'⟩ := run_cons_eq_some.mp hs'
  have hreach : Reachable step Orderly twoWorkers t := by
    refine (Reachable.of_run_admitted (by simp [Orderly]) hs).step (.complete 0) ?_ ht
    rintro ⟨v, hv⟩
    fin_cases v
    · exact absurd (hv.symm.trans h0) (by simp)
    · exact absurd (hv.symm.trans h1) (by simp)
  have hreach' := hreach.run_admitted _ hs' (by simp [Orderly])
  have hpc : ∀ v, (s'.pc v).busy = false ∧ ∀ cbs, s'.pc v ≠ .expired cbs := by
    intro v
    fin_cases v
    · exact h0' ▸ ⟨rfl, by simp⟩
    · exact h1' ▸ ⟨rfl, by simp⟩
  have hquiet : s'.Quiet := by
    refine ⟨fun ⟨v, hv⟩ => absurd ((hpc v).1.symm.trans hv) (by decide), htasks, ?_, ?_, hevents⟩
    · rw [htimers]
      exact TimerManager.pending_create _ _ _ _ _
    · exact fun v cbs hv => absurd hv ((hpc v).2 cbs)
  obtain ⟨s'', hleave, hleft⟩ := leaves_when_quiet hquiet hstop hzero hcnt h1'
  have hall := hreach'.trans hleave
  exact ⟨s'', hall, hleft, quiet_when_left hall 1 hleft⟩

set_option maxRecDepth 2000 in
/-- Worker 0 leaves while fiber 0, which it has run, waits to read descriptor 5; and worker 1
leaves with a task in the queue that fiber 0 added after worker 1 found it empty. -/
theorem work_left_behind :
    (∃ s, run step [.take 0 fun _ => .hold, .count 0,
        .event 0 (.addEvent 5 .read none ET 0 false), .complete 0, .stop, .take 0 fun _ => .hold,
        .yield 0, .load 0, .load 0, .load 0, .load 0, .load 0, .leave 0] twoWorkers = some s ∧
      s.pc 0 = .left ∧ s.iom.registered = [.ofFiber 0] ∧ ¬ s.Quiet) ∧
    ∃ s, run step [.take 0 fun _ => .hold, .count 0, .stop, .take 1 fun _ => .hold, .yield 1,
        .load 1, .load 1, .load 1, .addTask 0 (.ofFiber 7), .complete 0, .load 1, .load 1,
        .leave 1] twoWorkers = some s ∧
      s.pc 1 = .left ∧ s.iom.mTasks = [.ofFiber 7] ∧ ¬ s.Quiet := by
  constructor
  · refine ⟨_, rfl, rfl, rfl, fun hq => ?_⟩
    exact absurd hq.parked.events (by decide)
  · refine ⟨_, rfl, rfl, rfl, fun hq => ?_⟩
    exact absurd hq.parked.tasks (by decide)

end Workers

end Server
