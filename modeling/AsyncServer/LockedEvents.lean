/-
The event operations, cut where other threads can get in between.

`triggerEvent` runs under the lock of its `Event`, but what it queues is in the
queue before the slot is reset, and `delEvent` makes its first test without the
lock.  Here these operations come in the steps that such a test can tell apart:

* `triggerClear`, `triggerQueue`, `triggerReset` — the three parts of
  `triggerEvent` (`trigger_eq`);
* `dispatchCtl`, `cancelEventCtl` — `dispatch` and `cancelEvent` up to their
  triggers (`dispatch_eq`, `cancelEvent_eq`);
* `delEventTest`, `delEventCtl`, `delEventClear` — the three parts of `delEvent`
  (`delEvent_eq`).
-/
import AsyncServer.EventPool

namespace Server

open Epoll

namespace IOManager

variable {N : ℕ} {φ κ : Type*} {s s' : IOManager N φ κ} {fd : ℤ} {d : Dir} {fault : Bool}

/-! ### The parts -/

/-- `event = event & ~ev`. -/
def triggerClear (s : IOManager N φ κ) (fd : ℤ) (d : Dir) : Option (IOManager N φ κ) :=
  (s.eventPtr fd).map fun task => s.assign fd { task with event := task.event &&& ~~~d.mask }

/-- `addTask` of the waiter. -/
def triggerQueue (s : IOManager N φ κ) (fd : ℤ) (d : Dir) : Option (IOManager N φ κ) :=
  (s.eventPtr fd).map fun task =>
    match (task.getEvent d).task with
    | some t => s.addTask t
    | none => s

/-- `reset(ev)`. -/
def triggerReset (s : IOManager N φ κ) (fd : ℤ) (d : Dir) : Option (IOManager N φ κ) :=
  (s.eventPtr fd).map fun task => s.assign fd (task.reset d)

/-- The three parts of `triggerEvent`, one after the other. -/
def trigger (s : IOManager N φ κ) (fd : ℤ) (d : Dir) : Option (IOManager N φ κ) :=
  ((s.triggerClear fd d).bind fun s => s.triggerQueue fd d).bind fun s => s.triggerReset fd d

/-- The directions that `idle` triggers, in its order. -/
def realDirs (real : Mask) : List Dir :=
  (if real &&& IN ≠ 0 then [.read] else []) ++ (if real &&& OUT ≠ 0 then [.write] else [])

/-- The dispatch of a notification up to the triggers, and what is to be triggered. -/
def dispatchCtl (s : IOManager N φ κ) (fd : ℤ) (events : Mask) (fault : Bool) :
    Option (List Dir × IOManager N φ κ) :=
  if fd = s.mEventfd then some ([], s)
  else (s.eventPtr fd).map fun task =>
    let real := realEvent events
    if task.event &&& real = 0 then ([], s)
    else
      let leftEvent := task.event &&& ~~~real
      match ctl s.epoll (leaveOp leftEvent) task.fd (ET ||| leftEvent) fault with
      | none => ([], s)
      | some epoll => (realDirs real, { s with epoll := epoll })

/-- `cancelEvent` up to the trigger, and what is to be triggered. -/
def cancelEventCtl (s : IOManager N φ κ) (fd : ℤ) (d : Dir) (fault : Bool) :
    Option (List Dir × IOManager N φ κ) :=
  if (s.mEventCnt : ℤ) ≤ fd then some ([], s)
  else (s.eventPtr fd).map fun task =>
    if task.event &&& d.mask ≠ 0 then
      ([d], { s with
        epoll := (ctl s.epoll (leaveOp (task.event &&& ~~~d.mask)) fd (task.event ||| ET)
          fault).getD s.epoll })
    else ([], s)

/-- `delEvent` up to its second test, made without the lock: whether it goes on. -/
def delEventTest (s : IOManager N φ κ) (fd : ℤ) : Option Bool :=
  if (s.mEventCnt : ℤ) ≤ fd then some false
  else (s.eventPtr fd).map fun task => task.event ≠ 0

/-- `epoll_ctl` of `delEvent`. -/
def delEventCtl (s : IOManager N φ κ) (fd : ℤ) (fault : Bool) : IOManager N φ κ :=
  { s with epoll := (ctl s.epoll .del fd 0 fault).getD s.epoll }

/-- `delEvent` under the lock. -/
def delEventClear (s : IOManager N φ κ) (fd : ℤ) : Option (IOManager N φ κ) :=
  (s.eventPtr fd).map fun task =>
    s.assign fd ((({ task with event := 0 } : Event φ κ).reset .read).reset .write)

/-! ### The whole of the parts -/

/-- Assignment, and then a look at the event that was assigned. -/
theorem eventPtr_assign_self {task : Event φ κ} (h : s.eventPtr fd = some task)
    (task' : Event φ κ) : (s.assign fd task').eventPtr fd = some task' := by
  rw [eventPtr_assign (Option.isSome_of_eq_some h), if_pos rfl]

/-- The task of a waiter is accepted by the queue. -/
theorem task_added {ctx : EventCtx φ κ} {t : Task φ κ} (h : ctx.task = some t) {threadCnt : ℕ}
    (mTasks : List (Task φ κ)) : addTaskNoLock threadCnt mTasks t = mTasks ++ [t] := by
  unfold EventCtx.task at h
  split at h
  · rw [← Option.some_inj.mp h, addTaskNoLock_ofFiber]
  · rw [← Option.some_inj.mp h, addTaskNoLock_ofFunc]
  · exact absurd h (by simp)

/-- **The three parts make up `triggerEvent`.** -/
theorem trigger_eq {task : Event φ κ} (h : s.eventPtr fd = some task) :
    s.trigger fd d =
      some { s.assign fd (Event.triggerEvent s.threadCnt d (task, s.mTasks)).1 with
        mTasks := (Event.triggerEvent s.threadCnt d (task, s.mTasks)).2 } := by
  have hclear := eventPtr_assign_self h { task with event := task.event &&& ~~~d.mask }
  simp only [trigger, triggerClear, h, Option.map_some, Option.bind_some, triggerQueue, hclear,
    Event.getEvent_with_event]
  have hqueue : ∀ mTasks : List (Task φ κ),
      ({ s.assign fd { task with event := task.event &&& ~~~d.mask } with mTasks := mTasks } :
        IOManager N φ κ).triggerReset fd d =
      some { s.assign fd (({ task with event := task.event &&& ~~~d.mask } : Event φ κ).reset d)
        with mTasks := mTasks } := by
    intro mTasks
    have hptr : ({ s.assign fd { task with event := task.event &&& ~~~d.mask } with
        mTasks := mTasks } : IOManager N φ κ).eventPtr fd =
        some { task with event := task.event &&& ~~~d.mask } := hclear
    rw [triggerReset, hptr, Option.map_some]
    simp [assign]
  rw [Event.tasks_triggerEvent]
  cases ht : (task.getEvent d).task with
  | none =>
    refine (hqueue s.mTasks).trans ?_
    rw [Option.toList_none, List.append_nil]
    rfl
  | some t =>
    have hadd : addTaskNoLock s.threadCnt s.mTasks t = s.mTasks ++ [t] := task_added ht _
    refine (hqueue _).trans ?_
    rw [Option.toList_some, ← hadd]
    rfl

/-- Assignment of the event that is there. -/
theorem assign_self {task : Event φ κ} (h : s.eventPtr fd = some task) : s.assign fd task = s := by
  have hget : s.mEvents[fd.toNat]? = some task := by
    rw [eventPtr] at h
    split_ifs at h
    exact h
  obtain ⟨hlt, heq⟩ := List.getElem?_eq_some_iff.mp hget
  rw [assign, ← heq, List.set_getElem_self]

/-- The triggers of a notification, one after the other. -/
theorem triggers_eq {task : Event φ κ} (h : s.eventPtr fd = some task) (real : Mask) :
    (realDirs real).foldlM (fun s d => s.trigger fd d) s =
      some { s.assign fd (triggerAll s.threadCnt real (task, s.mTasks)).1 with
        mTasks := (triggerAll s.threadCnt real (task, s.mTasks)).2 } := by
  -- the event that a trigger has left is the one that the next trigger meets
  have hnext : ∀ r : Event φ κ × List (Task φ κ),
      ({ s.assign fd r.1 with mTasks := r.2 } : IOManager N φ κ).eventPtr fd = some r.1 :=
    fun r => eventPtr_assign_self h r.1
  by_cases hin : real &&& IN ≠ 0 <;> by_cases hout : real &&& OUT ≠ 0
  · rw [realDirs, triggerAll, if_pos hin, if_pos hin, if_pos hout, if_pos hout,
      List.singleton_append, List.foldlM_cons, trigger_eq h, Option.bind_eq_bind,
      Option.bind_some, List.foldlM_cons, trigger_eq (hnext _)]
    simp [assign]
  · rw [realDirs, triggerAll, if_pos hin, if_pos hin, if_neg hout, if_neg hout,
      List.append_nil, List.foldlM_cons, trigger_eq h]
    rfl
  · rw [realDirs, triggerAll, if_neg hin, if_neg hin, if_pos hout, if_pos hout,
      List.nil_append, List.foldlM_cons, trigger_eq h]
    rfl
  · rw [realDirs, triggerAll, if_neg hin, if_neg hin, if_neg hout, if_neg hout]
    show some s = some { s.assign fd task with mTasks := s.mTasks }
    rw [assign_self h]

/-- **A dispatch is its first part and the triggers.** -/
theorem dispatch_eq (events : Mask) :
    s.dispatch fd events fault =
      (s.dispatchCtl fd events fault).bind fun r =>
        r.1.foldlM (fun s d => s.trigger fd d) r.2 := by
  unfold dispatch dispatchCtl
  split_ifs with hfd
  · rfl
  · cases htask : s.eventPtr fd with
    | none => rfl
    | some task =>
      simp only [Option.map_some, Option.bind_some]
      split_ifs with hbit
      · rfl
      · cases ctl s.epoll (leaveOp (task.event &&& ~~~realEvent events)) task.fd
            (ET ||| task.event &&& ~~~realEvent events) fault with
        | none => rfl
        | some epoll =>
          have hptr : ({ s with epoll := epoll } : IOManager N φ κ).eventPtr fd = some task := htask
          exact (triggers_eq hptr (realEvent events)).symm

/-- **A cancellation is its first part and the trigger.** -/
theorem cancelEvent_eq :
    s.cancelEvent fd d fault =
      (s.cancelEventCtl fd d fault).bind fun r =>
        r.1.foldlM (fun s d => s.trigger fd d) r.2 := by
  unfold cancelEvent cancelEventCtl
  split_ifs with hcnt
  · rfl
  · cases htask : s.eventPtr fd with
    | none => rfl
    | some task =>
      simp only [Option.map_some, Option.bind_some]
      split_ifs with hbit
      · have hptr : ∀ epoll,
            ({ s with epoll := epoll } : IOManager N φ κ).eventPtr fd = some task := fun _ => htask
        dsimp only
        rw [List.foldlM_cons, trigger_eq (hptr _)]
        rfl
      · rfl

/-- **The three parts make up `delEvent`.** -/
theorem delEvent_eq :
    s.delEvent fd fault =
      (s.delEventTest fd).bind fun go =>
        if go then (s.delEventCtl fd fault).delEventClear fd else some s := by
  unfold delEvent delEventTest
  split_ifs with hcnt
  · rfl
  · cases htask : s.eventPtr fd with
    | none => rfl
    | some task =>
      simp only [Option.map_some, Option.bind_some]
      have hptr : (s.delEventCtl fd fault).eventPtr fd = some task := htask
      by_cases hbit : task.event = 0
      · rw [if_pos hbit, if_neg (by simp [hbit])]
      · rw [if_neg hbit, if_pos (decide_eq_true hbit), delEventClear, hptr]
        rfl

/-! ### What the parts do -/

/-- No event and no task changes. -/
structure SameEvents (s s' : IOManager N φ κ) : Prop where
  wf : s'.PoolWf
  eventAt : s'.eventAt = s.eventAt
  mTasks : s'.mTasks = s.mTasks

theorem sameEvents_refl (hs : s.PoolWf) : SameEvents s s := ⟨hs, rfl, rfl⟩

theorem sameEvents_epoll (hs : s.PoolWf) (epoll : InterestSet) :
    SameEvents s { s with epoll := epoll } :=
  ⟨hs.congr rfl rfl, funext fun g => eventAt_congr rfl g, rfl⟩

theorem dispatchCtl_same (hs : s.PoolWf) {events : Mask} {dirs : List Dir}
    (h : s.dispatchCtl fd events fault = some (dirs, s')) : SameEvents s s' := by
  unfold dispatchCtl at h
  split_ifs at h
  · rw [Option.some_inj] at h
    exact (Prod.mk.inj h).2 ▸ sameEvents_refl hs
  · obtain ⟨task, -, h⟩ := Option.map_eq_some_iff.mp h
    dsimp only at h
    split_ifs at h
    · exact (Prod.mk.inj h).2 ▸ sameEvents_refl hs
    · split at h
      · exact (Prod.mk.inj h).2 ▸ sameEvents_refl hs
      · exact (Prod.mk.inj h).2 ▸ sameEvents_epoll hs _

theorem cancelEventCtl_same (hs : s.PoolWf) {dirs : List Dir}
    (h : s.cancelEventCtl fd d fault = some (dirs, s')) : SameEvents s s' := by
  unfold cancelEventCtl at h
  split_ifs at h
  · rw [Option.some_inj] at h
    exact (Prod.mk.inj h).2 ▸ sameEvents_refl hs
  · obtain ⟨task, -, h⟩ := Option.map_eq_some_iff.mp h
    split_ifs at h
    · exact (Prod.mk.inj h).2 ▸ sameEvents_epoll hs _
    · exact (Prod.mk.inj h).2 ▸ sameEvents_refl hs

/-- A step that assigns an event of its own number. -/
theorem assigned (hs : s.PoolWf) {f : Event φ κ → Event φ κ} (hf : ∀ task, (f task).fd = task.fd)
    (h : ((s.eventPtr fd).map fun task => s.assign fd (f task)) = some s') :
    s'.PoolWf ∧ (∀ g, s'.eventAt g = if g = fd then f (s.eventAt fd) else s.eventAt g) ∧
      s'.mTasks = s.mTasks := by
  obtain ⟨task, htask, rfl⟩ := Option.map_eq_some_iff.mp h
  have hsome : (s.eventPtr fd).isSome := Option.isSome_of_eq_some htask
  have hframe := frame_assign hs hsome ((hf task).trans (hs.fd htask))
  refine ⟨hframe.wf, fun g => ?_, rfl⟩
  split_ifs with hg
  · rw [hg, eventAt_assign hsome, eventAt_of_eventPtr htask]
  · exact hframe.eventAt hg

theorem triggerClear_spec (hs : s.PoolWf) (h : s.triggerClear fd d = some s') :
    s'.PoolWf ∧ (∀ g, s'.eventAt g =
        if g = fd then { s.eventAt fd with event := (s.eventAt fd).event &&& ~~~d.mask }
        else s.eventAt g) ∧ s'.mTasks = s.mTasks :=
  assigned hs (f := fun task => { task with event := task.event &&& ~~~d.mask }) (fun _ => rfl) h

theorem triggerReset_spec (hs : s.PoolWf) (h : s.triggerReset fd d = some s') :
    s'.PoolWf ∧ (∀ g, s'.eventAt g = if g = fd then (s.eventAt fd).reset d else s.eventAt g) ∧
      s'.mTasks = s.mTasks :=
  assigned hs (f := fun task => task.reset d) (fun _ => Event.fd_setEvent _ _ _) h

theorem delEventClear_spec (hs : s.PoolWf) (h : s.delEventClear fd = some s') :
    s'.PoolWf ∧ (∀ g, s'.eventAt g = if g = fd then .new fd else s.eventAt g) ∧
      s'.mTasks = s.mTasks := by
  obtain ⟨hwf, hat, htasks⟩ := assigned hs
    (f := fun task => (({ task with event := 0 } : Event φ κ).reset .read).reset .write)
    (fun _ => rfl) h
  refine ⟨hwf, fun g => ?_, htasks⟩
  rw [hat g]
  split_ifs
  · show (⟨0, ⟨none, none⟩, ⟨none, none⟩, (s.eventAt fd).fd⟩ : Event φ κ) = _
    rw [fd_eventAt hs fd]
    rfl
  · rfl

/-- The waiter is queued, if there is one. -/
theorem triggerQueue_spec (hs : s.PoolWf) (h : s.triggerQueue fd d = some s') :
    s'.PoolWf ∧ s'.eventAt = s.eventAt ∧
      s'.mTasks = s.mTasks ++ ((s.eventAt fd).getEvent d).task.toList := by
  obtain ⟨task, htask, rfl⟩ := Option.map_eq_some_iff.mp h
  rw [eventAt_of_eventPtr htask]
  cases ht : (task.getEvent d).task with
  | none => exact ⟨hs, rfl, (List.append_nil _).symm⟩
  | some t =>
    have hadd : addTaskNoLock s.threadCnt s.mTasks t = s.mTasks ++ [t] := task_added ht _
    exact ⟨hs.congr rfl rfl, funext fun g => eventAt_congr rfl g, hadd⟩

end IOManager

end Server
