/-
A fiber that yields in a hooked call is waited for.

`io_func` yields whatever `addEvent` did, and `addEvent` returns without a word
when the direction is taken or the `epoll_ctl` fails.

* `attended` — in every run in which `addEvent` finds the direction free and its
  `epoll_ctl` succeeds, nobody takes the direction before the update, and nobody
  closes the descriptor before the yield, a fiber that reaches `yieldToHold` is
  registered or already queued;
* `second_reader_lost` — of two fibers that read one descriptor, the second
  yields for good.
-/
import AsyncServer.HookRuns

namespace Server

open Epoll Transition

namespace Runtime

variable {N : ℕ} {s s' : Runtime N}

/-- An event has `f` as the waiter of a direction. -/
def Waiting (task : Event ℕ Callback) (d : Dir) (f : ℕ) : Prop :=
  task.event &&& d.mask ≠ 0 ∧ (task.getEvent d).fiber = some f

/-- A queue has a task for fiber `f`. -/
def Queued (mTasks : List (Task ℕ Callback)) (f : ℕ) : Prop := ∃ t ∈ mTasks, t.fiber = some f

/-- Fiber `f` is the registered waiter for a direction, or in the queue. -/
def Attends (iom : IOManager N ℕ Callback) (fd : ℤ) (d : Dir) (f : ℕ) : Prop :=
  Waiting (iom.eventAt fd) d f ∨ Queued iom.mTasks f

/-- Every fiber at `yieldToHold` in `io_func` is waited for. -/
def Attended (s : Runtime N) : Prop :=
  ∀ f w, s.pc f = .io .yielding w →
    Attends s.iom (s.waits w).call.fd (s.waits w).call.dir f

/-- The direction that fiber `f` waits for is free. -/
def DirFree (s : Runtime N) (w : ℕ) : Prop :=
  (s.iom.eventAt (s.waits w).call.fd).event &&& (s.waits w).call.dir.mask = 0

/-- The `epoll_ctl` of `addEvent` in the wait `w` succeeds. -/
def CtlSucceeds (s : Runtime N) (w : ℕ) (fault : Bool) : Prop :=
  let task := s.iom.eventAt (s.waits w).call.fd
  (ctl s.iom.epoll task.addOp (s.waits w).call.fd (ET ||| (s.waits w).call.dir.mask ||| task.event)
    fault).isSome

/-- The condition on a step: `addEvent` finds the direction free and its
`epoll_ctl` succeeds, the direction is still free at the update, and `close`
meets no fiber that is registered on the descriptor and has not yielded yet. -/
def Undisturbed (s : Runtime N) : Act → Prop
  | .addCtl f fault => ∀ w, s.pc f = .io .adding w → s.DirFree w ∧ s.CtlSucceeds w fault
  | .update f => ∀ w, s.pc f = .io .updating w → s.DirFree w
  | .close fd _ => ∀ f w, s.pc f = .io .yielding w → (s.waits w).call.fd = fd →
      ¬ Waiting (s.iom.eventAt fd) (s.waits w).call.dir f
  | _ => True

theorem Queued.append {mTasks : List (Task ℕ Callback)} {f : ℕ} (h : Queued mTasks f)
    (l : List (Task ℕ Callback)) : Queued (mTasks ++ l) f := by
  obtain ⟨t, ht, hf⟩ := h
  exact ⟨t, List.mem_append_left l ht, hf⟩

theorem queued_triggerEvent (threadCnt : ℕ) (d : Dir) {f : ℕ}
    {r : Event ℕ Callback × List (Task ℕ Callback)} (h : Queued r.2 f) :
    Queued (Event.triggerEvent threadCnt d r).2 f := by
  rw [Event.tasks_triggerEvent]
  exact h.append _

/-- A trigger queues the waiter it takes off, and leaves the other one. -/
theorem waiting_triggerEvent (threadCnt : ℕ) (d e : Dir) {f : ℕ}
    {r : Event ℕ Callback × List (Task ℕ Callback)} (h : Waiting r.1 e f ∨ Queued r.2 f) :
    Waiting (Event.triggerEvent threadCnt d r).1 e f ∨
      Queued (Event.triggerEvent threadCnt d r).2 f := by
  obtain ⟨hbit, hfiber⟩ | hq := h
  · by_cases hed : e = d
    · subst hed
      refine .inr ⟨.ofFiber f, ?_, rfl⟩
      simp [Event.tasks_triggerEvent, EventCtx.task, hfiber]
    -- neither the bit nor the slot of the other direction changes
    · refine .inl ⟨?_, ?_⟩
      · rw [Event.event_triggerEvent, and_not_mask_of_ne _ hed]
        exact hbit
      · rw [Event.getEvent_triggerEvent_of_ne _ _ _ hed]
        exact hfiber
  · exact .inr (queued_triggerEvent threadCnt d hq)

theorem queued_triggerAll (threadCnt : ℕ) (real : Mask) {f : ℕ}
    {r : Event ℕ Callback × List (Task ℕ Callback)} (h : Queued r.2 f) :
    Queued (IOManager.triggerAll threadCnt real r).2 f := by
  unfold IOManager.triggerAll
  split_ifs <;> simp only [queued_triggerEvent, h]

theorem waiting_triggerAll (threadCnt : ℕ) (real : Mask) (e : Dir) {f : ℕ}
    {r : Event ℕ Callback × List (Task ℕ Callback)} (h : Waiting r.1 e f ∨ Queued r.2 f) :
    Waiting (IOManager.triggerAll threadCnt real r).1 e f ∨
      Queued (IOManager.triggerAll threadCnt real r).2 f := by
  unfold IOManager.triggerAll
  split_ifs <;> simp only [waiting_triggerEvent, h]

section Attends

variable {iom iom' : IOManager N ℕ Callback} {fd g : ℤ} {d : Dir} {f : ℕ}

/-- Where the event and the queue go through triggers, nobody is lost. -/
theorem attends_trigger
    {trigger : Event ℕ Callback × List (Task ℕ Callback) →
      Event ℕ Callback × List (Task ℕ Callback)}
    (hwait : ∀ r, Waiting r.1 d f ∨ Queued r.2 f →
      Waiting (trigger r).1 d f ∨ Queued (trigger r).2 f)
    (hqueue : ∀ r, Queued r.2 f → Queued (trigger r).2 f)
    (hframe : IOManager.Frame fd iom iom')
    (h : (iom'.eventAt fd, iom'.mTasks) = trigger (iom.eventAt fd, iom.mTasks))
    (hatt : Attends iom g d f) : Attends iom' g d f := by
  obtain ⟨hev, htasks⟩ := Prod.mk.inj (h.trans (Prod.mk.eta (p := trigger _)).symm)
  unfold Attends
  by_cases hg : g = fd
  · subst hg
    rw [hev, htasks]
    exact hwait _ hatt
  · rw [hframe.eventAt hg, htasks]
    exact hatt.imp_right (hqueue (iom.eventAt fd, iom.mTasks))

theorem attends_dispatch (hs : iom.PoolWf) {events : Mask} {fault : Bool}
    (h : iom.dispatch fd events fault = some iom') (hatt : Attends iom g d f) :
    Attends iom' g d f := by
  obtain ⟨hframe, rfl | ⟨-, -, htrigger, -⟩⟩ := IOManager.dispatch_cases hs h
  · exact hatt
  · exact attends_trigger (fun _ => waiting_triggerAll _ _ d) (fun _ => queued_triggerAll _ _)
      hframe htrigger hatt

theorem attends_cancelEvent (hs : iom.PoolWf) {e : Dir} {fault : Bool}
    (h : iom.cancelEvent fd e fault = some iom') (hatt : Attends iom g d f) :
    Attends iom' g d f := by
  obtain ⟨hframe, ⟨-, rfl⟩ | ⟨-, htrigger, -⟩⟩ := IOManager.cancelEvent_cases hs h
  · exact hatt
  · exact attends_trigger (fun _ => waiting_triggerEvent _ _ d)
      (fun _ => queued_triggerEvent _ _) hframe htrigger hatt

theorem waiting_register (task : Event ℕ Callback) (d : Dir) (f : ℕ) :
    Waiting (task.register d none f) d f := by
  refine ⟨?_, by rw [Event.getEvent_register]⟩
  rw [Event.event_register]
  exact or_mask_and_self task.event d

/-- A direction that is registered while it is free puts nobody off. -/
theorem attends_update (hs : iom.PoolWf) {e : Dir} {cur : ℕ}
    (h : iom.addEventUpdate fd e none cur = some iom')
    (hfree : (iom.eventAt fd).event &&& e.mask = 0) (hatt : Attends iom g d f) :
    Attends iom' g d f := by
  obtain ⟨hframe, hev, htasks, -⟩ := IOManager.addEventUpdate_eq hs h
  unfold Attends
  rw [htasks]
  refine hatt.imp_left fun ⟨hbit, hfiber⟩ => ?_
  by_cases hg : g = fd
  · subst hg
    rw [hev]
    -- the direction of `f` is taken, so it is not the one that was free
    have hde : d ≠ e := by
      rintro rfl
      exact hbit hfree
    refine ⟨?_, ?_⟩
    · rw [Event.event_register, or_mask_and_of_ne _ hde]
      exact hbit
    · rw [Event.getEvent_register_of_ne _ hde]
      exact hfiber
  · rw [hframe.eventAt hg]
    exact ⟨hbit, hfiber⟩

theorem attends_append (iom : IOManager N ℕ Callback) (l : List (Task ℕ Callback))
    {iom' : IOManager N ℕ Callback} (hev : iom'.mEvents = iom.mEvents)
    (htasks : iom'.mTasks = iom.mTasks ++ l) (hatt : Attends iom g d f) : Attends iom' g d f := by
  unfold Attends
  rw [IOManager.eventAt_congr hev, htasks]
  exact hatt.imp_right fun h => h.append l

end Attends

/-- What brings no fiber to `yieldToHold` and takes nobody off. -/
theorem Attended.keep (hs : s.Attended)
    (hpc : ∀ f w, s'.pc f = .io .yielding w → s.pc f = .io .yielding w)
    (hcall : ∀ f w, s.pc f = .io .yielding w → (s'.waits w).call = (s.waits w).call)
    (hatt : ∀ f w, s.pc f = .io .yielding w → Attends s.iom (s.waits w).call.fd
      (s.waits w).call.dir f → Attends s'.iom (s.waits w).call.fd (s.waits w).call.dir f) :
    s'.Attended := by
  intro f w h
  have h := hpc f w h
  rw [hcall f w h]
  exact hatt f w h (hs f w h)

theorem not_yielding_goto {f : ℕ} {p : FiberPc} (hp : ∀ w, p ≠ .io .yielding w) (g w : ℕ)
    (h : (s.goto f p).pc g = .io .yielding w) : s.pc g = .io .yielding w := by
  rw [pc_goto] at h
  split_ifs at h with hg
  · exact absurd h (hp w)
  · exact h

/-- A fiber goes on, but not to `yieldToHold`. -/
theorem Attended.goto (hs : s.Attended) {f : ℕ} {p : FiberPc} (hp : ∀ w, p ≠ .io .yielding w) :
    (s.goto f p).Attended :=
  hs.keep (not_yielding_goto hp) (fun _ _ _ => rfl) fun _ _ _ h => h

/-- A dequeue leaves the tasks of the fibers that have not yielded. -/
theorem queued_scan {worker f w : ℕ} {o : Option (Task ℕ Callback)}
    {rest : List (Task ℕ Callback)}
    (hscan : scan s.iom.threadCnt worker s.state s.iom.mTasks = some (o, rest))
    (hpc : s.pc f = .io .yielding w) (h : Queued s.iom.mTasks f) : Queued rest f := by
  obtain ⟨t, ht, hf⟩ := h
  rcases mem_scan hscan ht with hrest | htaken
  · exact ⟨t, hrest, hf⟩
  -- the scan passes over a fiber that is still `EXEC`
  · refine absurd ?_ (((scan_spec hscan).2 t htaken).2 f hf)
    rw [state, hpc]

/-- The step lemma. -/
theorem attended_step {a : Act} (hwf : s.Wf) (hs : s.Attended) (hok : s.Undisturbed a)
    (h : s.step a = some s') : s'.Attended := by
  cases stepped h with
  | call hpc => exact hs.goto (by simp)
  | rawDone hpc => exact hs.goto (by simp)
  | rawAgain hpc =>
    refine hs.keep (not_yielding_goto (by simp)) (fun f w hf => ?_) fun _ _ _ h => h
    rw [waits_goto, waits_setWait, if_neg (hwf.owner hf).1.ne]
  | arm hpc hadd =>
    obtain ⟨m, hm, rfl⟩ := IOManager.addTimer_eq_some hadd
    refine hs.keep (not_yielding_goto (by simp)) (fun f w hf => ?_)
      fun _ _ _ h => attends_append s.iom [] rfl (by simp) h
    rw [waits_goto, waits_setWait]
    split_ifs with hw
    · rw [hw]
    · rfl
  | noTimer hpc => exact hs.goto (by simp)
  | @addCtl f v fault go iom hpc hctl =>
    obtain ⟨hframe, hev, htasks, -, ⟨-, -, hfail⟩ | ⟨rfl, -, -⟩⟩ :=
      IOManager.addEventCtl_cases hwf.pool hctl
    · -- with the direction free, the `epoll_ctl` would have failed
      obtain ⟨hfree, hsucc⟩ := hok v hpc
      rw [CtlSucceeds, hfail hfree] at hsucc
      exact absurd hsucc (by simp)
    · refine hs.keep (not_yielding_goto (by simp)) (fun _ _ _ => rfl) fun g w _ h => ?_
      refine h.imp (fun h => ?_) (fun h => htasks ▸ h)
      by_cases hg : (s.waits w).call.fd = (s.waits v).call.fd
      · rw [hg] at h ⊢
        exact hev ▸ h
      · exact hframe.eventAt hg ▸ h
  -- the one step that brings a fiber to `yieldToHold` registers it
  | @update f w iom hpc hupd =>
    intro g v hg
    rw [pc_goto] at hg
    split_ifs at hg with hgf
    · obtain ⟨-, rfl⟩ := FiberPc.io.inj hg
      obtain ⟨-, hev, -, -⟩ := IOManager.addEventUpdate_eq hwf.pool hupd
      exact .inl (by rw [hgf]; exact hev ▸ waiting_register _ _ _)
    · exact attends_update hwf.pool hupd (hok w hpc) (hs g v hg)
  | yield hpc => exact hs.goto (by simp)
  | yieldSleep hpc => exact hs.goto (by simp)
  | delTimer hpc htimer =>
    exact hs.keep (not_yielding_goto (by simp)) (fun _ _ _ => rfl)
      fun _ _ _ h => attends_append s.iom [] rfl (by simp [IOManager.delTimer]) h
  | delNoTimer hpc htimer => exact hs.goto (by simp)
  | check hpc =>
    refine hs.goto fun w h => ?_
    split_ifs at h
  | sleep hpc hadd =>
    obtain ⟨m, hm, rfl⟩ := IOManager.addTimer_eq_some hadd
    exact hs.keep (not_yielding_goto (by simp)) (fun _ _ _ => rfl)
      fun _ _ _ h => attends_append s.iom [] rfl (by simp) h
  | addTimer hadd =>
    obtain ⟨m, hm, rfl⟩ := IOManager.addTimer_eq_some hadd
    exact hs.keep (fun _ _ h => h) (fun _ _ _ => rfl)
      fun _ _ _ h => attends_append s.iom [] rfl (by simp) h
  | delUserTimer hlt =>
    exact hs.keep (fun _ _ h => h) (fun _ _ _ => rfl)
      fun _ _ _ h => attends_append s.iom [] rfl (by simp [IOManager.delTimer]) h
  -- `delEvent` forgets the waiters of one descriptor, where there are none that matter
  | @close fd fault iom hdel =>
    obtain ⟨hframe, htasks, -⟩ := IOManager.delEvent_cases hwf.pool hdel
    refine hs.keep (fun _ _ h => h) (fun _ _ _ => rfl) fun f w hpc h => ?_
    obtain h | h := h
    · by_cases hfd : (s.waits w).call.fd = fd
      · exact absurd (hfd ▸ h) (hok f w hpc hfd)
      · exact .inl (hframe.eventAt hfd ▸ h)
    · exact .inr (htasks ▸ h)
  | dispatch hdisp =>
    exact hs.keep (fun _ _ h => h) (fun _ _ _ => rfl)
      fun _ _ _ h => attends_dispatch hwf.pool hdisp h
  | tick htick =>
    obtain ⟨r, hr, -, rfl⟩ := IOManager.idleTick_eq_some htick
    refine hs.keep (fun _ _ h => h) (fun f w _ => ?_) fun _ _ _ h => attends_append s.iom _ rfl rfl h
    simp only [expire]
    split_ifs <;> rfl
  | takeFiber hscan hf hres =>
    obtain ⟨w, -, rfl⟩ | ⟨-, rfl⟩ := resume_cases hres
    · exact hs.keep (not_yielding_goto (by simp)) (fun _ _ _ => rfl)
        fun f w hpc h => h.imp_right (queued_scan hscan hpc)
    · exact hs.keep (not_yielding_goto (by simp)) (fun _ _ _ => rfl)
        fun f w hpc h => h.imp_right (queued_scan hscan hpc)
  | takeTimeout hscan hf hk =>
    exact hs.keep (fun _ _ h => h) (fun _ _ _ => rfl)
      fun f w hpc h => h.imp_right (queued_scan hscan hpc)
  | takeWake hscan hf hk =>
    refine hs.keep (fun _ _ h => h) (fun _ _ _ => rfl)
      fun f w hpc h => h.imp_right fun h => ?_
    rw [setTasks, addTaskNoLock_ofFiber]
    exact (queued_scan hscan hpc h).append _
  | takeUser hscan hf hk =>
    exact hs.keep (fun _ _ h => h) (fun _ _ _ => rfl)
      fun f w hpc h => h.imp_right (queued_scan hscan hpc)
  | setCancel hrun =>
    refine hs.keep (fun _ _ h => h) (fun f w hf => ?_) fun _ _ _ h => h
    rw [waits_setWait]
    split_ifs with hw
    · rw [hw]
    · rfl
  | cancelEvent hrun hcancel =>
    exact hs.keep (fun _ _ h => h) (fun _ _ _ => rfl)
      fun _ _ _ h => attends_cancelEvent hwf.pool hcancel h

/-- **A fiber that reaches `yieldToHold` is waited for**, in every state of
every run whose steps are not disturbed. -/
theorem attended {c : Config N} (h : Reachable step Undisturbed c.boot s) : s.Attended := by
  refine (h.invariant (I := fun s => s.Wf ∧ s.Attended) ⟨wf_boot c, ?_⟩ ?_).2
  · intro f w hpc
    exact absurd hpc (by simp [Config.boot, start])
  · intro s a s' hs hok hstep
    exact ⟨wf_step hs.1 hstep, attended_step hs.1 hs.2 hok hstep⟩

set_option maxRecDepth 1000 in
/-- A fiber reads descriptor 5 and yields. -/
theorem attended_reader :
    ∃ s, Reachable step Undisturbed defaultConfig.boot s ∧ s.pc 0 = .io .yielding 0 ∧
      s.Attended := by
  have hrun : ∃ s, Reachable step Undisturbed defaultConfig.boot s ∧
      s.pc 0 = .io .yielding 0 :=
    ⟨_, (((((Reachable.init.step (.call 0 ⟨5, .read, -1⟩) trivial rfl).step (.rawAgain 0) trivial
      rfl).step (.arm 0) trivial rfl).step (.addCtl 0 false)
      (fun w hw => by obtain ⟨-, rfl⟩ := FiberPc.io.inj hw; exact ⟨rfl, rfl⟩) rfl).step (.update 0)
      (fun w hw => by obtain ⟨-, rfl⟩ := FiberPc.io.inj hw; rfl) rfl), rfl⟩
  obtain ⟨s, hs, hpc⟩ := hrun
  exact ⟨s, hs, hpc, attended hs⟩

set_option maxRecDepth 1000 in
/-- Two fibers read descriptor 5: the second finds the direction taken, and is
at `yieldToHold` with nothing to wake it. -/
theorem second_reader_lost :
    ∃ s, Reachable step anyStep defaultConfig.boot s ∧ ¬ s.Attended := by
  have hrun : ∃ s, run step [.call 0 ⟨5, .read, -1⟩, .rawAgain 0, .arm 0, .addCtl 0 false,
        .update 0, .yield 0, .call 1 ⟨5, .read, -1⟩, .rawAgain 1, .arm 1, .addCtl 1 false]
        defaultConfig.boot = some s ∧
      s.pc 1 = .io .yielding 1 ∧ (s.waits 1).call = ⟨5, .read, -1⟩ ∧
      ((s.iom.eventAt 5).getEvent .read).fiber = some 0 ∧ s.iom.mTasks = [] :=
    ⟨_, rfl, rfl, rfl, rfl, rfl⟩
  obtain ⟨s, hs, hpc, hcall, hfiber, htasks⟩ := hrun
  refine ⟨s, .of_run hs, fun h => ?_⟩
  have := h 1 1 hpc
  rw [hcall] at this
  obtain ⟨-, hw⟩ | ⟨t, ht, -⟩ := this
  · rw [hfiber] at hw
    exact absurd hw (by decide)
  · rw [htasks] at ht
    exact absurd ht List.not_mem_nil

end Runtime

end Server
