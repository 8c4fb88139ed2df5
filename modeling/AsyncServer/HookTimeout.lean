/-
A timeout acts on the wait that armed it.

When a timer expires, its callback goes from the wheel to the task queue, and a
worker runs it some time later.  `delTimer` looks only into the wheel.  So the
callback of a wait that is over may still be on its way: it writes to a variable
that is gone, and cancels whatever now waits for the same direction.

* `confined` — in every run in which no fiber is resumed while the callback of
  its wait is queued or running, and no tick meets the timer of a wait between
  the resumption and `delTimer`, all effects of a timeout are on its own wait;
* `late_timeout` — the run in which a read is cancelled by the timeout of the
  read before it.

The calls on one direction of a descriptor are successive: none starts to wait
while another one is waiting.
-/
import AsyncServer.HookRuns

namespace Server

open Epoll Transition

/-- The wait has been armed, and its timer has not been deleted. -/
def Stage.armed : Stage → Bool
  | .arming | .checking => false
  | .adding | .updating | .yielding | .held | .resumed => true

/-- The fiber is in the wait `w`, which is armed. -/
def FiberPc.armedIn (w : ℕ) : FiberPc → Bool
  | .io st v => v = w && st.armed
  | _ => false

theorem FiberPc.liveIn_iff {p : FiberPc} {w : ℕ} :
    p.liveIn w = true ↔ ∃ st, p = .io st w ∧ st.live = true := by
  cases p with
  | io st v =>
    simp only [liveIn, Bool.and_eq_true, decide_eq_true_eq]
    refine ⟨fun ⟨hv, hl⟩ => ⟨st, by rw [hv], hl⟩, fun ⟨st', h, hl⟩ => ?_⟩
    obtain ⟨rfl, rfl⟩ := FiberPc.io.inj h
    exact ⟨rfl, hl⟩
  | _ => simp [liveIn]

theorem FiberPc.armedIn_iff {p : FiberPc} {w : ℕ} :
    p.armedIn w = true ↔ ∃ st, p = .io st w ∧ st.armed = true := by
  cases p with
  | io st v =>
    simp only [armedIn, Bool.and_eq_true, decide_eq_true_eq]
    refine ⟨fun ⟨hv, hl⟩ => ⟨st, by rw [hv], hl⟩, fun ⟨st', h, hl⟩ => ?_⟩
    obtain ⟨rfl, rfl⟩ := FiberPc.io.inj h
    exact ⟨rfl, hl⟩
  | _ => simp [armedIn]

namespace Runtime

variable {N : ℕ} {s s' : Runtime N}

/-- The bit of the direction that `w` waits for is set. -/
def BitSet (s : Runtime N) (w : ℕ) : Prop :=
  (s.iom.eventAt (s.waits w).call.fd).event &&& (s.waits w).call.dir.mask ≠ 0

/-- The fiber that is registered for the direction that `w` waits for. -/
def waiter (s : Runtime N) (w : ℕ) : Option ℕ :=
  ((s.iom.eventAt (s.waits w).call.fd).getEvent (s.waits w).call.dir).fiber

/-- The effects of the timeouts are confined: a callback that is about to set
`cancel` or to call `cancelEvent` belongs to a wait that is going on and whose
timer has expired meanwhile, a `cancelEvent` takes off the fiber of that wait or
nobody, and a call returns `ETIMEDOUT` only if its own timer expired while it
waited. -/
structure Confined (s : Runtime N) : Prop where
  acting : ∀ w b, (w, b) ∈ s.running → s.live w = true ∧ (s.waits w).expired = true
  own : ∀ w, (w, true) ∈ s.running → s.BitSet w → s.waiter w = some (s.waits w).fiber
  timedOut : ∀ f w, s.pc f = .io .checking w → (s.waits w).cancel = true →
    (s.waits w).expired = true

/-- Two waits for the same direction of the same descriptor. -/
def SameDir (s : Runtime N) (w : ℕ) (c : Call) : Prop :=
  (s.waits w).call.fd = c.fd ∧ (s.waits w).call.dir = c.dir

/-- The calls on a direction are successive: when one starts to wait, no other
wait for it is going on and nobody is registered. -/
def Successive (s : Runtime N) : Act → Prop
  | .rawAgain f => ∀ c, s.pc f = .calling c →
      (∀ w, s.live w = true → ¬ s.SameDir w c) ∧ (s.iom.eventAt c.fd).event &&& c.dir.mask = 0
  | _ => True

/-- The condition on a step: a fiber is resumed from a wait only if the callback
of the wait is neither queued nor running, and a tick does not meet the timer of
a wait whose fiber has been resumed. -/
def Punctual (s : Runtime N) : Act → Prop
  | .take worker => ∀ t rest f w,
      scan s.iom.threadCnt worker s.state s.iom.mTasks = some (some t, rest) →
      t.fiber = some f → s.pc f = .io .held w →
      (∀ u ∈ s.iom.mTasks, u.func ≠ some (.timeout w)) ∧ ∀ b, (w, b) ∉ s.running
  | .tick now _ => s.iom.mTimerManager.expired now = true →
      ∀ p ∈ s.iom.mTimerManager.mWheel s.iom.mTimerManager.mCurSlot, ∀ f w,
        (s.iom.mTimerManager.heap p).callback = .timeout w → s.pc f ≠ .io .resumed w
  | _ => True

/-- The wait `w` is armed. -/
def armed (s : Runtime N) (w : ℕ) : Bool := (s.pc (s.waits w).fiber).armedIn w

/-- The invariant: where the timer and the callback of a wait can be. -/
structure Timely (s : Runtime N) : Prop where
  wheel : ∀ {i p w}, p ∈ s.iom.mTimerManager.mWheel i →
    (s.iom.mTimerManager.heap p).callback = .timeout w →
    (s.waits w).timer = some p ∧ (s.iom.mTimerManager.heap p).recurring = false ∧
      (s.iom.mTimerManager.heap p).slot = i ∧ s.armed w = true
  queue : ∀ {t w}, t ∈ s.iom.mTasks → t.func = some (.timeout w) →
    s.live w = true ∧ (s.waits w).expired = true
  running : ∀ {w b}, (w, b) ∈ s.running → s.live w = true ∧ (s.waits w).expired = true
  cancel : ∀ {w}, (s.waits w).cancel = true → (s.waits w).expired = true
  -- while a wait is going on, whoever is registered for its direction is its fiber
  own : ∀ {w}, s.live w = true → s.BitSet w → s.waiter w = some (s.waits w).fiber
  unique : ∀ {w v}, s.live w = true → s.live v = true → s.SameDir w (s.waits v).call → w = v
  noCb : ∀ fd d, ((s.iom.eventAt fd).getEvent d).cb = none

/-! ### Live and armed waits -/

theorem live_iff {w : ℕ} :
    s.live w = true ↔ ∃ st, s.pc (s.waits w).fiber = .io st w ∧ st.live = true :=
  FiberPc.liveIn_iff

theorem armed_iff {w : ℕ} :
    s.armed w = true ↔ ∃ st, s.pc (s.waits w).fiber = .io st w ∧ st.armed = true :=
  FiberPc.armedIn_iff

/-- The wait that a fiber is in is its own. -/
theorem live_of_pc (hwf : s.Wf) {f w : ℕ} {st : Stage} (h : s.pc f = .io st w) :
    s.live w = st.live := by
  rw [live, (hwf.owner h).2, h]
  simp [FiberPc.liveIn]

theorem armed_of_pc (hwf : s.Wf) {f w : ℕ} {st : Stage} (h : s.pc f = .io st w) :
    s.armed w = st.armed := by
  rw [armed, (hwf.owner h).2, h]
  simp [FiberPc.armedIn]

theorem live_goto {f : ℕ} {p : FiberPc} (h : ∀ w, p.liveIn w = (s.pc f).liveIn w) (v : ℕ) :
    (s.goto f p).live v = s.live v := by
  rw [live, waits_goto, pc_goto]
  split_ifs with hv
  · rw [h, live, hv]
  · rfl

theorem armed_goto {f : ℕ} {p : FiberPc} (h : ∀ w, (s.pc f).armedIn w = true → p.armedIn w = true)
    {v : ℕ} (hv : s.armed v = true) : (s.goto f p).armed v = true := by
  rw [armed, waits_goto, pc_goto]
  split_ifs with hf
  · refine h v ?_
    rw [← hf]
    exact hv
  · exact hv

/-! ### Operations that only take waiters off -/

/-- What triggers do to an event and the queue: directions go, and only fibers
are queued. -/
structure Fewer (r r' : Event ℕ Callback × List (Task ℕ Callback)) : Prop where
  bits : ∀ d : Dir, r'.1.event &&& d.mask ≠ 0 →
    r.1.event &&& d.mask ≠ 0 ∧ r'.1.getEvent d = r.1.getEvent d
  noCb : (∀ d, (r.1.getEvent d).cb = none) → ∀ d, (r'.1.getEvent d).cb = none
  tasks : (∀ d, (r.1.getEvent d).cb = none) → ∀ t ∈ r'.2, t ∈ r.2 ∨ t.func = none

theorem Fewer.refl (r : Event ℕ Callback × List (Task ℕ Callback)) : Fewer r r :=
  ⟨fun _ h => ⟨h, rfl⟩, fun h => h, fun _ _ h => .inl h⟩

theorem Fewer.trans {r r' r'' : Event ℕ Callback × List (Task ℕ Callback)} (h : Fewer r r')
    (h' : Fewer r' r'') : Fewer r r'' where
  bits d hd := ⟨(h.bits d (h'.bits d hd).1).1,
    (h'.bits d hd).2.trans (h.bits d (h'.bits d hd).1).2⟩
  noCb hcb := h'.noCb (h.noCb hcb)
  tasks hcb t ht := (h'.tasks (h.noCb hcb) t ht).elim (h.tasks hcb t) .inr

theorem fewer_triggerEvent (threadCnt : ℕ) (d : Dir)
    (r : Event ℕ Callback × List (Task ℕ Callback)) :
    Fewer r (Event.triggerEvent threadCnt d r) := by
  refine ⟨fun e he => ?_, fun hcb e => ?_, fun hcb t ht => ?_⟩
  · rw [Event.event_triggerEvent] at he
    by_cases hed : e = d
    · rw [hed] at he
      exact absurd (and_not_mask_self r.1.event d) he
    · rw [and_not_mask_of_ne _ hed] at he
      exact ⟨he, Event.getEvent_triggerEvent_of_ne _ _ _ hed⟩
  · by_cases hed : e = d
    · rw [hed, Event.getEvent_triggerEvent]
    · rw [Event.getEvent_triggerEvent_of_ne _ _ _ hed]
      exact hcb e
  -- a slot without a callback holds a fiber, and that is what is queued
  · rw [Event.tasks_triggerEvent, List.mem_append] at ht
    refine ht.imp_right fun ht => ?_
    rw [EventCtx.task, hcb d] at ht
    cases hf : (r.1.getEvent d).fiber with
    | none => simp [hf] at ht
    | some f =>
      obtain rfl : t = .ofFiber f := by simpa [hf] using ht
      rfl

theorem fewer_triggerAll (threadCnt : ℕ) (real : Mask)
    (r : Event ℕ Callback × List (Task ℕ Callback)) :
    Fewer r (IOManager.triggerAll threadCnt real r) := by
  unfold IOManager.triggerAll
  split_ifs
  · exact (fewer_triggerEvent _ _ _).trans (fewer_triggerEvent _ _ _)
  · exact fewer_triggerEvent _ _ _
  · exact fewer_triggerEvent _ _ _
  · exact .refl r

/-- An operation that only takes waiters of `fd` off. -/
structure TakesOff (fd : ℤ) (iom iom' : IOManager N ℕ Callback) : Prop where
  frame : IOManager.Frame fd iom iom'
  fewer : Fewer (iom.eventAt fd, iom.mTasks) (iom'.eventAt fd, iom'.mTasks)

theorem takesOff_dispatch {iom iom' : IOManager N ℕ Callback} (hs : iom.PoolWf) {fd : ℤ}
    {events : Mask} {fault : Bool} (h : iom.dispatch fd events fault = some iom') :
    TakesOff fd iom iom' := by
  obtain ⟨hframe, rfl | ⟨-, -, htrigger, -⟩⟩ := IOManager.dispatch_cases hs h
  · exact ⟨hframe, .refl _⟩
  · exact ⟨hframe, htrigger ▸ fewer_triggerAll _ _ _⟩

theorem takesOff_cancelEvent {iom iom' : IOManager N ℕ Callback} (hs : iom.PoolWf) {fd : ℤ}
    {d : Dir} {fault : Bool} (h : iom.cancelEvent fd d fault = some iom') :
    TakesOff fd iom iom' := by
  obtain ⟨hframe, ⟨-, rfl⟩ | ⟨-, htrigger, -⟩⟩ := IOManager.cancelEvent_cases hs h
  · exact ⟨hframe, .refl _⟩
  · exact ⟨hframe, htrigger ▸ fewer_triggerEvent _ _ _⟩

theorem takesOff_delEvent {iom iom' : IOManager N ℕ Callback} (hs : iom.PoolWf) {fd : ℤ}
    {fault : Bool} (h : iom.delEvent fd fault = some iom') : TakesOff fd iom iom' := by
  obtain ⟨hframe, htasks, ⟨-, rfl⟩ | ⟨-, hev, -⟩⟩ := IOManager.delEvent_cases hs h
  · exact ⟨hframe, .refl _⟩
  · refine ⟨hframe, ?_⟩
    -- a new event has no bits, so there is nothing to compare
    rw [hev, htasks]
    exact ⟨fun d hd => absurd BitVec.zero_and hd, fun _ d => by cases d <;> rfl,
      fun _ _ h => .inl h⟩

theorem takesOff_addEventCtl {iom iom' : IOManager N ℕ Callback} (hs : iom.PoolWf) {fd : ℤ}
    {d : Dir} {flag : Mask} {fault go : Bool}
    (h : iom.addEventCtl fd d flag fault = some (go, iom')) : TakesOff fd iom iom' := by
  obtain ⟨hframe, hev, htasks, -⟩ := IOManager.addEventCtl_cases hs h
  refine ⟨hframe, ?_⟩
  rw [hev, htasks]
  exact .refl _

/-- What is left of the registrations was there before. -/
theorem TakesOff.kept {fd : ℤ} {iom iom' : IOManager N ℕ Callback} (h : TakesOff fd iom iom')
    {g : ℤ} {d : Dir} (hbit : (iom'.eventAt g).event &&& d.mask ≠ 0) :
    (iom.eventAt g).event &&& d.mask ≠ 0 ∧
      (iom'.eventAt g).getEvent d = (iom.eventAt g).getEvent d := by
  by_cases hg : g = fd
  · subst hg
    exact h.fewer.bits d hbit
  · rw [h.frame.eventAt hg] at hbit ⊢
    exact ⟨hbit, rfl⟩

/-! ### What the steps keep -/

theorem Timely.takesOff (hs : s.Timely) {fd : ℤ} {iom : IOManager N ℕ Callback}
    (h : TakesOff fd s.iom iom) : ({ s with iom := iom } : Runtime N).Timely where
  wheel := by
    intro i p w hp hcb
    rw [h.frame.mTimerManager] at hp hcb ⊢
    exact hs.wheel hp hcb
  -- what a trigger queues is a fiber, no timeout
  queue := by
    intro t w ht hk
    rcases h.fewer.tasks (fun d => hs.noCb fd d) t ht with ht | hnone
    · exact hs.queue ht hk
    · exact absurd (hnone.symm.trans hk) (by simp)
  running := hs.running
  cancel := hs.cancel
  own := by
    intro w hw hbit
    obtain ⟨hbit, hctx⟩ := h.kept hbit
    rw [waiter, hctx]
    exact hs.own hw hbit
  unique := hs.unique
  noCb := by
    intro g d
    by_cases hg : g = fd
    · subst hg
      exact h.fewer.noCb (fun d => hs.noCb g d) d
    · show ((iom.eventAt g).getEvent d).cb = none
      rw [h.frame.eventAt hg]
      exact hs.noCb g d

/-- A fiber moves on without starting or ending a wait, and without leaving a
timer behind. -/
theorem Timely.goto (hs : s.Timely) {f : ℕ} {p : FiberPc}
    (hlive : ∀ w, p.liveIn w = (s.pc f).liveIn w)
    (harmed : ∀ {i q w}, q ∈ s.iom.mTimerManager.mWheel i →
      (s.iom.mTimerManager.heap q).callback = .timeout w → (s.pc f).armedIn w = true →
      p.armedIn w = true) : (s.goto f p).Timely where
  wheel := by
    intro i q w hq hcb
    obtain ⟨htimer, hrec, hslot, ha⟩ := hs.wheel hq hcb
    refine ⟨htimer, hrec, hslot, ?_⟩
    rw [armed, waits_goto, pc_goto]
    split_ifs with hf
    · rw [armed, hf] at ha
      exact harmed hq hcb ha
    · exact ha
  queue ht hk := by
    rw [live_goto hlive]
    exact hs.queue ht hk
  running hr := by
    rw [live_goto hlive]
    exact hs.running hr
  cancel := hs.cancel
  own := by
    intro w hw hbit
    rw [live_goto hlive] at hw
    exact hs.own hw hbit
  unique := by
    intro w v hw hv hdir
    rw [live_goto hlive] at hw hv
    exact hs.unique hw hv hdir
  noCb := hs.noCb

/-- A fiber moves on within its wait, or outside of any. -/
theorem Timely.move (hs : s.Timely) {f : ℕ} {p : FiberPc}
    (hlive : ∀ w, p.liveIn w = (s.pc f).liveIn w)
    (harmed : ∀ w, (s.pc f).armedIn w = true → p.armedIn w = true) : (s.goto f p).Timely :=
  hs.goto hlive fun _ _ h => harmed _ h

/-- Timers of waits are only taken off the wheel. -/
theorem Timely.setTimers (hs : s.Timely) {iom : IOManager N ℕ Callback}
    (hev : iom.mEvents = s.iom.mEvents) (htasks : iom.mTasks = s.iom.mTasks)
    (hm : ∀ {i p w}, p ∈ iom.mTimerManager.mWheel i →
      (iom.mTimerManager.heap p).callback = .timeout w →
      p ∈ s.iom.mTimerManager.mWheel i ∧ iom.mTimerManager.heap p = s.iom.mTimerManager.heap p) :
    ({ s with iom := iom } : Runtime N).Timely where
  wheel := by
    intro i p w hp hcb
    obtain ⟨hp, heq⟩ := hm hp hcb
    simp only [heq] at hcb ⊢
    exact hs.wheel hp hcb
  queue ht hk := hs.queue (htasks ▸ ht) hk
  running := hs.running
  cancel := hs.cancel
  own := by
    intro w hw hbit
    rw [BitSet, IOManager.eventAt_congr hev] at hbit
    rw [waiter, IOManager.eventAt_congr hev]
    exact hs.own hw hbit
  unique := hs.unique
  noCb fd d := by
    show ((iom.eventAt fd).getEvent d).cb = none
    rw [IOManager.eventAt_congr hev]
    exact hs.noCb fd d

/-- A timer that is not that of a wait is added. -/
theorem Timely.addTimer (hs : s.Timely) {timing : ℤ} {cb : Callback}
    {recurr : Bool} {timer : TimerPtr} {iom : IOManager N ℕ Callback}
    (hcb : ∀ w, cb ≠ .timeout w) (h : s.iom.addTimer timing cb recurr = some (timer, iom)) :
    ({ s with iom := iom } : Runtime N).Timely := by
  obtain ⟨m, hm, rfl⟩ := IOManager.addTimer_eq_some h
  obtain ⟨-, slot, -, rfl⟩ := TimerManager.addTimer_eq_some hm
  refine hs.setTimers rfl rfl fun {i p w} hp hk => ?_
  -- the new timer has another callback, so `p` was there before
  have hne : p ≠ timer := by
    rintro rfl
    simp only [Function.update_self] at hk
    exact hcb w hk
  rcases TimerManager.mem_emplaceBack.mp hp with hp | ⟨hp, -⟩
  · exact ⟨hp, Function.update_of_ne hne _ _⟩
  · exact absurd hp hne

theorem Timely.delTimer (hs : s.Timely) (timer : TimerPtr) :
    ({ s with iom := s.iom.delTimer timer } : Runtime N).Timely :=
  hs.setTimers rfl rfl fun hp _ => ⟨(TimerManager.mem_delTimer.mp hp).1, rfl⟩

theorem Timely.setRunning (hs : s.Timely) {running : List (ℕ × Bool)}
    (h : ∀ x ∈ running, ∃ b, (x.1, b) ∈ s.running) :
    ({ s with running := running } : Runtime N).Timely where
  wheel := hs.wheel
  queue := hs.queue
  running {w b} hr := by
    obtain ⟨b', hb⟩ := h (w, b) hr
    exact hs.running hb
  cancel := hs.cancel
  own := hs.own
  unique := hs.unique
  noCb := hs.noCb

/-- Tasks leave the queue. -/
theorem Timely.setTasks (hs : s.Timely) {rest : List (Task ℕ Callback)}
    (h : ∀ t ∈ rest, t ∈ s.iom.mTasks ∨ t.func = none) : (s.setTasks rest).Timely where
  wheel := hs.wheel
  queue {t w} ht hk := by
    rcases h t ht with ht | hnone
    · exact hs.queue ht hk
    · exact absurd (hnone.symm.trans hk) (by simp)
  running := hs.running
  cancel := hs.cancel
  own := hs.own
  unique := hs.unique
  noCb := hs.noCb

/-! ### The steps that start, arm, register and end a wait -/

theorem timely_rawAgain (hwf : s.Wf) (hs : s.Timely) {f : ℕ} {c : Call}
    (hpc : s.pc f = .calling c) (hdir : ∀ w, s.live w = true → ¬ s.SameDir w c)
    (hfree : (s.iom.eventAt c.fd).event &&& c.dir.mask = 0) :
    (({ s with nextWait := s.nextWait + 1 }.setWait s.nextWait
      ⟨f, c, none, false, false⟩).goto f (.io .arming s.nextWait)).Timely := by
  set s' := ({ s with nextWait := s.nextWait + 1 }.setWait s.nextWait
    ⟨f, c, none, false, false⟩).goto f (.io .arming s.nextWait) with hs'
  -- the waits that were going on are not the new one
  have hlt : ∀ {w}, s.live w = true → w ≠ s.nextWait := by
    intro w hw hn
    obtain ⟨st, hst, -⟩ := live_iff.mp hw
    exact (hwf.owner hst).1.ne hn
  have hwaits : ∀ {w}, w ≠ s.nextWait → s'.waits w = s.waits w := fun hw => by
    rw [hs', waits_goto, waits_setWait, if_neg hw]
  have hpc' : ∀ {g}, g ≠ f → s'.pc g = s.pc g := fun hg => by
    rw [hs', pc_goto, if_neg hg]
    rfl
  have hnotf : ∀ {w st}, s.pc (s.waits w).fiber = .io st w → (s.waits w).fiber ≠ f := by
    intro w st hst hf
    rw [hf, hpc] at hst
    exact FiberPc.noConfusion hst
  have hlive : ∀ {w}, s.live w = true → s'.live w = true := by
    intro w hw
    obtain ⟨st, hst, hl⟩ := live_iff.mp hw
    exact live_iff.mpr ⟨st, by rw [hwaits (hlt hw), hpc' (hnotf hst), hst], hl⟩
  -- and those that are going on after the step are the old ones and the new one
  have hback : ∀ {w}, s'.live w = true → w = s.nextWait ∨ s.live w = true := by
    intro w hw
    by_cases hn : w = s.nextWait
    · exact .inl hn
    · obtain ⟨st, hst, hl⟩ := live_iff.mp hw
      rw [hwaits hn] at hst
      by_cases hf : (s.waits w).fiber = f
      · rw [hf, hs', pc_goto, if_pos rfl] at hst
        exact .inl (FiberPc.io.inj hst).2.symm
      · exact .inr (live_iff.mpr ⟨st, hpc' hf ▸ hst, hl⟩)
  have hnew : (s'.waits s.nextWait).call = c := by
    rw [hs', waits_goto, waits_setWait, if_pos rfl]
  refine ⟨fun {i p w} hp hcb => ?_, fun {t w} ht hk => ?_, fun {w b} hr => ?_, fun {w} hc => ?_,
    fun {w} hw hbit => ?_, fun {w v} hw hv hsame => ?_, hs.noCb⟩
  · obtain ⟨htimer, hrec, hslot, ha⟩ := hs.wheel hp hcb
    obtain ⟨st, hst, har⟩ := armed_iff.mp ha
    have hn : w ≠ s.nextWait := (hwf.owner hst).1.ne
    rw [hwaits hn]
    exact ⟨htimer, hrec, hslot,
      armed_iff.mpr ⟨st, by rw [hwaits hn, hpc' (hnotf hst), hst], har⟩⟩
  · obtain ⟨hl, he⟩ := hs.queue ht hk
    exact ⟨hlive hl, by rw [hwaits (hlt hl), he]⟩
  · obtain ⟨hl, he⟩ := hs.running hr
    exact ⟨hlive hl, by rw [hwaits (hlt hl), he]⟩
  · by_cases hn : w = s.nextWait
    -- a new wait has not been cancelled
    · rw [hn, hs', waits_goto, waits_setWait, if_pos rfl] at hc
      exact absurd hc (by simp)
    · rw [hwaits hn] at hc ⊢
      exact hs.cancel hc
  · rcases hback hw with rfl | hl
    · rw [BitSet, hnew] at hbit
      exact absurd hfree hbit
    · rw [BitSet, hwaits (hlt hl)] at hbit
      rw [waiter, hwaits (hlt hl)]
      exact hs.own hl hbit
  · unfold SameDir at hsame
    rcases hback hw with rfl | hlw <;> rcases hback hv with rfl | hlv
    · rfl
    · rw [hnew, hwaits (hlt hlv)] at hsame
      exact absurd ⟨hsame.1.symm, hsame.2.symm⟩ (hdir v hlv)
    · rw [hnew, hwaits (hlt hlw)] at hsame
      exact absurd hsame (hdir w hlw)
    · rw [hwaits (hlt hlw), hwaits (hlt hlv)] at hsame
      exact hs.unique hlw hlv hsame

/-- A wait changes, but for its fiber and its call. -/
theorem live_setWait {w : ℕ} {wait : Wait} (h : wait.fiber = (s.waits w).fiber) (v : ℕ) :
    (s.setWait w wait).live v = s.live v := by
  rw [live, live, waits_setWait]
  split_ifs with hv
  · rw [h, hv]
    rfl
  · rfl

theorem timely_arm (hwf : s.Wf) (hs : s.Timely) {f w : ℕ} {timing : ℤ} {timer : TimerPtr}
    {iom : IOManager N ℕ Callback} (hpc : s.pc f = .io .arming w)
    (hadd : s.iom.addTimer timing (.timeout w) false = some (timer, iom)) :
    (({ s with iom := iom }.setWait w { s.waits w with timer := some timer }).goto f
      (.io .adding w)).Timely := by
  obtain ⟨m, hm, rfl⟩ := IOManager.addTimer_eq_some hadd
  obtain ⟨rfl, slot, -, rfl⟩ := TimerManager.addTimer_eq_some hm
  set s' := (({ s with iom := _ } : Runtime N).setWait w
    { s.waits w with timer := some s.iom.mTimerManager.next }).goto f (.io .adding w) with hs'
  have hwaits : ∀ v, s'.waits v =
      if v = w then { s.waits w with timer := some s.iom.mTimerManager.next } else s.waits v :=
    fun v => by rw [hs', waits_goto, waits_setWait]
  have hsame : ∀ v, (s'.waits v).fiber = (s.waits v).fiber ∧ (s'.waits v).call = (s.waits v).call ∧
      (s'.waits v).cancel = (s.waits v).cancel ∧ (s'.waits v).expired = (s.waits v).expired := by
    intro v
    rw [hwaits]
    split_ifs with hv
    · subst hv
      exact ⟨rfl, rfl, rfl, rfl⟩
    · exact ⟨rfl, rfl, rfl, rfl⟩
  have hlive : ∀ v, s'.live v = s.live v := by
    intro v
    refine (live_goto ?_ v).trans ((live_setWait ?_ v).trans ?_)
    · simp [hpc, FiberPc.liveIn, Stage.live]
    · rfl
    · rfl
  refine ⟨fun {i p v} hp hcb => ?_, fun {t v} ht hk => ?_, fun {v b} hr => ?_, fun {v} hc => ?_,
    fun {v} hv hbit => ?_, fun {v u} hv hu hdir => ?_, hs.noCb⟩
  -- a timer on the wheel is one of before, or that of this wait
  · rcases TimerManager.mem_emplaceBack.mp hp with hp | ⟨rfl, rfl⟩
    · have hne : p ≠ s.iom.mTimerManager.next := (hwf.wheel.fresh hp).ne
      have hheap : s'.iom.mTimerManager.heap p = s.iom.mTimerManager.heap p :=
        Function.update_of_ne hne _ _
      rw [hheap] at hcb ⊢
      obtain ⟨htimer, hrec, hslot, ha⟩ := hs.wheel hp hcb
      have hvw : v ≠ w := by
        rintro rfl
        rw [armed_of_pc hwf hpc] at ha
        exact absurd ha (by decide)
      obtain ⟨st, hst, har⟩ := armed_iff.mp ha
      have hvf : (s.waits v).fiber ≠ f := by
        intro hf
        rw [hf, hpc] at hst
        exact hvw (FiberPc.io.inj hst).2.symm
      refine ⟨by rw [hwaits, if_neg hvw, htimer], hrec, hslot, armed_iff.mpr ⟨st, ?_, har⟩⟩
      rw [(hsame v).1, hs', pc_goto, if_neg hvf]
      exact hst
    · have hheap : s'.iom.mTimerManager.heap s.iom.mTimerManager.next =
          ⟨timing, _, i, .timeout w, false⟩ := Function.update_self _ _ _
      rw [hheap] at hcb ⊢
      obtain rfl : w = v := Callback.timeout.inj hcb
      refine ⟨by rw [hwaits, if_pos rfl], rfl, rfl, armed_iff.mpr ⟨.adding, ?_, rfl⟩⟩
      rw [(hsame w).1, (hwf.owner hpc).2, hs', pc_goto, if_pos rfl]
  · rw [hlive, (hsame v).2.2.2]
    exact hs.queue ht hk
  · rw [hlive, (hsame v).2.2.2]
    exact hs.running hr
  · rw [(hsame v).2.2.1] at hc
    rw [(hsame v).2.2.2]
    exact hs.cancel hc
  · rw [hlive] at hv
    rw [BitSet, (hsame v).2.1] at hbit
    rw [waiter, (hsame v).1, (hsame v).2.1]
    exact hs.own hv hbit
  · rw [hlive] at hv hu
    rw [SameDir, (hsame v).2.1, (hsame u).2.1] at hdir
    exact hs.unique hv hu hdir

theorem timely_update (hwf : s.Wf) (hs : s.Timely) {f w : ℕ} {iom : IOManager N ℕ Callback}
    (hpc : s.pc f = .io .updating w)
    (hupd : s.iom.addEventUpdate (s.waits w).call.fd (s.waits w).call.dir none f = some iom) :
    ({ s with iom := iom }.goto f (.io .yielding w)).Timely := by
  obtain ⟨hframe, hev, htasks, -⟩ := IOManager.addEventUpdate_eq hwf.pool hupd
  have hreg : ({ s with iom := iom } : Runtime N).Timely := by
    refine ⟨?_, fun ht hk => hs.queue (htasks ▸ ht) hk, hs.running, hs.cancel, ?_, hs.unique, ?_⟩
    · rw [hframe.mTimerManager]
      exact hs.wheel
    · intro v hv hbit
      by_cases hfd : (s.waits v).call.fd = (s.waits w).call.fd
      · by_cases hdir : (s.waits v).call.dir = (s.waits w).call.dir
        · -- the only wait for this direction is the one that registers
          obtain rfl : v = w := hs.unique hv (live_of_pc hwf hpc) ⟨hfd, hdir⟩
          rw [waiter, hev, Event.getEvent_register]
          exact congrArg some (hwf.owner hpc).2.symm
        · rw [BitSet, hfd, hev, Event.event_register, or_mask_and_of_ne _ hdir, ← hfd] at hbit
          rw [waiter, hfd, hev, Event.getEvent_register_of_ne _ hdir, ← hfd]
          exact hs.own hv hbit
      · rw [BitSet, hframe.eventAt hfd] at hbit
        rw [waiter, hframe.eventAt hfd]
        exact hs.own hv hbit
    · intro g d
      by_cases hg : g = (s.waits w).call.fd
      · subst hg
        rw [hev]
        by_cases hd : d = (s.waits w).call.dir
        · rw [hd, Event.getEvent_register]
          exact hs.noCb _ _
        · rw [Event.getEvent_register_of_ne _ hd]
          exact hs.noCb _ _
      · rw [hframe.eventAt hg]
        exact hs.noCb _ _
  exact hreg.move (by simp [hpc, FiberPc.liveIn, Stage.live])
    (by simp [hpc, FiberPc.armedIn, Stage.armed])

theorem timely_resume (hwf : s.Wf) (hs : s.Timely) {f w : ℕ} (hpc : s.pc f = .io .held w)
    (hqueue : ∀ t ∈ s.iom.mTasks, t.func ≠ some (.timeout w)) (hrun : ∀ b, (w, b) ∉ s.running) :
    (s.goto f (.io .resumed w)).Timely := by
  have hother : ∀ {v}, v ≠ w → (s.goto f (.io .resumed w)).live v = s.live v := by
    intro v hv
    rw [live, waits_goto, pc_goto]
    split_ifs with hf
    · rw [live, hf, hpc]
      simp [FiberPc.liveIn, hv.symm]
    · rfl
  -- the wait is over, and by the condition nothing of it is left to act
  have hdead : (s.goto f (.io .resumed w)).live w = false := by
    rw [live, waits_goto, (hwf.owner hpc).2, pc_goto, if_pos rfl]
    simp [FiberPc.liveIn, Stage.live]
  have hlive : ∀ {v}, (s.goto f (.io .resumed w)).live v = true → s.live v = true := by
    intro v hv
    by_cases hvw : v = w
    · rw [hvw, hdead] at hv
      exact absurd hv (by simp)
    · exact hother hvw ▸ hv
  refine ⟨fun {i p v} hp hcb => ?_, fun {t v} ht hk => ?_, fun {v b} hr => ?_, hs.cancel,
    fun hv hbit => hs.own (hlive hv) hbit, fun hv hu => hs.unique (hlive hv) (hlive hu), hs.noCb⟩
  · obtain ⟨htimer, hrec, hslot, ha⟩ := hs.wheel hp hcb
    refine ⟨htimer, hrec, hslot, armed_goto ?_ ha⟩
    simp [hpc, FiberPc.armedIn, Stage.armed]
  · have hv : v ≠ w := by
      rintro rfl
      exact hqueue t ht hk
    rw [hother hv]
    exact hs.queue ht hk
  · have hv : v ≠ w := by
      rintro rfl
      exact hrun b hr
    rw [hother hv]
    exact hs.running hr

/-- The waits change, but for their fibers, calls and timers. -/
theorem Timely.setWaits (hs : s.Timely) {waits : ℕ → Wait}
    (hsame : ∀ w, (waits w).fiber = (s.waits w).fiber ∧ (waits w).call = (s.waits w).call ∧
      (waits w).timer = (s.waits w).timer)
    (hexp : ∀ w, (s.waits w).expired = true → (waits w).expired = true)
    (hcancel : ∀ w, (waits w).cancel = true → (waits w).expired = true) :
    ({ s with waits := waits } : Runtime N).Timely := by
  have hlive : ∀ w, ({ s with waits := waits } : Runtime N).live w = s.live w := fun w => by
    simp only [live, (hsame w).1]
  refine ⟨fun {i p w} hp hcb => ?_, fun {t w} ht hk => ?_, fun {w b} hr => ?_, hcancel _,
    fun {w} hw hbit => ?_, fun {w v} hw hv hdir => ?_, hs.noCb⟩
  · simp only [(hsame w).2.2, armed, (hsame w).1]
    exact hs.wheel hp hcb
  · rw [hlive]
    exact (hs.queue ht hk).imp_right (hexp w)
  · rw [hlive]
    exact (hs.running hr).imp_right (hexp w)
  · rw [hlive] at hw
    simp only [BitSet, (hsame w).2.1] at hbit
    simp only [waiter, (hsame w).1, (hsame w).2.1]
    exact hs.own hw hbit
  · rw [hlive] at hw hv
    simp only [SameDir, (hsame w).2.1, (hsame v).2.1] at hdir
    exact hs.unique hw hv hdir

theorem expire_waits (s : Runtime N) (emitted : List TimerPtr) (w : ℕ) :
    ((s.expire emitted).waits w).fiber = (s.waits w).fiber ∧
      ((s.expire emitted).waits w).call = (s.waits w).call ∧
      ((s.expire emitted).waits w).timer = (s.waits w).timer ∧
      ((s.expire emitted).waits w).cancel = (s.waits w).cancel ∧
      ((s.expire emitted).waits w).expired =
        ((s.waits w).expired || (s.waits w).timer.any (· ∈ emitted) && s.live w) := by
  simp only [expire]
  split_ifs with h
  · simp [h]
  · exact ⟨rfl, rfl, rfl, rfl, by simp [Bool.not_eq_true _ ▸ h]⟩

theorem timely_tick (hwf : s.Wf) (hs : s.Timely) {now now' : BitVec 64}
    {emitted : List TimerPtr} {iom : IOManager N ℕ Callback}
    (htick : s.iom.idleTick now now' = some (emitted, iom))
    (hok : s.Punctual (.tick now now')) :
    ({ s.expire emitted with iom := iom } : Runtime N).Timely := by
  obtain ⟨r, hr, rfl, rfl⟩ := IOManager.idleTick_eq_some htick
  -- first the history: the waits whose timers are emitted are marked
  have hexp : (s.expire r.emitted).Timely := by
    refine hs.setWaits (fun w => ?_) (fun w h => ?_) fun w h => ?_
    · obtain ⟨h₁, h₂, h₃, -, -⟩ := expire_waits s r.emitted w
      exact ⟨h₁, h₂, h₃⟩
    · obtain ⟨-, -, -, -, h₅⟩ := expire_waits s r.emitted w
      exact h₅.trans (by rw [h, Bool.true_or])
    · obtain ⟨-, -, -, h₄, h₅⟩ := expire_waits s r.emitted w
      exact h₅.trans (by rw [hs.cancel (h₄.symm.trans h), Bool.true_or])
  obtain ⟨he, rfl⟩ | ⟨he, m₁, h₁, rfl⟩ := TimerManager.tick_cases hr
  · refine ⟨hexp.wheel, fun {t w} ht hk => ?_, hexp.running, hexp.cancel, hexp.own,
      hexp.unique, hexp.noCb⟩
    have ht : t ∈ s.iom.mTasks := by simpa using ht
    exact hexp.queue ht hk
  · obtain ⟨hsame, -, -⟩ := TimerManager.reinsert_fold h₁
    have hcallback : ∀ p, (m₁.heap p).callback = (s.iom.mTimerManager.heap p).callback := fun p => by
      rw [hsame.callback]
      simp [TimerManager.emptied]
    refine ⟨fun {i p w} hp hcb => ?_, fun {t w} ht hk => ?_, hexp.running, hexp.cancel, hexp.own,
      hexp.unique, hexp.noCb⟩
    · have hcb : (s.iom.mTimerManager.heap p).callback = .timeout w := hcallback p ▸ hcb
      -- the timers of waits are not recurring, so those at the cursor are gone
      obtain ⟨hp, -⟩ | ⟨hp, hrec, -⟩ := (TimerManager.mem_tick hwf.wheel h₁ i p).mp hp
      · obtain ⟨htimer, -, -, ha⟩ := hexp.wheel (i := i) hp hcb
        obtain ⟨-, hrec, hslot, -⟩ := hs.wheel hp hcb
        refine ⟨htimer, (hsame.recurring p).trans ?_, (hsame.slot p).trans ?_, ha⟩
        · simpa [TimerManager.emptied] using hrec
        · simpa [TimerManager.emptied] using hslot
      · exact absurd ((hs.wheel hp hcb).2.1.symm.trans hrec) (by simp)
    · rcases List.mem_append.mp ht with ht | ht
      · exact hexp.queue ht hk
      · -- the callback of an emitted timer: its wait is armed and not resumed
        obtain ⟨p, hp, rfl⟩ : ∃ p ∈ s.iom.mTimerManager.mWheel s.iom.mTimerManager.mCurSlot,
            .ofFunc (s.iom.mTimerManager.heap p).callback = t := by simpa using ht
        have hcb : (s.iom.mTimerManager.heap p).callback = .timeout w := Option.some_inj.mp hk
        obtain ⟨htimer, -, -, ha⟩ := hs.wheel hp hcb
        obtain ⟨st, hst, har⟩ := armed_iff.mp ha
        have hl : s.live w = true := by
          refine live_iff.mpr ⟨st, hst, ?_⟩
          cases st with
          -- the condition excludes it: its timer would be emitted before `delTimer`
          | resumed => exact absurd hst (hok he p hp _ w hcb)
          | checking => exact absurd har (by decide)
          | _ => rfl
        obtain ⟨hfiber, -, -, -, hexpired⟩ := expire_waits s
          (s.iom.mTimerManager.mWheel s.iom.mTimerManager.mCurSlot) w
        refine ⟨?_, hexpired.trans ?_⟩
        · show FiberPc.liveIn w (s.pc ((s.expire _).waits w).fiber) = true
          rw [hfiber]
          exact hl
        · simp [htimer, hp, hl]

/-- The step lemma. -/
theorem timely_step {a : Act} (hwf : s.Wf) (hs : s.Timely) (hsucc : s.Successive a)
    (hok : s.Punctual a) (h : s.step a = some s') : s'.Timely := by
  cases stepped h with
  | call hpc => exact hs.move (by simp [hpc, FiberPc.liveIn]) (by simp [hpc, FiberPc.armedIn])
  | rawDone hpc => exact hs.move (by simp [hpc, FiberPc.liveIn]) (by simp [hpc, FiberPc.armedIn])
  | rawAgain hpc => exact timely_rawAgain hwf hs hpc (hsucc _ hpc).1 (hsucc _ hpc).2
  | arm hpc hadd => exact timely_arm hwf hs hpc hadd
  | noTimer hpc =>
    exact hs.move (by simp [hpc, FiberPc.liveIn, Stage.live])
      (by simp [hpc, FiberPc.armedIn, Stage.armed])
  | @addCtl f w fault go iom hpc hctl =>
    refine (hs.takesOff (takesOff_addEventCtl hwf.pool hctl)).move ?_ ?_
    · cases go <;> simp [hpc, FiberPc.liveIn, Stage.live]
    · cases go <;> simp [hpc, FiberPc.armedIn, Stage.armed]
  | update hpc hupd => exact timely_update hwf hs hpc hupd
  | yield hpc =>
    exact hs.move (by simp [hpc, FiberPc.liveIn, Stage.live])
      (by simp [hpc, FiberPc.armedIn, Stage.armed])
  | yieldSleep hpc =>
    exact hs.move (by simp [hpc, FiberPc.liveIn]) (by simp [hpc, FiberPc.armedIn])
  | @delTimer f w timer hpc htimer =>
    refine (hs.delTimer timer).goto (by simp [hpc, FiberPc.liveIn, Stage.live]) ?_
    intro i q v hq hcb hv
    obtain ⟨st, hst, -⟩ := FiberPc.armedIn_iff.mp hv
    obtain ⟨-, rfl⟩ := FiberPc.io.inj (hpc.symm.trans hst)
    -- a timer of the wait would be the deleted one
    obtain ⟨hq, hne⟩ := TimerManager.mem_delTimer.mp hq
    obtain ⟨htimer', -, hslot, -⟩ := hs.wheel hq hcb
    obtain rfl : timer = q := Option.some_inj.mp (htimer.symm.trans htimer')
    exact absurd hslot.symm (hne rfl)
  | delNoTimer hpc htimer =>
    refine hs.goto (by simp [hpc, FiberPc.liveIn, Stage.live]) ?_
    intro i q v hq hcb hv
    obtain ⟨st, hst, -⟩ := FiberPc.armedIn_iff.mp hv
    obtain ⟨-, rfl⟩ := FiberPc.io.inj (hpc.symm.trans hst)
    exact absurd (htimer.symm.trans (hs.wheel hq hcb).1) (by simp)
  | check hpc =>
    refine hs.move ?_ ?_
    · split_ifs <;> simp [hpc, FiberPc.liveIn, Stage.live]
    · simp [hpc, FiberPc.armedIn, Stage.armed]
  | sleep hpc hadd =>
    exact (hs.addTimer (by simp) hadd).move (by simp [hpc, FiberPc.liveIn])
      (by simp [hpc, FiberPc.armedIn])
  | addTimer hadd => exact hs.addTimer (by simp) hadd
  | delUserTimer hlt => exact hs.delTimer _
  | close hdel =>
    have h := hs.takesOff (takesOff_delEvent hwf.pool hdel)
    exact ⟨h.wheel, h.queue, h.running, h.cancel, h.own, h.unique, h.noCb⟩
  | dispatch hdisp => exact hs.takesOff (takesOff_dispatch hwf.pool hdisp)
  | tick htick => exact timely_tick hwf hs htick hok
  | @takeFiber worker f t rest hscan hf s' hres =>
    have hrest : (s.setTasks rest).Timely :=
      hs.setTasks fun u hu => .inl ((scan_spec hscan).1 u hu)
    obtain ⟨w, hpc, rfl⟩ | ⟨hpc, rfl⟩ := resume_cases hres
    · obtain ⟨hqueue, hrun⟩ := hok t rest f w hscan hf hpc
      exact timely_resume (hwf.setTasks rest) hrest hpc
        (fun u hu => hqueue u ((scan_spec hscan).1 u hu)) hrun
    · refine hrest.move ?_ ?_
      · rw [hpc]
        simp [FiberPc.liveIn]
      · rw [hpc]
        simp [FiberPc.armedIn]
  -- the callback goes from the queue to the running ones, with what is known of it
  | @takeTimeout worker w t rest hscan hf hk =>
    have hrest : (s.setTasks rest).Timely :=
      hs.setTasks fun u hu => .inl ((scan_spec hscan).1 u hu)
    have htaken := hs.queue ((scan_spec hscan).2 t rfl).1 hk
    refine ⟨hrest.wheel, hrest.queue, fun {v b} hr => ?_, hrest.cancel, hrest.own, hrest.unique,
      hrest.noCb⟩
    rcases List.mem_append.mp hr with hr | hr
    · exact hs.running hr
    · obtain ⟨rfl, -⟩ := Prod.mk.inj (List.mem_singleton.mp hr)
      exact htaken
  -- the callback of a sleeper queues a fiber
  | takeWake hscan hf hk =>
    refine hs.setTasks fun u hu => ?_
    rw [addTaskNoLock_ofFiber, List.mem_append, List.mem_singleton] at hu
    rcases hu with hu | rfl
    · exact .inl ((scan_spec hscan).1 u hu)
    · exact .inr rfl
  | takeUser hscan hf hk => exact hs.setTasks fun u hu => .inl ((scan_spec hscan).1 u hu)
  -- the wait is still going on, and its timer has expired: so may its flag be set
  | @setCancel w hrun =>
    have hrunning : ({ s with
        running := s.running.erase (w, false) ++ [(w, true)] } : Runtime N).Timely := by
      refine hs.setRunning fun x hx => ?_
      rcases List.mem_append.mp hx with hx | hx
      · exact ⟨x.2, List.mem_of_mem_erase hx⟩
      · rw [List.mem_singleton.mp hx]
        exact ⟨false, hrun⟩
    have hexpired := (hs.running hrun).2
    refine hrunning.setWaits (fun v => ?_) (fun v h => ?_) fun v h => ?_
    · simp only [Function.update_apply]
      split_ifs with hv
      · rw [hv]
        exact ⟨rfl, rfl, rfl⟩
      · exact ⟨rfl, rfl, rfl⟩
    · simp only [Function.update_apply]
      split_ifs with hv
      · exact hexpired
      · exact h
    · simp only [Function.update_apply] at h ⊢
      split_ifs at h ⊢ with hv
      · exact hexpired
      · exact hs.cancel h
  | @cancelEvent w fault iom hrun hcancel =>
    have h := hs.takesOff (takesOff_cancelEvent hwf.pool hcancel)
    exact h.setRunning fun x hx => ⟨x.2, List.mem_of_mem_erase hx⟩

theorem timely_boot (c : Config N) : c.boot.Timely where
  wheel h := absurd h (by simp [Config.boot, start, IOManager.create, IOManager.ctxResize,
    TimerManager.create])
  queue h := absurd h (by simp [Config.boot, start, IOManager.create, IOManager.ctxResize])
  running h := absurd h (by simp [Config.boot, start])
  cancel h := absurd h (by simp [Config.boot, start])
  own h := absurd h (by simp [Config.boot, start, live, FiberPc.liveIn])
  unique h := absurd h (by simp [Config.boot, start, live, FiberPc.liveIn])
  noCb fd d := by
    show ((IOManager.eventAt (.create _ _ _) fd).getEvent d).cb = none
    rw [IOManager.eventAt_create]
    cases d <;> rfl

/-- **A timeout acts on the wait that armed it**, in every state of every run in
which the calls on one direction are successive, no fiber is resumed from a wait
whose callback is on its way, and no tick comes between the resumption of a
fiber and the deletion of its timer. -/
theorem confined {c : Config N}
    (h : Reachable step (fun s a => s.Successive a ∧ s.Punctual a) c.boot s) : s.Confined := by
  have hs : s.Wf ∧ s.Timely :=
    h.invariant (I := fun s => s.Wf ∧ s.Timely) ⟨wf_boot c, timely_boot c⟩
      fun _ _ _ hs hok hstep => ⟨wf_step hs.1 hstep, timely_step hs.1 hs.2 hok.1 hok.2 hstep⟩
  exact ⟨fun w b hr => hs.2.running hr, fun w hr hbit => hs.2.own (hs.2.running hr).1 hbit,
    fun f w _ hc => hs.2.cancel hc⟩

/-- Ticks may come when no fiber is between its resumption and `delTimer`. -/
theorem reachable_ticks {s₀ : Runtime N}
    (h : Reachable step (fun s a => s.Successive a ∧ s.Punctual a) s₀ s)
    (hpc : ∀ f w, s.pc f ≠ .io .resumed w) (ticks : List (BitVec 64))
    (hrun : run step (ticks.map fun now => .tick now now) s = some s') :
    Reachable step (fun s a => s.Successive a ∧ s.Punctual a) s₀ s' := by
  induction ticks generalizing s with
  | nil =>
    obtain rfl := Option.some_inj.mp hrun
    exact h
  | cons now ticks ih =>
    obtain ⟨s₁, htick, hrest⟩ := run_cons_eq_some.mp hrun
    have hallowed : s.Successive (.tick now now) ∧ s.Punctual (.tick now now) :=
      ⟨trivial, fun _ _ _ f w _ => hpc f w⟩
    refine ih (h.step _ hallowed htick) (fun f w => ?_) hrest
    -- a tick moves no fiber
    obtain ⟨r, -, rfl⟩ := Option.map_eq_some_iff.mp htick
    exact hpc f w

set_option maxRecDepth 2000 in
/-- A read with a timeout of a second gets no data: the callback takes its registration
off, and the fiber is about to return. -/
theorem confined_in_time :
    ∃ s, Reachable step (fun s a => s.Successive a ∧ s.Punctual a) defaultConfig.boot s ∧
      s.pc 0 = .io .checking 0 ∧ (s.waits 0).cancel = true ∧ s.Confined := by
  obtain ⟨s, hs, hcall, hlive, hslot, s₁, h₁, s₂, h₂, hpc, hother, s₃, h₃, hqueue, s₄, h₄, s₅, h₅,
      hqueue₅, hrunning₅, s₆, h₆, s₇, h₇, hpc₇, hcancel⟩ :
      ∃ s, run step [.call 0 ⟨5, .read, 1⟩] defaultConfig.boot = some s ∧
        s.pc 0 = .calling ⟨5, .read, 1⟩ ∧ (∀ w, s.live w = false) ∧
        (s.iom.eventAt 5).event &&& Dir.read.mask = 0 ∧
      ∃ s₁, s.step (.rawAgain 0) = some s₁ ∧
      ∃ s₂, run step [.arm 0, .addCtl 0 false, .update 0, .yield 0] s₁ = some s₂ ∧
        s₂.pc 0 = .io .held 0 ∧ (∀ f, f ≠ 0 → s₂.pc f = .user) ∧
      ∃ s₃, run step ([200, 400, 600, 800, 1000, 1200].map fun now => .tick now now) s₂ =
          some s₃ ∧
        scan s₃.iom.threadCnt 0 s₃.state s₃.iom.mTasks =
          some (some (.ofFunc (.timeout 0)), []) ∧
      ∃ s₄, s₃.step (.take 0) = some s₄ ∧
      ∃ s₅, run step [.setCancel 0, .cancelEvent 0 false] s₄ = some s₅ ∧
        s₅.iom.mTasks = [.ofFiber 0] ∧ s₅.running = [] ∧
      ∃ s₆, s₅.step (.take 0) = some s₆ ∧
      ∃ s₇, s₆.step (.delTimer 0) = some s₇ ∧ s₇.pc 0 = .io .checking 0 ∧
        (s₇.waits 0).cancel = true := by
    have hstay : ∀ (pc : ℕ → FiberPc) (p : FiberPc) (f : ℕ), f ≠ 0 → pc f = .user →
        Function.update pc 0 p f = .user := fun pc p f hf h =>
      (Function.update_of_ne hf _ _).trans h
    refine ⟨_, rfl, rfl, fun w => rfl, rfl, _, rfl, _, rfl, rfl, fun f hf => ?_, _, rfl, rfl, _,
      rfl, _, rfl, rfl, rfl, _, rfl, _, rfl, rfl, rfl⟩
    repeat' refine hstay _ _ f hf ?_
    rfl
  have hreach : Reachable step (fun s a => s.Successive a ∧ s.Punctual a) defaultConfig.boot s :=
    .of_run_admitted (by simp [Successive, Punctual]) hs
  have hagain : s.Successive (.rawAgain 0) ∧ s.Punctual (.rawAgain 0) := by
    refine ⟨fun c hc => ?_, trivial⟩
    obtain rfl := FiberPc.calling.inj (hcall.symm.trans hc)
    exact ⟨fun w hw => absurd hw (by simp [hlive w]), hslot⟩
  have hreach := (hreach.step _ hagain h₁).run_admitted _ h₂ (by simp [Successive, Punctual])
  have hreach := reachable_ticks hreach (fun f w => by
    by_cases hf : f = 0
    · rw [hf, hpc]
      simp
    · rw [hother f hf]
      simp) _ h₃
  -- the callback is taken, not a fiber
  have hcallback : s₃.Successive (.take 0) ∧ s₃.Punctual (.take 0) := by
    refine ⟨trivial, fun t rest f w hscan hf => ?_⟩
    rw [hqueue] at hscan
    obtain rfl := Option.some_inj.mp (Prod.mk.inj (Option.some_inj.mp hscan)).1
    exact absurd hf (by simp [Task.ofFunc])
  have hreach := (hreach.step _ hcallback h₄).run_admitted _ h₅ (by simp [Successive, Punctual])
  -- the fiber is resumed when it has run
  have hfiber : s₅.Successive (.take 0) ∧ s₅.Punctual (.take 0) :=
    ⟨trivial, fun t rest f w _ _ _ => by simp [hqueue₅, hrunning₅, Task.ofFiber]⟩
  have hdel : s₆.Successive (.delTimer 0) ∧ s₆.Punctual (.delTimer 0) := ⟨trivial, trivial⟩
  have hreach := (hreach.step _ hfiber h₆).step _ hdel h₇
  exact ⟨s₇, hreach, hpc₇, hcancel, confined hreach⟩

set_option maxRecDepth 2000 in
/-- A read with a timeout of a second gets its data just when the timer expires:
the fiber is queued, then the callback.  The fiber reads, returns, and waits in
its next read of the descriptor when the callback runs: it is about to cancel
this read. -/
theorem late_timeout :
    ∃ s, Reachable step (fun s a => s.Successive a) defaultConfig.boot s ∧ ¬ s.Confined ∧
      s.pc 0 = .io .held 1 ∧ s.BitSet 0 ∧ s.running = [(0, true)] := by
  have hrun : ∃ s, Reachable step (fun s a => s.Successive a) defaultConfig.boot s ∧
      s.pc 0 = .io .held 1 ∧ s.BitSet 0 ∧ s.running = [(0, true)] ∧ s.live 0 = false := by
    refine ⟨_, ((((Reachable.init.run_admitted [.call 0 ⟨5, .read, 1⟩] rfl
      (by simp [Successive])).step (.rawAgain 0)
      (fun c hc => ⟨fun w hw => absurd hw Bool.false_ne_true, ?first⟩) rfl).run_admitted
      [.arm 0, .addCtl 0 false, .update 0, .yield 0, .tick 200 200, .tick 400 400,
        .tick 600 600, .tick 800 800, .tick 1000 1000, .dispatch 5 IN false, .tick 1200 1200,
        .take 0, .delTimer 0, .check 0, .rawDone 0, .call 0 ⟨5, .read, 1⟩] rfl
      (by simp [Successive])).step (.rawAgain 0)
      (fun c hc => ⟨fun w hw => ?dead, ?second⟩) rfl).run_admitted
      [.arm 0, .addCtl 0 false, .update 0, .yield 0, .take 0, .setCancel 0] rfl
      (by simp [Successive]), rfl, ?_, rfl, rfl⟩
    case first =>
      obtain rfl := FiberPc.calling.inj hc
      rfl
    case dead => cases w <;> exact absurd hw Bool.false_ne_true
    case second =>
      have hcall : (⟨5, .read, 1⟩ : Call) = c :=
        FiberPc.calling.inj (show FiberPc.calling ⟨5, .read, 1⟩ = .calling c from hc)
      rw [← hcall]
      exact (by decide : (0 ||| Dir.read.mask) &&& ~~~Dir.read.mask &&& Dir.read.mask = (0 : Mask))
    · exact (by decide : IN &&& Dir.read.mask ≠ 0)
  obtain ⟨s, hs, hpc, hbit, hrunning, hlive⟩ := hrun
  refine ⟨s, hs, fun h => ?_, hpc, hbit, hrunning⟩
  have := (h.acting 0 true (by rw [hrunning]; exact List.mem_singleton_self _)).1
  exact absurd (hlive.symm.trans this) (by decide)

end Runtime

end Server
