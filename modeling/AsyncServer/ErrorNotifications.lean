/-
Error and hang-up notifications.

epoll reports `EPOLLERR` and `EPOLLHUP` without being asked, alone or together with
directions that are registered.  Whoever waits for a direction of such a descriptor
should be woken, since no other notification may follow.  The dispatch in `idle`
looks at the bits `EPOLLIN` and `EPOLLOUT` of a notification only.

* `getEvent_dispatch` — a direction that is not reported keeps its waiter, whatever
  else is reported;
* `servesDue_of_reported` — a direction that is reported is served as it should be;
* `servesDue_iff` — so an error or a hang-up wakes all waiters exactly when each of
  their directions happens to be reported with it.
-/
import AsyncServer.WaiterLedger

namespace Server

open Epoll Transition

/-- The notification is of an error or a hang-up. -/
def Broken (events : Mask) : Prop := events &&& (ERR ||| HUP) ≠ 0

instance (events : Mask) : Decidable (Broken events) := inferInstanceAs (Decidable (_ ≠ _))

/-- The waiter of direction `d` is to be woken by the notification. -/
def Due (events : Mask) (d : Dir) : Prop := events &&& d.mask ≠ 0 ∨ Broken events

instance (events : Mask) (d : Dir) : Decidable (Due events d) :=
  inferInstanceAs (Decidable (_ ∨ _))

namespace Event

variable {φ κ : Type*}

/-- The waiters that are to be woken by the notification. -/
def due (task : Event φ κ) (events : Mask) : List (Task φ κ) :=
  (if Due events .read then (task.getEvent .read).task.toList else []) ++
    if Due events .write then (task.getEvent .write).task.toList else []

/-- What epoll may report for an event: registered directions, an error and a hang-up,
and at least one of them. -/
structure Reportable (task : Event φ κ) (events : Mask) : Prop where
  bits : events &&& ~~~(IN ||| OUT ||| ERR ||| HUP) = 0
  registered : ∀ d : Dir, events &&& d.mask ≠ 0 → task.event &&& d.mask ≠ 0
  nonempty : events ≠ 0

/-- Every registered direction is reported. -/
def AllReported (task : Event φ κ) (events : Mask) : Prop :=
  ∀ d : Dir, task.event &&& d.mask ≠ 0 → events &&& d.mask ≠ 0

/-- A notification without an error or a hang-up reports a direction. -/
theorem Reportable.exists_dir {task : Event φ κ} {events : Mask} (h : task.Reportable events)
    (hok : ¬ Broken events) : ∃ d : Dir, events &&& d.mask ≠ 0 := by
  by_contra hnone
  push Not at hnone
  -- then it has no bit at all
  have hall : events &&& (IN ||| OUT ||| ERR ||| HUP) = 0 := by
    rw [show IN ||| OUT ||| ERR ||| HUP = (IN ||| OUT) ||| (ERR ||| HUP) by decide,
      BitVec.and_or_distrib_left, show events &&& (ERR ||| HUP) = 0 from not_not.mp hok,
      show events &&& (IN ||| OUT) = 0 from readiness_eq_zero hnone]
    exact BitVec.or_zero
  exact h.nonempty ((and_not_of_and_eq_zero hall).symm.trans h.bits)

end Event

namespace IOManager

variable {N : ℕ} {φ κ : Type*} {s s' : IOManager N φ κ} {fd : ℤ} {events : Mask}

/-- **What a dispatch is to do**: it puts the waiters that are due into the task queue,
each once and nobody else, and takes them off the event; and it leaves every other
waiter there, and its direction in the interest set. -/
structure ServesDue (s s' : IOManager N φ κ) (fd : ℤ) (events : Mask) : Prop where
  woken : ∃ put, s'.mTasks = s.mTasks ++ put ∧ put.Perm ((s.eventAt fd).due events)
  gone : ∀ d, Due events d → ((s'.eventAt fd).getEvent d).task = none
  kept : ∀ d, ¬ Due events d → (s.eventAt fd).event &&& d.mask ≠ 0 →
    (s'.eventAt fd).getEvent d = (s.eventAt fd).getEvent d ∧
      (s'.eventAt fd).event &&& d.mask ≠ 0 ∧
      (s'.epoll fd).any fun m => m &&& d.mask ≠ 0

/-- The pool is in order in every state of every run. -/
theorem ordered_reached {threadCnt : ℕ} {mTimerManager : TimerManager N κ} {mEventfd : ℤ}
    (h : Reachable step anyStep (create threadCnt mTimerManager mEventfd) s) : s.Ordered := by
  refine h.invariant (WaiterLedger.ordered_create threadCnt mTimerManager mEventfd) ?_
  intro s op s' hs _ hstep
  obtain ⟨fd, came, put, lost, hmoves⟩ := moves_step hs hstep
  exact hmoves.ordered hs

/-! ### What is not reported is not woken -/

theorem getEvent_dispatch (hs : s.PoolWf) {fault : Bool}
    (h : s.dispatch fd events fault = some s') {d : Dir} (hd : events &&& d.mask = 0) :
    (s'.eventAt fd).getEvent d = (s.eventAt fd).getEvent d := by
  obtain ⟨-, rfl | ⟨-, -, htrigger, -⟩⟩ := dispatch_cases hs h
  · rfl
  · have hev : s'.eventAt fd = _ := congrArg Prod.fst htrigger
    rw [hev]
    exact getEvent_triggerAll_of_not s.threadCnt (realEvent_and_mask_eq_zero_iff.mpr hd) _

theorem dispatch_defined (hwait : (s.eventAt fd).event ≠ 0) (events : Mask) (fault : Bool) :
    ∃ s', s.dispatch fd events fault = some s' := by
  unfold dispatch
  split_ifs
  · exact ⟨s, rfl⟩
  -- an event with a waiter is one of the pool
  · cases hptr : s.eventPtr fd with
    | none =>
      rw [eventAt, hptr, Option.getD_none] at hwait
      exact absurd rfl hwait
    | some task => exact ⟨_, rfl⟩

/-! ### What is reported is served -/

/-- The dispatch of a notification that reports some registered direction. -/
theorem dispatch_reported (hs : s.PoolWf) (h : s.dispatch fd events false = some s')
    (hfd : fd ≠ s.mEventfd) (hentry : (s.epoll fd).isSome) {d : Dir}
    (hd : events &&& d.mask ≠ 0) (hreg : (s.eventAt fd).event &&& d.mask ≠ 0) :
    (s'.eventAt fd, s'.mTasks) =
        triggerAll s.threadCnt (realEvent events) (s.eventAt fd, s.mTasks) ∧
      s.leaveCtl fd events false = some s'.epoll := by
  obtain ⟨-, ⟨-, hwhy⟩ | ⟨-, -, htrigger, hctl⟩⟩ := dispatch_spec hs h
  · rcases hwhy with hwhy | hwhy | hwhy
    · exact absurd hwhy hfd
    -- the test of the dispatch lets it pass
    · have hfree : (s.eventAt fd).event &&& d.mask = 0 := by
        rw [← (and_mask_cases _ d).resolve_left (realEvent_and_mask hd), ← BitVec.and_assoc, hwhy]
        exact BitVec.zero_and
      exact absurd hfree hreg
    · rw [leaveCtl_eq hentry] at hwhy
      exact absurd hwhy (by simp)
  · exact ⟨htrigger, hctl⟩

/-- A direction that is not in `realEvent` stays in `event`. -/
theorem and_not_realEvent_and_mask {m : Mask} {d : Dir} (h : events &&& d.mask = 0) :
    m &&& ~~~realEvent events &&& d.mask = m &&& d.mask := by
  have hreal : d.mask &&& realEvent events = 0 := by
    rw [BitVec.and_comm]
    exact realEvent_and_mask_eq_zero_iff.mpr h
  rw [BitVec.and_assoc, BitVec.and_comm _ d.mask, and_not_of_and_eq_zero hreal]

/-- When what is due is what is reported, the dispatch does what it is to do. -/
theorem servesDue_of_reported (hs : s.Ordered) (h : s.dispatch fd events false = some s')
    (hfd : fd ≠ s.mEventfd) (hentry : (s.epoll fd).isSome) {e : Dir}
    (he : events &&& e.mask ≠ 0) (hreg : (s.eventAt fd).event &&& e.mask ≠ 0)
    (hdue : ∀ d : Dir, (s.eventAt fd).event &&& d.mask ≠ 0 → Due events d → events &&& d.mask ≠ 0) :
    s.ServesDue s' fd events := by
  obtain ⟨htrigger, hctl⟩ := dispatch_reported hs.wf h hfd hentry he hreg
  have hev : s'.eventAt fd = _ := congrArg Prod.fst htrigger
  have htasks : s'.mTasks = _ := congrArg Prod.snd htrigger
  -- in a direction that is due and not reported nobody waits
  have hnone : ∀ d : Dir, Due events d → events &&& d.mask = 0 →
      (s.eventAt fd).getEvent d = ⟨none, none⟩ := by
    intro d hd h0
    refine (hs.tidy fd).free d ?_
    by_contra hbit
    exact hdue d hbit hd h0
  constructor
  · refine ⟨_, htasks.trans (tasks_triggerAll _ _ _), .of_eq ?_⟩
    have hslot : ∀ d : Dir, (if realEvent events &&& d.mask ≠ 0 then
          ((s.eventAt fd).getEvent d).task.toList else []) =
        if Due events d then ((s.eventAt fd).getEvent d).task.toList else [] := by
      intro d
      by_cases hd : events &&& d.mask = 0
      · rw [if_neg (not_not.mpr (realEvent_and_mask_eq_zero_iff.mpr hd))]
        split_ifs with hdue'
        · rw [hnone d hdue' hd]
          rfl
        · rfl
      · rw [if_pos (realEvent_and_mask hd), if_pos (.inl hd)]
    exact congrArg₂ _ (hslot .read) (hslot .write)
  · intro d hd
    by_cases h0 : events &&& d.mask = 0
    · rw [getEvent_dispatch hs.wf h h0, hnone d hd h0]
      rfl
    · rw [hev, getEvent_triggerAll_self _ (realEvent_and_mask h0)]
      rfl
  · intro d hd hbit
    have h0 : events &&& d.mask = 0 := by
      by_contra hne
      exact hd (.inl hne)
    have hleft : (s.eventAt fd).event &&& ~~~realEvent events &&& d.mask ≠ 0 := by
      rwa [and_not_realEvent_and_mask h0]
    have hne : (s.eventAt fd).event &&& ~~~realEvent events ≠ 0 := by
      intro hzero
      rw [hzero] at hleft
      exact hleft BitVec.zero_and
    refine ⟨getEvent_dispatch hs.wf h h0, ?_, ?_⟩
    · rw [hev, event_triggerAll]
      exact hleft
    -- the `MOD` is for the directions that are left
    · rw [leaveCtl_eq hentry, if_neg hne, Option.some_inj] at hctl
      rw [← hctl, Function.update_self, Option.any_some, decide_eq_true_eq, BitVec.and_comm,
        BitVec.and_or_distrib_left, BitVec.and_comm d.mask (_ &&& _)]
      exact fun hzero => hleft (BitVec.or_eq_zero_iff.mp hzero).2

/-- **When an error or a hang-up wakes the waiters.**  For every event with a waiter and
every mask that epoll may report for it, with an `epoll_ctl` that succeeds, the
dispatch does what it is to do exactly when the mask has neither `EPOLLERR` nor
`EPOLLHUP`, or reports every registered direction as well. -/
theorem servesDue_iff (hs : s.Ordered) (hfd : fd ≠ s.mEventfd)
    (hwait : (s.eventAt fd).event ≠ 0) (hentry : (s.epoll fd).isSome)
    (hevents : (s.eventAt fd).Reportable events) :
    ∃ s', s.dispatch fd events false = some s' ∧
      (s.ServesDue s' fd events ↔ ¬ Broken events ∨ (s.eventAt fd).AllReported events) := by
  obtain ⟨s', h⟩ := dispatch_defined hwait events false
  refine ⟨s', h, fun hserves => ?_, fun hcond => ?_⟩
  · by_contra hcond
    obtain ⟨hbroken, hall⟩ := not_or.mp hcond
    obtain ⟨d, hd⟩ := not_forall.mp hall
    obtain ⟨hbit, h0⟩ := Classical.not_imp.mp hd
    -- the waiter of `d` is still there
    have hgone := hserves.gone d (.inr (not_not.mp hbroken))
    rw [getEvent_dispatch hs.wf h (not_not.mp h0)] at hgone
    exact absurd ((hs.tidy fd).taken d hbit) (by simp [hgone])
  · obtain ⟨e, he, hdue⟩ : ∃ e : Dir, events &&& e.mask ≠ 0 ∧ ∀ d : Dir,
        (s.eventAt fd).event &&& d.mask ≠ 0 → Due events d → events &&& d.mask ≠ 0 := by
      rcases hcond with hok | hall
      · obtain ⟨e, he⟩ := hevents.exists_dir hok
        exact ⟨e, he, fun d _ hd => hd.resolve_right hok⟩
      -- a registered direction is one of the two
      · obtain ⟨e, he⟩ := (hs.tidy fd).exists_dir hwait
        exact ⟨e, hall e he, fun d hd _ => hall d hd⟩
    exact servesDue_of_reported hs h hfd hentry he (hevents.registered e he) hdue

/-- Fiber 0 waits to read descriptor 5, and fiber 1 to write to it. -/
def bothWait : List (EventOp ℕ Unit) :=
  [.addEvent 5 .read none ET 0 false, .addEvent 5 .write none ET 1 false]

set_option maxRecDepth 2000 in
/-- The other end breaks off, and both directions are reported with it: both are woken. -/
theorem servesDue_readable : ∃ s s', run step bothWait loopOf3 = some s ∧
    s.dispatch 5 (IN ||| OUT ||| ERR ||| HUP) false = some s' ∧
      s'.mTasks = [.ofFiber 0, .ofFiber 1] ∧ s.ServesDue s' 5 (IN ||| OUT ||| ERR ||| HUP) := by
  obtain ⟨s, s', hrun, hdispatch, htasks, hfd, hevent, hentry⟩ : ∃ s s',
      run step bothWait loopOf3 = some s ∧
      s.dispatch 5 (IN ||| OUT ||| ERR ||| HUP) false = some s' ∧
      s'.mTasks = [.ofFiber 0, .ofFiber 1] ∧ s.mEventfd = 3 ∧
      (s.eventAt 5).event = IN ||| OUT ∧ (s.epoll 5).isSome := ⟨_, _, rfl, rfl, rfl, rfl, rfl, rfl⟩
  have hreport : (s.eventAt 5).Reportable (IN ||| OUT ||| ERR ||| HUP) := by
    refine ⟨by decide, fun d _ => ?_, by decide⟩
    rw [hevent]
    cases d <;> decide
  have hall : (s.eventAt 5).AllReported (IN ||| OUT ||| ERR ||| HUP) := by
    intro d _
    cases d <;> decide
  obtain ⟨t, ht, hiff⟩ := servesDue_iff (ordered_reached (.of_run hrun)) (by rw [hfd]; decide)
    (by rw [hevent]; decide) hentry hreport
  obtain rfl := Option.some_inj.mp (hdispatch.symm.trans ht)
  exact ⟨s, s', hrun, hdispatch, htasks, hiff.mpr (.inr hall)⟩

set_option maxRecDepth 2000 in
/-- The other end hangs up: nobody is woken. -/
theorem hangup_wakes_nobody : ∃ s, run step bothWait loopOf3 = some s ∧
    (s.eventAt 5).Reportable HUP ∧ s.dispatch 5 HUP false = some s ∧ s.mTasks = [] ∧
    ¬ s.ServesDue s 5 HUP := by
  obtain ⟨s, hrun, hdispatch, htasks, hslot⟩ : ∃ s,
      run step bothWait loopOf3 = some s ∧ s.dispatch 5 HUP false = some s ∧ s.mTasks = [] ∧
      ((s.eventAt 5).getEvent .read).task = some (.ofFiber 0) := ⟨_, rfl, rfl, rfl, rfl⟩
  refine ⟨s, hrun, ⟨by decide, fun d hd => ?_, by decide⟩, hdispatch, htasks, fun h => ?_⟩
  · exact absurd hd (by cases d <;> decide)
  · have hgone := h.gone .read (.inr (by decide))
    rw [hslot] at hgone
    exact absurd hgone (by simp)

end IOManager

end Server
