/-
The interest set against the event pool.

The interest set should say of every descriptor what its `Event` says.  Of the
four operations that change both, three do that.  `cancelEvent` of one of two
directions does not: its `MOD` passes the directions from before the
cancellation, so that the cancelled one is still watched.

* `mirrors` — in every run in which no direction is cancelled while both are
  registered, and no flag adds one, the interest set mirrors the pool, and no
  `epoll_ctl` is refused;
* `cancelled_still_watched` — the run that shows the difference.
-/
import AsyncServer.EventPool
import AsyncServer.Transition

namespace Server

open Epoll Transition

/-- An operation on the events, run to completion. -/
inductive EventOp (φ κ : Type*) where
  | addEvent (fd : ℤ) (d : Dir) (cb : Option κ) (flag : Mask) (cur : φ) (fault : Bool)
  | cancelEvent (fd : ℤ) (d : Dir) (fault : Bool)
  | delEvent (fd : ℤ) (fault : Bool)
  | dispatch (fd : ℤ) (events : Mask) (fault : Bool)

namespace IOManager

variable {N : ℕ} {φ κ : Type*} {s s' : IOManager N φ κ} {fd : ℤ} {d : Dir}

/-- One operation. -/
def step (s : IOManager N φ κ) : EventOp φ κ → Option (IOManager N φ κ)
  | .addEvent fd d cb flag cur fault => s.addEvent fd d cb flag cur fault
  | .cancelEvent fd d fault => s.cancelEvent fd d fault
  | .delEvent fd fault => s.delEvent fd fault
  | .dispatch fd events fault => s.dispatch fd events fault

/-- The interest set mirrors the pool. -/
def Mirror (s : IOManager N φ κ) : Prop :=
  ∀ fd, fd ≠ s.mEventfd →
    ((s.epoll fd).isSome ↔ (s.eventAt fd).event ≠ 0) ∧
      ∀ m, s.epoll fd = some m → readiness m = (s.eventAt fd).event

/-- No `epoll_ctl` has an error from outside the interest set. -/
def NoFault (_ : IOManager N φ κ) : EventOp φ κ → Prop
  | .addEvent _ _ _ _ _ fault => fault = false
  | .cancelEvent _ _ fault => fault = false
  | .delEvent _ fault => fault = false
  | .dispatch _ _ fault => fault = false

/-- The condition on an operation: the flags of an `addEvent` that is not
refused name no direction besides those that are registered with it, as its
default `EPOLLET` does not, and `cancelEvent` is not called on a descriptor that
has both directions registered. -/
def OneDirection (s : IOManager N φ κ) : EventOp φ κ → Prop
  | .addEvent fd d _ flag _ _ => (s.eventAt fd).event &&& d.mask = 0 →
      readiness flag ||| (d.mask ||| (s.eventAt fd).event) = d.mask ||| (s.eventAt fd).event
  | .cancelEvent fd _ _ => (s.eventAt fd).event ≠ IN ||| OUT
  | _ => True

/-- What a descriptor's entry in the interest set is to be for the events
`event`. -/
structure Agrees (entry : Option Mask) (event : Mask) : Prop where
  dirs : readiness event = event
  none : entry = none ↔ event = 0
  some : ∀ m, entry = some m → readiness m = event

theorem agrees_none : Agrees none 0 := ⟨readiness_zero, by simp, by simp⟩

theorem agrees_some {m event : Mask} (h : readiness m = event) (h0 : event ≠ 0) :
    Agrees (some m) event := by
  refine ⟨?_, iff_of_false (by simp) h0, fun m' hm => Option.some_inj.mp hm ▸ h⟩
  rw [← h, readiness, readiness, BitVec.and_assoc, BitVec.and_self]

theorem Agrees.isSome {entry : Option Mask} {event : Mask} (h : Agrees entry event)
    (h0 : event ≠ 0) : entry.isSome :=
  Option.isSome_iff_ne_none.mpr fun hn => h0 (h.none.mp hn)

/-- The invariant. -/
structure Mirrored (s : IOManager N φ κ) : Prop where
  wf : s.PoolWf
  agrees : ∀ fd, fd ≠ s.mEventfd → Agrees (s.epoll fd) (s.eventAt fd).event

theorem Mirrored.of_frame (hs : s.Mirrored) (h : Frame fd s s')
    (hfd : fd ≠ s.mEventfd → Agrees (s'.epoll fd) (s'.eventAt fd).event) : s'.Mirrored where
  wf := h.wf
  agrees g hg := by
    rw [h.mEventfd] at hg
    by_cases hgfd : g = fd
    · subst hgfd
      exact hfd hg
    · rw [h.epoll hgfd, h.eventAt hgfd]
      exact hs.agrees g hg

/-- Adding a direction: `ADD` or `MOD`, and the call is not refused. -/
theorem agrees_add {flag event : Mask} {epoll : InterestSet} (h : Agrees (epoll fd) event)
    (hflag : readiness flag ||| (d.mask ||| event) = d.mask ||| event) :
    ∃ epoll', ctl epoll (if event = 0 then .add else .mod) fd (flag ||| d.mask ||| event) false =
        some epoll' ∧ Agrees (epoll' fd) (event ||| d.mask) := by
  have hne : event ||| d.mask ≠ 0 := by
    intro h0
    have := (BitVec.or_eq_zero_iff.mp h0).2
    cases d <;> exact absurd this (by decide)
  have hmask : readiness (flag ||| d.mask ||| event) = event ||| d.mask := by
    rw [readiness_or, readiness_or, readiness_mask, h.dirs, BitVec.or_assoc, hflag,
      BitVec.or_comm]
  -- `ADD` finds no entry and `MOD` finds one, because the entry is there iff `event` is not 0
  split_ifs with h0
  · refine ⟨_, ctl_add (h.none.mpr h0), ?_⟩
    rw [Function.update_self]
    exact agrees_some hmask hne
  · refine ⟨_, ctl_mod (h.isSome h0), ?_⟩
    rw [Function.update_self]
    exact agrees_some hmask hne

/-- Taking directions out with the mask of what is left: `DEL` or `MOD`. -/
theorem agrees_leave {event left m : Mask} {epoll : InterestSet} (h : Agrees (epoll fd) event)
    (h0 : event ≠ 0) (hm : left ≠ 0 → readiness m = left) :
    ∃ epoll', ctl epoll (leaveOp left) fd m false = some epoll' ∧ Agrees (epoll' fd) left := by
  unfold leaveOp
  split_ifs with hl
  · refine ⟨_, ctl_del (h.isSome h0), ?_⟩
    rw [Function.update_self, hl]
    exact agrees_none
  · refine ⟨_, ctl_mod (h.isSome h0), ?_⟩
    rw [Function.update_self]
    exact agrees_some (hm hl) hl

theorem mirrored_create (threadCnt : ℕ) (mTimerManager : TimerManager N κ) (mEventfd : ℤ) :
    (create threadCnt mTimerManager mEventfd : IOManager N φ κ).Mirrored := by
  refine ⟨poolWf_create threadCnt mTimerManager mEventfd, fun fd hfd => ?_⟩
  have hnone : (create threadCnt mTimerManager mEventfd : IOManager N φ κ).epoll fd = none := by
    have hne : fd ≠ mEventfd := hfd
    simp [create, ctxResize, hne]
  rw [eventAt_create, hnone]
  exact agrees_none

/-- The step lemma; no `epoll_ctl` on another descriptor than `mEventfd` is
refused. -/
theorem mirrored_step {op : EventOp φ κ} (hs : s.Mirrored) (hfault : s.NoFault op)
    (hone : s.OneDirection op) (h : s.step op = some s') : s'.Mirrored := by
  cases op with
  | addEvent fd d cb flag cur fault =>
    obtain rfl : fault = false := hfault
    obtain ⟨⟨go, s₁⟩, hctl, h⟩ := Option.bind_eq_some_iff.mp h
    obtain ⟨hframe, hat, -, -, hcases⟩ := addEventCtl_cases hs.wf hctl
    obtain ⟨rfl, hepoll, -⟩ | ⟨rfl, hfree, hepoll⟩ := hcases
    · obtain rfl : s₁ = s' := Option.some_inj.mp h
      refine hs.of_frame hframe fun hfd => ?_
      rw [hepoll, hat]
      exact hs.agrees fd hfd
    · obtain ⟨hframe', hat', -, hepoll'⟩ := addEventUpdate_eq hframe.wf h
      refine hs.of_frame (hframe.trans hframe') fun hfd => ?_
      obtain ⟨epoll, hctl', hagrees⟩ := agrees_add (d := d) (hs.agrees fd hfd) (hone hfree)
      rw [Event.addOp, hctl', Option.some_inj] at hepoll
      rw [hepoll', ← hepoll, hat', hat, Event.event_register]
      exact hagrees
  | cancelEvent fd d fault =>
    obtain rfl : fault = false := hfault
    obtain ⟨hframe, ⟨-, rfl⟩ | ⟨hbit, htrigger, hepoll⟩⟩ := cancelEvent_cases hs.wf h
    · exact hs
    · refine hs.of_frame hframe fun hfd => ?_
      have hagrees := hs.agrees fd hfd
      -- the direction is the only one registered, so that nothing is left
      have hleft : (s.eventAt fd).event &&& ~~~d.mask = 0 := by
        revert hbit hone
        simp only [OneDirection]
        rcases readiness_cases hagrees.dirs with he | he | he | he <;> rw [he] <;> cases d <;>
          decide
      obtain ⟨epoll, hctl, hagrees'⟩ := agrees_leave (m := (s.eventAt fd).event ||| ET) hagrees
        (fun h0 => hbit (by rw [h0]; exact BitVec.zero_and)) fun hl => absurd hleft hl
      rw [hctl, Option.getD_some] at hepoll
      have hevent := congrArg (·.1.event) htrigger
      rw [Event.event_triggerEvent] at hevent
      rw [hepoll]
      exact hevent ▸ hagrees'
  -- `DEL` whatever was registered: no entry, and a fresh event
  | delEvent fd fault =>
    obtain rfl : fault = false := hfault
    obtain ⟨hframe, -, ⟨-, rfl⟩ | ⟨hne, hat, hepoll⟩⟩ := delEvent_cases hs.wf h
    · exact hs
    · refine hs.of_frame hframe fun hfd => ?_
      rw [hepoll, hat, ctl_del ((hs.agrees fd hfd).isSome hne), Option.getD_some,
        Function.update_self]
      exact agrees_none
  | dispatch fd events fault =>
    obtain rfl : fault = false := hfault
    obtain ⟨hframe, rfl | ⟨-, hbit, htrigger, hctl⟩⟩ := dispatch_cases hs.wf h
    · exact hs
    · refine hs.of_frame hframe fun hfd => ?_
      have hagrees := hs.agrees fd hfd
      obtain ⟨epoll, hctl', hagrees'⟩ := agrees_leave
        (m := ET ||| (s.eventAt fd).event &&& ~~~realEvent events) hagrees
        (fun h0 => hbit (by rw [h0]; exact BitVec.zero_and)) fun _ => by
          rw [readiness_ET_or, readiness_and, hagrees.dirs]
      rw [leaveCtl, hctl', Option.some_inj] at hctl
      have hevent := congrArg (·.1.event) htrigger
      rw [event_triggerAll] at hevent
      rw [← hctl]
      exact hevent ▸ hagrees'

/-- **The interest set mirrors the pool** in every state of every run in which
no direction is cancelled while both are registered. -/
theorem mirrors {threadCnt : ℕ} {mTimerManager : TimerManager N κ} {mEventfd : ℤ}
    (h : Reachable step (fun s op => s.NoFault op ∧ s.OneDirection op)
      (create threadCnt mTimerManager mEventfd) s) : s.Mirror := by
  have hs : s.Mirrored := h.invariant (mirrored_create threadCnt mTimerManager mEventfd)
    fun _ _ _ hs hok hstep => mirrored_step hs hok.1 hok.2 hstep
  intro fd hfd
  have hagrees := hs.agrees fd hfd
  refine ⟨?_, hagrees.some⟩
  rw [Option.isSome_iff_ne_none, ne_eq, hagrees.none]

/-- An event loop with `mEventfd` 3. -/
def loopOf3 : IOManager 60 ℕ Unit := create 1 TimerManager.defaultWheel 3

set_option maxRecDepth 1000 in
/-- Both directions of one descriptor are registered, the second with a flag that
names the first again, and one is reported. -/
theorem mirrors_dispatched :
    ∃ s : IOManager 60 ℕ Unit,
      Reachable step (fun s op => s.NoFault op ∧ s.OneDirection op) loopOf3 s ∧
      (s.eventAt 5).event = OUT ∧ s.Mirror := by
  have hrun : ∃ s : IOManager 60 ℕ Unit,
      Reachable step (fun s op => s.NoFault op ∧ s.OneDirection op) loopOf3 s ∧
      (s.eventAt 5).event = OUT :=
    ⟨_, ((Reachable.init.step (.addEvent 5 .read none ET 0 false) ⟨rfl, fun _ => rfl⟩ rfl).step
      (.addEvent 5 .write none (ET ||| IN) 1 false) ⟨rfl, fun _ => rfl⟩ rfl).step
        (.dispatch 5 IN false) ⟨rfl, trivial⟩ rfl, rfl⟩
  obtain ⟨s, hs, hev⟩ := hrun
  exact ⟨s, hs, hev, mirrors hs⟩

set_option maxRecDepth 1000 in
/-- Two fibers wait on descriptor 5, one for each direction, and the read is
cancelled: the interest set still has it. -/
theorem cancelled_still_watched :
    ∃ s : IOManager 60 ℕ Unit, Reachable step NoFault loopOf3 s ∧ ¬ s.Mirror := by
  have hrun : ∃ s, run step [.addEvent 5 .read none ET 0 false,
        .addEvent 5 .write none ET 1 false, .cancelEvent 5 .read false] loopOf3 = some s ∧
      (s.eventAt 5).event = OUT ∧ s.epoll 5 = some (IN ||| OUT ||| ET) ∧ s.mEventfd = 3 :=
    ⟨_, rfl, rfl, rfl, rfl⟩
  obtain ⟨s, hs, hev, hepoll, hfd⟩ := hrun
  refine ⟨s, .of_run_admitted (by simp [NoFault]) hs, fun h => ?_⟩
  have := (h 5 (by rw [hfd]; decide)).2 _ hepoll
  rw [hev] at this
  exact absurd this (by decide)

end IOManager

end Server
