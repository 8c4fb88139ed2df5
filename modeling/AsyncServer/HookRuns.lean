/-
What every run of hooked calls keeps.

`Runtime.Wf` holds in every state of every run, whatever the interleaving and
whatever `epoll_ctl` says (`reachable_wf`): the event pool and the timer wheel
are in order, and a wait belongs to the one fiber that is in it.
-/
import AsyncServer.EventPool
import AsyncServer.Hook
import AsyncServer.TimerWheel
import AsyncServer.Transition

namespace Server

open Epoll Transition

namespace Runtime

variable {N : ℕ} {s s' : Runtime N}

structure Wf (s : Runtime N) : Prop where
  pool : s.iom.PoolWf
  wheel : s.iom.mTimerManager.Wf
  owner : ∀ {f st w}, s.pc f = .io st w → w < s.nextWait ∧ (s.waits w).fiber = f

theorem pc_goto (s : Runtime N) (f : ℕ) (p : FiberPc) (g : ℕ) :
    (s.goto f p).pc g = if g = f then p else s.pc g := by
  simp [goto, Function.update_apply]

@[simp] theorem iom_goto (s : Runtime N) (f : ℕ) (p : FiberPc) : (s.goto f p).iom = s.iom := rfl

@[simp] theorem waits_goto (s : Runtime N) (f : ℕ) (p : FiberPc) :
    (s.goto f p).waits = s.waits := rfl

@[simp] theorem running_goto (s : Runtime N) (f : ℕ) (p : FiberPc) :
    (s.goto f p).running = s.running := rfl

@[simp] theorem iom_setWait (s : Runtime N) (w : ℕ) (wait : Wait) :
    (s.setWait w wait).iom = s.iom := rfl

@[simp] theorem pc_setWait (s : Runtime N) (w : ℕ) (wait : Wait) :
    (s.setWait w wait).pc = s.pc := rfl

@[simp] theorem running_setWait (s : Runtime N) (w : ℕ) (wait : Wait) :
    (s.setWait w wait).running = s.running := rfl

theorem waits_setWait (s : Runtime N) (w : ℕ) (wait : Wait) (v : ℕ) :
    (s.setWait w wait).waits v = if v = w then wait else s.waits v := by
  simp [setWait, Function.update_apply]

/-- Where a resumed fiber goes. -/
theorem resume_cases {f : ℕ} (h : s.resume f = some s') :
    (∃ w, s.pc f = .io .held w ∧ s' = s.goto f (.io .resumed w)) ∨
      (s.pc f = .sleeping true ∧ s' = s.goto f .user) := by
  unfold resume at h
  split at h
  · exact .inl ⟨_, by assumption, (Option.some_inj.mp h).symm⟩
  · exact .inr ⟨by assumption, (Option.some_inj.mp h).symm⟩
  · exact absurd h (by simp)

theorem Wf.goto (hs : s.Wf) {f : ℕ} {p : FiberPc}
    (hp : ∀ st w, p = .io st w → w < s.nextWait ∧ (s.waits w).fiber = f) : (s.goto f p).Wf := by
  refine ⟨hs.pool, hs.wheel, fun {g st w} h => ?_⟩
  rw [pc_goto] at h
  split_ifs at h with hg
  · exact hg ▸ hp st w h
  · exact hs.owner h

theorem Wf.setIom (hs : s.Wf) {iom : IOManager N ℕ Callback} (hpool : iom.PoolWf)
    (hwheel : iom.mTimerManager.Wf) : ({ s with iom := iom } : Runtime N).Wf :=
  ⟨hpool, hwheel, hs.owner⟩

theorem Wf.setWait (hs : s.Wf) {w : ℕ} {wait : Wait} (h : wait.fiber = (s.waits w).fiber) :
    (s.setWait w wait).Wf := by
  refine ⟨hs.pool, hs.wheel, fun {f st v} hf => ?_⟩
  obtain ⟨hlt, hv⟩ := hs.owner hf
  rw [waits_setWait]
  split_ifs with hw
  · exact ⟨hlt, by rw [h, ← hw, hv]⟩
  · exact ⟨hlt, hv⟩

theorem Wf.setRunning (hs : s.Wf) (running : List (ℕ × Bool)) :
    ({ s with running := running } : Runtime N).Wf :=
  ⟨hs.pool, hs.wheel, hs.owner⟩

theorem Wf.setTasks (hs : s.Wf) (rest : List (Task ℕ Callback)) : (s.setTasks rest).Wf :=
  hs.setIom (hs.pool.congr rfl rfl) hs.wheel

theorem Wf.frame (hs : s.Wf) {fd : ℤ} {iom : IOManager N ℕ Callback}
    (h : IOManager.Frame fd s.iom iom) : ({ s with iom := iom } : Runtime N).Wf :=
  hs.setIom h.wf (h.mTimerManager ▸ hs.wheel)

theorem Wf.addTimer (hs : s.Wf) {timing : ℤ} {cb : Callback} {recurr : Bool} {timer : TimerPtr}
    {iom : IOManager N ℕ Callback} (h : s.iom.addTimer timing cb recurr = some (timer, iom)) :
    ({ s with iom := iom } : Runtime N).Wf := by
  obtain ⟨m, hm, rfl⟩ := IOManager.addTimer_eq_some h
  exact hs.setIom (hs.pool.congr rfl rfl) (TimerManager.wf_addTimer hs.wheel hm)

theorem Wf.delTimer (hs : s.Wf) (timer : TimerPtr) :
    ({ s with iom := s.iom.delTimer timer } : Runtime N).Wf :=
  hs.setIom (hs.pool.congr rfl rfl) (TimerManager.wf_delTimer hs.wheel timer)

/-- The step lemma. -/
theorem wf_step {a : Act} (hs : s.Wf) (h : s.step a = some s') : s'.Wf := by
  cases stepped h with
  | call hpc => exact hs.goto (by simp)
  | rawDone hpc => exact hs.goto (by simp)
  | @rawAgain f c hpc =>
    have hs₁ : ({ s with nextWait := s.nextWait + 1 } : Runtime N).Wf :=
      ⟨hs.pool, hs.wheel, fun h => ⟨Nat.lt_succ_of_lt (hs.owner h).1, (hs.owner h).2⟩⟩
    refine ⟨hs.pool, hs.wheel, fun {g st w} h => ?_⟩
    rw [pc_goto] at h
    rw [waits_goto, waits_setWait]
    split_ifs at h with hg
    · obtain ⟨-, rfl⟩ := FiberPc.io.inj h
      exact ⟨Nat.lt_succ_self _, by rw [if_pos rfl, hg]⟩
    · obtain ⟨hlt, hf⟩ := hs₁.owner h
      have hw := (hs.owner h).1
      exact ⟨hlt, by rw [if_neg hw.ne]; exact hf⟩
  | arm hpc hadd =>
    refine ((hs.addTimer hadd).setWait ?_).goto fun st w h => ?_
    · rfl
    · obtain ⟨-, rfl⟩ := FiberPc.io.inj h
      rw [waits_setWait, if_pos rfl]
      exact hs.owner hpc
  | noTimer hpc => exact hs.goto (by rintro st w ⟨⟩; exact hs.owner hpc)
  | addCtl hpc hctl =>
    refine (hs.frame (IOManager.addEventCtl_cases hs.pool hctl).1).goto fun st w h => ?_
    obtain ⟨-, rfl⟩ := FiberPc.io.inj h
    exact hs.owner hpc
  | update hpc hupd =>
    refine (hs.frame (IOManager.addEventUpdate_eq hs.pool hupd).1).goto fun st w h => ?_
    obtain ⟨-, rfl⟩ := FiberPc.io.inj h
    exact hs.owner hpc
  | yield hpc => exact hs.goto (by rintro st w ⟨⟩; exact hs.owner hpc)
  | yieldSleep hpc => exact hs.goto (by simp)
  | delTimer hpc htimer =>
    refine (hs.delTimer _).goto fun st w h => ?_
    obtain ⟨-, rfl⟩ := FiberPc.io.inj h
    exact hs.owner hpc
  | delNoTimer hpc htimer => exact hs.goto (by rintro st w ⟨⟩; exact hs.owner hpc)
  | check hpc =>
    refine hs.goto fun st w h => ?_
    split_ifs at h
  | sleep hpc hadd => exact (hs.addTimer hadd).goto (by simp)
  | addTimer hadd => exact hs.addTimer hadd
  | delUserTimer hlt => exact hs.delTimer _
  | close hdel =>
    have hframe := (IOManager.delEvent_cases hs.pool hdel).1
    exact (hs.frame hframe).setIom (hframe.wf.congr rfl rfl) (hframe.mTimerManager ▸ hs.wheel)
  | dispatch hdisp => exact hs.frame (IOManager.dispatch_cases hs.pool hdisp).1
  | @tick now now' emitted iom htick =>
    obtain ⟨r, hr, -, rfl⟩ := IOManager.idleTick_eq_some htick
    refine ⟨hs.pool.congr rfl rfl, TimerManager.wf_tick hs.wheel hr, fun {f st w} h => ?_⟩
    obtain ⟨hlt, hf⟩ := hs.owner h
    refine ⟨hlt, ?_⟩
    simp only [expire]
    split_ifs <;> exact hf
  | takeFiber hscan hf hres =>
    obtain ⟨w, hpc, rfl⟩ | ⟨hpc, rfl⟩ := resume_cases hres
    · exact (hs.setTasks _).goto (by rintro st w ⟨⟩; exact hs.owner hpc)
    · exact (hs.setTasks _).goto (by simp)
  | takeTimeout hscan hf hk => exact (hs.setTasks _).setRunning _
  | takeWake hscan hf hk => exact hs.setTasks _
  | takeUser hscan hf hk => exact hs.setTasks _
  | setCancel hrun =>
    refine (hs.setRunning _).setWait ?_
    rfl
  | cancelEvent hrun hcancel =>
    have hframe := (IOManager.cancelEvent_cases hs.pool hcancel).1
    exact ⟨hframe.wf, hframe.mTimerManager ▸ hs.wheel, hs.owner⟩

theorem wf_boot (c : Config N) : c.boot.Wf where
  pool := IOManager.poolWf_create _ _ _
  wheel := TimerManager.wf_create _ _ _ _ _
  owner h := absurd h (by simp [Config.boot, start])

theorem reachable_wf {c : Config N} {ok : Runtime N → Act → Prop}
    (h : Reachable step ok c.boot s) : s.Wf :=
  h.invariant (wf_boot c) fun _ _ _ hs _ hstep => wf_step hs hstep

end Runtime

end Server
