/-
A fiber on two threads.

A fiber is in the hands of a worker from the dequeue of its task to the switch
that saves its context.  The only thing that keeps a second worker from taking
it meanwhile is the test of the dequeue that its `m_state` is not `EXEC`, and
that says so only from the store in `resume` to the store in `yield`.  It misses
two windows: before the first store, and between the second store and the
switch out.

* `stacksApart` — in every run in which no dequeue takes a fiber out of one of
  the two windows, no fiber's stack is used by two workers;
* `queued_before_yield` — a task that queues its own fiber and then yields can
  be resumed by a second worker before the first has left its stack.
-/
import AsyncServer.Scheduler
import AsyncServer.Transition

namespace Server

open Transition

namespace Sched

variable {κ : Type*} {s s' : Sched κ}

/-- Worker `w` executes on the stack of `f`: it has switched onto it and has
not completed the switch out. -/
def OnStack (s : Sched κ) (w : ℕ) (f : FiberId) : Prop :=
  s.pc w = .running f ∨ s.pc w = .yielding f

/-- While a worker executes on a fiber's stack, no other worker does, and none
is about to switch onto it. -/
def StacksApart (s : Sched κ) : Prop :=
  ∀ w w' f, s.OnStack w f → s.OnStack w' f ∨ s.pc w' = .resuming f → w = w'

/-- The condition on a step: a dequeue does not take a fiber that another
worker has dequeued and not yet marked `EXEC`, or has marked `HOLD` (or `TERM`)
and not yet switched out of. -/
def OutsideWindows (s : Sched κ) : Act κ → Prop
  | .dequeue w => ∀ t rest n,
      scan s.threadCnt w (fun n => s.mState (.user n)) s.mTasks = some (some t, rest) →
      t.fiber = some n →
      ∀ v, s.pc v ≠ .dequeued (.user n) ∧ s.pc v ≠ .yielding (.user n)
  | _ => True

/-- What holds between the workers: a fiber is in the hands of one worker at
most, and marked `EXEC` as long as the dequeue has to see it. -/
structure Owned (s : Sched κ) : Prop where
  unique : ∀ {w w' f}, (s.pc w).fiber = some f → (s.pc w').fiber = some f → w = w'
  exec : ∀ {w f}, s.pc w = .resuming f ∨ s.pc w = .running f → s.mState f = .exec
  idle : ∀ {w v}, (s.pc w).fiber = some (.idle v) → v = w
  made : ∀ {w n}, (s.pc w).fiber = some (.user n) → n < s.next
  queued : ∀ t ∈ s.mTasks, ∀ n, t.fiber = some n → n < s.next

theorem fiber_of_exec {p : Pc} {f : FiberId} (h : p = .resuming f ∨ p = .running f) :
    p.fiber = some f := by
  rcases h with rfl | rfl <;> rfl

theorem fiber_of_onStack {w : ℕ} {f : FiberId} (h : s.OnStack w f) :
    (s.pc w).fiber = some f := by
  rcases h with h | h <;> rw [h] <;> rfl

theorem owned_start (threadCnt : ℕ) : (start threadCnt : Sched κ).Owned where
  unique h := absurd h (by simp [start, Pc.fiber])
  exec h := absurd h (by simp [start])
  idle h := absurd h (by simp [start, Pc.fiber])
  made h := absurd h (by simp [start, Pc.fiber])
  queued t h := absurd h (by simp [start])

/-- A step of worker `w` within its hold on a fiber, or out of it. -/
theorem owned_keep (hs : s.Owned) (w : ℕ) (hpc : ∀ v, v ≠ w → s'.pc v = s.pc v)
    (hfiber : ∀ f, (s'.pc w).fiber = some f → (s.pc w).fiber = some f)
    (hstate : ∀ f, (s.pc w).fiber ≠ some f → s'.mState f = s.mState f)
    (hexec : ∀ f, s'.pc w = .resuming f ∨ s'.pc w = .running f → s'.mState f = .exec)
    (hnext : s'.next = s.next) (htasks : s'.mTasks = s.mTasks) : s'.Owned := by
  -- who has a fiber after the step had it before
  have hback : ∀ {v f}, (s'.pc v).fiber = some f → (s.pc v).fiber = some f := by
    intro v f h
    by_cases hv : v = w
    · subst hv
      exact hfiber f h
    · rwa [hpc v hv] at h
  refine ⟨fun h h' => hs.unique (hback h) (hback h'), fun {v f} h => ?_,
    fun h => hs.idle (hback h), fun h => hnext ▸ hs.made (hback h), ?_⟩
  · by_cases hv : v = w
    · subst hv
      exact hexec f h
    · rw [hpc v hv] at h
      rw [hstate f fun hw => hv (hs.unique (fiber_of_exec h) hw)]
      exact hs.exec h
  · rw [htasks, hnext]
    exact hs.queued

/-- Worker `w` takes a fiber that no worker has. -/
theorem owned_take (hs : s.Owned) {w : ℕ} {f : FiberId}
    (hfree : ∀ v, (s.pc v).fiber ≠ some f) (hidle : ∀ v, f = .idle v → v = w)
    (hpc : s'.pc = Function.update s.pc w (.dequeued f))
    (hstate : ∀ g, g ≠ f → s'.mState g = s.mState g) (hnext : s.next ≤ s'.next)
    (hmade : ∀ n, f = .user n → n < s'.next) (htasks : ∀ t ∈ s'.mTasks, t ∈ s.mTasks) :
    s'.Owned := by
  have hself : s'.pc w = .dequeued f := by rw [hpc, Function.update_self]
  have hother : ∀ v, v ≠ w → s'.pc v = s.pc v := fun v hv => by
    rw [hpc, Function.update_of_ne hv]
  -- who has a fiber after the step is `w` with `f`, or had it before
  have hback : ∀ {v g}, (s'.pc v).fiber = some g → (v = w ∧ g = f) ∨ (s.pc v).fiber = some g := by
    intro v g h
    by_cases hv : v = w
    · subst hv
      rw [hself, Pc.fiber, Option.some_inj] at h
      exact .inl ⟨rfl, h.symm⟩
    · rw [hother v hv] at h
      exact .inr h
  refine ⟨fun {v v' g} h h' => ?_, fun {v g} h => ?_, fun {v u} h => ?_, fun {v n} h => ?_,
    fun t ht n hn => (hs.queued t (htasks t ht) n hn).trans_le hnext⟩
  · rcases hback h with ⟨hv, hg⟩ | h <;> rcases hback h' with ⟨hv', hg'⟩ | h'
    · exact hv.trans hv'.symm
    · exact absurd (hg ▸ h') (hfree _)
    · exact absurd (hg' ▸ h) (hfree _)
    · exact hs.unique h h'
  · have hv : v ≠ w := by
      rintro rfl
      rw [hself] at h
      exact absurd h (by simp)
    rw [hother v hv] at h
    rw [hstate g fun hg => hfree v (hg ▸ fiber_of_exec h)]
    exact hs.exec h
  · rcases hback h with ⟨rfl, hf⟩ | h
    · exact hidle u hf.symm
    · exact hs.idle h
  · rcases hback h with ⟨rfl, hf⟩ | h
    · exact hmade n hf.symm
    · exact (hs.made h).trans_le hnext

/-- A fiber that is queued, outside the windows and not `EXEC` is free. -/
theorem free_of_not_exec (hs : s.Owned) {n : ℕ} (hne : s.mState (.user n) ≠ .exec)
    (hwin : ∀ v, s.pc v ≠ .dequeued (.user n) ∧ s.pc v ≠ .yielding (.user n)) (v : ℕ) :
    (s.pc v).fiber ≠ some (.user n) := by
  intro h
  -- the windows are the two places where a fiber in somebody's hands need not be `EXEC`
  cases hp : s.pc v with
  | head => simp [hp, Pc.fiber] at h
  | returned f => simp [hp, Pc.fiber] at h
  | exited => simp [hp, Pc.fiber] at h
  | dequeued f =>
    rw [hp, Pc.fiber, Option.some_inj] at h
    exact (hwin v).1 (h ▸ hp)
  | resuming f =>
    rw [hp, Pc.fiber, Option.some_inj] at h
    exact hne (hs.exec (.inl (h ▸ hp)))
  | running f =>
    rw [hp, Pc.fiber, Option.some_inj] at h
    exact hne (hs.exec (.inr (h ▸ hp)))
  | yielding f =>
    rw [hp, Pc.fiber, Option.some_inj] at h
    exact (hwin v).2 (h ▸ hp)

/-- A step after which worker `w` stands at `p` and `m_state` of the fiber it
has may have changed. -/
theorem owned_goto (hs : s.Owned) {w : ℕ} {p : Pc} {mState : FiberId → FiberState}
    {finished : FiberId → Bool} {cnt : ℤ}
    (hfiber : ∀ f, p.fiber = some f → (s.pc w).fiber = some f)
    (hstate : ∀ f, (s.pc w).fiber ≠ some f → mState f = s.mState f)
    (hexec : ∀ f, p = .resuming f ∨ p = .running f → mState f = .exec) :
    (({ s with mState := mState, finished := finished, mActiveCnt := cnt } : Sched κ).goto
      w p).Owned := by
  refine owned_keep hs w (fun v hv => Function.update_of_ne hv _ _) ?_ hstate ?_ rfl rfl <;>
    simpa [goto]

/-- The step lemma. -/
theorem owned_step {a : Act κ} (hs : s.Owned) (hwin : s.OutsideWindows a)
    (h : s.step a = some s') : s'.Owned := by
  cases stepped h with
  | newFiber =>
    refine ⟨hs.unique, fun {w f} hf => ?_, hs.idle, fun hf => Nat.lt_succ_of_lt (hs.made hf),
      fun t ht n hn => Nat.lt_succ_of_lt (hs.queued t ht n hn)⟩
    have hne : f ≠ .user s.next := by
      rintro rfl
      exact lt_irrefl _ (hs.made (fiber_of_exec hf))
    show Function.update s.mState _ _ f = _
    rw [Function.update_of_ne hne]
    exact hs.exec hf
  -- the fiber of a task exists, so none that is made later is queued already
  | addTask hmade =>
    refine ⟨hs.unique, hs.exec, hs.idle, hs.made, fun u hu n hun => ?_⟩
    rcases mem_addTaskNoLock hu with hu | hu
    · exact hs.queued u hu n hun
    · exact hmade n (hu ▸ hun)
  | @dequeueNone w rest hpc hscan =>
    refine owned_take hs (w := w) (f := .idle w) (fun v hv => ?_) ?_ rfl (fun _ _ => rfl) le_rfl
      ?_ fun _ ht => ht
    · -- the idle fiber of `w` is only ever in the hands of `w`
      rw [← hs.idle hv, hpc] at hv
      simp [Pc.fiber] at hv
    · simp
    · simp
  | @dequeueFiber w n t rest hpc hscan hf =>
    obtain ⟨hrest, htaken⟩ := scan_spec hscan
    obtain ⟨hmem, hne⟩ := htaken t rfl
    exact owned_take hs (free_of_not_exec hs (hne n hf) (hwin t rest n hscan hf)) (by simp) rfl
      (fun _ _ => rfl) le_rfl (fun k hk => by
        rw [FiberId.user.injEq] at hk
        exact hk ▸ hs.queued t hmem n hf) hrest
  -- a function runs on a fiber that is made for it
  | dequeueFunc hpc hscan hf =>
    refine owned_take hs (f := .user s.next) (fun v hv => lt_irrefl _ (hs.made hv)) (by simp)
      rfl (fun g hg => ?_) (Nat.le_succ _) (fun k hk => ?_) (scan_spec hscan).1
    · simp [make, taken, store, goto, hg]
    · rw [FiberId.user.injEq] at hk
      exact hk ▸ Nat.lt_succ_self _
  | @setExec w f hpc =>
    refine owned_goto hs (by simp [hpc, Pc.fiber]) (fun g hg => ?_) (fun g hg => ?_)
    · rw [hpc, Pc.fiber, ne_eq, Option.some_inj] at hg
      exact Function.update_of_ne (Ne.symm hg) _ _
    · obtain rfl : f = g := by simpa using hg
      exact Function.update_self _ _ _
  | @switchIn w f hpc =>
    refine owned_goto hs (by simp [hpc, Pc.fiber]) (fun _ _ => rfl) (fun g hg => ?_)
    obtain rfl : f = g := by simpa using hg
    exact hs.exec (.inl hpc)
  | setHold hpc hfin =>
    refine owned_goto hs (by simp [hpc, Pc.fiber]) (fun g hg => ?_) (by simp)
    rw [hpc, Pc.fiber, ne_eq, Option.some_inj] at hg
    exact Function.update_of_ne (Ne.symm hg) _ _
  | setTerm hpc hfin =>
    refine owned_goto hs (by simp [hpc, Pc.fiber]) (fun g hg => ?_) (by simp)
    rw [hpc, Pc.fiber, ne_eq, Option.some_inj] at hg
    exact Function.update_of_ne (Ne.symm hg) _ _
  | switchOut hpc => exact owned_goto hs (by simp [Pc.fiber]) (fun _ _ => rfl) (by simp)
  | threadEnd hpc hfin => exact owned_goto hs (by simp [Pc.fiber]) (fun _ _ => rfl) (by simp)
  | loopTask hpc => exact owned_goto hs (by simp [Pc.fiber]) (fun _ _ => rfl) (by simp)
  | loopIdle hpc => exact owned_goto hs (by simp [Pc.fiber]) (fun _ _ => rfl) (by simp)
  | leave hpc => exact owned_goto hs (by simp [Pc.fiber]) (fun _ _ => rfl) (by simp)

/-- **A fiber runs on one thread at a time, outside the windows**: in every run
in which no dequeue takes a fiber out of a window, no worker executes on, or is
about to switch onto, a stack that another worker executes on. -/
theorem stacksApart {threadCnt : ℕ}
    (h : Reachable step OutsideWindows (start threadCnt : Sched κ) s) : s.StacksApart := by
  have hs : s.Owned :=
    h.invariant (owned_start threadCnt) fun _ _ _ hs hwin hstep => owned_step hs hwin hstep
  intro w w' f hw hw'
  refine hs.unique (fiber_of_onStack hw) ?_
  rcases hw' with hw' | hw'
  · exact fiber_of_onStack hw'
  · exact fiber_of_exec (.inl hw')

/-- A fiber is queued and resumed. -/
theorem stacksApart_resumed :
    ∃ s : Sched Unit, Reachable step OutsideWindows (start 2) s ∧
      s.pc 0 = .running (.user 0) ∧ s.StacksApart := by
  have hrun : ∃ s : Sched Unit, Reachable step OutsideWindows (start 2) s ∧
      s.pc 0 = .running (.user 0) :=
    ⟨_, ((((Reachable.init.step .newFiber trivial rfl).step (.addTask (.ofFiber 0)) trivial
      rfl).step (.dequeue 0) (fun _ _ _ _ _ v => ⟨nofun, nofun⟩) rfl).step (.setExec 0) trivial
      rfl).step (.switchIn 0) trivial rfl, rfl⟩
  obtain ⟨s, hs, hpc⟩ := hrun
  exact ⟨s, hs, hpc, stacksApart hs⟩

/-- A task queues its own fiber and yields; between the store of `HOLD` and the
switch out a second worker takes the fiber and switches onto its stack. -/
theorem queued_before_yield :
    ∃ s : Sched Unit, Reachable step anyStep (start 2) s ∧ ¬ s.StacksApart := by
  have hrun : ∃ s : Sched Unit, run step
      [.addTask (.ofFunc ()), .dequeue 0, .setExec 0, .switchIn 0, .addTask (.ofFiber 0),
        .setHold 0, .dequeue 1, .setExec 1, .switchIn 1] (start 2) = some s ∧
      s.pc 0 = .yielding (.user 0) ∧ s.pc 1 = .running (.user 0) := ⟨_, rfl, rfl, rfl⟩
  obtain ⟨s, hs, h0, h1⟩ := hrun
  exact ⟨s, .of_run hs, fun h => absurd (h 0 1 _ (.inr h0) (.inl (.inl h1))) (by decide)⟩

end Sched

end Server
