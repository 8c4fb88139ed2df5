/-
The end of a fiber.

When the function of a fiber returns, `MainFunc` stores `TERM` and leaves for good:
the saved context is the end of `MainFunc`, and to resume it ends the thread.
`Fiber::reset` gives the fiber a new function and stores `HOLD`.  The dequeue of
`threadFunc` asks of a fiber only that it is not `EXEC`, and `resume` stores `EXEC`
whatever was there before.

* `Retires` — what keeps finished fibers out of reach: one that is queued is reset
  before a worker may take it, no function returns while a worker is about to resume
  its fiber, and a worker whose `idle()` has returned leaves its loop;
* `neverRevived` — in every run of such steps no worker resumes a finished fiber, and
  only `reset` takes a fiber out of `TERM`;
* `queued_before_return` — a function that queues its own fiber and returns is
  resumed all the same.
-/
import AsyncServer.Scheduler
import AsyncServer.Transition

namespace Server

open Transition

/-- The fiber a worker is about, up to its return to the head of the loop. -/
def Pc.subject : Pc → Option FiberId
  | .dequeued f | .resuming f | .running f | .yielding f | .returned f => some f
  | .head | .exited => none

namespace Sched

variable {κ : Type*} {s s' : Sched κ}

/-- A step of the scheduler, or `Fiber::reset` called by user code. -/
inductive LifeAct (κ : Type*) where
  | sched (a : Act κ)
  | reset (n : ℕ)

/-- `Fiber::reset`: the context is the beginning of `MainFunc` again. -/
def reset (s : Sched κ) (n : ℕ) : Sched κ :=
  { s with finished := Function.update s.finished (.user n) false }.store (.user n) .hold

/-- One step. -/
def lifeStep (s : Sched κ) : LifeAct κ → Option (Sched κ)
  | .sched a => s.step a
  | .reset n => if n < s.next then some (s.reset n) else none

/-- The condition on a step: when a worker looks for a task, none for its thread or
for any is about a finished fiber; no function returns while its fiber is dequeued and
not resumed yet; and no worker goes on after its `idle()` has returned. -/
def Retires (s : Sched κ) : LifeAct κ → Prop
  | .sched (.dequeue w) => ∀ t ∈ s.mTasks, t.threadNum = -1 ∨ t.threadNum = w →
      ∀ n, t.fiber = some n → s.mState (.user n) ≠ .term
  | .sched (.setTerm w) => ∀ n, s.pc w = .running (.user n) → ∀ v, s.pc v ≠ .dequeued (.user n)
  | .sched (.loop w) => ∀ v, s.pc w = .returned (.idle v) → s.mState (.idle v) ≠ .term
  | _ => True

/-- No worker is about to call `resume` on a finished fiber. -/
def NoneRevived (s : Sched κ) : Prop := ∀ w f, s.pc w = .dequeued f → s.mState f ≠ .term

/-- What every run of such steps keeps. -/
structure Retired (s : Sched κ) : Prop where
  queued : ∀ t ∈ s.mTasks, ∀ n, t.fiber = some n → n < s.next
  dequeued : ∀ {w f}, s.pc w = .dequeued f → s.mState f ≠ .term
  finished : ∀ {f}, s.mState f = .term → s.finished f = true
  made : ∀ {w n}, (s.pc w).subject = some (.user n) → n < s.next
  unmade : ∀ {n}, s.next ≤ n → s.mState (.user n) ≠ .term
  own : ∀ {w v}, (s.pc w).subject = some (.idle v) → v = w
  idle : ∀ {w}, s.mState (.idle w) = .term →
    s.pc w = .yielding (.idle w) ∨ s.pc w = .returned (.idle w) ∨ s.pc w = .exited

theorem retired_start (threadCnt : ℕ) : (start threadCnt : Sched κ).Retired where
  queued _ h := absurd h List.not_mem_nil
  dequeued h := absurd h (by simp [start])
  finished h := absurd h (by simp [start])
  made h := absurd h (by simp [start, Pc.subject])
  unmade _ := by simp [start]
  own h := absurd h (by simp [start, Pc.subject])
  idle h := absurd h (by simp [start])

/-- A worker goes on. -/
theorem Retired.goto (hs : s.Retired) {w : ℕ} {p : Pc}
    (hown : ∀ v, p.subject = some (.idle v) → v = w)
    (hmade : ∀ n, p.subject = some (.user n) → n < s.next)
    (hdeq : ∀ f, p = .dequeued f → s.mState f ≠ .term)
    (hidle : s.mState (.idle w) = .term →
      p = .yielding (.idle w) ∨ p = .returned (.idle w) ∨ p = .exited) :
    (s.goto w p).Retired := by
  have hpc : ∀ v, (s.goto w p).pc v = if v = w then p else s.pc v := fun v => by
    simp [Sched.goto, Function.update_apply]
  refine ⟨hs.queued, fun {v f} h => ?_, hs.finished, fun {v n} h => ?_, hs.unmade,
    fun {v u} h => ?_, fun {v} h => ?_⟩
  · rw [hpc] at h
    split_ifs at h with hv
    · exact hdeq f h
    · exact hs.dequeued h
  · rw [hpc] at h
    split_ifs at h with hv
    · exact hmade n h
    · exact hs.made h
  · rw [hpc] at h
    split_ifs at h with hv
    · exact (hown u h).trans hv.symm
    · exact hs.own h
  · rw [hpc]
    split_ifs with hv
    · subst hv
      exact hidle h
    · exact hs.idle h

/-- A worker goes on with the fiber it is about. -/
theorem Retired.goOn (hs : s.Retired) {w : ℕ} {p : Pc} (hp : p.subject = (s.pc w).subject)
    (hdeq : ∀ f, p ≠ .dequeued f)
    (hidle : s.mState (.idle w) = .term →
      p = .yielding (.idle w) ∨ p = .returned (.idle w) ∨ p = .exited) :
    (s.goto w p).Retired :=
  hs.goto (fun _ hv => hs.own (hp ▸ hv)) (fun _ hn => hs.made (hp ▸ hn))
    (fun f hf => absurd hf (hdeq f)) hidle

/-- Any other state than `TERM` may be stored. -/
theorem Retired.store (hs : s.Retired) (f : FiberId) (st : FiberState) (hst : st ≠ .term) :
    (s.store f st).Retired := by
  -- what is `TERM` afterwards was so before
  have hback : ∀ g, (s.store f st).mState g = .term → s.mState g = .term := by
    intro g hg
    by_cases hgf : g = f
    · subst hgf
      simp only [Sched.store, Function.update_self] at hg
      exact absurd hg hst
    · simpa [Sched.store, hgf] using hg
  exact ⟨hs.queued, fun hp h => hs.dequeued hp (hback _ h), fun h => hs.finished (hback _ h),
    hs.made, fun hn h => hs.unmade hn (hback _ h), hs.own, fun h => hs.idle (hback _ h)⟩

/-- A fiber is given a fresh context. -/
theorem Retired.fresh (hs : s.Retired) (n : ℕ) {next : ℕ} (hnext : s.next ≤ next) :
    (({ s with next := next, finished := Function.update s.finished (.user n) false } :
      Sched κ).store (.user n) .hold).Retired := by
  have h := hs.store (.user n) .hold (by decide)
  refine ⟨fun t ht k hk => (h.queued t ht k hk).trans_le hnext, h.dequeued, fun {f} hf => ?_,
    fun hk => (h.made hk).trans_le hnext, fun hk => h.unmade (hnext.trans hk), h.own, h.idle⟩
  have hne : f ≠ .user n := by
    rintro rfl
    simp [Sched.store] at hf
  show Function.update s.finished _ _ f = true
  rw [Function.update_of_ne hne]
  exact h.finished hf

theorem Retired.setTasks (hs : s.Retired) {mTasks : List (Task ℕ κ)} (cnt : ℤ)
    (h : ∀ t ∈ mTasks, ∀ n, t.fiber = some n → n < s.next) :
    ({ s with mTasks := mTasks, mActiveCnt := cnt } : Sched κ).Retired :=
  ⟨h, hs.dequeued, hs.finished, hs.made, hs.unmade, hs.own, hs.idle⟩

/-- The function of `f` returns on worker `w`. -/
theorem Retired.setTerm (hs : s.Retired) {w : ℕ} {f : FiberId} (hw : s.pc w = .running f)
    (hretires : s.Retires (.sched (.setTerm w))) :
    (({ s with finished := Function.update s.finished f true }.store f .term).goto
      w (.yielding f)).Retired := by
  have hstate : ∀ g, g ≠ f → Function.update s.mState f FiberState.term g = s.mState g :=
    fun g hg => Function.update_of_ne hg _ _
  have hpc : ∀ v, v ≠ w → Function.update s.pc w (Pc.yielding f) v = s.pc v :=
    fun v hv => Function.update_of_ne hv _ _
  have hfw : ∀ v, f = .idle v → v = w := fun v hv => hs.own (by rw [hw, hv]; rfl)
  have hsub : ∀ v, (Function.update s.pc w (Pc.yielding f) v).subject = (s.pc v).subject := by
    intro v
    by_cases hv : v = w
    · rw [hv, Function.update_self, hw]
      rfl
    · rw [hpc v hv]
  refine ⟨hs.queued, fun {v g} h => ?_, fun {g} h => ?_, fun {v n} h => ?_, fun {n} h => ?_,
    fun {v u} h => ?_, fun {v} h => ?_⟩
  · change Function.update s.pc w _ v = _ at h
    show Function.update s.mState f _ g ≠ _
    have hv : v ≠ w := by
      rintro rfl
      simp at h
    rw [hpc v hv] at h
    -- nobody is about to resume `f`: not its worker, and no other one by the condition
    have hne : g ≠ f := by
      rintro rfl
      cases g with
      | idle u => exact hv ((hs.own (by rw [h]; rfl)).symm.trans (hfw u rfl))
      | user n => exact hretires n hw v h
    rw [hstate g hne]
    exact hs.dequeued h
  · change Function.update s.mState f _ g = _ at h
    show Function.update s.finished f true g = true
    by_cases hg : g = f
    · rw [hg, Function.update_self]
    · rw [hstate g hg] at h
      rw [Function.update_of_ne hg]
      exact hs.finished h
  · exact hs.made ((hsub v).symm.trans h)
  · show Function.update s.mState f _ (.user n) ≠ _
    have hne : FiberId.user n ≠ f := by
      rintro rfl
      exact absurd (hs.made (by rw [hw]; rfl)) h.not_gt
    rw [hstate _ hne]
    exact hs.unmade h
  · exact hs.own ((hsub v).symm.trans h)
  · change Function.update s.mState f _ (.idle v) = _ at h
    show Function.update s.pc w _ v = _ ∨ Function.update s.pc w _ v = _ ∨
      Function.update s.pc w _ v = _
    by_cases hf : FiberId.idle v = f
    · rw [hfw v hf.symm, Function.update_self, ← hf, hfw v hf.symm]
      exact .inl rfl
    · rw [hstate _ hf] at h
      have hidle := hs.idle h
      have hv : v ≠ w := by
        rintro rfl
        simp only [hw] at hidle
        exact absurd hidle (by simp)
      rw [hpc v hv]
      exact hidle

/-- The step lemma. -/
theorem retired_step {a : LifeAct κ} (hs : s.Retired) (hretires : s.Retires a)
    (h : s.lifeStep a = some s') : s'.Retired := by
  cases a with
  | reset n =>
    simp only [lifeStep] at h
    split_ifs at h
    obtain rfl := Option.some_inj.mp h
    exact hs.fresh n le_rfl
  | sched a =>
    -- elsewhere than on its way out of a finished idle fiber a worker has one to resume
    have hlive : ∀ {w}, (∀ f, s.pc w ≠ .yielding f) → (∀ f, s.pc w ≠ .returned f) →
        s.pc w ≠ .exited → s.mState (.idle w) ≠ .term := by
      intro w hy hr he ht
      rcases hs.idle ht with hp | hp | hp
      · exact hy _ hp
      · exact hr _ hp
      · exact he hp
    cases stepped h with
    | newFiber => exact hs.fresh s.next (Nat.le_succ _)
    | addTask hmade =>
      refine hs.setTasks s.mActiveCnt fun u hu n hn => ?_
      rcases mem_addTaskNoLock hu with hu | hu
      · exact hs.queued u hu n hn
      · rw [hu] at hn
        exact hmade n hn
    | @dequeueNone w rest hpc hscan =>
      have hidle := hlive (w := w) (by simp [hpc]) (by simp [hpc]) (by simp [hpc])
      refine hs.goto (by rintro v ⟨⟩; rfl) (by simp [Pc.subject]) ?_ fun ht => absurd ht hidle
      rintro f ⟨⟩
      exact hidle
    | @dequeueFiber w n t rest hpc hscan hf =>
      obtain ⟨hrest, htaken⟩ := scan_spec hscan
      have hmem : t ∈ s.mTasks := (htaken t rfl).1
      have hs₁ := hs.setTasks (s.mActiveCnt + 1) fun t ht => hs.queued t (hrest t ht)
      refine hs₁.goto (by simp [Pc.subject]) ?_ ?_ fun ht => ?_
      · rintro k ⟨⟩
        exact hs.queued t hmem n hf
      · rintro f ⟨⟩
        exact hretires t hmem (scan_thread hscan) n hf
      · exact absurd ht (hlive (by simp [hpc]) (by simp [hpc]) (by simp [hpc]))
    -- a function runs on a fiber that is made for it
    | @dequeueFunc w t rest hpc hscan hf =>
      have hs₁ := hs.setTasks (s.mActiveCnt + 1) fun t ht =>
        hs.queued t ((scan_spec hscan).1 t ht)
      refine (hs₁.fresh s.next (Nat.le_succ _)).goto (by simp [Pc.subject]) ?_ ?_ fun ht => ?_
      · rintro k ⟨⟩
        exact Nat.lt_succ_self _
      · rintro f ⟨⟩
        simp [Sched.store]
      · have hidle := hlive (w := w) (by simp [hpc]) (by simp [hpc]) (by simp [hpc])
        exact absurd ht (by simpa [Sched.store] using hidle)
    | @setExec w f hpc =>
      have hs₁ := hs.store f .exec (by decide)
      refine hs₁.goOn (by simp [Sched.store, hpc, Pc.subject]) (by simp) fun ht => ?_
      exact absurd (hs₁.idle ht) (by simp [Sched.store, hpc])
    | switchIn hpc =>
      exact hs.goOn (by rw [hpc]; rfl) (by simp)
        fun ht => absurd ht (hlive (by simp [hpc]) (by simp [hpc]) (by simp [hpc]))
    | @setHold w f hpc hfin =>
      have hs₁ := hs.store f .hold (by decide)
      refine hs₁.goOn (by simp [Sched.store, hpc, Pc.subject]) (by simp) fun ht => ?_
      exact absurd (hs₁.idle ht) (by simp [Sched.store, hpc])
    | setTerm hpc hfin => exact hs.setTerm hpc hretires
    | @switchOut w f hpc =>
      refine hs.goOn (by rw [hpc]; rfl) (by simp) fun ht => ?_
      have hf : f = .idle w := by simpa [hpc] using hs.idle ht
      exact .inr (.inl (by rw [hf]))
    | threadEnd hpc hfin =>
      exact hs.goto (by simp [Pc.subject]) (by simp [Pc.subject]) (by simp)
        fun _ => .inr (.inr rfl)
    | loopTask hpc =>
      refine (hs.setTasks (s.mActiveCnt - 1) hs.queued).goto (by simp [Pc.subject])
        (by simp [Pc.subject]) (by simp) fun ht => ?_
      exact absurd (hs.idle ht) (by simp [hpc])
    | @loopIdle w v hpc =>
      obtain rfl : v = w := hs.own (by rw [hpc]; rfl)
      exact hs.goto (by simp [Pc.subject]) (by simp [Pc.subject]) (by simp)
        fun ht => absurd ht (hretires v hpc)
    | leave hpc =>
      exact hs.goto (by simp [Pc.subject]) (by simp [Pc.subject]) (by simp)
        fun _ => .inr (.inr rfl)

/-- **Only `reset` takes a fiber out of `TERM`.** -/
theorem leaves_term {a : LifeAct κ} (hs : s.Retired) (h : s.lifeStep a = some s') {f : FiberId}
    (hf : s.mState f = .term) (hf' : s'.mState f ≠ .term) : ∃ n, f = .user n ∧ a = .reset n := by
  -- a store to a fiber that is not `TERM` is a store to another one than `f`
  have hother : ∀ {g st}, s.mState g ≠ .term → Function.update s.mState g st f = .term := by
    intro g st hg
    have hne : f ≠ g := fun h => hg (h ▸ hf)
    rw [Function.update_of_ne hne, hf]
  cases a with
  | reset n =>
    simp only [lifeStep] at h
    split_ifs at h
    obtain rfl := Option.some_inj.mp h
    by_cases hn : f = .user n
    · exact ⟨n, hn, rfl⟩
    · refine absurd ?_ hf'
      show Function.update s.mState (.user n) _ f = _
      rw [Function.update_of_ne hn, hf]
  | sched a =>
    refine absurd ?_ hf'
    cases stepped h with
    | newFiber => exact hother (hs.unmade le_rfl)
    | dequeueFunc hpc hscan hk => exact hother (hs.unmade le_rfl)
    | setExec hpc => exact hother (hs.dequeued hpc)
    -- a fiber in `TERM` is at the end of `MainFunc`, where `yield` keeps its state
    | setHold hpc hfin => exact hother fun ht => absurd (hs.finished ht) (by simp [hfin])
    | @setTerm w g hpc hfin =>
      show Function.update s.mState g _ f = _
      by_cases hg : f = g
      · rw [hg, Function.update_self]
      · rw [Function.update_of_ne hg, hf]
    | addTask hmade => exact hf
    | dequeueNone hpc hscan => exact hf
    | dequeueFiber hpc hscan hn => exact hf
    | switchIn hpc => exact hf
    | switchOut hpc => exact hf
    | threadEnd hpc hfin => exact hf
    | loopTask hpc => exact hf
    | loopIdle hpc => exact hf
    | leave hpc => exact hf

/-- **A finished fiber stays finished**: in every run in which no worker finds one in
the queue, no function returns while a worker is about to resume its fiber, and workers
leave when their `idle()` has returned, no worker resumes a finished fiber, and a step
that takes one out of `TERM` is a call of `reset`. -/
theorem neverRevived {threadCnt : ℕ}
    (h : Reachable lifeStep Retires (start threadCnt : Sched κ) s) :
    s.NoneRevived ∧ ∀ a s' f, s.lifeStep a = some s' → s.mState f = .term →
      s'.mState f ≠ .term → ∃ n, f = .user n ∧ a = .reset n := by
  have hs : s.Retired :=
    h.invariant (retired_start threadCnt) fun _ _ _ hs hok hstep => retired_step hs hok hstep
  exact ⟨fun _ _ hp => hs.dequeued hp, fun _ _ _ hstep hf hf' => leaves_term hs hstep hf hf'⟩

/-- A fiber runs to its end, is queued again, and is given a new function. -/
theorem neverRevived_reset :
    ∃ s : Sched Unit, Reachable lifeStep Retires (start 1) s ∧
      s.pc 0 = .dequeued (.user 0) ∧ s.NoneRevived := by
  have hfree : ∀ s : Sched Unit, s.mTasks = [.ofFiber 0] →
      s.mState (.user 0) ≠ .term → s.Retires (.sched (.dequeue 0)) := by
    intro s hq hs t ht _ n hn
    rw [hq, List.mem_singleton] at ht
    rw [ht] at hn
    obtain rfl : 0 = n := Option.some_inj.mp hn
    exact hs
  have hend : ∀ s : Sched Unit, (∀ v, s.pc v ≠ .dequeued (.user 0)) →
      s.pc 0 = .running (.user 0) → s.Retires (.sched (.setTerm 0)) := by
    intro s hd h0 n hn
    obtain rfl : 0 = n := by simpa [h0] using hn
    exact hd
  have hrun : ∃ s : Sched Unit, Reachable lifeStep Retires (start 1) s ∧
      s.pc 0 = .dequeued (.user 0) :=
    ⟨_, ((((((((((Reachable.init.step (.sched .newFiber) trivial rfl).step
      (.sched (.addTask (.ofFiber 0))) trivial rfl).step
      (.sched (.dequeue 0)) (hfree _ rfl (by decide)) rfl).step
      (.sched (.setExec 0)) trivial rfl).step
      (.sched (.switchIn 0)) trivial rfl).step
      (.sched (.setTerm 0)) (hend _ (fun v => by
        by_cases hv : v = 0 <;>
          simp [Sched.goto, Sched.store, start, Task.ofFiber, hv]) rfl) rfl).step
      (.sched (.switchOut 0)) trivial rfl).step
      (.sched (.loop 0)) (fun v hv => absurd hv (by simp [Sched.goto])) rfl).step
      (.sched (.addTask (.ofFiber 0))) trivial rfl).step
      (.reset 0) trivial rfl).step
      (.sched (.dequeue 0)) (hfree _ rfl (by decide)) rfl, rfl⟩
  obtain ⟨s, hs, hpc⟩ := hrun
  exact ⟨s, hs, hpc, (neverRevived hs).1⟩

/-- A function queues its own fiber and returns: its worker takes the finished fiber,
and `resume` stores `EXEC` over `TERM`. -/
theorem queued_before_return :
    ∃ s s' : Sched Unit, Reachable lifeStep anyStep (start 1) s ∧ ¬ s.NoneRevived ∧
      s.lifeStep (.sched (.setExec 0)) = some s' ∧ s.mState (.user 0) = .term ∧
      s'.mState (.user 0) = .exec := by
  obtain ⟨s, s', hs, hpc, hstep, hterm, hexec⟩ : ∃ s s' : Sched Unit, run lifeStep
      ([.addTask (.ofFunc ()), .dequeue 0, .setExec 0, .switchIn 0, .addTask (.ofFiber 0),
        .setTerm 0, .switchOut 0, .loop 0, .dequeue 0].map .sched) (start 1) = some s ∧
      s.pc 0 = .dequeued (.user 0) ∧ s.lifeStep (.sched (.setExec 0)) = some s' ∧
      s.mState (.user 0) = .term ∧ s'.mState (.user 0) = .exec :=
    ⟨_, _, rfl, rfl, rfl, rfl, rfl⟩
  exact ⟨s, s', .of_run hs, fun h => h 0 _ hpc hterm, hstep, hterm, hexec⟩

end Sched

end Server
