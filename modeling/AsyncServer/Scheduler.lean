/-
Fibers and the scheduler (fiber.cpp, scheduler.h, scheduler.cpp).

* `addTaskNoLock` and `scan` — the two uses of the task queue: appending, and
  the critical section of `threadFunc` that takes the first task the worker may
  run;
* `Sched` — any number of workers in `threadFunc`, each with a program counter,
  as a step function whose steps are those that other threads can tell apart:
  the critical section, the store of `EXEC` in `Fiber::resume`, the switch onto
  the fiber's context, the store of `HOLD` in `Fiber::yield` (or of `TERM` in
  `Fiber::MainFunc`), and the switch that saves the context.

What tasks do besides queueing and yielding is left open, and so is the outcome
of `stopping()`: a worker that comes back from its idle fiber may go on or
leave.  `trickle` only wakes threads up and is not modelled.
-/
import Mathlib.Tactic

namespace Server

/-- `Fiber::State`. -/
inductive FiberState where
  | hold
  | exec
  | term
  deriving DecidableEq

/-- `Scheduler::Task`, over fibers `φ` and functions `κ`. -/
structure Task (φ κ : Type*) where
  fiber : Option φ
  func : Option κ
  threadNum : ℤ

section Queue

variable {φ κ : Type*}

/-- `Task(Fiber::ptr, -1)`. -/
def Task.ofFiber (f : φ) : Task φ κ := ⟨some f, none, -1⟩

/-- `Task(std::function<void()>, -1)`. -/
def Task.ofFunc (k : κ) : Task φ κ := ⟨none, some k, -1⟩

/-- `Scheduler::addTaskNoLock` with `threadCnt = mThreads.size()`. -/
def addTaskNoLock (threadCnt : ℕ) (mTasks : List (Task φ κ)) (t : Task φ κ) :
    List (Task φ κ) :=
  if t.func.isSome || t.fiber.isSome then
    -- `>` and not `>=`: an index equal to the size is let through
    mTasks ++ [{ t with threadNum := if t.threadNum > threadCnt then -1 else t.threadNum }]
  else mTasks

/-- `std::this_thread::get_id() != mThreadIds[threadNum]` on thread number
`self`; no such element of `mThreadIds` is undefined behaviour. -/
def otherThread (threadCnt self : ℕ) (threadNum : ℤ) : Option Bool :=
  if 0 ≤ threadNum ∧ threadNum < threadCnt then some (threadNum ≠ self) else none

/-- Whether the scan of the queue passes over a task: it belongs to another
thread, or its fiber is seen to be `EXEC`. -/
def skips (threadCnt self : ℕ) (state : φ → FiberState) (t : Task φ κ) : Option Bool :=
  if t.threadNum = -1 then
    some (t.fiber.any fun f => state f = .exec)
  else
    (otherThread threadCnt self t.threadNum).map fun other =>
      other || t.fiber.any fun f => state f = .exec

/-- The loop of the critical section of `threadFunc`: the task it takes, if
any, and the queue it leaves. -/
def scan (threadCnt self : ℕ) (state : φ → FiberState) :
    List (Task φ κ) → Option (Option (Task φ κ) × List (Task φ κ))
  | [] => some (none, [])
  | t :: ts => (skips threadCnt self state t).bind fun skip =>
    -- `continue`, with the task left where it is
    if skip then (scan threadCnt self state ts).map fun r => (r.1, t :: r.2)
    else some (some t, ts)

theorem mem_addTaskNoLock {threadCnt : ℕ} {mTasks : List (Task φ κ)} {t u : Task φ κ}
    (h : u ∈ addTaskNoLock threadCnt mTasks t) : u ∈ mTasks ∨ u.fiber = t.fiber := by
  unfold addTaskNoLock at h
  by_cases ht : (t.func.isSome || t.fiber.isSome) = true
  · rw [if_pos ht] at h
    rcases List.mem_append.mp h with h | h
    · exact .inl h
    · exact .inr (by rw [List.mem_singleton.mp h])
  · rw [if_neg ht] at h
    exact .inl h

@[simp] theorem addTaskNoLock_ofFiber (threadCnt : ℕ) (mTasks : List (Task φ κ)) (f : φ) :
    addTaskNoLock threadCnt mTasks (.ofFiber f) = mTasks ++ [.ofFiber f] := by
  have : ¬ (-1 : ℤ) > threadCnt := by omega
  simp [addTaskNoLock, Task.ofFiber, this]

@[simp] theorem addTaskNoLock_ofFunc (threadCnt : ℕ) (mTasks : List (Task φ κ)) (k : κ) :
    addTaskNoLock threadCnt mTasks (.ofFunc k) = mTasks ++ [.ofFunc k] := by
  have : ¬ (-1 : ℤ) > threadCnt := by omega
  simp [addTaskNoLock, Task.ofFunc, this]

theorem skips_exec {threadCnt self : ℕ} {state : φ → FiberState} {t : Task φ κ}
    (h : skips threadCnt self state t = some false) {f : φ} (hf : t.fiber = some f) :
    state f ≠ .exec := by
  intro he
  unfold skips at h
  split_ifs at h
  · simp [hf, he] at h
  · obtain ⟨other, _, ho⟩ := Option.map_eq_some_iff.mp h
    simp [hf, he] at ho

theorem skips_thread {threadCnt self : ℕ} {state : φ → FiberState} {t : Task φ κ}
    (h : skips threadCnt self state t = some false) : t.threadNum = -1 ∨ t.threadNum = self := by
  unfold skips at h
  split_ifs at h with hany
  · exact .inl hany
  · obtain ⟨other, ho, h⟩ := Option.map_eq_some_iff.mp h
    unfold otherThread at ho
    split_ifs at ho
    obtain rfl := Option.some_inj.mp ho
    right
    by_contra hne
    simp [hne] at h

/-- **What the scan does**: it passes over tasks until it takes one, or to the end,
and leaves the others in their order. -/
theorem scan_cases {threadCnt self : ℕ} {state : φ → FiberState} {ts rest : List (Task φ κ)}
    {o : Option (Task φ κ)} (h : scan threadCnt self state ts = some (o, rest)) :
    (o = none ∧ rest = ts ∧ ∀ u ∈ ts, skips threadCnt self state u = some true) ∨
    (∃ pre t post, o = some t ∧ ts = pre ++ t :: post ∧ rest = pre ++ post ∧
      (∀ u ∈ pre, skips threadCnt self state u = some true) ∧
      skips threadCnt self state t = some false) := by
  induction ts generalizing o rest with
  | nil =>
    obtain ⟨rfl, rfl⟩ : none = o ∧ [] = rest := by simpa [scan] using h
    exact .inl ⟨rfl, rfl, fun u hu => absurd hu List.not_mem_nil⟩
  | cons t ts ih =>
    obtain ⟨skip, hskip, h⟩ := Option.bind_eq_some_iff.mp h
    cases skip with
    -- the tasks in front of the one that is taken get one more
    | true =>
      obtain ⟨⟨o', rest'⟩, hr, heq⟩ := Option.map_eq_some_iff.mp h
      obtain ⟨rfl, rfl⟩ : o' = o ∧ t :: rest' = rest := by simpa using heq
      rcases ih hr with ⟨rfl, rfl, hall⟩ | ⟨pre, u, post, rfl, rfl, rfl, hpre, hu⟩
      · exact .inl ⟨rfl, rfl, List.forall_mem_cons.mpr ⟨hskip, hall⟩⟩
      · exact .inr ⟨t :: pre, u, post, rfl, rfl, rfl, List.forall_mem_cons.mpr ⟨hskip, hpre⟩, hu⟩
    | false =>
      obtain ⟨rfl, rfl⟩ : some t = o ∧ ts = rest := by simpa using h
      exact .inr ⟨[], t, ts, rfl, rfl, rfl, fun u hu => absurd hu List.not_mem_nil, hskip⟩

/-- What the scan takes was queued, and its fiber was not seen to be `EXEC`;
what it leaves was queued too. -/
theorem scan_spec {threadCnt self : ℕ} {state : φ → FiberState} {ts rest : List (Task φ κ)}
    {o : Option (Task φ κ)} (h : scan threadCnt self state ts = some (o, rest)) :
    (∀ u ∈ rest, u ∈ ts) ∧
      ∀ t, o = some t → t ∈ ts ∧ ∀ f, t.fiber = some f → state f ≠ .exec := by
  rcases scan_cases h with ⟨rfl, rfl, -⟩ | ⟨pre, t, post, rfl, rfl, rfl, -, ht⟩
  · exact ⟨fun _ hu => hu, fun t ht => absurd ht (by simp)⟩
  · refine ⟨fun u hu => ?_, fun u hu => ?_⟩
    · rcases List.mem_append.mp hu with hu | hu
      · exact List.mem_append_left _ hu
      · exact List.mem_append_right _ (List.mem_cons_of_mem t hu)
    · obtain rfl := Option.some_inj.mp hu
      exact ⟨List.mem_append_right _ List.mem_cons_self, fun f hf => skips_exec ht hf⟩

/-- What the scan takes is for its thread or for any. -/
theorem scan_thread {threadCnt self : ℕ} {state : φ → FiberState} {ts rest : List (Task φ κ)}
    {t : Task φ κ} (h : scan threadCnt self state ts = some (some t, rest)) :
    t.threadNum = -1 ∨ t.threadNum = self := by
  rcases scan_cases h with ⟨h, -⟩ | ⟨pre, u, post, h, -, -, -, hu⟩
  · exact absurd h (by simp)
  · obtain rfl := Option.some_inj.mp h
    exact skips_thread hu

/-- The scan loses no other task than the one it takes. -/
theorem mem_scan {threadCnt self : ℕ} {state : φ → FiberState} {ts rest : List (Task φ κ)}
    {o : Option (Task φ κ)} (h : scan threadCnt self state ts = some (o, rest)) {u : Task φ κ}
    (hu : u ∈ ts) : u ∈ rest ∨ o = some u := by
  rcases scan_cases h with ⟨rfl, rfl, -⟩ | ⟨pre, t, post, rfl, rfl, rfl, -⟩
  · exact .inl hu
  · rcases List.mem_append.mp hu with hu | hu
    · exact .inl (List.mem_append_left _ hu)
    · rcases List.mem_cons.mp hu with rfl | hu
      · exact .inr rfl
      · exact .inl (List.mem_append_right _ hu)

end Queue

/-! ### The workers -/

/-- A fiber: the idle fiber of a worker, or one that a task can be about. -/
inductive FiberId where
  | idle (w : ℕ)
  | user (n : ℕ)
  deriving DecidableEq

/-- Where a worker is in `threadFunc`. -/
inductive Pc where
  /-- before the critical section -/
  | head
  /-- has chosen the fiber to resume -/
  | dequeued (f : FiberId)
  /-- in `resume`: has stored `EXEC`, has not switched yet -/
  | resuming (f : FiberId)
  /-- on the fiber's context -/
  | running (f : FiberId)
  /-- in `yield`: has stored `HOLD` (or `TERM`), has not saved the context yet -/
  | yielding (f : FiberId)
  /-- `resume` has returned -/
  | returned (f : FiberId)
  /-- has left `threadFunc` -/
  | exited
  deriving DecidableEq

/-- The fiber that a worker has in its hands: from the dequeue to the switch
that saves its context. -/
def Pc.fiber : Pc → Option FiberId
  | .dequeued f | .resuming f | .running f | .yielding f => some f
  | .head | .returned _ | .exited => none

/-- The scheduler and its workers.  `finished f` says that the saved context of
`f` is the end of `MainFunc`; `next` counts the fibers made. -/
structure Sched (κ : Type*) where
  threadCnt : ℕ
  mTasks : List (Task ℕ κ)
  mState : FiberId → FiberState
  finished : FiberId → Bool
  pc : ℕ → Pc
  mActiveCnt : ℤ
  next : ℕ

namespace Sched

variable {κ : Type*}

/-- `Scheduler::start()`, with all workers before their first task. -/
def start (threadCnt : ℕ) : Sched κ where
  threadCnt := threadCnt
  mTasks := []
  mState := fun _ => .hold
  finished := fun _ => false
  pc := fun _ => .head
  mActiveCnt := 0
  next := 0

/-- The steps. -/
inductive Act (κ : Type*) where
  /-- user code makes a fiber -/
  | newFiber
  /-- `addTask`, by whomever: a task, an event, a timer -/
  | addTask (t : Task ℕ κ)
  /-- the critical section of worker `w` -/
  | dequeue (w : ℕ)
  /-- `resume`: `m_state = EXEC` -/
  | setExec (w : ℕ)
  /-- `resume`: `swapcontext` onto the fiber -/
  | switchIn (w : ℕ)
  /-- `yield`: `m_state = HOLD` -/
  | setHold (w : ℕ)
  /-- `MainFunc`: the function has returned, `m_state = TERM` -/
  | setTerm (w : ℕ)
  /-- `yield`: `swapcontext` saves the fiber's context and leaves it -/
  | switchOut (w : ℕ)
  /-- a finished fiber is resumed and runs off the end of `MainFunc`, which
  ends the thread -/
  | threadEnd (w : ℕ)
  /-- `--mActiveCnt`, and back to the head of the loop -/
  | loop (w : ℕ)
  /-- `stopping()` after the idle fiber: leave the loop -/
  | leave (w : ℕ)

/-- Worker `w` goes to `p`. -/
def goto (s : Sched κ) (w : ℕ) (p : Pc) : Sched κ := { s with pc := Function.update s.pc w p }

/-- `m_state` of `f` is set. -/
def store (s : Sched κ) (f : FiberId) (st : FiberState) : Sched κ :=
  { s with mState := Function.update s.mState f st }

/-- The critical section: a fiber task is resumed as it is, a function task on
a new fiber, and with no task for the worker it resumes its idle fiber. -/
def dequeue (s : Sched κ) (w : ℕ) : Option (Sched κ) :=
  (scan s.threadCnt w (fun n => s.mState (.user n)) s.mTasks).map fun r =>
    match r.1 with
    | none => s.goto w (.dequeued (.idle w))
    | some t =>
      let s' := { s with mTasks := r.2, mActiveCnt := s.mActiveCnt + 1 }
      match t.fiber with
      | some n => s'.goto w (.dequeued (.user n))
      | none =>
        ({ s' with
          next := s.next + 1
          finished := Function.update s.finished (.user s.next) false }.store
            (.user s.next) .hold).goto w (.dequeued (.user s.next))

/-- One step. -/
def step (s : Sched κ) : Act κ → Option (Sched κ)
  | .newFiber => some (({ s with
      next := s.next + 1
      finished := Function.update s.finished (.user s.next) false }).store (.user s.next) .hold)
  | .addTask t =>
    if t.fiber.all fun n => n < s.next then
      some { s with mTasks := addTaskNoLock s.threadCnt s.mTasks t }
    else none
  | .dequeue w => if s.pc w = .head then s.dequeue w else none
  | .setExec w =>
    match s.pc w with
    | .dequeued f => some ((s.store f .exec).goto w (.resuming f))
    | _ => none
  | .switchIn w =>
    match s.pc w with
    | .resuming f => some (s.goto w (.running f))
    | _ => none
  | .setHold w =>
    match s.pc w with
    | .running f => if s.finished f then none else some ((s.store f .hold).goto w (.yielding f))
    | _ => none
  | .setTerm w =>
    match s.pc w with
    | .running f =>
      if s.finished f then none
      else some (({ s with finished := Function.update s.finished f true }.store f .term).goto
        w (.yielding f))
    | _ => none
  | .switchOut w =>
    match s.pc w with
    | .yielding f => some (s.goto w (.returned f))
    | _ => none
  -- the saved context of a finished fiber is the end of `MainFunc`
  | .threadEnd w =>
    match s.pc w with
    | .running f => if s.finished f then some (s.goto w .exited) else none
    | _ => none
  -- only tasks are counted, not the idle fiber
  | .loop w =>
    match s.pc w with
    | .returned (.user _) => some ({ s with mActiveCnt := s.mActiveCnt - 1 }.goto w .head)
    | .returned (.idle _) => some (s.goto w .head)
    | _ => none
  | .leave w =>
    match s.pc w with
    | .returned (.idle _) => some (s.goto w .exited)
    | _ => none

/-! ### What a step can do -/

/-- A fiber is made, with the next number. -/
def make (s : Sched κ) : Sched κ :=
  { s with
    next := s.next + 1
    finished := Function.update s.finished (.user s.next) false }.store (.user s.next) .hold

/-- A task is taken from the queue, which leaves `rest`. -/
def taken (s : Sched κ) (rest : List (Task ℕ κ)) : Sched κ :=
  { s with mTasks := rest, mActiveCnt := s.mActiveCnt + 1 }

/-- The steps, one constructor for each branch of `step` that has an outcome. -/
inductive Stepped (s : Sched κ) : Act κ → Sched κ → Prop
  | newFiber : Stepped s .newFiber s.make
  | addTask {t : Task ℕ κ} (hmade : ∀ n, t.fiber = some n → n < s.next) :
      Stepped s (.addTask t) { s with mTasks := addTaskNoLock s.threadCnt s.mTasks t }
  | dequeueNone {w : ℕ} {rest : List (Task ℕ κ)} (hpc : s.pc w = .head)
      (hscan : scan s.threadCnt w (fun n => s.mState (.user n)) s.mTasks = some (none, rest)) :
      Stepped s (.dequeue w) (s.goto w (.dequeued (.idle w)))
  | dequeueFiber {w n : ℕ} {t : Task ℕ κ} {rest : List (Task ℕ κ)} (hpc : s.pc w = .head)
      (hscan : scan s.threadCnt w (fun n => s.mState (.user n)) s.mTasks = some (some t, rest))
      (hf : t.fiber = some n) :
      Stepped s (.dequeue w) ((s.taken rest).goto w (.dequeued (.user n)))
  | dequeueFunc {w : ℕ} {t : Task ℕ κ} {rest : List (Task ℕ κ)} (hpc : s.pc w = .head)
      (hscan : scan s.threadCnt w (fun n => s.mState (.user n)) s.mTasks = some (some t, rest))
      (hf : t.fiber = none) :
      Stepped s (.dequeue w) ((s.taken rest).make.goto w (.dequeued (.user s.next)))
  | setExec {w : ℕ} {f : FiberId} (hpc : s.pc w = .dequeued f) :
      Stepped s (.setExec w) ((s.store f .exec).goto w (.resuming f))
  | switchIn {w : ℕ} {f : FiberId} (hpc : s.pc w = .resuming f) :
      Stepped s (.switchIn w) (s.goto w (.running f))
  | setHold {w : ℕ} {f : FiberId} (hpc : s.pc w = .running f) (hfin : s.finished f = false) :
      Stepped s (.setHold w) ((s.store f .hold).goto w (.yielding f))
  | setTerm {w : ℕ} {f : FiberId} (hpc : s.pc w = .running f) (hfin : s.finished f = false) :
      Stepped s (.setTerm w)
        (({ s with finished := Function.update s.finished f true }.store f .term).goto
          w (.yielding f))
  | switchOut {w : ℕ} {f : FiberId} (hpc : s.pc w = .yielding f) :
      Stepped s (.switchOut w) (s.goto w (.returned f))
  | threadEnd {w : ℕ} {f : FiberId} (hpc : s.pc w = .running f) (hfin : s.finished f = true) :
      Stepped s (.threadEnd w) (s.goto w .exited)
  | loopTask {w n : ℕ} (hpc : s.pc w = .returned (.user n)) :
      Stepped s (.loop w) ({ s with mActiveCnt := s.mActiveCnt - 1 }.goto w .head)
  | loopIdle {w v : ℕ} (hpc : s.pc w = .returned (.idle v)) : Stepped s (.loop w) (s.goto w .head)
  | leave {w v : ℕ} (hpc : s.pc w = .returned (.idle v)) : Stepped s (.leave w) (s.goto w .exited)

variable {s s' : Sched κ}

theorem stepped_dequeue {w : ℕ} (h : s.step (.dequeue w) = some s') :
    Stepped s (.dequeue w) s' := by
  simp only [step] at h
  split_ifs at h with hpc
  obtain ⟨⟨o, rest⟩, hscan, rfl⟩ := Option.map_eq_some_iff.mp h
  rcases o with _ | t
  · exact .dequeueNone hpc hscan
  · cases hf : t.fiber with
    | some n =>
      simp only [hf]
      exact .dequeueFiber hpc hscan hf
    | none =>
      simp only [hf]
      exact .dequeueFunc hpc hscan hf

/-- **Every step is one of these.** -/
theorem stepped {a : Act κ} (h : s.step a = some s') : Stepped s a s' := by
  cases a with
  | newFiber =>
    obtain rfl : _ = s' := Option.some_inj.mp h
    exact .newFiber
  | addTask t =>
    simp only [step] at h
    split_ifs at h with hmade
    obtain rfl := Option.some_inj.mp h
    exact .addTask fun n hn => by simpa [hn] using hmade
  | dequeue w => exact stepped_dequeue h
  | setExec w =>
    simp only [step] at h
    split at h
    · obtain rfl := Option.some_inj.mp h
      exact .setExec (by assumption)
    · exact absurd h (by simp)
  | switchIn w =>
    simp only [step] at h
    split at h
    · obtain rfl := Option.some_inj.mp h
      exact .switchIn (by assumption)
    · exact absurd h (by simp)
  | setHold w =>
    simp only [step] at h
    split at h
    · split_ifs at h with hfin
      obtain rfl := Option.some_inj.mp h
      exact .setHold (by assumption) (by simpa using hfin)
    · exact absurd h (by simp)
  | setTerm w =>
    simp only [step] at h
    split at h
    · split_ifs at h with hfin
      obtain rfl := Option.some_inj.mp h
      exact .setTerm (by assumption) (by simpa using hfin)
    · exact absurd h (by simp)
  | switchOut w =>
    simp only [step] at h
    split at h
    · obtain rfl := Option.some_inj.mp h
      exact .switchOut (by assumption)
    · exact absurd h (by simp)
  | threadEnd w =>
    simp only [step] at h
    split at h
    · split_ifs at h with hfin
      obtain rfl := Option.some_inj.mp h
      exact .threadEnd (by assumption) hfin
    · exact absurd h (by simp)
  | loop w =>
    simp only [step] at h
    split at h
    · obtain rfl := Option.some_inj.mp h
      exact .loopTask (by assumption)
    · obtain rfl := Option.some_inj.mp h
      exact .loopIdle (by assumption)
    · exact absurd h (by simp)
  | leave w =>
    simp only [step] at h
    split at h
    · obtain rfl := Option.some_inj.mp h
      exact .leave (by assumption)
    · exact absurd h (by simp)

end Sched

end Server
