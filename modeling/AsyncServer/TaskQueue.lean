/-
The task queue between producers and consumers.

Every call of `addTask` numbers the work it is given; the numbers are a history
variable, which neither `addTaskNoLock` nor the scan of `threadFunc` looks at.
A run is any interleaving of calls of `addTask`, of the critical sections in which
workers take a task, and of the ends of tasks; what state a worker sees a fiber in
is decided anew each time.

* `perm_dequeue` — taking a task moves it from the queue to a worker;
* `Accounted` — the invariant: accepted tasks are queued, running or finished,
  each in one place, and `mActiveCnt` counts the running ones;
* `sound` — so in every run the queue neither loses nor duplicates work, and each
  dequeue takes the first task that its worker may take.
-/
import AsyncServer.Scheduler
import AsyncServer.Transition

namespace Server

open Transition

/-- A task with the number of its acceptance. -/
abbrev Job (φ κ : Type*) := Task (ℕ × φ) (ℕ × κ)

section Job

variable {φ κ : Type*}

/-- The task that `addTask` makes of a fiber or a function; `none` is a null pointer or
an empty function. -/
def Job.new (n : ℕ) (threadNum : ℤ) : Option (φ ⊕ κ) → Job φ κ
  | none => ⟨none, none, threadNum⟩
  | some (.inl f) => ⟨some (n, f), none, threadNum⟩
  | some (.inr k) => ⟨none, some (n, k), threadNum⟩

/-- The number of a task. -/
def Job.number (t : Job φ κ) : ℕ := ((t.fiber.map Prod.fst).or (t.func.map Prod.fst)).getD 0

@[simp] theorem Job.number_new (n : ℕ) (threadNum : ℤ) (x : φ ⊕ κ) :
    (Job.new n threadNum (some x)).number = n := by
  cases x <;> rfl

@[simp] theorem Job.threadNum_new (n : ℕ) (threadNum : ℤ) (work : Option (φ ⊕ κ)) :
    (Job.new n threadNum work).threadNum = threadNum := by
  rcases work with _ | _ | _ <;> rfl

/-- The worker may take the task: it is not pinned to another thread, and its fiber is
not seen to be `EXEC`. -/
def Allowed (w : ℕ) (state : φ → FiberState) (t : Task φ κ) : Prop :=
  (t.threadNum = -1 ∨ t.threadNum = w) ∧ ∀ f, t.fiber = some f → state f ≠ .exec

/-- `threadNum` is -1 or the index of a thread. -/
def OnThread (threadCnt : ℕ) (threadNum : ℤ) : Prop :=
  threadNum = -1 ∨ (0 ≤ threadNum ∧ threadNum < threadCnt)

/-- What is queued for an existing thread is queued as it is. -/
theorem addTaskNoLock_new {threadCnt : ℕ} {threadNum : ℤ} (h : OnThread threadCnt threadNum)
    (mTasks : List (Job φ κ)) (n : ℕ) (x : φ ⊕ κ) :
    addTaskNoLock threadCnt mTasks (Job.new n threadNum (some x)) =
      mTasks ++ [Job.new n threadNum (some x)] := by
  have hle : ¬ threadNum > threadCnt := by
    rcases h with h | h <;> omega
  rw [addTaskNoLock, if_pos (by cases x <;> rfl), Job.threadNum_new, if_neg hle]
  cases x <;> rfl

/-- The scan passes over the tasks that the worker may not take. -/
theorem skips_eq {threadCnt : ℕ} (w : ℕ) (state : φ → FiberState) {t : Task φ κ}
    (ht : OnThread threadCnt t.threadNum) :
    ∃ skip, skips threadCnt w state t = some skip ∧ (skip = false ↔ Allowed w state t) := by
  have hexec : (t.fiber.any fun f => state f = .exec) = false ↔
      ∀ f, t.fiber = some f → state f ≠ .exec := by
    cases t.fiber <;> simp
  rcases ht with hfree | hrange
  · refine ⟨_, if_pos hfree, ?_⟩
    rw [hexec, Allowed]
    exact ⟨fun h => ⟨.inl hfree, h⟩, And.right⟩
  -- the ids of existing threads are compared, and differ for different threads
  · have hne : t.threadNum ≠ -1 := by omega
    refine ⟨decide (t.threadNum ≠ w) || t.fiber.any fun f => state f = .exec, ?_, ?_⟩
    · rw [skips, if_neg hne, otherThread, if_pos hrange]
      rfl
    · rw [Bool.or_eq_false_iff, hexec, decide_eq_false_iff_not, not_not, Allowed]
      exact and_congr_left fun _ => ⟨.inr, fun h => h.resolve_left hne⟩

/-- The scan of tasks for threads that exist has an outcome. -/
theorem scan_defined {threadCnt : ℕ} (w : ℕ) (state : φ → FiberState) {ts : List (Task φ κ)}
    (hts : ∀ t ∈ ts, OnThread threadCnt t.threadNum) :
    ∃ r, scan threadCnt w state ts = some r := by
  induction ts with
  | nil => exact ⟨_, rfl⟩
  | cons t ts ih =>
    obtain ⟨ht, hts⟩ := List.forall_mem_cons.mp hts
    obtain ⟨skip, hskip, -⟩ := skips_eq w state ht
    obtain ⟨r, hr⟩ := ih hts
    cases skip with
    | true => exact ⟨(r.1, t :: r.2), by rw [scan, hskip, Option.bind_some, if_pos rfl, hr]; rfl⟩
    | false => exact ⟨(some t, ts), by rw [scan, hskip]; rfl⟩

end Job

/-- The queue of a `Scheduler` with its workers: what each of them is running, and the
tasks finished, with the worker, and accepted so far. -/
structure TaskQueue (φ κ : Type*) where
  threadCnt : ℕ
  mTasks : List (Job φ κ)
  mActiveCnt : ℤ
  running : ℕ → Option (Job φ κ)
  finished : List (ℕ × Job φ κ)
  accepted : List (Job φ κ)
  next : ℕ

namespace TaskQueue

variable {φ κ : Type*} {s s' : TaskQueue φ κ}

/-- `Scheduler::start()`. -/
def start (threadCnt : ℕ) : TaskQueue φ κ where
  threadCnt := threadCnt
  mTasks := []
  mActiveCnt := 0
  running := fun _ => none
  finished := []
  accepted := []
  next := 0

/-- One `addTaskNoLock`. -/
def add (s : TaskQueue φ κ) (work : Option (φ ⊕ κ)) (threadNum : ℤ) : TaskQueue φ κ :=
  { s with
    mTasks := addTaskNoLock s.threadCnt s.mTasks (Job.new s.next threadNum work)
    accepted := if work.isSome then s.accepted ++ [Job.new s.next threadNum work] else s.accepted
    next := s.next + 1 }

inductive Act (φ κ : Type*) where
  /-- `addTask(t, threadNum)` -/
  | addTask (work : Option (φ ⊕ κ)) (threadNum : ℤ)
  /-- `addTask(begin, end)` -/
  | addTasks (works : List (Option (φ ⊕ κ)))
  /-- the critical section of worker `w`, which sees the fibers in these states -/
  | dequeue (w : ℕ) (state : φ → FiberState)
  /-- worker `w` is back from its task: `--mActiveCnt` -/
  | complete (w : ℕ)

/-- One step. -/
def step (s : TaskQueue φ κ) : Act φ κ → Option (TaskQueue φ κ)
  | .addTask work threadNum => some (s.add work threadNum)
  | .addTasks works => some (works.foldl (fun s work => s.add work (-1)) s)
  -- the critical section includes `++mActiveCnt`, so it is one step
  | .dequeue w state =>
    if w < s.threadCnt ∧ s.running w = none then
      (scan s.threadCnt w (fun f => state f.2) s.mTasks).map fun r =>
        match r.1 with
        | none => s
        | some t =>
          { s with
            mTasks := r.2
            mActiveCnt := s.mActiveCnt + 1
            running := Function.update s.running w (some t) }
    else none
  | .complete w =>
    (s.running w).map fun t =>
      { s with
        mActiveCnt := s.mActiveCnt - 1
        running := Function.update s.running w none
        finished := s.finished ++ [(w, t)] }

/-- Tasks are added for any thread or for one that exists. -/
def OnThreads (s : TaskQueue φ κ) : Act φ κ → Prop
  | .addTask _ threadNum => OnThread s.threadCnt threadNum
  | _ => True

/-- The tasks that are running. -/
def runningJobs (s : TaskQueue φ κ) : List (Job φ κ) :=
  (List.range s.threadCnt).filterMap s.running

/-! ### The three places -/

/-- A worker takes a task. -/
theorem filterMap_update {running : ℕ → Option (Job φ κ)} {l : List ℕ} (hl : l.Nodup) {w : ℕ}
    (hw : w ∈ l) (hidle : running w = none) (t : Job φ κ) :
    (l.filterMap (Function.update running w (some t))).Perm (t :: l.filterMap running) := by
  obtain ⟨a, b, rfl⟩ := List.append_of_mem hw
  have hne : ∀ v ∈ a ++ b, v ≠ w := by
    intro v hv hvw
    have hnd := List.nodup_middle.mp hl
    exact (List.nodup_cons.mp hnd).1 (hvw ▸ hv)
  -- the other workers run what they ran
  have hsame : ∀ c : List ℕ, (∀ v ∈ c, v ∈ a ++ b) →
      c.filterMap (Function.update running w (some t)) = c.filterMap running := by
    intro c hc
    refine List.filterMap_congr fun v hv => ?_
    exact Function.update_of_ne (hne v (hc v hv)) _ _
  rw [List.filterMap_append, List.filterMap_append,
    hsame a fun v hv => List.mem_append_left b hv,
    List.filterMap_cons_some (Function.update_self w (some t) running),
    hsame b fun v hv => List.mem_append_right a hv, List.filterMap_cons_none hidle]
  exact List.perm_middle

/-- What every run keeps. -/
structure Accounted (s : TaskQueue φ κ) : Prop where
  places : (s.mTasks ++ s.runningJobs ++ s.finished.map Prod.snd).Perm s.accepted
  numbers : (s.accepted.map Job.number).Nodup
  fresh : ∀ t ∈ s.accepted, t.number < s.next
  workers : ∀ w t, s.running w = some t → w < s.threadCnt
  active : s.mActiveCnt = s.runningJobs.length
  onThread : ∀ t ∈ s.mTasks, OnThread s.threadCnt t.threadNum
  ran : ∀ w t, s.running w = some t ∨ (w, t) ∈ s.finished → t.threadNum = -1 ∨ t.threadNum = w

theorem accounted_start (threadCnt : ℕ) : (start threadCnt : TaskQueue φ κ).Accounted where
  places := by simp [start, runningJobs]
  numbers := List.nodup_nil
  fresh _ h := absurd h List.not_mem_nil
  workers _ _ h := absurd h (by simp [start])
  active := by simp [start, runningJobs]
  onThread _ h := absurd h List.not_mem_nil
  ran _ _ h := absurd h (by simp [start])

theorem accounted_add (hs : s.Accounted) (work : Option (φ ⊕ κ)) {threadNum : ℤ}
    (hnum : OnThread s.threadCnt threadNum) : (s.add work threadNum).Accounted := by
  cases work with
  | none =>
    -- nothing is queued, and a number is spent
    exact { hs with fresh := fun t ht => Nat.lt_succ_of_lt (hs.fresh t ht) }
  | some x =>
    set j := Job.new s.next threadNum (some x) with hj
    have hadd : s.add (some x) threadNum =
        { s with mTasks := s.mTasks ++ [j], accepted := s.accepted ++ [j], next := s.next + 1 } := by
      rw [add, addTaskNoLock_new hnum, Option.isSome_some, if_pos rfl]
    have hnumber : j.number = s.next := Job.number_new _ _ _
    rw [hadd]
    constructor
    · show ((s.mTasks ++ [j]) ++ s.runningJobs ++ s.finished.map Prod.snd).Perm (s.accepted ++ [j])
      rw [List.append_assoc, List.append_assoc, List.singleton_append]
      refine List.perm_middle.trans ?_
      rw [← List.append_assoc]
      exact (hs.places.cons j).trans (List.perm_append_singleton j _).symm
    · show ((s.accepted ++ [j]).map Job.number).Nodup
      rw [List.map_append, List.map_singleton, hnumber]
      -- the new number is larger than all before it
      refine List.nodup_append.mpr ⟨hs.numbers, List.nodup_singleton _, ?_⟩
      intro a ha b hb hab
      obtain ⟨t, ht, rfl⟩ := List.mem_map.mp ha
      rw [List.mem_singleton.mp hb] at hab
      exact (hs.fresh t ht).ne hab
    · intro t ht
      rcases List.mem_append.mp ht with ht | ht
      · exact Nat.lt_succ_of_lt (hs.fresh t ht)
      · rw [List.mem_singleton.mp ht, hnumber]
        exact Nat.lt_succ_self _
    · exact hs.workers
    · exact hs.active
    · intro t ht
      rcases List.mem_append.mp ht with ht | ht
      · exact hs.onThread t ht
      · rw [List.mem_singleton.mp ht, hj, Job.threadNum_new]
        exact hnum
    · exact hs.ran

theorem accounted_addTasks (hs : s.Accounted) (works : List (Option (φ ⊕ κ))) :
    (works.foldl (fun s work => s.add work (-1)) s).Accounted := by
  induction works generalizing s with
  | nil => exact hs
  | cons work works ih => exact ih (accounted_add hs work (.inl rfl))

/-- **What a dequeue does**: it takes the first task that its worker may take, and keeps
the others in their order; without one it changes nothing. -/
inductive Dequeues (s : TaskQueue φ κ) (w : ℕ) (state : φ → FiberState) : TaskQueue φ κ → Prop
  | nothing (h : ∀ t ∈ s.mTasks, ¬ Allowed w (fun f => state f.2) t) : Dequeues s w state s
  | takes {pre post : List (Job φ κ)} {t : Job φ κ} (hsplit : s.mTasks = pre ++ t :: post)
      (hpre : ∀ u ∈ pre, ¬ Allowed w (fun f => state f.2) u)
      (ht : Allowed w (fun f => state f.2) t) :
      Dequeues s w state
        { s with
          mTasks := pre ++ post
          mActiveCnt := s.mActiveCnt + 1
          running := Function.update s.running w (some t) }

theorem dequeues (hq : ∀ t ∈ s.mTasks, OnThread s.threadCnt t.threadNum) {w : ℕ}
    {state : φ → FiberState} (h : s.step (.dequeue w state) = some s') :
    w < s.threadCnt ∧ s.running w = none ∧ s.Dequeues w state s' := by
  rw [step] at h
  split_ifs at h with hw
  obtain ⟨⟨o, rest⟩, hscan, rfl⟩ := Option.map_eq_some_iff.mp h
  refine ⟨hw.1, hw.2, ?_⟩
  -- a task that is passed over is one the worker may not take
  have hskip : ∀ t ∈ s.mTasks, skips s.threadCnt w (fun f => state f.2) t = some true →
      ¬ Allowed w (fun f => state f.2) t := by
    intro t ht htrue hallowed
    obtain ⟨skip, hskip, hiff⟩ := skips_eq w (fun f => state f.2) (hq t ht)
    rw [hskip, hiff.mpr hallowed] at htrue
    exact absurd htrue (by decide)
  rcases scan_cases hscan with ⟨rfl, rfl, hall⟩ | ⟨pre, t, post, rfl, hsplit, rfl, hpre, ht⟩
  · exact .nothing fun t ht => hskip t ht (hall t ht)
  · refine .takes hsplit (fun u hu => hskip u ?_ (hpre u hu)) ?_
    · rw [hsplit]
      exact List.mem_append_left _ hu
    · have hmem : t ∈ s.mTasks := by
        rw [hsplit]
        exact List.mem_append_right pre List.mem_cons_self
      obtain ⟨skip, hskip', hiff⟩ :=
        skips_eq w (fun f => state f.2) (hq t hmem)
      rw [hskip', Option.some_inj] at ht
      exact hiff.mp ht

theorem accounted_dequeue (hs : s.Accounted) {w : ℕ} {state : φ → FiberState}
    (h : s.step (.dequeue w state) = some s') : s'.Accounted := by
  obtain ⟨hw, hidle, hdeq⟩ := dequeues hs.onThread h
  cases hdeq with
  | nothing => exact hs
  | @takes pre post t hsplit _ ht =>
    have hrunning : ((List.range s.threadCnt).filterMap
        (Function.update s.running w (some t))).Perm (t :: s.runningJobs) :=
      filterMap_update List.nodup_range (List.mem_range.mpr hw) hidle t
    -- who runs something now is the worker that took `t`, or ran it before
    have hrun : ∀ v u, Function.update s.running w (some t) v = some u →
        (v = w ∧ u = t) ∨ s.running v = some u := by
      intro v u hu
      by_cases hv : v = w
      · subst hv
        rw [Function.update_self, Option.some_inj] at hu
        exact .inl ⟨rfl, hu.symm⟩
      · rw [Function.update_of_ne hv] at hu
        exact .inr hu
    constructor
    · refine List.Perm.trans ?_ hs.places
      rw [hsplit, List.append_assoc, List.append_assoc pre, List.append_assoc, List.append_assoc]
      refine List.Perm.append_left pre ?_
      refine ((hrunning.append_right _).append_left post).trans ?_
      rw [List.cons_append]
      exact List.perm_middle
    · exact hs.numbers
    · exact hs.fresh
    · intro v u hu
      rcases hrun v u hu with ⟨rfl, -⟩ | hu
      · exact hw
      · exact hs.workers v u hu
    · show s.mActiveCnt + 1 = _
      rw [hs.active]
      show _ = (((List.range s.threadCnt).filterMap _).length : ℤ)
      rw [hrunning.length_eq, List.length_cons, Nat.cast_succ]
    · intro u hu
      refine hs.onThread u ?_
      rw [hsplit]
      rcases List.mem_append.mp hu with hu | hu
      · exact List.mem_append_left _ hu
      · exact List.mem_append_right _ (List.mem_cons_of_mem t hu)
    · rintro v u (hu | hu)
      · rcases hrun v u hu with ⟨rfl, rfl⟩ | hu
        · exact ht.1
        · exact hs.ran v u (.inl hu)
      · exact hs.ran v u (.inr hu)

theorem accounted_complete (hs : s.Accounted) {w : ℕ} (h : s.step (.complete w) = some s') :
    s'.Accounted := by
  obtain ⟨t, ht, rfl⟩ := Option.map_eq_some_iff.mp h
  -- read backwards, the end of a task is the start of it
  have hback : Function.update (Function.update s.running w none) w (some t) = s.running := by
    rw [Function.update_idem, ← ht, Function.update_eq_self]
  have hrunning : s.runningJobs.Perm
      (t :: (List.range s.threadCnt).filterMap (Function.update s.running w none)) := by
    have hidle : Function.update s.running w none w = none := Function.update_self _ _ _
    have h := filterMap_update List.nodup_range (List.mem_range.mpr (hs.workers w t ht)) hidle t
    rwa [hback] at h
  have hrun : ∀ v u, Function.update s.running w none v = some u → s.running v = some u := by
    intro v u hu
    by_cases hv : v = w
    · subst hv
      rw [Function.update_self] at hu
      exact absurd hu (by simp)
    · rwa [Function.update_of_ne hv] at hu
  constructor
  · refine List.Perm.trans ?_ hs.places
    show (s.mTasks ++ (List.range s.threadCnt).filterMap (Function.update s.running w none) ++
      (s.finished ++ [(w, t)]).map Prod.snd).Perm _
    rw [List.map_append, List.map_singleton, List.append_assoc, List.append_assoc]
    refine List.Perm.append_left s.mTasks ?_
    refine List.Perm.trans ?_ (hrunning.append_right _).symm
    rw [← List.append_assoc]
    exact List.perm_append_singleton t _
  · exact hs.numbers
  · exact hs.fresh
  · exact fun v u hu => hs.workers v u (hrun v u hu)
  · show s.mActiveCnt - 1 = (((List.range s.threadCnt).filterMap _).length : ℤ)
    rw [hs.active, hrunning.length_eq, List.length_cons, Nat.cast_succ, add_sub_cancel_right]
  · exact hs.onThread
  · rintro v u (hu | hu)
    · exact hs.ran v u (.inl (hrun v u hu))
    · rcases List.mem_append.mp hu with hu | hu
      · exact hs.ran v u (.inr hu)
      · obtain ⟨rfl, rfl⟩ := Prod.mk.inj (List.mem_singleton.mp hu)
        exact hs.ran v u (.inl ht)

/-- The step lemma. -/
theorem accounted_step {a : Act φ κ} (hs : s.Accounted) (ha : s.OnThreads a)
    (h : s.step a = some s') : s'.Accounted := by
  cases a with
  | addTask work threadNum =>
    obtain rfl : _ = s' := Option.some_inj.mp h
    exact accounted_add hs work ha
  | addTasks works =>
    obtain rfl : _ = s' := Option.some_inj.mp h
    exact accounted_addTasks hs works
  | dequeue w state => exact accounted_dequeue hs h
  | complete w => exact accounted_complete hs h

/-- **The queue neither loses nor duplicates work.**  The accepted tasks, told apart by
their numbers, are those that are queued, running and finished, each in one place;
`mActiveCnt` counts the workers with a task; a task for one thread runs on that
thread only; and a worker without a task can always dequeue, which takes the first
task it may take and leaves the others in their order. -/
structure Sound (s : TaskQueue φ κ) : Prop where
  places : (s.mTasks ++ s.runningJobs ++ s.finished.map Prod.snd).Perm s.accepted
  once : ((s.mTasks ++ s.runningJobs ++ s.finished.map Prod.snd).map Job.number).Nodup
  workers : ∀ w t, s.running w = some t → w < s.threadCnt
  active : s.mActiveCnt = ((List.range s.threadCnt).filter fun w => (s.running w).isSome).length
  pinned : ∀ w t, s.running w = some t ∨ (w, t) ∈ s.finished → t.threadNum = -1 ∨ t.threadNum = w
  dequeue : ∀ w state, w < s.threadCnt → s.running w = none →
    ∃ s', s.step (.dequeue w state) = some s' ∧ s.Dequeues w state s'

theorem sound (threadCnt : ℕ) (h : Reachable step OnThreads (start threadCnt) s) : s.Sound := by
  have hs : s.Accounted := Reachable.invariant (accounted_start threadCnt)
    (fun s a s' hs ha hstep => accounted_step hs ha hstep) h
  refine ⟨hs.places, (hs.places.map _).nodup_iff.mpr hs.numbers, hs.workers, ?_, hs.ran,
    fun w state hw hidle => ?_⟩
  · rw [hs.active, runningJobs, List.length_filterMap_eq_countP, List.countP_eq_length_filter]
  · obtain ⟨r, hr⟩ := scan_defined w (fun f : ℕ × φ => state f.2) hs.onThread
    obtain ⟨s', hs'⟩ : ∃ s', s.step (.dequeue w state) = some s' := by
      rw [step, if_pos ⟨hw, hidle⟩, hr]
      exact ⟨_, rfl⟩
    exact ⟨s', hs', (dequeues hs.onThread hs').2.2⟩

/-- Two workers and two tasks, one of them for worker 1. -/
theorem sound_pinned : ∃ s, run step
      [.addTask (some (.inr "a")) 1, .addTasks [none, some (.inl 7)],
        .dequeue 0 (fun _ => .hold), .dequeue 1 (fun _ => .hold), .complete 0]
      (start 2 : TaskQueue ℕ String) = some s ∧
    s.mActiveCnt = 1 ∧ s.finished.length = 1 ∧ s.Sound := by
  have hpinned : (start 2 : TaskQueue ℕ String).OnThreads (.addTask (some (.inr "a")) 1) :=
    .inr ⟨by decide, (by decide : (1 : ℤ) < 2)⟩
  obtain ⟨s, hrun, hactive, hfinished⟩ : ∃ s, run step
      [.addTask (some (.inr "a")) 1, .addTasks [none, some (.inl 7)],
        .dequeue 0 (fun _ => .hold), .dequeue 1 (fun _ => .hold), .complete 0]
      (start 2 : TaskQueue ℕ String) = some s ∧ s.mActiveCnt = 1 ∧ s.finished.length = 1 :=
    ⟨_, rfl, rfl, rfl⟩
  obtain ⟨t, ht, hrest⟩ := run_cons_eq_some.mp hrun
  have hreach := (Reachable.init.step _ hpinned ht).run_admitted _ hrest (by simp [OnThreads])
  exact ⟨s, hrun, hactive, hfinished, sound 2 hreach⟩

end TaskQueue

end Server
