/-
Whether the thread number of a queued task names a thread.

`addTaskNoLock` replaces a `threadNum` that is larger than the number of threads
by -1 and queues any other as it is; the scan of `threadFunc` looks the number up
in `mThreadIds` unless it is -1.

* `onThread_queued` — so what is queued names a thread, or none in particular,
  unless the caller has given the number of threads itself or a number below -1;
* `usable_iff` — in every run all queued numbers can be looked up exactly when no
  call of `addTask` has given one of these.
-/
import AsyncServer.TaskQueue

namespace Server

open Transition

namespace TaskQueue

variable {φ κ : Type*} {s s' : TaskQueue φ κ}

/-- The tasks that the queue holds name a thread, or none in particular. -/
def AllOnThread (s : TaskQueue φ κ) : Prop :=
  ∀ t ∈ s.mTasks, OnThread s.threadCnt t.threadNum

/-- Every queued task has a usable thread number, and the scan of every worker
looks up only threads that exist, whatever state it sees the fibers in. -/
structure Usable (s : TaskQueue φ κ) : Prop where
  numbers : s.AllOnThread
  lookups : ∀ (w : ℕ) (state : ℕ × φ → FiberState), w < s.threadCnt →
    ∃ r, scan s.threadCnt w state s.mTasks = some r

/-- A call of `addTask` with a fiber or a function gives no number below -1, and
not the number of threads. -/
def Fits (threadCnt : ℕ) : Act φ κ → Prop
  | .addTask (some _) threadNum => -1 ≤ threadNum ∧ threadNum ≠ threadCnt
  | _ => True

/-! ### What is queued -/

/-- The number that `addTaskNoLock` queues a task with. -/
def queuedNum (threadCnt : ℕ) (threadNum : ℤ) : ℤ :=
  if threadNum > threadCnt then -1 else threadNum

theorem onThread_queued {threadCnt : ℕ} {threadNum : ℤ} :
    OnThread threadCnt (queuedNum threadCnt threadNum) ↔ -1 ≤ threadNum ∧ threadNum ≠ threadCnt := by
  unfold queuedNum OnThread
  split_ifs with h
  · constructor
    · intro _
      omega
    · intro _
      exact .inl rfl
  · omega

theorem mTasks_add (s : TaskQueue φ κ) (x : φ ⊕ κ) (threadNum : ℤ) :
    (s.add (some x) threadNum).mTasks =
      s.mTasks ++ [Job.new s.next (queuedNum s.threadCnt threadNum) (some x)] := by
  rw [add, queuedNum, addTaskNoLock, if_pos (by cases x <;> rfl), Job.threadNum_new]
  split_ifs <;> cases x <;> rfl

theorem mTasks_add_none (s : TaskQueue φ κ) (threadNum : ℤ) :
    (s.add none threadNum).mTasks = s.mTasks := by
  rw [add, addTaskNoLock, if_neg (by simp [Job.new])]

theorem allOnThread_add (work : Option (φ ⊕ κ)) (threadNum : ℤ) :
    (s.add work threadNum).AllOnThread ↔
      s.AllOnThread ∧ Fits s.threadCnt (.addTask work threadNum) := by
  unfold AllOnThread
  cases work with
  | none =>
    rw [mTasks_add_none]
    exact (and_iff_left trivial).symm
  | some x =>
    rw [mTasks_add, List.forall_mem_append, List.forall_mem_singleton, Job.threadNum_new]
    exact and_congr_right fun _ => onThread_queued

theorem allOnThread_addTasks (works : List (Option (φ ⊕ κ))) :
    (works.foldl (fun s work => s.add work (-1)) s).AllOnThread ↔ s.AllOnThread := by
  induction works generalizing s with
  | nil => exact Iff.rfl
  | cons work works ih =>
    rw [List.foldl_cons, ih, allOnThread_add]
    refine and_iff_left ?_
    -- -1 is the default, for any thread
    cases work with
    | none => trivial
    | some x => exact ⟨le_rfl, by omega⟩

/-! ### What a scan looks up -/

/-- The number of a task that the scan gets past can be looked up. -/
theorem onThread_of_skips {threadCnt w : ℕ} {state : ℕ × φ → FiberState} {t : Job φ κ}
    {skip : Bool} (h : skips threadCnt w state t = some skip) : OnThread threadCnt t.threadNum := by
  unfold skips at h
  by_cases hfree : t.threadNum = -1
  · exact .inl hfree
  · rw [if_neg hfree] at h
    obtain ⟨other, hother, -⟩ := Option.map_eq_some_iff.mp h
    unfold otherThread at hother
    split_ifs at hother with hrange
    exact .inr hrange

theorem allOnThread_scan {w : ℕ} {state : ℕ × φ → FiberState} {o : Option (Job φ κ)}
    {rest : List (Job φ κ)} (h : scan s.threadCnt w state s.mTasks = some (o, rest)) :
    (∀ t ∈ rest, OnThread s.threadCnt t.threadNum) ↔ s.AllOnThread := by
  constructor
  · intro hrest t ht
    rcases scan_cases h with ⟨-, rfl, -⟩ | ⟨pre, u, post, -, hsplit, rfl, -, hu⟩
    · exact hrest t ht
    -- the task that is taken has been looked up
    · rw [hsplit] at ht
      rcases List.mem_append.mp ht with ht | ht
      · exact hrest t (List.mem_append_left _ ht)
      · rcases List.mem_cons.mp ht with rfl | ht
        · exact onThread_of_skips hu
        · exact hrest t (List.mem_append_right _ ht)
  · exact fun hs t ht => hs t ((scan_spec h).1 t ht)

/-! ### Runs -/

theorem threadCnt_addTasks (s : TaskQueue φ κ) (works : List (Option (φ ⊕ κ))) :
    (works.foldl (fun s work => s.add work (-1)) s).threadCnt = s.threadCnt := by
  induction works generalizing s with
  | nil => rfl
  | cons work works ih => exact ih _

theorem threadCnt_step {a : Act φ κ} (h : s.step a = some s') : s'.threadCnt = s.threadCnt := by
  cases a with
  | addTask work threadNum =>
    obtain rfl : _ = s' := Option.some_inj.mp h
    rfl
  | addTasks works =>
    obtain rfl : _ = s' := Option.some_inj.mp h
    exact threadCnt_addTasks s works
  | dequeue w state =>
    rw [step] at h
    split_ifs at h
    obtain ⟨⟨o, rest⟩, -, rfl⟩ := Option.map_eq_some_iff.mp h
    cases o <;> rfl
  | complete w =>
    obtain ⟨t, -, rfl⟩ := Option.map_eq_some_iff.mp h
    rfl

/-- The step lemma: the queue is as it should be after a step exactly when it was
before and the step fits. -/
theorem allOnThread_step {a : Act φ κ} (h : s.step a = some s') :
    s'.AllOnThread ↔ s.AllOnThread ∧ Fits s.threadCnt a := by
  cases a with
  | addTask work threadNum =>
    obtain rfl : _ = s' := Option.some_inj.mp h
    exact allOnThread_add work threadNum
  | addTasks works =>
    obtain rfl : _ = s' := Option.some_inj.mp h
    exact (allOnThread_addTasks works).trans (and_iff_left trivial).symm
  | dequeue w state =>
    rw [step] at h
    split_ifs at h
    obtain ⟨⟨o, rest⟩, hscan, rfl⟩ := Option.map_eq_some_iff.mp h
    refine Iff.trans ?_ (and_iff_left trivial).symm
    cases o with
    | none => exact Iff.rfl
    | some t => exact allOnThread_scan hscan
  | complete w =>
    obtain ⟨t, -, rfl⟩ := Option.map_eq_some_iff.mp h
    exact (and_iff_left trivial).symm

/-- From it, the same for runs. -/
theorem allOnThread_run {as : List (Act φ κ)} (h : run step as s = some s') :
    s'.threadCnt = s.threadCnt ∧
      (s'.AllOnThread ↔ s.AllOnThread ∧ ∀ a ∈ as, Fits s.threadCnt a) := by
  induction as generalizing s with
  | nil =>
    obtain rfl := Option.some_inj.mp h
    simp
  | cons a as ih =>
    obtain ⟨t, ht, hrun⟩ := run_cons_eq_some.mp h
    obtain ⟨hcnt, hiff⟩ := ih hrun
    rw [threadCnt_step ht] at hcnt hiff
    refine ⟨hcnt, ?_⟩
    rw [hiff, allOnThread_step ht, and_assoc, List.forall_mem_cons]

/-- **When the thread numbers are usable**: after every run of a started
scheduler, all numbers in the queue are -1 or that of a thread, so that every
worker's scan stays inside `mThreadIds`, exactly when no call of `addTask` in the
run has given the number of threads or a number below -1. -/
theorem usable_iff {threadCnt : ℕ} {as : List (Act φ κ)}
    (h : run step as (start threadCnt) = some s) : s.Usable ↔ ∀ a ∈ as, Fits threadCnt a := by
  have hstart : (start threadCnt : TaskQueue φ κ).AllOnThread :=
    fun _ ht => absurd ht List.not_mem_nil
  have hrun := (allOnThread_run h).2.trans (and_iff_right hstart)
  constructor
  · exact fun hs => hrun.mp hs.numbers
  · intro hfits
    have hall := hrun.mpr hfits
    exact ⟨hall, fun w state _ => scan_defined w state hall⟩

/-- Two workers; tasks for worker 1, for any, and for a thread 5 that there is not. -/
theorem usable_two : ∃ s, run step
      [.addTask (some (.inr "a")) 1, .addTask (some (.inl 7)) (-1), .addTask (some (.inr "b")) 5,
        .dequeue 0 (fun _ => .hold)] (start 2 : TaskQueue ℕ String) = some s ∧
    s.mTasks.map Task.threadNum = [1, -1] ∧ s.Usable := by
  obtain ⟨s, hrun, hnums⟩ : ∃ s, run step
      [.addTask (some (.inr "a")) 1, .addTask (some (.inl 7)) (-1), .addTask (some (.inr "b")) 5,
        .dequeue 0 (fun _ => .hold)] (start 2 : TaskQueue ℕ String) = some s ∧
      s.mTasks.map Task.threadNum = [1, -1] := ⟨_, rfl, rfl⟩
  refine ⟨s, hrun, hnums, (usable_iff hrun).mpr fun a ha => ?_⟩
  simp only [List.mem_cons, List.not_mem_nil, or_false] at ha
  rcases ha with rfl | rfl | rfl | rfl <;> simp [Fits]

/-- A task for thread 2 of two threads: no worker can look it up. -/
theorem beyond_threads : ∃ s, run step [.addTask (some (.inr "a")) 2]
      (start 2 : TaskQueue ℕ String) = some s ∧
    s.mTasks.map Task.threadNum = [2] ∧
    (∀ w state, s.step (.dequeue w state) = none) ∧ ¬ s.Usable := by
  refine ⟨_, rfl, rfl, fun w state => ?_, fun h => ?_⟩
  · rw [step]
    split_ifs <;> rfl
  · obtain ⟨r, hr⟩ := h.lookups 0 (fun _ => .hold) Nat.zero_lt_two
    exact absurd ((show _ = none from rfl).symm.trans hr) (by simp)

end TaskQueue

end Server
