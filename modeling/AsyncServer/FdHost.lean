/-
Threads, descriptors and the two tables.

Any number of threads create descriptors, make hooked calls on them and close
them.  A hooked `close` is four steps: it looks the context up, takes the
descriptor out of the event pool, removes the context, and calls the raw `close`,
after which the kernel may hand the number out again.  The event operations come
in the parts of `LockedEvents`; `holder fd` is the thread inside `triggerEvent`
with the lock of the `Event`, if there is one.

* `step` — one step of one thread, or of the kernel;
* `stepped` — what each step can do.
-/
import AsyncServer.FdManager
import AsyncServer.LockedEvents
import AsyncServer.Transition

namespace Server

open Epoll Transition

/-- How a descriptor was opened: by a hooked call, or outside of them. -/
inductive Origin where
  | hooked
  | outside
  deriving DecidableEq

/-- Where `io_func` is. -/
inductive CallStage where
  /-- before `FdManager::get` -/
  | get
  /-- at the raw call, for a descriptor that is not a socket with a context -/
  | plain
  /-- at the label `Retry` -/
  | raw
  /-- before `addEvent` -/
  | adding
  /-- in `addEvent`, between the `epoll_ctl` and the update -/
  | updating
  /-- at `yieldToHold` -/
  | yielding
  /-- has yielded -/
  | held
  deriving DecidableEq

/-- Where a hooked `close` is. -/
inductive CloseStage where
  /-- before `FdManager::get` -/
  | get
  /-- before `delEvent` -/
  | delTest
  /-- in `delEvent`, before the `epoll_ctl` -/
  | delCtl
  /-- in `delEvent`, before the locked part -/
  | delClear
  /-- before `FdManager::del` -/
  | delCtx
  /-- before the raw `close` -/
  | raw
  deriving DecidableEq

/-- Where a thread is. -/
inductive FdPc where
  | free
  /-- the raw `socket` or `accept` has returned `fd` -/
  | created (fd : ℤ)
  | io (fd : ℤ) (d : Dir) (st : CallStage)
  | closing (fd : ℤ) (st : CloseStage)
  deriving DecidableEq

namespace FdPc

/-- The descriptor that a call is on. -/
def about : FdPc → Option ℤ
  | .free => none
  | .created fd | .io fd _ _ | .closing fd _ => some fd

/-- The descriptor of a call that no other one goes along with. -/
def exclusive : FdPc → Option ℤ
  | .created fd | .closing fd _ => some fd
  | .free | .io _ _ _ => none

/-- What the thread waits for. -/
def waitsOn : FdPc → Option (ℤ × Dir)
  | .io fd d .yielding | .io fd d .held => some (fd, d)
  | _ => none

theorem about_of_exclusive {p : FdPc} {fd : ℤ} (h : p.exclusive = some fd) :
    p.about = some fd := by
  cases p <;> simp_all [exclusive, about]

theorem about_of_waitsOn {p : FdPc} {q : ℤ × Dir} (h : p.waitsOn = some q) :
    p.about = some q.1 ∧ p.exclusive = none := by
  cases p with
  | io fd d st =>
    cases st <;> simp_all [waitsOn, about, exclusive]
    all_goals rw [← h]
  | _ => simp_all [waitsOn]

end FdPc

/-- The part of `triggerEvent` that comes next. -/
inductive TriggerStage where
  | clear
  | queue
  | reset
  deriving DecidableEq

/-- A thread in `triggerEvent`: its next part, the direction, and those to be
triggered after it. -/
structure Trigger where
  stage : TriggerStage
  dir : Dir
  rest : List Dir
  deriving DecidableEq

/-- The triggers of the directions, or the lock given up. -/
def Trigger.start : List Dir → Option Trigger
  | [] => none
  | d :: rest => some ⟨.clear, d, rest⟩

/-- The two tables, the kernel's descriptors, and the threads. -/
structure FdHost (N : ℕ) (κ : Type*) where
  iom : IOManager N ℕ κ
  fdManager : FdManager
  isOpen : ℤ → Option Origin
  holder : ℤ → Option Trigger
  pc : ℕ → FdPc

namespace FdHost

variable {N : ℕ} {κ : Type*}

/-- The event loop and an empty `FdManager`; some descriptors are open. -/
def start (threadCnt : ℕ) (mTimerManager : TimerManager N κ) (mEventfd : ℤ)
    (inherited : List ℕ) : FdHost N κ where
  iom := .create threadCnt mTimerManager mEventfd
  fdManager := .create
  isOpen := fun fd => if 0 ≤ fd ∧ fd.toNat ∈ inherited then some .outside else none
  holder := fun _ => none
  pc := fun _ => .free

/-- The steps. -/
inductive Act where
  /-- the raw `socket` returns `fd` -/
  | socket (t : ℕ) (fd : ℤ)
  /-- the raw `accept` returns `fd` -/
  | accepted (t : ℕ) (fd : ℤ)
  /-- `FdManager::get(fd, true)`; whether `fstat` finds a socket -/
  | build (t : ℕ) (sock : Bool)
  /-- a descriptor is opened outside the hooks -/
  | openOutside (fd : ℤ)
  /-- a hooked call -/
  | call (t : ℕ) (fd : ℤ) (d : Dir)
  /-- `io_func`: `FdManager::get(fd)` -/
  | getCtx (t : ℕ)
  /-- `io_func` returns -/
  | callDone (t : ℕ)
  /-- `io_func`: the raw call has `EAGAIN` -/
  | rawAgain (t : ℕ)
  /-- `io_func`: `addEvent` up to its `epoll_ctl` -/
  | addCtl (t : ℕ) (fault : Bool)
  /-- `io_func`: the locked part of `addEvent` -/
  | update (t : ℕ)
  /-- `io_func`: `yieldToHold` -/
  | yield (t : ℕ)
  /-- a worker takes the task of the fiber and resumes it -/
  | take (t : ℕ)
  /-- a hooked `close` -/
  | close (t : ℕ) (fd : ℤ)
  /-- `close`: `FdManager::get(fd)` -/
  | closeGet (t : ℕ)
  /-- `close`: the tests of `delEvent` -/
  | delTest (t : ℕ)
  /-- `close`: the `epoll_ctl` of `delEvent` -/
  | delCtl (t : ℕ) (fault : Bool)
  /-- `close`: the locked part of `delEvent` -/
  | delClear (t : ℕ)
  /-- `close`: `FdManager::del` -/
  | delCtx (t : ℕ)
  /-- `close`: the raw `close` -/
  | rawClose (t : ℕ)
  /-- the idle loop handles a notification, up to the triggers -/
  | dispatch (fd : ℤ) (events : Mask) (fault : Bool)
  /-- a timer callback calls `cancelEvent`, up to the trigger -/
  | cancelEvent (fd : ℤ) (d : Dir) (fault : Bool)
  /-- the next part of the triggers for `fd` -/
  | trigger (fd : ℤ)

/-- The number that the kernel hands out. -/
def Act.opens : Act → Option ℤ
  | .socket _ fd | .accepted _ fd | .openOutside fd => some fd
  | _ => none

/-- Thread `t` goes to `p`. -/
def goto (s : FdHost N κ) (t : ℕ) (p : FdPc) : FdHost N κ :=
  { s with pc := Function.update s.pc t p }

/-- The kernel hands out `fd`. -/
def opened (s : FdHost N κ) (fd : ℤ) (origin : Origin) : FdHost N κ :=
  { s with isOpen := Function.update s.isOpen fd (some origin) }

/-- The lock of `mEvents[fd]` and what its holder is about. -/
def setHolder (s : FdHost N κ) (fd : ℤ) (h : Option Trigger) : FdHost N κ :=
  { s with holder := Function.update s.holder fd h }

/-- What `io_func` does with the context it has found. -/
def enter (s : FdHost N κ) (fd : ℤ) (d : Dir) : Option FdCtxPtr → FdPc
  | none => .io fd d .plain
  | some p =>
    if (s.fdManager.heap p).isClose then .free
    else if !(s.fdManager.heap p).isSocket then .io fd d .plain
    else .io fd d .raw

/-- The fibers in the queue. -/
def queued (s : FdHost N κ) : List ℕ := s.iom.mTasks.filterMap Task.fiber

/-- One step. -/
def step (s : FdHost N κ) : Act → Option (FdHost N κ)
  | .socket t fd =>
    match s.pc t with
    | .free =>
      if 0 ≤ fd ∧ s.isOpen fd = none then some ((s.opened fd .hooked).goto t (.created fd))
      else none
    | _ => none
  | .accepted t fd =>
    match s.pc t with
    | .io _ _ .raw | .io _ _ .plain =>
      if 0 ≤ fd ∧ s.isOpen fd = none then some ((s.opened fd .hooked).goto t (.created fd))
      else none
    | _ => none
  | .build t sock =>
    match s.pc t with
    | .created fd =>
      (s.fdManager.get fd true sock).map fun r => { s with fdManager := r.2 }.goto t .free
    | _ => none
  | .openOutside fd =>
    if 0 ≤ fd ∧ s.isOpen fd = none then some (s.opened fd .outside) else none
  | .call t fd d =>
    match s.pc t with
    | .free => some (s.goto t (.io fd d .get))
    | _ => none
  | .getCtx t =>
    match s.pc t with
    | .io fd d .get =>
      (s.fdManager.get fd false false).map fun r => s.goto t (s.enter fd d r.1)
    | _ => none
  -- with a result, or with `ETIMEDOUT`
  | .callDone t =>
    match s.pc t with
    | .io _ _ .raw | .io _ _ .plain => some (s.goto t .free)
    | _ => none
  | .rawAgain t =>
    match s.pc t with
    | .io fd d .raw => some (s.goto t (.io fd d .adding))
    | _ => none
  | .addCtl t fault =>
    match s.pc t with
    | .io fd d .adding =>
      (s.iom.addEventCtl fd d ET fault).map fun r =>
        { s with iom := r.2 }.goto t (.io fd d (if r.1 then .updating else .yielding))
    | _ => none
  | .update t =>
    match s.pc t with
    | .io fd d .updating =>
      if s.holder fd = none then
        (s.iom.addEventUpdate fd d none t).map fun iom =>
          { s with iom := iom }.goto t (.io fd d .yielding)
      else none
    | _ => none
  | .yield t =>
    match s.pc t with
    | .io fd d .yielding => some (s.goto t (.io fd d .held))
    | _ => none
  | .take t =>
    match s.pc t with
    | .io fd d .held =>
      if t ∈ s.queued then
        some ({ s with iom := { s.iom with
          mTasks := s.iom.mTasks.eraseP fun u => u.fiber = some t } }.goto t (.io fd d .raw))
      else none
    | _ => none
  | .close t fd =>
    match s.pc t with
    | .free => some (s.goto t (.closing fd .get))
    | _ => none
  | .closeGet t =>
    match s.pc t with
    | .closing fd .get =>
      (s.fdManager.get fd false false).map fun r =>
        s.goto t (.closing fd (if r.1.isSome then .delTest else .raw))
    | _ => none
  | .delTest t =>
    match s.pc t with
    | .closing fd .delTest =>
      (s.iom.delEventTest fd).map fun go =>
        s.goto t (.closing fd (if go then .delCtl else .delCtx))
    | _ => none
  | .delCtl t fault =>
    match s.pc t with
    | .closing fd .delCtl =>
      some ({ s with iom := s.iom.delEventCtl fd fault }.goto t (.closing fd .delClear))
    | _ => none
  | .delClear t =>
    match s.pc t with
    | .closing fd .delClear =>
      if s.holder fd = none then
        (s.iom.delEventClear fd).map fun iom => { s with iom := iom }.goto t (.closing fd .delCtx)
      else none
    | _ => none
  | .delCtx t =>
    match s.pc t with
    | .closing fd .delCtx =>
      (s.fdManager.del fd).map fun m => { s with fdManager := m }.goto t (.closing fd .raw)
    | _ => none
  -- the kernel forgets a descriptor that is closed
  | .rawClose t =>
    match s.pc t with
    | .closing fd .raw =>
      some ({ s with
        isOpen := Function.update s.isOpen fd none
        iom := { s.iom with epoll := Function.update s.iom.epoll fd none } }.goto t .free)
    | _ => none
  | .dispatch fd events fault =>
    if s.holder fd = none then
      (s.iom.dispatchCtl fd events fault).map fun r =>
        { s with iom := r.2 }.setHolder fd (Trigger.start r.1)
    else none
  | .cancelEvent fd d fault =>
    if s.holder fd = none then
      (s.iom.cancelEventCtl fd d fault).map fun r =>
        { s with iom := r.2 }.setHolder fd (Trigger.start r.1)
    else none
  | .trigger fd =>
    match s.holder fd with
    | some ⟨.clear, d, rest⟩ =>
      (s.iom.triggerClear fd d).map fun iom =>
        { s with iom := iom }.setHolder fd (some ⟨.queue, d, rest⟩)
    | some ⟨.queue, d, rest⟩ =>
      (s.iom.triggerQueue fd d).map fun iom =>
        { s with iom := iom }.setHolder fd (some ⟨.reset, d, rest⟩)
    | some ⟨.reset, d, rest⟩ =>
      (s.iom.triggerReset fd d).map fun iom =>
        { s with iom := iom }.setHolder fd (Trigger.start rest)
    | none => none

/-! ### What a step can do -/

/-- From its place in `s`, thread `t` gets to `p` with no other descriptor. -/
structure Keeps (s : FdHost N κ) (t : ℕ) (p : FdPc) : Prop where
  about : ∀ fd, p.about = some fd → (s.pc t).about = some fd
  exclusive : ∀ fd, p.exclusive = some fd → (s.pc t).exclusive = some fd
  created : ∀ fd, p ≠ .created fd
  raw : ∀ fd, p = .closing fd .raw → s.fdManager.ctxAt fd = none

/-- And it does not stop waiting. -/
structure Move (s : FdHost N κ) (t : ℕ) (p : FdPc) : Prop extends s.Keeps t p where
  waitsOn : p.waitsOn = (s.pc t).waitsOn ∨ (s.pc t).waitsOn = none

/-- The state after an action, by what it does to the tables. -/
inductive Stepped (s : FdHost N κ) : Act → FdHost N κ → Prop
  | opened {a : Act} {t : ℕ} {fd : ℤ} (hex : (s.pc t).exclusive = none)
      (hwait : (s.pc t).waitsOn = none) (h0 : 0 ≤ fd) (hfd : s.isOpen fd = none) :
      Stepped s a ((s.opened fd .hooked).goto t (.created fd))
  | openOutside {fd : ℤ} (h0 : 0 ≤ fd) (hfd : s.isOpen fd = none) :
      Stepped s (.openOutside fd) (s.opened fd .outside)
  | built {t : ℕ} {fd : ℤ} {sock : Bool} {r : Option FdCtxPtr × FdManager}
      (hpc : s.pc t = .created fd) (hget : s.fdManager.get fd true sock = some r) :
      Stepped s (.build t sock) ({ s with fdManager := r.2 }.goto t .free)
  | call {t : ℕ} {fd : ℤ} {d : Dir} (hpc : s.pc t = .free) :
      Stepped s (.call t fd d) (s.goto t (.io fd d .get))
  | close {t : ℕ} {fd : ℤ} (hpc : s.pc t = .free) :
      Stepped s (.close t fd) (s.goto t (.closing fd .get))
  | moved {a : Act} {t : ℕ} {p : FdPc} {iom : IOManager N ℕ κ} (hsame : s.iom.SameEvents iom)
      (hmove : s.Move t p) : Stepped s a ({ s with iom := iom }.goto t p)
  | updated {t : ℕ} {fd : ℤ} {d : Dir} {iom : IOManager N ℕ κ}
      (hpc : s.pc t = .io fd d .updating) (hfree : s.holder fd = none)
      (hreg : s.iom.addEventUpdate fd d none t = some iom) :
      Stepped s (.update t) ({ s with iom := iom }.goto t (.io fd d .yielding))
  | taken {t : ℕ} {fd : ℤ} {d : Dir} (hpc : s.pc t = .io fd d .held) (ht : t ∈ s.queued) :
      Stepped s (.take t) ({ s with iom := { s.iom with
        mTasks := s.iom.mTasks.eraseP fun u => u.fiber = some t } }.goto t (.io fd d .raw))
  | cleared {t : ℕ} {fd : ℤ} {iom : IOManager N ℕ κ} (hpc : s.pc t = .closing fd .delClear)
      (hfree : s.holder fd = none) (hclear : s.iom.delEventClear fd = some iom) :
      Stepped s (.delClear t) ({ s with iom := iom }.goto t (.closing fd .delCtx))
  | deleted {t : ℕ} {fd : ℤ} {m : FdManager} (hpc : s.pc t = .closing fd .delCtx)
      (hdel : s.fdManager.del fd = some m) :
      Stepped s (.delCtx t) ({ s with fdManager := m }.goto t (.closing fd .raw))
  | released {t : ℕ} {fd : ℤ} (hpc : s.pc t = .closing fd .raw) :
      Stepped s (.rawClose t) ({ s with
        isOpen := Function.update s.isOpen fd none
        iom := { s.iom with epoll := Function.update s.iom.epoll fd none } }.goto t .free)
  | dispatched {a : Act} {fd : ℤ} {iom : IOManager N ℕ κ} (dirs : List Dir)
      (hfree : s.holder fd = none) (hsame : s.iom.SameEvents iom) :
      Stepped s a ({ s with iom := iom }.setHolder fd (Trigger.start dirs))
  | triggerClear {fd : ℤ} {d : Dir} {rest : List Dir} {iom : IOManager N ℕ κ}
      (hheld : s.holder fd = some ⟨.clear, d, rest⟩)
      (htrigger : s.iom.triggerClear fd d = some iom) :
      Stepped s (.trigger fd) ({ s with iom := iom }.setHolder fd (some ⟨.queue, d, rest⟩))
  | triggerQueue {fd : ℤ} {d : Dir} {rest : List Dir} {iom : IOManager N ℕ κ}
      (hheld : s.holder fd = some ⟨.queue, d, rest⟩)
      (htrigger : s.iom.triggerQueue fd d = some iom) :
      Stepped s (.trigger fd) ({ s with iom := iom }.setHolder fd (some ⟨.reset, d, rest⟩))
  | triggerReset {fd : ℤ} {d : Dir} {rest : List Dir} {iom : IOManager N ℕ κ}
      (hheld : s.holder fd = some ⟨.reset, d, rest⟩)
      (htrigger : s.iom.triggerReset fd d = some iom) :
      Stepped s (.trigger fd) ({ s with iom := iom }.setHolder fd (Trigger.start rest))

variable {s s' : FdHost N κ} {a : Act}

/-- A thread goes on, and the events stay. -/
theorem moved_goto (hs : s.iom.PoolWf) {t : ℕ} {p : FdPc} (hmove : s.Move t p) :
    Stepped s a (s.goto t p) :=
  .moved (IOManager.sameEvents_refl hs) hmove

theorem keeps_free (s : FdHost N κ) (t : ℕ) : s.Keeps t .free :=
  ⟨by simp [FdPc.about], by simp [FdPc.exclusive], by simp, by simp⟩

theorem move_free (t : ℕ) (h : (s.pc t).waitsOn = none) : s.Move t .free :=
  ⟨keeps_free s t, .inr h⟩

theorem keeps_io {t : ℕ} {fd : ℤ} {d : Dir} {st : CallStage} (hpc : s.pc t = .io fd d st)
    (st' : CallStage) : s.Keeps t (.io fd d st') :=
  ⟨by simp [FdPc.about, hpc], by simp [FdPc.exclusive], by simp, by simp⟩

theorem move_io {t : ℕ} {fd : ℤ} {d : Dir} {st st' : CallStage} (hpc : s.pc t = .io fd d st)
    (hwait : (FdPc.io fd d st').waitsOn = (s.pc t).waitsOn ∨ (s.pc t).waitsOn = none) :
    s.Move t (.io fd d st') :=
  ⟨keeps_io hpc st', hwait⟩

theorem move_closing {t : ℕ} {fd : ℤ} {st st' : CloseStage} (hpc : s.pc t = .closing fd st)
    (hraw : st' = .raw → s.fdManager.ctxAt fd = none) : s.Move t (.closing fd st') := by
  refine ⟨⟨by simp [FdPc.about, hpc], by simp [FdPc.exclusive, hpc], by simp, fun fd' h => ?_⟩,
    .inl (by simp [FdPc.waitsOn, hpc])⟩
  obtain ⟨rfl, hst⟩ := FdPc.closing.inj h
  exact hraw hst

/-- **What a step can do.** -/
theorem stepped (hs : s.iom.PoolWf) (h : s.step a = some s') : Stepped s a s' := by
  cases a with
  | socket t fd =>
    simp only [step] at h
    split at h
    · rename_i hpc
      split_ifs at h with hfd
      rw [← Option.some_inj.mp h]
      exact .opened (by rw [hpc]; rfl) (by rw [hpc]; rfl) hfd.1 hfd.2
    · exact absurd h (by simp)
  | accepted t fd =>
    simp only [step] at h
    split at h
    case h_3 => exact absurd h (by simp)
    all_goals
      rename_i hpc
      split_ifs at h with hfd
      rw [← Option.some_inj.mp h]
      exact .opened (by rw [hpc]; rfl) (by rw [hpc]; rfl) hfd.1 hfd.2
  | build t sock =>
    simp only [step] at h
    split at h
    · rename_i fd hpc
      obtain ⟨r, hget, rfl⟩ := Option.map_eq_some_iff.mp h
      exact .built hpc hget
    · exact absurd h (by simp)
  | openOutside fd =>
    simp only [step] at h
    split_ifs at h with hfd
    rw [← Option.some_inj.mp h]
    exact .openOutside hfd.1 hfd.2
  | call t fd d =>
    simp only [step] at h
    split at h
    · rename_i hpc
      rw [← Option.some_inj.mp h]
      exact .call hpc
    · exact absurd h (by simp)
  | getCtx t =>
    simp only [step] at h
    split at h
    · rename_i fd d hpc
      obtain ⟨r, -, rfl⟩ := Option.map_eq_some_iff.mp h
      refine moved_goto hs ?_
      have hio : ∀ st', (FdPc.io fd d st').waitsOn = (s.pc t).waitsOn ∨ (s.pc t).waitsOn = none :=
        fun _ => .inr (by rw [hpc]; rfl)
      unfold enter
      split
      · exact move_io hpc (hio _)
      · split_ifs
        · exact move_free t (by rw [hpc]; rfl)
        · exact move_io hpc (hio _)
        · exact move_io hpc (hio _)
    · exact absurd h (by simp)
  | callDone t =>
    simp only [step] at h
    split at h
    case h_3 => exact absurd h (by simp)
    all_goals
      rename_i hpc
      rw [← Option.some_inj.mp h]
      exact moved_goto hs (move_free t (by rw [hpc]; rfl))
  | rawAgain t =>
    simp only [step] at h
    split at h
    · rename_i hpc
      rw [← Option.some_inj.mp h]
      exact moved_goto hs (move_io hpc (.inr (by rw [hpc]; rfl)))
    · exact absurd h (by simp)
  | addCtl t fault =>
    simp only [step] at h
    split at h
    · rename_i fd d hpc
      obtain ⟨r, hctl, rfl⟩ := Option.map_eq_some_iff.mp h
      obtain ⟨hframe, hat, htasks, -⟩ := IOManager.addEventCtl_cases hs hctl
      refine .moved ⟨hframe.wf, funext fun g => ?_, htasks⟩
        (move_io hpc (.inr (by rw [hpc]; rfl)))
      by_cases hg : g = fd
      · rw [hg, hat]
      · exact hframe.eventAt hg
    · exact absurd h (by simp)
  | update t =>
    simp only [step] at h
    split at h
    · rename_i fd d hpc
      split_ifs at h with hfree
      obtain ⟨iom, hreg, rfl⟩ := Option.map_eq_some_iff.mp h
      exact .updated hpc hfree hreg
    · exact absurd h (by simp)
  | yield t =>
    simp only [step] at h
    split at h
    · rename_i hpc
      rw [← Option.some_inj.mp h]
      exact moved_goto hs (move_io hpc (.inl (by rw [hpc]; rfl)))
    · exact absurd h (by simp)
  | take t =>
    simp only [step] at h
    split at h
    · rename_i hpc
      split_ifs at h with ht
      rw [← Option.some_inj.mp h]
      exact .taken hpc ht
    · exact absurd h (by simp)
  | close t fd =>
    simp only [step] at h
    split at h
    · rename_i hpc
      rw [← Option.some_inj.mp h]
      exact .close hpc
    · exact absurd h (by simp)
  | closeGet t =>
    simp only [step] at h
    split at h
    · rename_i fd hpc
      obtain ⟨r, hget, rfl⟩ := Option.map_eq_some_iff.mp h
      refine moved_goto hs (move_closing hpc fun hst => ?_)
      -- the raw call is next only without a context
      split_ifs at hst with hr
      rw [FdManager.get_eq hget] at hr
      simpa using hr
    · exact absurd h (by simp)
  | delTest t =>
    simp only [step] at h
    split at h
    · rename_i fd hpc
      obtain ⟨go, -, rfl⟩ := Option.map_eq_some_iff.mp h
      refine moved_goto hs (move_closing hpc fun hst => ?_)
      split_ifs at hst
    · exact absurd h (by simp)
  | delCtl t fault =>
    simp only [step] at h
    split at h
    · rename_i fd hpc
      rw [← Option.some_inj.mp h]
      exact .moved (IOManager.sameEvents_epoll hs _) (move_closing hpc (by simp))
    · exact absurd h (by simp)
  | delClear t =>
    simp only [step] at h
    split at h
    · rename_i fd hpc
      split_ifs at h with hfree
      obtain ⟨iom, hclear, rfl⟩ := Option.map_eq_some_iff.mp h
      exact .cleared hpc hfree hclear
    · exact absurd h (by simp)
  | delCtx t =>
    simp only [step] at h
    split at h
    · rename_i fd hpc
      obtain ⟨m, hdel, rfl⟩ := Option.map_eq_some_iff.mp h
      exact .deleted hpc hdel
    · exact absurd h (by simp)
  | rawClose t =>
    simp only [step] at h
    split at h
    · rename_i fd hpc
      rw [← Option.some_inj.mp h]
      exact .released hpc
    · exact absurd h (by simp)
  | dispatch fd events fault =>
    simp only [step] at h
    split_ifs at h with hfree
    obtain ⟨r, hctl, rfl⟩ := Option.map_eq_some_iff.mp h
    exact .dispatched r.1 hfree (IOManager.dispatchCtl_same hs hctl)
  | cancelEvent fd d fault =>
    simp only [step] at h
    split_ifs at h with hfree
    obtain ⟨r, hctl, rfl⟩ := Option.map_eq_some_iff.mp h
    exact .dispatched r.1 hfree (IOManager.cancelEventCtl_same hs hctl)
  | trigger fd =>
    simp only [step] at h
    split at h
    · rename_i d rest hheld
      obtain ⟨iom, htrigger, rfl⟩ := Option.map_eq_some_iff.mp h
      exact .triggerClear hheld htrigger
    · rename_i d rest hheld
      obtain ⟨iom, htrigger, rfl⟩ := Option.map_eq_some_iff.mp h
      exact .triggerQueue hheld htrigger
    · rename_i d rest hheld
      obtain ⟨iom, htrigger, rfl⟩ := Option.map_eq_some_iff.mp h
      exact .triggerReset hheld htrigger
    · exact absurd h (by simp)

end FdHost

end Server
