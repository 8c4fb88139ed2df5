/-
What a descriptor number finds when it is used again.

A descriptor is closed once it has been created, and with no other call on it.

* `Waiters` — what the pool, the queue and the waiting threads say about each
  other, in every run;
* `Tables` — the contexts against the descriptors that are open;
* `startsClean` — a number that the kernel hands out is clean, unless a thread has put
  its waiter into the queue and has still to empty the slot; and a new socket gets a
  new context;
* `staysClean` — a number that is not released in this window is clean as long as it
  is not handed out;
* `released_in_trigger` — `delEvent` finds no event and goes on, while a waiter
  stands in its slot.
-/
import AsyncServer.FdHost

namespace Server

open Epoll Transition

/-! ### The waiters of one descriptor -/

/-- The slots of one `Event` hold fibers that wait for it and are not in the queue,
except for the one slot that is about to be reset. -/
structure Waited {κ : Type*} (pc : ℕ → FdPc) (queued : List ℕ) (fd : ℤ) (holder : Option Trigger)
    (task : Event ℕ κ) : Prop where
  dirs : readiness task.event = task.event
  filled : ∀ {d}, task.event &&& d.mask ≠ 0 → task.getEvent d ≠ ⟨none, none⟩
  waiter : ∀ {d}, task.getEvent d ≠ ⟨none, none⟩ → ∃ f, task.getEvent d = ⟨none, some f⟩ ∧
    ((∃ rest, holder = some ⟨.reset, d, rest⟩) ∨ (pc f).waitsOn = some (fd, d) ∧ f ∉ queued)
  cleared : ∀ {st d rest}, holder = some ⟨st, d, rest⟩ → st ≠ .clear → task.event &&& d.mask = 0

namespace Waited

variable {κ : Type*} {pc pc' : ℕ → FdPc} {queued queued' : List ℕ} {fd : ℤ}
  {holder : Option Trigger} {task : Event ℕ κ} {d : Dir} {rest : List Dir}

theorem new (pc : ℕ → FdPc) (queued : List ℕ) (fd : ℤ) (holder : Option Trigger) :
    Waited pc queued fd holder (.new fd : Event ℕ κ) where
  dirs := readiness_zero
  filled h := absurd BitVec.zero_and h
  waiter {d} h := by cases d <;> exact absurd rfl h
  cleared _ _ := BitVec.zero_and

/-- Only who waits, and is not in the queue, matters. -/
theorem mono (h : Waited pc queued fd holder task)
    (hmono : ∀ f d, (pc f).waitsOn = some (fd, d) → f ∉ queued →
      (pc' f).waitsOn = some (fd, d) ∧ f ∉ queued') : Waited pc' queued' fd holder task where
  dirs := h.dirs
  filled := h.filled
  waiter hd := by
    obtain ⟨f, hf, hreset | ⟨hwait, hq⟩⟩ := h.waiter hd
    · exact ⟨f, hf, .inl hreset⟩
    · exact ⟨f, hf, .inr (hmono f _ hwait hq)⟩
  cleared := h.cleared

/-- Outside of the window before a reset, the waiters wait. -/
theorem waits (h : Waited pc queued fd holder task)
    (hd : task.getEvent d ≠ ⟨none, none⟩) (hno : ∀ rest, holder ≠ some ⟨.reset, d, rest⟩) :
    ∃ f, task.getEvent d = ⟨none, some f⟩ ∧ (pc f).waitsOn = some (fd, d) ∧ f ∉ queued := by
  obtain ⟨f, hf, ⟨rest, hreset⟩ | hwait⟩ := h.waiter hd
  · exact absurd hreset (hno rest)
  · exact ⟨f, hf, hwait⟩

/-- The lock is taken. -/
theorem start (h : Waited pc queued fd none task) (dirs : List Dir) :
    Waited pc queued fd (Trigger.start dirs) task where
  dirs := h.dirs
  filled := h.filled
  waiter hd := by
    obtain ⟨f, hf, hwait⟩ := h.waits hd (by simp)
    exact ⟨f, hf, .inr hwait⟩
  cleared hst hne := by
    cases dirs with
    | nil => exact absurd hst (by simp [Trigger.start])
    | cons e es => exact absurd (by injection Option.some_inj.mp hst with h; exact h.symm) hne

/-- `event = event & ~ev`. -/
theorem clear (h : Waited pc queued fd (some ⟨.clear, d, rest⟩) task) :
    Waited pc queued fd (some ⟨.queue, d, rest⟩)
      { task with event := task.event &&& ~~~d.mask } where
  dirs := by
    rw [readiness_and, h.dirs]
  filled {e} he := by
    rw [Event.getEvent_with_event]
    by_cases hed : e = d
    · rw [hed] at he
      exact absurd (and_not_mask_self _ d) he
    · rw [and_not_mask_of_ne _ hed] at he
      exact h.filled he
  waiter {e} he := by
    rw [Event.getEvent_with_event] at he ⊢
    obtain ⟨f, hf, hwait⟩ := h.waits he (by simp)
    exact ⟨f, hf, .inr hwait⟩
  cleared {st e rest'} hst _ := by
    obtain ⟨-, rfl, -⟩ := Trigger.mk.inj (Option.some_inj.mp hst)
    exact and_not_mask_self _ _

/-- The waiter is queued. -/
theorem queue (h : Waited pc queued fd (some ⟨.queue, d, rest⟩) task) :
    Waited pc (queued ++ (task.getEvent d).task.toList.filterMap Task.fiber) fd
      (some ⟨.reset, d, rest⟩) task where
  dirs := h.dirs
  filled := h.filled
  waiter {e} he := by
    obtain ⟨f, hf, hwait, hq⟩ := h.waits he (by simp)
    refine ⟨f, hf, ?_⟩
    by_cases hed : e = d
    · exact .inl ⟨rest, by rw [hed]⟩
    -- the fiber that is queued waits for the other direction
    · refine .inr ⟨hwait, fun hmem => ?_⟩
      rcases List.mem_append.mp hmem with hmem | hmem
      · exact hq hmem
      by_cases hd : task.getEvent d = ⟨none, none⟩
      · rw [hd] at hmem
        exact absurd hmem List.not_mem_nil
      · obtain ⟨g, hg, hgwait, -⟩ := h.waits hd (by simp)
        rw [hg] at hmem
        obtain rfl : f = g := List.mem_singleton.mp hmem
        rw [hgwait] at hwait
        exact hed (Prod.mk.inj (Option.some_inj.mp hwait)).2.symm
  cleared {st e rest'} hst _ := by
    obtain ⟨-, rfl, -⟩ := Trigger.mk.inj (Option.some_inj.mp hst)
    exact h.cleared rfl (by decide)

/-- `reset(ev)`. -/
theorem reset (h : Waited pc queued fd (some ⟨.reset, d, rest⟩) task) :
    Waited pc queued fd (Trigger.start rest) (task.reset d) := by
  have hslot : ∀ {e}, (task.reset d).getEvent e ≠ ⟨none, none⟩ →
      e ≠ d ∧ (task.reset d).getEvent e = task.getEvent e := by
    intro e he
    have hed : e ≠ d := by
      rintro rfl
      exact he (Event.getEvent_setEvent _ _ _)
    exact ⟨hed, Event.getEvent_setEvent_of_ne _ hed _⟩
  have hevent : (task.reset d).event = task.event := Event.event_setEvent _ _ _
  refine Waited.start ⟨?_, fun {e} he => ?_, fun {e} he => ?_, fun h => absurd h (by simp)⟩ rest
  · rw [hevent, h.dirs]
  · rw [hevent] at he
    have hed : e ≠ d := by
      rintro rfl
      exact he (h.cleared rfl (by decide))
    rw [Event.reset, Event.getEvent_setEvent_of_ne _ hed]
    exact h.filled he
  · obtain ⟨hed, hsame⟩ := hslot he
    rw [hsame] at he ⊢
    obtain ⟨f, hf, hwait⟩ := h.waits he fun rest' hr =>
      hed (Trigger.mk.inj (Option.some_inj.mp hr)).2.1.symm
    exact ⟨f, hf, .inr hwait⟩

/-- A fiber that is not in the queue registers. -/
theorem register (h : Waited pc queued fd none task) {t : ℕ} (hwait : (pc t).waitsOn = some (fd, d))
    (hq : t ∉ queued) : Waited pc queued fd none (task.register d none t) where
  dirs := by
    rw [Event.event_register, readiness_or, h.dirs, readiness_mask]
  filled {e} he := by
    by_cases hed : e = d
    · rw [hed, Event.getEvent_register]
      simp
    · rw [Event.event_register, or_mask_and_of_ne _ hed] at he
      rw [Event.getEvent_register_of_ne _ hed]
      exact h.filled he
  waiter {e} he := by
    by_cases hed : e = d
    · subst hed
      refine ⟨t, ?_, .inr ⟨hwait, hq⟩⟩
      rw [Event.getEvent_register]
      -- a slot never has a callback
      by_cases hslot : task.getEvent e = ⟨none, none⟩
      · rw [hslot]
      · obtain ⟨f, hf, -⟩ := h.waiter hslot
        rw [hf]
    · rw [Event.getEvent_register_of_ne _ hed] at he ⊢
      exact h.waiter he
  cleared hst := absurd hst (by simp)

end Waited

namespace FdHost

variable {N : ℕ} {κ : Type*} {s s' : FdHost N κ} {a : Act}

/-! ### All waiters -/

/-- What the pool, the queue and the waiting threads say about each other. -/
structure Waiters (s : FdHost N κ) : Prop where
  wf : s.iom.PoolWf
  waited : ∀ fd, Waited s.pc s.queued fd (s.holder fd) (s.iom.eventAt fd)
  queued : ∀ {f}, f ∈ s.queued → (s.pc f).waitsOn ≠ none
  nodup : s.queued.Nodup

theorem waiters_start (threadCnt : ℕ) (mTimerManager : TimerManager N κ) (mEventfd : ℤ)
    (inherited : List ℕ) : (start threadCnt mTimerManager mEventfd inherited).Waiters where
  wf := IOManager.poolWf_create _ _ _
  waited fd := by
    have h : (start threadCnt mTimerManager mEventfd inherited).iom.eventAt fd = .new fd :=
      IOManager.eventAt_create _ _ _ _
    rw [h]
    exact .new _ _ _ _
  queued h := absurd h List.not_mem_nil
  nodup := List.nodup_nil

theorem queued_congr {iom : IOManager N ℕ κ} (h : iom.mTasks = s.iom.mTasks) :
    ({ s with iom := iom } : FdHost N κ).queued = s.queued := by
  rw [queued, h, queued]

/-- A thread that waits goes on waiting for the same, and one that does not wait does
as it likes. -/
theorem Waiters.goto (hs : s.Waiters) {t : ℕ} {p : FdPc}
    (hwait : p.waitsOn = (s.pc t).waitsOn ∨ (s.pc t).waitsOn = none) : (s.goto t p).Waiters := by
  have hpc : ∀ f, (s.pc f).waitsOn ≠ none → ((s.goto t p).pc f).waitsOn = (s.pc f).waitsOn := by
    intro f hf
    by_cases hft : f = t
    · subst hft
      rw [show (s.goto f p).pc f = p from Function.update_self _ _ _]
      exact hwait.resolve_right hf
    · rw [show (s.goto t p).pc f = s.pc f from Function.update_of_ne hft _ _]
  refine ⟨hs.wf, fun fd => ?_, fun {f} hf => ?_, hs.nodup⟩
  · refine (hs.waited fd).mono fun f d hf hq => ⟨?_, hq⟩
    rw [hpc f (by simp [hf])]
    exact hf
  · rw [hpc f (hs.queued hf)]
    exact hs.queued hf

/-- The event of one descriptor and its holder change, and so may the queue. -/
theorem Waiters.setEvent (hs : s.Waiters) {fd : ℤ} {iom : IOManager N ℕ κ} {task : Event ℕ κ}
    {hold : Option Trigger} (hwf : iom.PoolWf)
    (hat : ∀ g, iom.eventAt g = if g = fd then task else s.iom.eventAt g)
    (htasks : iom.mTasks = s.iom.mTasks)
    (htask : Waited s.pc s.queued fd hold task) :
    ({ s with iom := iom }.setHolder fd hold).Waiters := by
  refine ⟨hwf, fun g => ?_, fun {f} hf => ?_, ?_⟩
  · show Waited s.pc ({ s with iom := iom } : FdHost N κ).queued g
      (Function.update s.holder fd hold g) (iom.eventAt g)
    rw [hat, queued_congr htasks, Function.update_apply]
    split_ifs with hg
    · rw [hg]
      exact htask
    · exact hs.waited g
  · exact hs.queued (queued_congr htasks ▸ hf)
  · exact (queued_congr htasks).symm ▸ hs.nodup

/-- The same, where no holder changes. -/
theorem Waiters.setTask (hs : s.Waiters) {fd : ℤ} {iom : IOManager N ℕ κ} {task : Event ℕ κ}
    (hwf : iom.PoolWf) (hat : ∀ g, iom.eventAt g = if g = fd then task else s.iom.eventAt g)
    (htasks : iom.mTasks = s.iom.mTasks)
    (htask : Waited s.pc s.queued fd (s.holder fd) task) :
    ({ s with iom := iom } : FdHost N κ).Waiters := by
  have h := hs.setEvent hwf hat htasks htask
  rw [setHolder, Function.update_eq_self] at h
  exact h

/-- No event changes. -/
theorem Waiters.same (hs : s.Waiters) {iom : IOManager N ℕ κ} (hsame : s.iom.SameEvents iom) :
    ({ s with iom := iom } : FdHost N κ).Waiters := by
  refine ⟨hsame.wf, fun g => ?_, fun {f} hf => ?_, ?_⟩
  · show Waited s.pc ({ s with iom := iom } : FdHost N κ).queued g (s.holder g) (iom.eventAt g)
    rw [hsame.eventAt, queued_congr hsame.mTasks]
    exact hs.waited g
  · exact hs.queued (queued_congr hsame.mTasks ▸ hf)
  · exact (queued_congr hsame.mTasks).symm ▸ hs.nodup

/-- The tables are none of the waiters' business. -/
theorem Waiters.setTables (hs : s.Waiters) (fdManager : FdManager)
    (isOpen : ℤ → Option Origin) :
    ({ s with fdManager := fdManager, isOpen := isOpen } : FdHost N κ).Waiters :=
  ⟨hs.wf, hs.waited, hs.queued, hs.nodup⟩

/-- A trigger puts the waiter of its slot into the queue. -/
theorem Waiters.triggerQueue (hs : s.Waiters) {fd : ℤ} {d : Dir} {rest : List Dir}
    {iom : IOManager N ℕ κ} (hheld : s.holder fd = some ⟨.queue, d, rest⟩)
    (h : s.iom.triggerQueue fd d = some iom) :
    ({ s with iom := iom }.setHolder fd (some ⟨.reset, d, rest⟩)).Waiters := by
  obtain ⟨hwf, hat, htasks⟩ := IOManager.triggerQueue_spec hs.wf h
  have hfd := hs.waited fd
  rw [hheld] at hfd
  set put := ((s.iom.eventAt fd).getEvent d).task.toList.filterMap Task.fiber with hput
  have hqueued : ({ s with iom := iom } : FdHost N κ).queued = s.queued ++ put := by
    rw [FdHost.queued, htasks, List.filterMap_append]
    rfl
  -- who is put there waits for this direction, and is not there yet
  have hwaits : ∀ f ∈ put, (s.pc f).waitsOn = some (fd, d) ∧ f ∉ s.queued := by
    intro f hf
    by_cases hslot : (s.iom.eventAt fd).getEvent d = ⟨none, none⟩
    · rw [hput, hslot] at hf
      exact absurd hf List.not_mem_nil
    · obtain ⟨g, hg, hwait⟩ := hfd.waits hslot (by simp)
      rw [hput, hg] at hf
      exact List.mem_singleton.mp hf ▸ hwait
  refine ⟨hwf, fun g => ?_, fun {f} hf => ?_, ?_⟩
  · show Waited s.pc ({ s with iom := iom } : FdHost N κ).queued g
      (Function.update s.holder fd _ g) (iom.eventAt g)
    rw [hqueued, hat, Function.update_apply]
    split_ifs with hg
    · rw [hg]
      exact hfd.queue
    · refine (hs.waited g).mono fun f e hf hq => ⟨hf, fun hmem => ?_⟩
      rcases List.mem_append.mp hmem with hmem | hmem
      · exact hq hmem
      · rw [(hwaits f hmem).1] at hf
        exact hg (Prod.mk.inj (Option.some_inj.mp hf)).1.symm
  · rcases List.mem_append.mp (hqueued ▸ hf) with hf | hf
    · exact hs.queued hf
    · show (s.pc f).waitsOn ≠ none
      rw [(hwaits f hf).1]
      simp
  · show ({ s with iom := iom } : FdHost N κ).queued.Nodup
    rw [hqueued]
    refine hs.nodup.append ?_ fun f hf hmem => (hwaits f hmem).2 hf
    rw [hput]
    cases ((s.iom.eventAt fd).getEvent d).task with
    | none => exact List.nodup_nil
    | some u => cases hu : u.fiber <;> simp [hu]

/-- A task of fiber `t` is taken. -/
theorem filterMap_fiber_eraseP (mTasks : List (Task ℕ κ)) (t : ℕ) :
    (mTasks.eraseP fun u => u.fiber = some t).filterMap Task.fiber =
      (mTasks.filterMap Task.fiber).erase t := by
  induction mTasks with
  | nil => rfl
  | cons u us ih =>
    by_cases hu : u.fiber = some t
    · rw [List.eraseP_cons_of_pos (by simpa using hu), List.filterMap_cons_some hu,
        List.erase_cons_head]
    · rw [List.eraseP_cons_of_neg (by simpa using hu)]
      cases hf : u.fiber with
      | none => rw [List.filterMap_cons_none hf, List.filterMap_cons_none hf, ih]
      | some f =>
        have hft : f ≠ t := fun h => hu (h ▸ hf)
        rw [List.filterMap_cons_some hf, List.filterMap_cons_some hf,
          List.erase_cons_tail (by simpa using hft), ih]

/-- A worker takes the task of a fiber in the queue, and resumes it. -/
theorem Waiters.take (hs : s.Waiters) {t : ℕ} (ht : t ∈ s.queued) (p : FdPc) :
    ({ s with iom := { s.iom with
      mTasks := s.iom.mTasks.eraseP fun u => u.fiber = some t } }.goto t p).Waiters := by
  set s₁ : FdHost N κ := { s with iom := { s.iom with
    mTasks := s.iom.mTasks.eraseP fun u => u.fiber = some t } } with hs₁
  have hqueued : s₁.queued = s.queued.erase t := filterMap_fiber_eraseP _ _
  have hother : ∀ f, f ≠ t → (s₁.goto t p).pc f = s.pc f := fun f hf =>
    Function.update_of_ne hf _ _
  refine ⟨hs.wf.congr rfl rfl, fun fd => ?_, fun {f} hf => ?_, ?_⟩
  · have hat : s₁.iom.eventAt fd = s.iom.eventAt fd := IOManager.eventAt_congr rfl fd
    show Waited (s₁.goto t p).pc s₁.queued fd (s.holder fd) (s₁.iom.eventAt fd)
    rw [hat, hqueued]
    -- no slot counts on `t`, for it is in the queue
    refine (hs.waited fd).mono fun f d hf hq => ?_
    have hft : f ≠ t := by
      rintro rfl
      exact hq ht
    rw [hother f hft]
    exact ⟨hf, fun hmem => hq (List.mem_of_mem_erase hmem)⟩
  · change f ∈ s₁.queued at hf
    rw [hqueued, hs.nodup.mem_erase_iff] at hf
    rw [hother f hf.1]
    exact hs.queued hf.2
  · show s₁.queued.Nodup
    rw [hqueued]
    exact hs.nodup.erase t

/-- **Every step keeps the waiters in order.** -/
theorem Waiters.step (hs : s.Waiters) (h : s.step a = some s') : s'.Waiters := by
  cases stepped hs.wf h with
  | opened hex hwait h0 hfd => exact (hs.setTables _ _).goto (.inr hwait)
  | openOutside h0 hfd => exact hs.setTables _ _
  | built hpc hget => exact (hs.setTables _ _).goto (.inr (by rw [hpc]; rfl))
  | call hpc => exact hs.goto (.inr (by rw [hpc]; rfl))
  | close hpc => exact hs.goto (.inr (by rw [hpc]; rfl))
  | moved hsame hmove => exact (hs.same hsame).goto hmove.waitsOn
  | @updated t fd d iom hpc hfree hreg =>
    obtain ⟨hframe, hat, htasks, -⟩ := IOManager.addEventUpdate_eq hs.wf hreg
    have hnone : (s.pc t).waitsOn = none := by rw [hpc]; rfl
    have hq : t ∉ s.queued := fun ht => hs.queued ht hnone
    -- first it waits, then it is registered
    have h₁ : (s.goto t (.io fd d .yielding)).Waiters := hs.goto (.inr hnone)
    have hfd := h₁.waited fd
    rw [show (s.goto t (.io fd d .yielding)).holder fd = none from hfree] at hfd
    have hevents : ∀ g, iom.eventAt g =
        if g = fd then (s.iom.eventAt fd).register d none t else s.iom.eventAt g := by
      intro g
      split_ifs with hg
      · rw [hg, hat]
      · exact hframe.eventAt hg
    refine h₁.setTask hframe.wf hevents htasks ?_
    rw [show (s.goto t (.io fd d .yielding)).holder fd = none from hfree]
    exact hfd.register (by simp [FdHost.goto, FdPc.waitsOn]) hq
  | taken hpc ht => exact hs.take ht _
  | @cleared t fd iom hpc hfree hclear =>
    obtain ⟨hwf, hat, htasks⟩ := IOManager.delEventClear_spec hs.wf hclear
    exact (hs.setTask hwf hat htasks (.new _ _ _ _)).goto (.inr (by rw [hpc]; rfl))
  | deleted hpc hdel => exact (hs.setTables _ _).goto (.inr (by rw [hpc]; rfl))
  | released hpc =>
    exact ((hs.same (IOManager.sameEvents_epoll hs.wf _)).setTables _ _).goto
      (.inr (by rw [hpc]; rfl))
  | @dispatched _ fd iom dirs hfree hsame =>
    have hfd := hs.waited fd
    rw [hfree] at hfd
    have hevents : ∀ g, iom.eventAt g = if g = fd then s.iom.eventAt fd else s.iom.eventAt g := by
      intro g
      rw [hsame.eventAt]
      split_ifs with hg
      · rw [hg]
      · rfl
    exact hs.setEvent hsame.wf hevents hsame.mTasks (hfd.start dirs)
  | @triggerClear fd d rest iom hheld htrigger =>
    obtain ⟨hwf, hat, htasks⟩ := IOManager.triggerClear_spec hs.wf htrigger
    have hfd := hs.waited fd
    rw [hheld] at hfd
    exact hs.setEvent hwf hat htasks hfd.clear
  | triggerQueue hheld htrigger => exact hs.triggerQueue hheld htrigger
  | @triggerReset fd d rest iom hheld htrigger =>
    obtain ⟨hwf, hat, htasks⟩ := IOManager.triggerReset_spec hs.wf htrigger
    have hfd := hs.waited fd
    rw [hheld] at hfd
    exact hs.setEvent hwf hat htasks hfd.reset

/-! ### Contexts -/

/-- Calls are on descriptors that are open, and a `close` starts with no other call
on its descriptor. -/
def Allowed (s : FdHost N κ) : Act → Prop
  | .call _ fd _ => s.isOpen fd ≠ none ∧ ∀ u, (s.pc u).exclusive ≠ some fd
  | .close _ fd => s.isOpen fd ≠ none ∧ ∀ u, (s.pc u).about ≠ some fd
  | _ => True

/-- The contexts against the descriptors that are open. -/
structure Tables (s : FdHost N κ) : Prop where
  ctxs : s.fdManager.Wf
  nonneg : ∀ {fd}, s.isOpen fd ≠ none → 0 ≤ fd
  busy : ∀ {t fd}, (s.pc t).about = some fd → s.isOpen fd ≠ none
  alone : ∀ {t u fd}, (s.pc t).exclusive = some fd → (s.pc u).about = some fd → u = t
  hooked : ∀ {fd p}, s.fdManager.ctxAt fd = some p → s.isOpen fd = some .hooked ∧
    ∀ t, s.pc t ≠ .created fd ∧ s.pc t ≠ .closing fd .raw
  created : ∀ {t fd}, s.pc t = .created fd → s.isOpen fd = some .hooked

theorem tables_start (threadCnt : ℕ) (mTimerManager : TimerManager N κ) (mEventfd : ℤ)
    (inherited : List ℕ) : (start threadCnt mTimerManager mEventfd inherited).Tables where
  ctxs := FdManager.wf_create
  nonneg {fd} h := by
    simp only [start] at h
    split_ifs at h with hfd
    · exact hfd.1
    · exact absurd rfl h
  busy h := absurd h (by simp [start, FdPc.about])
  alone h := absurd h (by simp [start, FdPc.exclusive])
  hooked {fd p} h := by
    simp only [start, FdManager.ctxAt_create] at h
    exact absurd h (by simp)
  created h := absurd h (by simp [start])

/-- A thread goes on to `p`. -/
theorem Tables.goto (hs : s.Tables) {t : ℕ} {p : FdPc}
    (hbusy : ∀ fd, p.about = some fd → s.isOpen fd ≠ none)
    (hex : ∀ fd u, p.exclusive = some fd → u ≠ t → (s.pc u).about ≠ some fd)
    (hshared : ∀ fd u, p.about = some fd → u ≠ t → (s.pc u).exclusive ≠ some fd)
    (hctx : ∀ fd, p = .created fd ∨ p = .closing fd .raw → s.fdManager.ctxAt fd = none)
    (hcreated : ∀ fd, p = .created fd → s.isOpen fd = some .hooked) : (s.goto t p).Tables := by
  have hpc : ∀ u, (s.goto t p).pc u = if u = t then p else s.pc u := fun u => by
    simp [FdHost.goto, Function.update_apply]
  refine ⟨hs.ctxs, hs.nonneg, fun {u fd} h => ?_, fun {u v fd} h h' => ?_, fun {fd q} h => ?_,
    fun {u fd} h => ?_⟩
  · rw [hpc] at h
    split_ifs at h
    · exact hbusy fd h
    · exact hs.busy h
  · rw [hpc] at h h'
    split_ifs at h h' with hu hv hv
    · rw [hu, hv]
    · exact absurd h' (hex fd v h hv)
    · exact absurd h (hshared fd u h' hu)
    · exact hs.alone h h'
  · obtain ⟨hopen, hat⟩ := hs.hooked h
    refine ⟨hopen, fun u => ?_⟩
    rw [hpc]
    split_ifs
    · have hne : ∀ r, p = r → (r = .created fd ∨ r = .closing fd .raw) → False := by
        intro r hr hcase
        exact absurd ((hctx fd (hr ▸ hcase)).symm.trans h) (by simp)
      exact ⟨fun hr => hne _ hr (.inl rfl), fun hr => hne _ hr (.inr rfl)⟩
    · exact hat u
  · rw [hpc] at h
    split_ifs at h
    · exact hcreated fd h
    · exact hs.created h

/-- A thread goes on with the same descriptor, or returns. -/
theorem Tables.keep (hs : s.Tables) {t : ℕ} {p : FdPc} (hkeep : s.Keeps t p) :
    (s.goto t p).Tables := by
  refine hs.goto (fun fd h => hs.busy (hkeep.about fd h)) (fun fd u h hu h' => ?_)
    (fun fd u h hu h' => ?_) (fun fd h => ?_) (fun fd h => absurd h (hkeep.created fd))
  · exact hu (hs.alone (hkeep.exclusive fd h) h')
  · exact hu (hs.alone h' (hkeep.about fd h)).symm
  · rcases h with h | h
    · exact absurd h (hkeep.created fd)
    · exact hkeep.raw fd h

/-- The pool and the locks are none of the tables' business. -/
theorem Tables.setPool (hs : s.Tables) (iom : IOManager N ℕ κ) (holder : ℤ → Option Trigger) :
    ({ s with iom := iom, holder := holder } : FdHost N κ).Tables :=
  ⟨hs.ctxs, hs.nonneg, hs.busy, hs.alone, hs.hooked, hs.created⟩

/-- A number is handed out. -/
theorem Tables.opened (hs : s.Tables) {fd : ℤ} (h0 : 0 ≤ fd) (hfd : s.isOpen fd = none)
    (origin : Origin) : (s.opened fd origin).Tables := by
  have hopen : ∀ g, (s.opened fd origin).isOpen g = if g = fd then some origin else s.isOpen g :=
    fun g => by simp [FdHost.opened, Function.update_apply]
  have hmono : ∀ g, s.isOpen g ≠ none → (s.opened fd origin).isOpen g = s.isOpen g := by
    intro g hg
    rw [hopen, if_neg]
    rintro rfl
    exact hg hfd
  refine ⟨hs.ctxs, fun {g} h => ?_, fun {t g} h => ?_, hs.alone, fun {g p} h => ?_,
    fun {t g} h => ?_⟩
  · rw [hopen] at h
    split_ifs at h with hg
    · rw [hg]
      exact h0
    · exact hs.nonneg h
  · rw [hmono g (hs.busy h)]
    exact hs.busy h
  · rw [hmono g (by rw [(hs.hooked h).1]; simp)]
    exact hs.hooked h
  · rw [hmono g (by rw [hs.created h]; simp)]
    exact hs.created h

/-- **Every allowed step keeps the tables in order.** -/
theorem Tables.step (hs : s.Tables) (hwf : s.iom.PoolWf) (hok : s.Allowed a)
    (h : s.step a = some s') : s'.Tables := by
  cases stepped hwf h with
  | @opened _ t fd hex hwait h0 hfd =>
    have hnone : s.fdManager.ctxAt fd = none := by
      cases hctx : s.fdManager.ctxAt fd with
      | none => rfl
      | some p => exact absurd hfd (by rw [(hs.hooked hctx).1]; simp)
    -- nobody is on a number that was not open
    have habout : ∀ u, (s.pc u).about ≠ some fd := fun u hu => hs.busy hu hfd
    have hself : (s.opened fd .hooked).isOpen fd = some .hooked := Function.update_self _ _ _
    refine (hs.opened h0 hfd .hooked).goto (fun g h => ?_) (fun g u h _ => ?_)
      (fun g u h _ h' => ?_) (fun g h => ?_) (fun g h => ?_)
    · obtain rfl := Option.some_inj.mp h
      rw [hself]
      simp
    · obtain rfl := Option.some_inj.mp h
      exact habout u
    · obtain rfl := Option.some_inj.mp h
      exact habout u (FdPc.about_of_exclusive h')
    · obtain rfl : fd = g := by simpa using h
      exact hnone
    · obtain rfl := FdPc.created.inj h
      exact hself
  | openOutside h0 hfd => exact hs.opened h0 hfd .outside
  | @built t fd sock r hpc hget =>
    have hopen := hs.created hpc
    have h0 := hs.nonneg (by rw [hopen]; simp)
    have hnone : s.fdManager.ctxAt fd = none := by
      cases hctx : s.fdManager.ctxAt fd with
      | none => rfl
      | some p => exact absurd hpc ((hs.hooked hctx).2 t).1
    rw [FdManager.get_of_none h0 hnone, Option.some_inj] at hget
    subst hget
    -- `t` leaves its place, and then nobody is where the context would be new
    have h₁ : (s.goto t .free).Tables := hs.keep (keeps_free s t)
    refine ⟨FdManager.wf_build hs.ctxs h0, h₁.nonneg, h₁.busy, h₁.alone, fun {g p} hg => ?_,
      h₁.created⟩
    change (s.fdManager.build fd sock).ctxAt g = some p at hg
    rw [FdManager.ctxAt_build hs.ctxs h0] at hg
    split_ifs at hg with hgfd
    · refine ⟨hgfd ▸ hopen, fun u => ?_⟩
      have hne : ∀ q, (s.goto t .free).pc u = q → q.exclusive ≠ some fd := by
        rintro q rfl hq
        by_cases hut : u = t
        · simp [FdHost.goto, hut, FdPc.exclusive] at hq
        · simp only [FdHost.goto, Function.update_of_ne hut] at hq
          exact hut (hs.alone (by rw [hpc]; rfl) (FdPc.about_of_exclusive hq))
      rw [hgfd]
      exact ⟨fun hq => hne _ hq rfl, fun hq => hne _ hq rfl⟩
    · exact h₁.hooked hg
  | @call t fd d hpc =>
    refine hs.goto (fun g h => ?_) (fun g u h => absurd h (by simp [FdPc.exclusive]))
      (fun g u h _ => ?_) (fun g h => absurd h (by simp)) (fun g h => absurd h (by simp))
    · obtain rfl := Option.some_inj.mp h
      exact hok.1
    · obtain rfl := Option.some_inj.mp h
      exact hok.2 u
  | @close t fd hpc =>
    refine hs.goto (fun g h => ?_) (fun g u h _ => ?_) (fun g u h _ h' => ?_)
      (fun g h => absurd h (by simp)) (fun g h => absurd h (by simp))
    · obtain rfl := Option.some_inj.mp h
      exact hok.1
    · obtain rfl := Option.some_inj.mp h
      exact hok.2 u
    · obtain rfl := Option.some_inj.mp h
      exact hok.2 u (FdPc.about_of_exclusive h')
  | moved hsame hmove => exact (hs.keep hmove.toKeeps).setPool _ _
  | updated hpc hfree hreg => exact (hs.keep (keeps_io hpc _)).setPool _ _
  | taken hpc ht => exact (hs.keep (keeps_io hpc _)).setPool _ _
  | @cleared t fd iom hpc hfree hclear =>
    have hmove : s.Move t (.closing fd .delCtx) := move_closing hpc (by simp)
    exact (hs.keep hmove.toKeeps).setPool _ _
  | @deleted t fd m hpc hdel =>
    -- first the context goes, then the thread gets to the raw call
    have hctx : ∀ {g p}, m.ctxAt g = some p → s.fdManager.ctxAt g = some p := by
      intro g p hg
      rw [FdManager.ctxAt_del hdel] at hg
      split_ifs at hg
      exact hg
    have h₁ : ({ s with fdManager := m } : FdHost N κ).Tables :=
      ⟨(FdManager.wf_del hs.ctxs hdel).1, hs.nonneg, hs.busy, hs.alone,
        fun hg => hs.hooked (hctx hg), hs.created⟩
    have hnone : m.ctxAt fd = none := by rw [FdManager.ctxAt_del hdel, if_pos rfl]
    have hmove : ({ s with fdManager := m } : FdHost N κ).Move t (.closing fd .raw) :=
      move_closing hpc fun _ => hnone
    exact h₁.keep hmove.toKeeps
  | @released t fd hpc =>
    -- with `t` gone nobody is on the number, and it has no context
    have h₁ : (s.goto t .free).Tables := hs.keep (keeps_free s t)
    have habout : ∀ u, ((s.goto t .free).pc u).about ≠ some fd := by
      intro u hu
      by_cases hut : u = t
      · simp [FdHost.goto, hut, FdPc.about] at hu
      · simp only [FdHost.goto, Function.update_of_ne hut] at hu
        exact hut (hs.alone (by rw [hpc]; rfl) hu)
    have hother : ∀ g, g ≠ fd → Function.update s.isOpen fd none g = s.isOpen g := fun g hg =>
      Function.update_of_ne hg _ _
    refine ⟨h₁.ctxs, fun {g} h => ?_, fun {u g} h => ?_, h₁.alone, fun {g p} h => ?_,
      fun {u g} h => ?_⟩
    · change Function.update s.isOpen fd none g ≠ none at h
      have hg : g ≠ fd := by
        rintro rfl
        exact h (Function.update_self _ _ _)
      rw [hother g hg] at h
      exact hs.nonneg h
    · show Function.update s.isOpen fd none g ≠ none
      have hg : g ≠ fd := by
        rintro rfl
        exact habout u h
      rw [hother g hg]
      exact h₁.busy h
    · have hg : g ≠ fd := by
        rintro rfl
        exact (hs.hooked h).2 t |>.2 hpc
      refine ⟨?_, (h₁.hooked h).2⟩
      show Function.update s.isOpen fd none g = _
      rw [hother g hg]
      exact (h₁.hooked h).1
    · show Function.update s.isOpen fd none g = _
      have hg : g ≠ fd := by
        rintro rfl
        exact habout u (by rw [show (s.goto t .free).pc u = _ from h]; rfl)
      rw [hother g hg]
      exact h₁.created h
  | dispatched dirs hfree hsame => exact hs.setPool _ _
  | triggerClear hheld htrigger => exact hs.setPool _ _
  | triggerQueue hheld htrigger => exact hs.setPool _ _
  | triggerReset hheld htrigger => exact hs.setPool _ _

/-! ### Clean numbers -/

/-- No thread in `triggerEvent` for a number has queued the waiter of a slot that it has
not reset yet. -/
def Settled (s : FdHost N κ) (fd : ℤ) : Prop :=
  ∀ d rest, s.holder fd = some ⟨.reset, d, rest⟩ → (s.iom.eventAt fd).getEvent d = ⟨none, none⟩

/-- A number has no context, no event and no waiter. -/
structure Clean (s : FdHost N κ) (fd : ℤ) : Prop where
  ctx : s.fdManager.ctxAt fd = none
  event : (s.iom.eventAt fd).event = 0
  waiter : ∀ d, (s.iom.eventAt fd).getEvent d = ⟨none, none⟩

/-- A number that a step hands out is clean. -/
def StartsClean (s : FdHost N κ) (a : Act) : Prop := ∀ fd, a.opens = some fd → s.Clean fd

/-- A new socket gets a context that was not there before, and a descriptor from outside
the hooks has none. -/
structure FreshContexts (s : FdHost N κ) : Prop where
  fresh : ∀ {t fd}, s.pc t = .created fd → ∀ sock,
    s.fdManager.get fd true sock = some (some s.fdManager.next, s.fdManager.build fd sock) ∧
      ∀ {g p}, s.fdManager.ctxAt g = some p → p ≠ s.fdManager.next
  outside : ∀ {fd}, s.isOpen fd = some .outside → s.fdManager.ctxAt fd = none

theorem Tables.ctxAt_eq_none (ht : s.Tables) {fd : ℤ}
    (h : s.isOpen fd ≠ some .hooked ∨ ∃ t, s.pc t = .created fd) :
    s.fdManager.ctxAt fd = none := by
  cases hctx : s.fdManager.ctxAt fd with
  | none => rfl
  | some p =>
    obtain ⟨hopen, hat⟩ := ht.hooked hctx
    rcases h with h | ⟨t, h⟩
    · exact absurd hopen h
    · exact absurd h (hat t).1

theorem Tables.freshContexts (ht : s.Tables) : s.FreshContexts := by
  refine ⟨fun {t fd} h sock => ?_, fun h => ht.ctxAt_eq_none (.inl (by simp [h]))⟩
  have h0 := ht.nonneg (by rw [ht.created h]; simp)
  exact ⟨FdManager.get_of_none h0 (ht.ctxAt_eq_none (.inr ⟨t, h⟩)),
    fun hg => (ht.ctxs.made hg).ne⟩

/-- A waiter of a number that is not open is about to be reset. -/
theorem Waiters.resetting (hw : s.Waiters) (ht : s.Tables) {fd : ℤ} (hfd : s.isOpen fd = none)
    {d : Dir} (hd : (s.iom.eventAt fd).getEvent d ≠ ⟨none, none⟩) :
    ∃ rest, s.holder fd = some ⟨.reset, d, rest⟩ := by
  obtain ⟨f, hf, hreset | ⟨hwait, -⟩⟩ := (hw.waited fd).waiter hd
  · exact hreset
  -- whoever waits has a call on the number
  · exact absurd hfd (ht.busy (FdPc.about_of_waitsOn hwait).1)

/-- **A number that is not open** is clean when nothing is left to be reset. -/
theorem clean_iff (hw : s.Waiters) (ht : s.Tables) {fd : ℤ} (hfd : s.isOpen fd = none) :
    s.Clean fd ↔ s.Settled fd := by
  refine ⟨fun h d _ _ => h.waiter d, fun h => ?_⟩
  have hslot : ∀ d, (s.iom.eventAt fd).getEvent d = ⟨none, none⟩ := by
    intro d
    by_contra hd
    obtain ⟨rest, hreset⟩ := hw.resetting ht hfd hd
    exact hd (h d rest hreset)
  refine ⟨ht.ctxAt_eq_none (.inl (by simp [hfd])), ?_, hslot⟩
  -- an event with a bit of a direction would have a waiter
  have hzero : ∀ d : Dir, (s.iom.eventAt fd).event &&& d.mask = 0 := by
    intro d
    by_contra hd
    exact (hw.waited fd).filled hd (hslot d)
  rw [← (hw.waited fd).dirs, readiness, BitVec.and_or_distrib_left,
    show (s.iom.eventAt fd).event &&& IN = 0 from hzero .read,
    show (s.iom.eventAt fd).event &&& OUT = 0 from hzero .write]
  exact BitVec.or_zero

/-- A step that hands a number out finds it not open. -/
theorem isOpen_of_opens (h : s.step a = some s') {fd : ℤ} (hfd : a.opens = some fd) :
    s.isOpen fd = none := by
  cases a with
  | socket t g =>
    obtain rfl := Option.some_inj.mp hfd
    simp only [step] at h
    split at h
    · split_ifs at h with hg
      exact hg.2
    · exact absurd h (by simp)
  | accepted t g =>
    obtain rfl := Option.some_inj.mp hfd
    simp only [step] at h
    split at h
    case h_3 => exact absurd h (by simp)
    all_goals
      split_ifs at h with hg
      exact hg.2
  | openOutside g =>
    obtain rfl := Option.some_inj.mp hfd
    simp only [step] at h
    split_ifs at h with hg
    exact hg.2
  | _ => exact absurd hfd (by simp [Act.opens])

/-- What every allowed run keeps. -/
theorem invariants {threadCnt : ℕ} {mTimerManager : TimerManager N κ} {mEventfd : ℤ}
    {inherited : List ℕ} (h : Reachable step Allowed
      (start threadCnt mTimerManager mEventfd inherited) s) : s.Waiters ∧ s.Tables := by
  refine Reachable.invariant (I := fun s => s.Waiters ∧ s.Tables)
    ⟨waiters_start _ _ _ _, tables_start _ _ _ _⟩ ?_ h
  rintro s a s' ⟨hw, ht⟩ hallowed hstep
  exact ⟨hw.step hstep, ht.step hw.wf hallowed hstep⟩

/-- **A number starts clean exactly if nothing is left to be reset**, whenever the kernel
hands one out; and contexts are always new. -/
theorem startsClean {threadCnt : ℕ} {mTimerManager : TimerManager N κ} {mEventfd : ℤ}
    {inherited : List ℕ} (h : Reachable step Allowed
      (start threadCnt mTimerManager mEventfd inherited) s) :
    s.FreshContexts ∧ ∀ a s', s.step a = some s' →
      (s.StartsClean a ↔ ∀ fd, a.opens = some fd → s.Settled fd) := by
  obtain ⟨hw, ht⟩ := invariants h
  exact ⟨ht.freshContexts, fun a s' hstep =>
    forall₂_congr fun fd hfd => clean_iff hw ht (isOpen_of_opens hstep hfd)⟩

/-- A thread alone may do as it likes with an open number. -/
theorem allowed_alone {t : ℕ} {fd : ℤ} (hpc : s.pc t = .free)
    (hother : ∀ u, u ≠ t → s.pc u = .free) (hopen : s.isOpen fd ≠ none) :
    (∀ d, s.Allowed (.call t fd d)) ∧ s.Allowed (.close t fd) := by
  have hfree : ∀ u, s.pc u = .free := by
    intro u
    by_cases hu : u = t
    · rw [hu, hpc]
    · exact hother u hu
  exact ⟨fun _ => ⟨hopen, fun u => by rw [hfree u]; simp [FdPc.exclusive]⟩,
    hopen, fun u => by rw [hfree u]; simp [FdPc.about]⟩

/-- Two workers, and the descriptors that the process starts with. -/
def twoWorkers : FdHost 60 Unit := start 2 TimerManager.defaultWheel 3 [0, 1, 2, 3]

set_option maxRecDepth 2000 in
/-- A socket is read from, and closed while the thread in `triggerEvent` has queued the
reader and has not reset the slot; then it does. -/
theorem closed_in_trigger :
    ∃ s : FdHost 60 Unit, Reachable step Allowed twoWorkers s ∧
      (s.iom.eventAt 5).getEvent .read = ⟨none, some 0⟩ ∧ (∃ s', s.step (.socket 0 5) = some s') ∧
      ∃ s₁, s.step (.trigger 5) = some s₁ ∧ s₁.holder 5 = none ∧
        ∃ s', s₁.step (.socket 0 5) = some s' := by
  obtain ⟨s, hs, hpc, hother, hopen, s₁, h₁, hpc₁, hother₁, hopen₁, s₂, h₂, hslot, hsocket,
      hreset⟩ :
      ∃ s : FdHost 60 Unit, run step [.socket 0 5, .build 0 true] twoWorkers = some s ∧
        s.pc 0 = .free ∧ (∀ u, u ≠ 0 → s.pc u = .free) ∧ s.isOpen 5 = some .hooked ∧
      ∃ s₁, run step [.getCtx 0, .rawAgain 0, .addCtl 0 false, .update 0, .yield 0,
          .dispatch 5 IN false, .trigger 5, .trigger 5, .take 0, .callDone 0]
          (s.goto 0 (.io 5 .read .get)) = some s₁ ∧
        s₁.pc 0 = .free ∧ (∀ u, u ≠ 0 → s₁.pc u = .free) ∧ s₁.isOpen 5 = some .hooked ∧
      ∃ s₂, run step [.closeGet 0, .delTest 0, .delCtx 0, .rawClose 0]
          (s₁.goto 0 (.closing 5 .get)) = some s₂ ∧
        (s₂.iom.eventAt 5).getEvent .read = ⟨none, some 0⟩ ∧
        (∃ s', s₂.step (.socket 0 5) = some s') ∧
        ∃ s₃, s₂.step (.trigger 5) = some s₃ ∧ s₃.holder 5 = none ∧
          ∃ s', s₃.step (.socket 0 5) = some s' := by
    have hstay : ∀ (pc : ℕ → FdPc) (p : FdPc) (u : ℕ), u ≠ 0 → pc u = .free →
        Function.update pc 0 p u = .free := fun pc p u hu h =>
      (Function.update_of_ne hu _ _).trans h
    refine ⟨_, rfl, rfl, fun u hu => ?_, rfl, _, rfl, rfl, fun u hu => ?_, rfl, _, rfl, rfl,
      ⟨_, rfl⟩, _, rfl, rfl, _, rfl⟩
    · exact hstay _ _ u hu (hstay _ _ u hu rfl)
    · repeat' refine hstay _ _ u hu ?_
      rfl
  have hreach : Reachable step Allowed twoWorkers s := .of_run_admitted (by simp [Allowed]) hs
  have hcall : s.step (.call 0 5 .read) = some (s.goto 0 (.io 5 .read .get)) := by
    simp [FdHost.step, hpc]
  have hreach := hreach.step _ ((allowed_alone hpc hother (by simp [hopen])).1 _) hcall
  have hreach := hreach.run_admitted _ h₁ (by simp [Allowed])
  have hclose : s₁.step (.close 0 5) = some (s₁.goto 0 (.closing 5 .get)) := by
    simp [FdHost.step, hpc₁]
  have hreach := hreach.step _ (allowed_alone hpc₁ hother₁ (by simp [hopen₁])).2 hclose
  exact ⟨s₂, hreach.run_admitted _ h₂ (by simp [Allowed]), hslot, hsocket, hreset⟩

/-- The number of such a socket is used again when its slot has been reset. -/
theorem startsClean_reused :
    ∃ s s' : FdHost 60 Unit, Reachable step Allowed twoWorkers s ∧
      s.step (.socket 0 5) = some s' ∧ s.StartsClean (.socket 0 5) := by
  obtain ⟨s, hs, -, -, s₁, hreset, hheld, s', hstep⟩ := closed_in_trigger
  have hallowed : s.Allowed (.trigger 5) := trivial
  have hs₁ := hs.step _ hallowed hreset
  refine ⟨s₁, s', hs₁, hstep, ((startsClean hs₁).2 _ _ hstep).mpr fun fd hfd d rest h => ?_⟩
  obtain rfl : 5 = fd := Option.some_inj.mp hfd
  rw [hheld] at h
  exact absurd h (by simp)

/-- **A number is handed out with a waiter in its slot**: the fiber that has closed it was
in the queue, and the thread in `triggerEvent` has not reset the slot. -/
theorem released_in_trigger :
    ∃ s s' : FdHost 60 Unit, Reachable step Allowed twoWorkers s ∧
      s.step (.socket 0 5) = some s' ∧ ¬ s.StartsClean (.socket 0 5) := by
  obtain ⟨s, hs, hslot, ⟨s', hstep⟩, -⟩ := closed_in_trigger
  refine ⟨s, s', hs, hstep, fun h => ?_⟩
  have hempty := (h 5 rfl).waiter .read
  rw [hslot] at hempty
  exact absurd hempty (by simp)

/-! ### Numbers that stay clean -/

/-- A number is not released before a slot of it is reset. -/
def Released (s : FdHost N κ) : Act → Prop
  | .rawClose t => ∀ fd, s.pc t = .closing fd .raw → s.Settled fd
  | _ => True

/-- The slots of a number that is not open. -/
def Empty (s : FdHost N κ) : Prop :=
  ∀ fd, s.isOpen fd = none → ∀ d, (s.iom.eventAt fd).getEvent d = ⟨none, none⟩

theorem Empty.of_opened (he : s.Empty) (fd : ℤ) (origin : Origin) :
    (s.opened fd origin).Empty := by
  intro g hg
  refine he g ?_
  have hne : g ≠ fd := by
    rintro rfl
    simp [FdHost.opened] at hg
  simpa [FdHost.opened, hne] using hg

/-- Only the slots matter. -/
theorem Empty.of_events (he : s.Empty) (hopen : s'.isOpen = s.isOpen)
    (hslot : ∀ fd, s.isOpen fd = none → ∀ d, (s.iom.eventAt fd).getEvent d = ⟨none, none⟩ →
      (s'.iom.eventAt fd).getEvent d = ⟨none, none⟩) : s'.Empty := by
  intro fd hfd d
  rw [hopen] at hfd
  exact hslot fd hfd d (he fd hfd d)

/-- A number is released clean, if no slot is about to be reset. -/
theorem Waiters.release (hw : s.Waiters) (ht : s.Tables) {t : ℕ} {fd : ℤ}
    (hpc : s.pc t = .closing fd .raw) (hreleased : s.Released (.rawClose t)) (d : Dir) :
    (s.iom.eventAt fd).getEvent d = ⟨none, none⟩ := by
  by_contra hd
  obtain ⟨f, hf, ⟨rest, hreset⟩ | ⟨hwait, -⟩⟩ := (hw.waited fd).waiter hd
  · exact hd (hreleased fd hpc d rest hreset)
  -- whoever waits has a call on the number, and is not the thread that closes it
  · have hft := ht.alone (by rw [hpc]; rfl) (FdPc.about_of_waitsOn hwait).1
    rw [hft, hpc] at hwait
    exact absurd hwait (by simp [FdPc.waitsOn])

/-- **Under the condition every step keeps the slots empty.** -/
theorem Empty.step (he : s.Empty) (hw : s.Waiters) (ht : s.Tables) (hreleased : s.Released a)
    (h : s.step a = some s') : s'.Empty := by
  cases stepped hw.wf h with
  | opened hex hwait h0 hfd => exact he.of_opened _ _
  | openOutside h0 hfd => exact he.of_opened _ _
  | built hpc hget => exact he
  | call hpc => exact he
  | close hpc => exact he
  | moved hsame hmove =>
    refine he.of_events rfl fun fd _ d hd => ?_
    rw [← hd, ← hsame.eventAt]
    rfl
  | @updated t fd d iom hpc hfree hreg =>
    obtain ⟨hframe, -⟩ := IOManager.addEventUpdate_eq hw.wf hreg
    refine he.of_events rfl fun g hg e hd => ?_
    -- who registers has a call on the descriptor
    have hne : g ≠ fd := by
      rintro rfl
      exact ht.busy (by rw [hpc]; rfl) hg
    rw [← hd, ← hframe.eventAt hne]
    rfl
  | taken hpc ht => exact he.of_events rfl fun fd _ d hd => hd
  | @cleared t fd iom hpc hfree hclear =>
    obtain ⟨-, hat, -⟩ := IOManager.delEventClear_spec hw.wf hclear
    refine he.of_events rfl fun g _ d hd => ?_
    show (iom.eventAt g).getEvent d = _
    rw [hat]
    split_ifs
    · cases d <;> rfl
    · exact hd
  | deleted hpc hdel => exact he
  | @released t fd hpc =>
    intro g hg d
    by_cases hgfd : g = fd
    · rw [hgfd]
      exact hw.release ht hpc hreleased d
    · have hopen : s.isOpen g = none := by
        rw [← hg]
        exact (Function.update_of_ne hgfd _ _).symm
      exact he g hopen d
  | dispatched dirs hfree hsame =>
    refine he.of_events rfl fun fd _ d hd => ?_
    rw [← hd, ← hsame.eventAt]
    rfl
  | @triggerClear fd d rest iom hheld htrigger =>
    obtain ⟨-, hat, -⟩ := IOManager.triggerClear_spec hw.wf htrigger
    refine he.of_events rfl fun g _ e hd => ?_
    show (iom.eventAt g).getEvent e = _
    rw [hat]
    split_ifs with hg
    · rw [Event.getEvent_with_event, ← hg]
      exact hd
    · exact hd
  | triggerQueue hheld htrigger =>
    obtain ⟨-, hat, -⟩ := IOManager.triggerQueue_spec hw.wf htrigger
    refine he.of_events rfl fun g _ e hd => ?_
    rw [← hd, ← hat]
    rfl
  | @triggerReset fd d rest iom hheld htrigger =>
    obtain ⟨-, hat, -⟩ := IOManager.triggerReset_spec hw.wf htrigger
    refine he.of_events rfl fun g _ e hd => ?_
    show (iom.eventAt g).getEvent e = _
    rw [hat]
    split_ifs with hg
    · by_cases hed : e = d
      · rw [hed]
        exact Event.getEvent_setEvent _ _ _
      · rw [Event.reset, Event.getEvent_setEvent_of_ne _ hed, ← hg]
        exact hd
    · exact hd

theorem empty_start (threadCnt : ℕ) (mTimerManager : TimerManager N κ) (mEventfd : ℤ)
    (inherited : List ℕ) : (start threadCnt mTimerManager mEventfd inherited).Empty := by
  intro fd _ d
  have h : (start threadCnt mTimerManager mEventfd inherited).iom.eventAt fd = .new fd :=
    IOManager.eventAt_create _ _ _ _
  rw [h]
  cases d <;> rfl

/-- **From its release on a number is clean**, if every one is released with nothing left
to be reset. -/
theorem staysClean {threadCnt : ℕ} {mTimerManager : TimerManager N κ} {mEventfd : ℤ}
    {inherited : List ℕ} (h : Reachable step (fun s a => s.Allowed a ∧ s.Released a)
      (start threadCnt mTimerManager mEventfd inherited) s) {fd : ℤ} (hfd : s.isOpen fd = none) :
    s.Clean fd := by
  have hrun : (s.Waiters ∧ s.Tables) ∧ s.Empty := by
    refine Reachable.invariant (I := fun s => (s.Waiters ∧ s.Tables) ∧ s.Empty)
      ⟨⟨waiters_start _ _ _ _, tables_start _ _ _ _⟩, empty_start _ _ _ _⟩ ?_ h
    rintro s a s' ⟨⟨hw, ht⟩, he⟩ ⟨hallowed, hreleased⟩ hstep
    exact ⟨⟨hw.step hstep, ht.step hw.wf hallowed hstep⟩, he.step hw ht hreleased hstep⟩
  obtain ⟨⟨hw, ht⟩, he⟩ := hrun
  exact (clean_iff hw ht hfd).mpr fun d _ _ => he fd hfd d

end FdHost

end Server
