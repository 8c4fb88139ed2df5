/-
The timer count.

`mTimerCnt` goes up with every `addTimer` and down with every `delTimer`; a
tick does not touch it.  So it is off by the one-shot timers that have fired,
the other way by the calls of `delTimer` that find nothing to remove, and by
nothing else, in the 32 bits of an `int` (`timerCnt_law`).

* `timerCnt_exact_iff` — the count is that of the pending timers exactly when these
  are no more than an `int` can tell, and as many calls of `delTimer` came too late as
  one-shot timers have fired, modulo 2^32;
* `slept_never_stops` — after one `sleep` it stays at 1 over an empty wheel.
-/
import AsyncServer.HookRuns
import Mathlib.Data.BitVec

namespace Server

open Transition

/-- A sum over a family of which one member is replaced. -/
theorem sum_update {ι α M : Type*} [Fintype ι] [DecidableEq ι] [AddCommMonoid M] (F : α → M)
    (f : ι → α) (i : ι) (x : α) :
    ∑ j, F (Function.update f i x j) + F (f i) = ∑ j, F (f j) + F x := by
  have hrest : ∑ j ∈ Finset.univ.erase i, F (Function.update f i x j) =
      ∑ j ∈ Finset.univ.erase i, F (f j) :=
    Finset.sum_congr rfl fun j hj => by rw [Function.update_of_ne (Finset.ne_of_mem_erase hj)]
  rw [← Finset.sum_erase_add _ _ (Finset.mem_univ i),
    ← Finset.sum_erase_add _ (fun j => F (f j)) (Finset.mem_univ i), hrest, Function.update_self]
  exact add_right_comm _ _ _

namespace TimerManager

variable {N : ℕ} {κ : Type*} {m m' : TimerManager N κ}

/-- The number of timers on the wheel. -/
def pending (m : TimerManager N κ) : ℕ := ∑ i, (m.mWheel i).length

/-- The one-shot timers that the next effective tick emits. -/
def dueOneShots (m : TimerManager N κ) : List TimerPtr :=
  (m.mWheel m.mCurSlot).filter fun p => !(m.heap p).recurring

theorem pending_create [Inhabited κ] (hN : 0 < N) (ticktime : ℕ) (hpos : 0 < ticktime)
    (hint : ticktime < 2 ^ 31) (now : BitVec 64) :
    (create (κ := κ) hN ticktime hpos hint now).pending = 0 := by
  simp [pending, create]

theorem pending_addTimer {timing : ℤ} {cb : κ} {recurr : Bool} {p : TimerPtr}
    (h : m.addTimer timing cb recurr = some (p, m')) : m'.pending = m.pending + 1 := by
  obtain ⟨-, slot, -, rfl⟩ := addTimer_eq_some h
  have := sum_update List.length m.mWheel slot (m.mWheel slot ++ [p])
  rw [List.length_append, List.length_singleton] at this
  simp only [pending, emplaceBack]
  omega

/-- `delTimer` removes one timer or none. -/
theorem pending_delTimer (hm : m.Wf) (p : TimerPtr) :
    (m.delTimer p).pending + (if p ∈ m.mWheel (m.heap p).slot then 1 else 0) = m.pending := by
  have hsum := sum_update List.length m.mWheel (m.heap p).slot
    ((m.mWheel (m.heap p).slot).filter (· ≠ p))
  -- no timer is twice in a slot
  have herase : (m.mWheel (m.heap p).slot).filter (· ≠ p) =
      (m.mWheel (m.heap p).slot).erase p := by
    rw [(hm.nodup _).erase_eq_filter]
    exact List.filter_congr fun q _ => by by_cases hq : q = p <;> simp [hq]
  rw [herase, List.length_erase] at hsum
  have hpos : p ∈ m.mWheel (m.heap p).slot → 0 < (m.mWheel (m.heap p).slot).length :=
    List.length_pos_of_mem
  simp only [pending, delTimer, herase]
  split_ifs at hsum ⊢ with hp
  · have := hpos hp
    omega
  · omega

/-- Every timer of `l` that has a place is counted once. -/
theorem sum_length_place {l : List TimerPtr} (h : ∀ p ∈ l, ∃ s, m.place p = some s) :
    ∑ s, (l.filter fun p => m.place p = some s).length = l.length := by
  induction l with
  | nil => simp
  | cons t l ih =>
    obtain ⟨slot, hslot⟩ := h t List.mem_cons_self
    have hl := ih fun p hp => h p (List.mem_cons_of_mem t hp)
    have hcons : ∀ s, ((t :: l).filter fun p => m.place p = some s).length =
        (if slot = s then 1 else 0) + (l.filter fun p => m.place p = some s).length := by
      intro s
      rw [List.filter_cons, hslot]
      by_cases hs : slot = s <;> simp [hs, Nat.add_comm]
    simp only [hcons, Finset.sum_add_distrib, hl, Finset.sum_ite_eq, Finset.mem_univ, if_true,
      List.length_cons]
    omega

/-- A tick loses the one-shot timers it emits. -/
theorem pending_tick {now now' : BitVec 64} {cbs : List κ} {r : Tick N κ}
    (h : m.tick now now' cbs = some r) :
    r.mgr.pending + (if m.expired now then m.dueOneShots.length else 0) = m.pending := by
  obtain ⟨he, rfl⟩ | ⟨he, m₁, h₁, rfl⟩ := tick_cases h
  · rw [he]
    rfl
  · obtain ⟨-, hplace, hwheel⟩ := reinsert_fold h₁
    have hsum : m₁.pending = m.emptied.pending +
        ((m.mWheel m.mCurSlot).filter fun p => (m.heap p).recurring).length := by
      simp only [pending, hwheel, List.length_append, Finset.sum_add_distrib,
        sum_length_place hplace]
    have hempty := sum_update List.length m.mWheel m.mCurSlot []
    have hsplit := List.length_eq_length_filter_add (l := m.mWheel m.mCurSlot)
      fun p => (m.heap p).recurring
    rw [he, if_pos rfl]
    -- what stands on the wheel afterwards: all but the slot at the cursor, and its recurring timers
    show m₁.pending + _ = _
    rw [hsum]
    simp only [pending, emptied, dueOneShots, List.length_nil] at hempty ⊢
    omega

end TimerManager

open Server.Runtime

/-- A run of hooked calls with the history of its timers: how many one-shot
timers have fired, and how many calls of `delTimer` found nothing to remove. -/
structure Audit (N : ℕ) where
  rt : Runtime N
  fired : ℕ
  missed : ℕ

namespace Audit

variable {N : ℕ} {s s' : Audit N}

/-- Whether `delTimer` finds nothing to remove. -/
def misses (m : TimerManager N Callback) (timer : TimerPtr) : ℕ :=
  if timer ∈ m.mWheel (m.heap timer).slot then 0 else 1

/-- The one-shot timers that a step fires. -/
def firedBy (rt : Runtime N) : Act → ℕ
  | .tick now _ =>
    if rt.iom.mTimerManager.expired now then rt.iom.mTimerManager.dueOneShots.length else 0
  | _ => 0

/-- The calls of `delTimer` of a step that find nothing to remove. -/
def missedBy (rt : Runtime N) : Act → ℕ
  | .delTimer f =>
    match rt.pc f with
    | .io .resumed w => ((rt.waits w).timer.map (misses rt.iom.mTimerManager)).getD 0
    | _ => 0
  | .delUserTimer timer => misses rt.iom.mTimerManager timer
  | _ => 0

/-- One step of the runtime, recorded. -/
def step (s : Audit N) (a : Act) : Option (Audit N) :=
  (s.rt.step a).map fun rt =>
    { rt := rt, fired := s.fired + firedBy s.rt a, missed := s.missed + missedBy s.rt a }

/-- The runs from the constructor. -/
def Reached (c : Config N) : Audit N → Prop := Reachable step anyStep ⟨c.boot, 0, 0⟩

/-- `mTimerCnt` is the number of pending timers. -/
def Exact (s : Audit N) : Prop := s.rt.iom.mTimerCnt.toInt = s.rt.iom.mTimerManager.pending

/-- What `mTimerCnt` and the wheel have to do with each other. -/
def Law (s : Audit N) : Prop :=
  s.rt.iom.mTimerCnt = .ofInt 32 (s.rt.iom.mTimerManager.pending + s.fired - s.missed)

theorem law_addTimer {iom iom' : IOManager N ℕ Callback} {timing : ℤ} {cb : Callback}
    {recurr : Bool} {timer : TimerPtr}
    (h : iom.addTimer timing cb recurr = some (timer, iom')) :
    iom'.mTimerCnt = iom.mTimerCnt + .ofInt 32 1 ∧
      iom'.mTimerManager.pending = iom.mTimerManager.pending + 1 := by
  obtain ⟨m, hm, rfl⟩ := IOManager.addTimer_eq_some h
  exact ⟨rfl, TimerManager.pending_addTimer hm⟩

theorem law_delTimer {iom : IOManager N ℕ Callback} (hm : iom.mTimerManager.Wf)
    (timer : TimerPtr) :
    (iom.delTimer timer).mTimerCnt = iom.mTimerCnt + .ofInt 32 (-1) ∧
      (iom.delTimer timer).mTimerManager.pending + 1 =
        iom.mTimerManager.pending + misses iom.mTimerManager timer := by
  refine ⟨sub_eq_add_neg _ _, ?_⟩
  have := TimerManager.pending_delTimer hm timer
  simp only [IOManager.delTimer, misses]
  split_ifs at this ⊢ <;> omega

/-- A step by which count and balance change alike. -/
theorem Law.add {rt : Runtime N} {fired missed : ℕ} (hs : s.Law) (d : ℤ)
    (hcnt : rt.iom.mTimerCnt = s.rt.iom.mTimerCnt + .ofInt 32 d)
    (hsum : (rt.iom.mTimerManager.pending + fired - missed : ℤ) =
      s.rt.iom.mTimerManager.pending + s.fired - s.missed + d) : Law ⟨rt, fired, missed⟩ := by
  unfold Law at hs ⊢
  rw [hcnt, hs, ← BitVec.ofInt_add, hsum]

/-- A step that leaves the count and the wheel alone. -/
theorem Law.keep {rt : Runtime N} (hs : s.Law) (hcnt : rt.iom.mTimerCnt = s.rt.iom.mTimerCnt)
    (hm : rt.iom.mTimerManager = s.rt.iom.mTimerManager) : Law ⟨rt, s.fired, s.missed⟩ := by
  unfold Law
  rw [hcnt, hm]
  exact hs

/-- The step lemma. -/
theorem law_step {a : Act} (hwf : s.rt.Wf) (hs : s.Law) (h : s.step a = some s') : s'.Law := by
  obtain ⟨rt, hrt, rfl⟩ := Option.map_eq_some_iff.mp h
  cases stepped hrt with
  | call => exact hs.keep rfl rfl
  | rawDone => exact hs.keep rfl rfl
  | rawAgain => exact hs.keep rfl rfl
  | arm _ hadd =>
    obtain ⟨hcnt, hpend⟩ := law_addTimer hadd
    refine hs.add 1 (by simpa using hcnt) ?_
    simp only [firedBy, missedBy, iom_goto, iom_setWait]
    omega
  | noTimer => exact hs.keep rfl rfl
  | addCtl _ hctl =>
    have hframe := (IOManager.addEventCtl_cases hwf.pool hctl).1
    exact hs.keep hframe.mTimerCnt hframe.mTimerManager
  | update _ hupd =>
    have hframe := (IOManager.addEventUpdate_eq hwf.pool hupd).1
    exact hs.keep hframe.mTimerCnt hframe.mTimerManager
  | yield => exact hs.keep rfl rfl
  | yieldSleep => exact hs.keep rfl rfl
  -- the count goes down in any case, the wheel only if the timer is found
  | @delTimer f w timer hpc htimer =>
    obtain ⟨hcnt, hpend⟩ := law_delTimer hwf.wheel timer
    refine hs.add (-1) (by simpa using hcnt) ?_
    simp only [firedBy, missedBy, hpc, htimer, Option.map_some, Option.getD_some, iom_goto]
    omega
  | delNoTimer hpc htimer =>
    simp only [Law, firedBy, missedBy, hpc, htimer, Option.map_none, Option.getD_none] at hs ⊢
    exact hs
  | check => exact hs.keep rfl rfl
  | sleep _ hadd =>
    obtain ⟨hcnt, hpend⟩ := law_addTimer hadd
    refine hs.add 1 (by simpa using hcnt) ?_
    simp only [firedBy, missedBy, iom_goto]
    omega
  | addTimer hadd =>
    obtain ⟨hcnt, hpend⟩ := law_addTimer hadd
    refine hs.add 1 hcnt ?_
    simp only [firedBy, missedBy]
    omega
  | @delUserTimer timer =>
    obtain ⟨hcnt, hpend⟩ := law_delTimer hwf.wheel timer
    refine hs.add (-1) hcnt ?_
    simp only [firedBy, missedBy]
    omega
  | close hdel =>
    have hframe := (IOManager.delEvent_cases hwf.pool hdel).1
    exact hs.keep hframe.mTimerCnt hframe.mTimerManager
  | dispatch hdisp =>
    have hframe := (IOManager.dispatch_cases hwf.pool hdisp).1
    exact hs.keep hframe.mTimerCnt hframe.mTimerManager
  -- one-shot timers leave the wheel, and nobody takes them off the count
  | tick htick =>
    obtain ⟨r, hr, -, rfl⟩ := IOManager.idleTick_eq_some htick
    have hpend := TimerManager.pending_tick hr
    refine hs.add 0 (add_zero _).symm ?_
    simp only [firedBy, missedBy]
    omega
  | takeFiber _ _ hres =>
    obtain ⟨w, -, rfl⟩ | ⟨-, rfl⟩ := resume_cases hres <;> exact hs.keep rfl rfl
  | takeTimeout => exact hs.keep rfl rfl
  | takeWake => exact hs.keep rfl rfl
  | takeUser => exact hs.keep rfl rfl
  | setCancel => exact hs.keep rfl rfl
  | cancelEvent _ hcancel =>
    have hframe := (IOManager.cancelEvent_cases hwf.pool hcancel).1
    exact hs.keep hframe.mTimerCnt hframe.mTimerManager

/-- In every state of every run the count is off by the one-shot timers that
have fired and by the calls of `delTimer` that came too late. -/
theorem timerCnt_law {c : Config N} (h : Reached c s) : s.Law := by
  refine (Reachable.invariant (I := fun s => s.rt.Wf ∧ s.Law) ⟨wf_boot c, ?_⟩ ?_ h).2
  · have := TimerManager.pending_create (κ := Callback) c.slotnum_pos c.ticktime c.ticktime_pos
      c.ticktime_int c.now
    simp [Law, Config.boot, start, IOManager.create, IOManager.ctxResize, this]
  · rintro s a s' ⟨hwf, hs⟩ - hstep
    refine ⟨?_, law_step hwf hs hstep⟩
    obtain ⟨rt, hrt, rfl⟩ := Option.map_eq_some_iff.mp hstep
    exact wf_step hwf hrt

/-- A number off by `d` reads as an `int` like the number itself. -/
theorem bmod_add_eq_iff {n : ℕ} {d : ℤ} :
    ((n : ℤ) + d).bmod (2 ^ 32) = n ↔ n < 2 ^ 31 ∧ (2 ^ 32 : ℤ) ∣ d := by
  rw [Int.bmod_eq_iff (by decide)]
  omega

/-- **When the timer count is exact**: when the pending timers are fewer than 2^31, and as
many calls of `delTimer` have found nothing to remove as one-shot timers have fired, modulo
2^32. -/
theorem timerCnt_exact_iff {c : Config N} (h : Reached c s) :
    s.Exact ↔ s.rt.iom.mTimerManager.pending < 2 ^ 31 ∧
      (2 ^ 32 : ℤ) ∣ (s.fired : ℤ) - s.missed := by
  have hlaw : s.Law := timerCnt_law h
  unfold Law at hlaw
  rw [Exact, hlaw, BitVec.toInt_ofInt, add_sub_assoc, bmod_add_eq_iff]

set_option maxRecDepth 2000 in
/-- A timer is added and deleted. -/
theorem timerCnt_exact_deleted :
    ∃ s, Reached defaultConfig s ∧ s.fired = 0 ∧ s.missed = 0 ∧ s.Exact := by
  have hrun : ∃ s, run step [.addTimer 400 0 false, .delUserTimer 0] ⟨defaultConfig.boot, 0, 0⟩ =
      some s ∧ s.fired = 0 ∧ s.missed = 0 ∧ s.rt.iom.mTimerManager.pending = 0 :=
    ⟨_, rfl, rfl, rfl, rfl⟩
  obtain ⟨s, hs, hfired, hmissed, hempty⟩ := hrun
  have hs := Reachable.of_run hs
  refine ⟨s, hs, hfired, hmissed, (timerCnt_exact_iff hs).mpr ⟨?_, ?_⟩⟩
  · rw [hempty]
    decide
  · rw [hfired, hmissed]
    exact dvd_zero _

set_option maxRecDepth 2000 in
/-- One `sleep(1)`, slept to its end: no call is in progress, the wheel is
empty, and the count is 1, which holds `stopping` false. -/
theorem slept_never_stops :
    ∃ s, Reached defaultConfig s ∧ (∀ f, s.rt.pc f = .user) ∧ ¬ s.Exact ∧
      s.rt.iom.mTimerManager.pending = 0 ∧ s.rt.iom.mTasks = [] ∧
      s.rt.iom.stopping true 0 = false := by
  have hrun : ∃ s, run step [.sleep 0 1, .yield 0, .tick 200 200, .tick 400 400, .tick 600 600,
        .tick 800 800, .tick 1000 1000, .tick 1200 1200, .take 0, .take 0]
        ⟨defaultConfig.boot, 0, 0⟩ = some s ∧
      (∀ f, s.rt.pc f = .user) ∧ s.rt.iom.mTimerCnt = 1 ∧ s.rt.iom.mTimerManager.pending = 0 ∧
      s.rt.iom.mTasks = [] := ⟨_, rfl, fun f => by cases f <;> rfl, rfl, rfl, rfl⟩
  obtain ⟨s, hs, hpc, hcnt, hempty, htasks⟩ := hrun
  refine ⟨s, Reachable.of_run hs, hpc, ?_, hempty, htasks, by simp [IOManager.stopping, hcnt]⟩
  rw [Exact, hcnt, hempty]
  decide

end Audit

end Server
