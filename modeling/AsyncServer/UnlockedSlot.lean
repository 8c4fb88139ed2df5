/-
Adding a timer while other threads tick.

`addTimer` reads the cursor and computes a slot before it locks, and appends the
timer to the list of that slot under the lock; between the two the ticks of other
threads may move the cursor.  Any number of threads may be between their two steps
at once.

* `run_prepare_insert` — the two steps, one after the other, are `addTimer`;
* `ready_step` — the timers in the hands of the threads are on no list, and no two
  threads have the same one;
* `wait_insert` — a timer of `k` ticks that is inserted `j` ticks late waits for
  `k - j` ticks, modulo the revolution;
* `emittedBy_iff` — so it is emitted by the `(k + 1)`-th effective tick after its
  insertion exactly when `j` is at most `k`, modulo the revolution.
-/
import AsyncServer.TimerFiring

namespace Server

open Transition TimerManager

/-- A wheel and the threads that are in `addTimer`: what each of them has computed
and not inserted yet. -/
structure AddingThreads (N : ℕ) (κ : Type*) where
  wheel : WheelRun N κ
  holds : ℕ → Option (TimerPtr × Fin N)

namespace AddingThreads

variable {N : ℕ} {κ : Type*} {s s' : AddingThreads N κ}

inductive Act (κ : Type*) where
  /-- thread `th` enters `addTimer`, reads `mCurSlot` and makes the timer -/
  | prepare (th : ℕ) (timing : ℤ) (cb : κ) (recurr : Bool)
  /-- thread `th` locks and inserts it -/
  | insert (th : ℕ)
  | delTimer (timer : TimerPtr)
  | tick (now now' : BitVec 64)

/-- One step of any thread. -/
def step (s : AddingThreads N κ) : Act κ → Option (AddingThreads N κ)
  | .prepare th timing cb recurr =>
    match s.holds th with
    | some _ => none
    | none => (slotAt N (s.wheel.mgr.slot timing)).map fun slot =>
      { wheel := { s.wheel with mgr := s.wheel.mgr.newTimer timing cb recurr slot }
        holds := Function.update s.holds th (some (s.wheel.mgr.next, slot)) }
  | .insert th => (s.holds th).map fun held =>
    { wheel := { s.wheel with mgr := s.wheel.mgr.insertTimer held.1 held.2 }
      holds := Function.update s.holds th none }
  | .delTimer timer =>
    some { s with wheel := { s.wheel with mgr := s.wheel.mgr.delTimer timer } }
  | .tick now now' => (s.wheel.step (.tick now now')).map fun w => { s with wheel := w }

/-- All interleavings from the constructor of the wheel. -/
def Reached [Inhabited κ] (hN : 0 < N) (ticktime : ℕ) (hpos : 0 < ticktime)
    (hint : ticktime < 2 ^ 31) (now : BitVec 64) : AddingThreads N κ → Prop :=
  Reachable step anyStep ⟨⟨.create hN ticktime hpos hint now, []⟩, fun _ => none⟩

/-- The effective ticks that the history of `s` has. -/
def ticked (s : AddingThreads N κ) : ℕ := s.wheel.log.length

/-- Between `s` and the later state `s'`, one of the first `k + 1` effective ticks
has emitted `p`. -/
def EmittedBy (s s' : AddingThreads N κ) (p : TimerPtr) (k : ℕ) : Prop :=
  ∃ i ≤ k, ∃ l, s'.wheel.log[s.ticked + i]? = some l ∧ p ∈ l

/-! ### What a step does -/

theorem prepare_eq_some {th : ℕ} {timing : ℤ} {cb : κ} {recurr : Bool}
    (h : s.step (.prepare th timing cb recurr) = some s') :
    s.holds th = none ∧ ∃ slot, slotAt N (s.wheel.mgr.slot timing) = some slot ∧
      s' = { wheel := { s.wheel with mgr := s.wheel.mgr.newTimer timing cb recurr slot }
             holds := Function.update s.holds th (some (s.wheel.mgr.next, slot)) } := by
  rw [step] at h
  cases hth : s.holds th with
  | some held => exact absurd h (by simp [hth])
  | none =>
    rw [hth] at h
    obtain ⟨slot, hslot, rfl⟩ := Option.map_eq_some_iff.mp h
    exact ⟨rfl, slot, hslot, rfl⟩

/-- Without another thread in between, the two steps are `addTimer`. -/
theorem run_prepare_insert {th : ℕ} (hth : s.holds th = none) (timing : ℤ) (cb : κ)
    (recurr : Bool) :
    run step [.prepare th timing cb recurr, .insert th] s =
      (s.wheel.mgr.addTimer timing cb recurr).map fun r =>
        { s with wheel := { s.wheel with mgr := r.2 } } := by
  rw [addTimer_eq, run_cons, step, hth]
  cases slotAt N (s.wheel.mgr.slot timing) with
  | none => rfl
  | some slot =>
    have hback : Function.update (Function.update s.holds th (some (s.wheel.mgr.next, slot))) th
        none = s.holds := by
      rw [Function.update_idem, ← hth, Function.update_eq_self]
    simp [run_cons, step, hback]

/-- What a `delTimer` or a `tick` of the wheel adds to its history does not depend on
what is there. -/
theorem step_append (m : TimerManager N κ) (log log' : List (List TimerPtr)) (op : TimerOp κ) :
    WheelRun.step ⟨m, log ++ log'⟩ op =
      (WheelRun.step ⟨m, log'⟩ op).map fun w => { w with log := log ++ w.log } := by
  cases op with
  | addTimer timing cb recurr => simp [WheelRun.step, Function.comp_def]
  | delTimer t => rfl
  | tick now now' =>
    rw [WheelRun.step, WheelRun.step, Option.map_map]
    congr 1
    funext r
    cases m.expired now <;> simp

/-! ### The timers in the hands of the threads -/

/-- What every interleaving keeps. -/
structure Ready (s : AddingThreads N κ) : Prop where
  wf : s.wheel.mgr.Wf
  cursor : (s.wheel.mgr.mCurSlot : ℕ) = s.ticked % N
  allocated : ∀ {th held}, s.holds th = some held → held.1 < s.wheel.mgr.next
  off : ∀ {th held}, s.holds th = some held → ∀ slot, held.1 ∉ s.wheel.mgr.mWheel slot
  apart : ∀ {th th' held held'}, s.holds th = some held → s.holds th' = some held' →
    held.1 = held'.1 → th = th'

theorem ready_create [Inhabited κ] (hN : 0 < N) (ticktime : ℕ) (hpos : 0 < ticktime)
    (hint : ticktime < 2 ^ 31) (now : BitVec 64) :
    Ready (⟨⟨.create hN ticktime hpos hint now, []⟩, fun _ => none⟩ : AddingThreads N κ) where
  wf := wf_create hN ticktime hpos hint now
  cursor := (Nat.zero_mod N).symm
  allocated h := absurd h (by simp)
  off h := absurd h (by simp)
  apart h := absurd h (by simp)

/-- What one thread holds after another one has changed what it holds. -/
theorem holds_update {th th' : ℕ} {o : Option (TimerPtr × Fin N)} {held : TimerPtr × Fin N}
    (h : Function.update s.holds th o th' = some held) :
    (th' = th ∧ o = some held) ∨ (th' ≠ th ∧ s.holds th' = some held) := by
  by_cases hth : th' = th
  · subst hth
    rw [Function.update_self] at h
    exact .inl ⟨rfl, h⟩
  · rw [Function.update_of_ne hth] at h
    exact .inr ⟨hth, h⟩

theorem ready_prepare (hs : Ready s) {th : ℕ} {timing : ℤ} {cb : κ} {recurr : Bool}
    (h : s.step (.prepare th timing cb recurr) = some s') : Ready s' := by
  obtain ⟨hth, slot, -, rfl⟩ := prepare_eq_some h
  refine ⟨wf_newTimer hs.wf _ _ _ _, hs.cursor, fun {th' held} hh => ?_,
    fun {th' held} hh => ?_, fun {th₁ th₂ held held'} hh hh' heq => ?_⟩
  · rcases holds_update hh with ⟨-, ho⟩ | ⟨-, ho⟩
    · obtain rfl := Option.some_inj.mp ho
      exact Nat.lt_succ_self _
    · exact Nat.lt_succ_of_lt (hs.allocated ho)
  · rcases holds_update hh with ⟨-, ho⟩ | ⟨-, ho⟩
    · obtain rfl := Option.some_inj.mp ho
      exact fun slot hmem => lt_irrefl _ (hs.wf.fresh hmem)
    · exact hs.off ho
  -- a new timer is another one than those held before
  · rcases holds_update hh with ⟨rfl, ho⟩ | ⟨-, ho⟩ <;>
      rcases holds_update hh' with ⟨rfl, ho'⟩ | ⟨-, ho'⟩
    · rfl
    · obtain rfl := Option.some_inj.mp ho
      exact absurd heq (hs.allocated ho').ne'
    · obtain rfl := Option.some_inj.mp ho'
      exact absurd heq (hs.allocated ho).ne
    · exact hs.apart ho ho' heq

theorem ready_insert (hs : Ready s) {th : ℕ} (h : s.step (.insert th) = some s') : Ready s' := by
  obtain ⟨held, hheld, rfl⟩ := Option.map_eq_some_iff.mp h
  have hkeep : ∀ {th' o}, Function.update s.holds th none th' = some o →
      th' ≠ th ∧ s.holds th' = some o := fun hh =>
    (holds_update hh).resolve_left fun hn => absurd hn.2 (by simp)
  refine ⟨wf_insertTimer hs.wf (hs.allocated hheld) (hs.off hheld) held.2, hs.cursor,
    fun hh => hs.allocated (hkeep hh).2, fun {th' held'} hh slot hmem => ?_,
    fun hh hh' heq => hs.apart (hkeep hh).2 (hkeep hh').2 heq⟩
  obtain ⟨hne, hh⟩ := hkeep hh
  -- what is on a list now was there, or is the timer that another thread held
  rcases mem_emplaceBack.mp hmem with hmem | ⟨heq, -⟩
  · exact hs.off hh slot hmem
  · exact hne (hs.apart hh hheld heq)

theorem ready_delTimer (hs : Ready s) {t : TimerPtr} (h : s.step (.delTimer t) = some s') :
    Ready s' := by
  obtain rfl : _ = s' := Option.some_inj.mp h
  exact ⟨wf_delTimer hs.wf t, hs.cursor, hs.allocated,
    fun hh slot hmem => hs.off hh slot (mem_delTimer.mp hmem).1, hs.apart⟩

theorem ready_tick (hs : Ready s) {now now' : BitVec 64}
    (h : s.step (.tick now now') = some s') : Ready s' := by
  obtain ⟨w, hw, rfl⟩ := Option.map_eq_some_iff.mp h
  have hwf := wf_step hs.wf hw
  obtain ⟨-, rfl⟩ | ⟨he, r, hr, rfl⟩ := tick_step_cases hw
  · exact hs
  have hnext := (recurring_tick hr 0).2
  obtain ⟨m₁, h₁, rfl⟩ := tick_effective hr he
  refine ⟨hwf, ?_, fun hh => hnext ▸ hs.allocated hh, fun {th held} hh slot hmem => ?_, hs.apart⟩
  · have hcur : m₁.mCurSlot = s.wheel.mgr.mCurSlot := (reinsert_fold h₁).1.mCurSlot
    have hcursor := hs.cursor
    unfold ticked at hcursor
    show ((m₁.mCurSlot : ℕ) + 1) % N = List.length _ % N
    rw [hcur, hcursor, List.length_append, List.length_singleton, Nat.mod_add_mod]
  · rcases (mem_tick hs.wf h₁ slot held.1).mp hmem with ⟨hmem, -⟩ | ⟨hmem, -⟩ <;>
      exact hs.off hh _ hmem

theorem ready_step {a : Act κ} (hs : Ready s) (h : s.step a = some s') : Ready s' := by
  cases a with
  | prepare => exact ready_prepare hs h
  | insert => exact ready_insert hs h
  | delTimer => exact ready_delTimer hs h
  | tick => exact ready_tick hs h

/-! ### Between the two steps -/

/-- A thread holds the one-shot timer `p` for slot `slot`, and the history goes on
from `log`. -/
structure Holding (th : ℕ) (p : TimerPtr) (slot : Fin N) (log : List (List TimerPtr))
    (s : AddingThreads N κ) : Prop where
  holds : s.holds th = some (p, slot)
  oneShot : (s.wheel.mgr.heap p).recurring = false
  history : log <+: s.wheel.log

theorem holding_step {th : ℕ} {p : TimerPtr} {slot : Fin N} {log : List (List TimerPtr)}
    {a : Act κ} (hr : Ready s) (hs : Holding th p slot log s) (ha : a ≠ .insert th)
    (h : s.step a = some s') : Holding th p slot log s' := by
  cases a with
  | prepare th' timing cb recurr =>
    obtain ⟨hth', slot', -, rfl⟩ := prepare_eq_some h
    have hne : th ≠ th' := fun heq => by simp [← heq, hs.holds] at hth'
    have hp : p ≠ s.wheel.mgr.next := (hr.allocated hs.holds).ne
    refine ⟨(Function.update_of_ne hne _ _).trans hs.holds, ?_, hs.history⟩
    simpa [newTimer, hp] using hs.oneShot
  | insert th' =>
    obtain ⟨held, -, rfl⟩ := Option.map_eq_some_iff.mp h
    have hne : th ≠ th' := fun heq => ha (by rw [heq])
    exact ⟨(Function.update_of_ne hne _ _).trans hs.holds, hs.oneShot, hs.history⟩
  | delTimer t =>
    obtain rfl : _ = s' := Option.some_inj.mp h
    exact ⟨hs.holds, hs.oneShot, hs.history⟩
  | tick now now' =>
    obtain ⟨w, hw, rfl⟩ := Option.map_eq_some_iff.mp h
    obtain ⟨-, rfl⟩ | ⟨-, r, htick, rfl⟩ := tick_step_cases hw
    · exact hs
    · exact ⟨hs.holds, (recurring_tick htick p).1.trans hs.oneShot,
        hs.history.trans (List.prefix_append _ _)⟩

/-- From the first step of `addTimer` on, the thread holds the new timer for the slot
that it has computed, as long as it does not insert it. -/
theorem holding_run {s₁ s₂ : AddingThreads N κ} {th : ℕ} {timing : ℤ} {cb : κ} (hs : Ready s)
    (hprepare : s.step (.prepare th timing cb false) = some s₁) {between : List (Act κ)}
    (hbetween : .insert th ∉ between) (hrun : run step between s₁ = some s₂) :
    Ready s₂ ∧ ∃ slot, slotAt N (s.wheel.mgr.slot timing) = some slot ∧
      Holding th s.wheel.mgr.next slot s₁.wheel.log s₂ := by
  have hs₁ := ready_step hs hprepare
  obtain ⟨-, slot, hslot, rfl⟩ := prepare_eq_some hprepare
  obtain ⟨hs₂, hholding⟩ := Reachable.run_invariant
    (I := fun t => Ready t ∧ Holding th s.wheel.mgr.next slot s.wheel.log t)
    (fun t a t' ha ht hstep => ⟨ready_step ht.1 hstep,
      holding_step ht.1 ht.2 (fun heq => hbetween (heq ▸ ha)) hstep⟩)
    ⟨hs₁, Function.update_self _ _ _, by simp [newTimer], List.prefix_rfl⟩ hrun
  exact ⟨hs₂, slot, hslot, hholding⟩

/-! ### After the insertion -/

/-- The one-shot timer `p` has been inserted to wait for `n` ticks; what has been
emitted since is on schedule, and no thread holds it. -/
structure Entered (p : TimerPtr) (n : ℕ) (log : List (List TimerPtr)) (s : AddingThreads N κ) :
    Prop where
  tracks : ∃ log', s.wheel.log = log ++ log' ∧ Tracks p n ⟨s.wheel.mgr, log'⟩
  free : ∀ {th held}, s.holds th = some held → held.1 ≠ p

/-- A step of the wheel alone keeps an inserted timer on schedule. -/
theorem entered_wheel {p : TimerPtr} {n : ℕ} {log : List (List TimerPtr)} {op : TimerOp κ}
    {w : WheelRun N κ} (hs : Entered p n log s) (hop : op ≠ .delTimer p)
    (h : s.wheel.step op = some w) : Entered p n log { s with wheel := w } := by
  obtain ⟨log', hlog, htracks⟩ := hs.tracks
  have heq : s.wheel = ⟨s.wheel.mgr, log ++ log'⟩ := by rw [← hlog]
  rw [heq, step_append] at h
  obtain ⟨w', hw', rfl⟩ := Option.map_eq_some_iff.mp h
  exact ⟨⟨w'.log, rfl, tracks_step htracks hop hw'⟩, hs.free⟩

theorem entered_step {p : TimerPtr} {n : ℕ} {log : List (List TimerPtr)} {a : Act κ}
    (hr : Ready s) (hs : Entered p n log s) (ha : a ≠ .delTimer p) (h : s.step a = some s') :
    Entered p n log s' := by
  cases a with
  | prepare th timing cb recurr =>
    obtain ⟨-, slot, -, rfl⟩ := prepare_eq_some h
    obtain ⟨log', hlog, htracks⟩ := hs.tracks
    have hp : p ≠ s.wheel.mgr.next := htracks.allocated.ne
    refine ⟨⟨log', hlog, wf_newTimer htracks.wf _ _ _ _, Nat.lt_succ_of_lt htracks.allocated,
      by simpa [newTimer, hp] using htracks.oneShot,
      htracks.onSchedule.congr (congrFun (agenda_newTimer _ _ _ _) p)⟩, ?_⟩
    intro th' held hh
    rcases holds_update hh with ⟨-, ho⟩ | ⟨-, ho⟩
    · obtain rfl := Option.some_inj.mp ho
      exact hp.symm
    · exact hs.free ho
  | insert th =>
    obtain ⟨held, hheld, rfl⟩ := Option.map_eq_some_iff.mp h
    obtain ⟨log', hlog, htracks⟩ := hs.tracks
    have hne : p ≠ held.1 := (hs.free hheld).symm
    refine ⟨⟨log', hlog, wf_insertTimer hr.wf (hr.allocated hheld) (hr.off hheld) held.2,
      htracks.allocated, htracks.oneShot,
      htracks.onSchedule.congr (agenda_insertTimer_of_ne hne held.2)⟩, ?_⟩
    intro th' held' hh
    rcases holds_update hh with ⟨-, ho⟩ | ⟨-, ho⟩
    · exact absurd ho (by simp)
    · exact hs.free ho
  | delTimer t =>
    obtain rfl : _ = s' := Option.some_inj.mp h
    have ht : (.delTimer t : TimerOp κ) ≠ .delTimer p := fun heq => ha (by simpa using heq)
    exact entered_wheel hs ht rfl
  | tick now now' =>
    obtain ⟨w, hw, rfl⟩ := Option.map_eq_some_iff.mp h
    exact entered_wheel hs (by simp) hw

/-- The second step puts the timer on schedule. -/
theorem entered_insert {th : ℕ} {p : TimerPtr} {slot : Fin N} {log : List (List TimerPtr)}
    (hr : Ready s) (hs : Holding th p slot log s) (h : s.step (.insert th) = some s') :
    s'.wheel.log = s.wheel.log ∧ Entered p (s.wheel.mgr.wait slot) s.wheel.log s' := by
  have hr' := ready_step hr h
  obtain ⟨held, hheld, rfl⟩ := Option.map_eq_some_iff.mp h
  obtain rfl : (p, slot) = held := Option.some_inj.mp (hs.holds.symm.trans hheld)
  refine ⟨rfl, ⟨[], (List.append_nil _).symm, hr'.wf, hr.allocated hheld, hs.oneShot, .start ?_⟩,
    fun {th' held'} hh heq => ?_⟩
  · show (s.wheel.mgr.insertTimer p slot).agenda p = _
    rw [agenda_insertTimer hr.wf (hr.allocated hheld) (hr.off hheld), Agenda.arm_self]
  · rcases holds_update hh with ⟨-, ho⟩ | ⟨hne, ho⟩
    · exact absurd ho (by simp)
    · exact hne (hr.apart ho hheld heq)

/-- A timer on schedule is emitted by tick number `n` after its insertion, and by no
other. -/
theorem Entered.emittedBy_iff_le {p : TimerPtr} {n k : ℕ}
    (h : Entered p n s.wheel.log s') (hticks : s.ticked + k < s'.ticked) :
    EmittedBy s s' p k ↔ n ≤ k := by
  obtain ⟨log, hlog, htracks⟩ := h.tracks
  have hlen : k < log.length := by
    rw [ticked, ticked, hlog, List.length_append] at hticks
    omega
  have hentry : ∀ i, s'.wheel.log[s.ticked + i]? = log[i]? := by
    intro i
    rw [hlog, ticked, List.getElem?_append_right (Nat.le_add_right _ _), Nat.add_sub_cancel_left]
  constructor
  · rintro ⟨i, hi, l, hl, hmem⟩
    have hcount := htracks.onSchedule.fired i l ((hentry i).symm.trans hl)
    have hpos := List.count_pos_iff.mpr hmem
    split_ifs at hcount with heq
    · omega
    · omega
  · intro hle
    have hl : log[n]? = some log[n] := List.getElem?_eq_getElem (by omega)
    refine ⟨n, hle, log[n], (hentry n).trans hl, List.count_pos_iff.mp ?_⟩
    rw [htracks.onSchedule.fired n _ hl, if_pos rfl]
    exact Nat.zero_lt_one

/-! ### How late a timer comes -/

/-- From the cursor `j` slots on, the slot `k` slots ahead is `k - j` slots ahead,
or has been passed. -/
theorem slotsAhead_late {c j k : ℕ} (hc : c < N) (hk : k < N) :
    slotsAhead N ((c + j) % N) ((c + k) % N) =
      if j % N ≤ k then k - j % N else k + N - j % N := by
  have hj : j % N < N := Nat.mod_lt j (by omega)
  have hmod : ∀ x, x < N + N → x % N = if x < N then x else x - N := by
    intro x hx
    split_ifs with hlt
    · exact Nat.mod_eq_of_lt hlt
    · rw [Nat.mod_eq_sub_mod (by omega), Nat.mod_eq_of_lt (by omega)]
  rw [← Nat.add_mod_mod c j N, hmod (c + j % N) (by omega), hmod (c + k) (by omega), slotsAhead]
  split_ifs <;> omega

/-- How long a timer of `k < mSlotNum` ticks waits that is inserted when the cursor
has moved on. -/
theorem wait_insert {s₂ : AddingThreads N κ} (hs : Ready s) (hs₂ : Ready s₂) {timing : ℤ}
    {slot : Fin N} (hk : 0 ≤ s.wheel.mgr.ticks timing) (hlt : s.wheel.mgr.ticks timing < N)
    (hsum : s.wheel.mgr.slotSum timing < 2 ^ 31)
    (hslot : slotAt N (s.wheel.mgr.slot timing) = some slot) (hle : s.ticked ≤ s₂.ticked) :
    s₂.wheel.mgr.wait slot =
      if (s₂.ticked - s.ticked) % N ≤ (s.wheel.mgr.ticks timing).toNat then
        (s.wheel.mgr.ticks timing).toNat - (s₂.ticked - s.ticked) % N
      else (s.wheel.mgr.ticks timing).toNat + N - (s₂.ticked - s.ticked) % N := by
  have hc := s.wheel.mgr.mCurSlot.isLt
  have hlt' : (s.wheel.mgr.ticks timing).toNat < N := by omega
  have hcur : (s₂.wheel.mgr.mCurSlot : ℕ) =
      (s.wheel.mgr.mCurSlot + (s₂.ticked - s.ticked)) % N := by
    rw [hs₂.cursor, hs.cursor, Nat.mod_add_mod]
    congr 1
    omega
  rw [slotAt_eq_some, slot_of_ticks _ hk hsum, Nat.cast_inj, Nat.mod_eq_of_lt hlt'] at hslot
  rw [wait, hcur, ← hslot]
  exact slotsAhead_late hc hlt'

/-- **When a timer added among ticks is in time.**  In every interleaving, a
one-shot timer of `k < mSlotNum` ticks whose sum of slots is an `int` is emitted by
one of the first `k + 1` effective ticks after its insertion, if there are as many and
it is not deleted, exactly when the number of effective ticks between the read of the
cursor and the insertion is at most `k`, modulo `mSlotNum`. -/
theorem emittedBy_iff [Inhabited κ] {hN : 0 < N} {ticktime : ℕ} {hpos : 0 < ticktime}
    {hint : ticktime < 2 ^ 31} {now : BitVec 64} {s₁ s₂ s₃ s₄ : AddingThreads N κ}
    (hs : Reached hN ticktime hpos hint now s) {th : ℕ} {timing : ℤ} {cb : κ}
    (hk : 0 ≤ s.wheel.mgr.ticks timing) (hlt : s.wheel.mgr.ticks timing < N)
    (hsum : s.wheel.mgr.slotSum timing < 2 ^ 31)
    (hprepare : s.step (.prepare th timing cb false) = some s₁)
    {between : List (Act κ)} (hbetween : .insert th ∉ between)
    (hrun : run step between s₁ = some s₂) (hinsert : s₂.step (.insert th) = some s₃)
    {after : List (Act κ)} (hafter : .delTimer s.wheel.mgr.next ∉ after)
    (hrun' : run step after s₃ = some s₄)
    (hticks : s₃.ticked + (s.wheel.mgr.ticks timing).toNat < s₄.ticked) :
    EmittedBy s₃ s₄ s.wheel.mgr.next (s.wheel.mgr.ticks timing).toNat ↔
      (s₂.ticked - s₁.ticked) % N ≤ (s.wheel.mgr.ticks timing).toNat := by
  have hready : Ready s := Reachable.invariant (I := Ready)
    (ready_create hN ticktime hpos hint now) (fun s a s' hs _ hstep => ready_step hs hstep) hs
  -- up to the insertion the thread holds the timer for the slot it has computed
  obtain ⟨hready₂, slot, hslot, hholding⟩ := holding_run hready hprepare hbetween hrun
  have hready₃ := ready_step hready₂ hinsert
  obtain ⟨hlog, hentered⟩ := entered_insert hready₂ hholding hinsert
  rw [← hlog] at hentered
  -- from then on the timer is on schedule
  obtain ⟨-, hentered₄⟩ := Reachable.run_invariant
    (I := fun t => Ready t ∧
      Entered s.wheel.mgr.next (s₂.wheel.mgr.wait slot) s₃.wheel.log t)
    (fun t a t' ha ht hstep => ⟨ready_step ht.1 hstep,
      entered_step ht.1 ht.2 (fun heq => hafter (heq ▸ ha)) hstep⟩) ⟨hready₃, hentered⟩ hrun'
  have hticked : s₁.ticked = s.ticked := by
    obtain ⟨-, _, -, rfl⟩ := prepare_eq_some hprepare
    rfl
  have hle : s.ticked ≤ s₂.ticked := hticked ▸ hholding.history.length_le
  rw [hentered₄.emittedBy_iff_le hticks, wait_insert hready hready₂ hk hlt hsum hslot hle,
    hticked]
  have hmod := Nat.mod_lt (s₂.ticked - s.ticked) hN
  split_ifs <;> omega

/-- Two ticks to wait, and one effective tick between the steps: in time. -/
theorem emittedBy_two : ∃ s₁ s₂ s₃ s₄ : AddingThreads 60 Unit,
    step ⟨⟨defaultWheel, []⟩, fun _ => none⟩ (.prepare 0 400 () false) = some s₁ ∧
    run step [.tick 200 200] s₁ = some s₂ ∧ s₂.step (.insert 0) = some s₃ ∧
    run step [.tick 400 400, .prepare 1 0 () false, .tick 600 600, .tick 800 800] s₃ = some s₄ ∧
    EmittedBy s₃ s₄ 0 2 := by
  obtain ⟨s₁, s₂, s₃, s₄, h₁, h₂, h₃, h₄, ht₁, ht₂, ht₃, ht₄⟩ :
      ∃ s₁ s₂ s₃ s₄ : AddingThreads 60 Unit,
      step ⟨⟨defaultWheel, []⟩, fun _ => none⟩ (.prepare 0 400 () false) = some s₁ ∧
      run step [.tick 200 200] s₁ = some s₂ ∧ s₂.step (.insert 0) = some s₃ ∧
      run step [.tick 400 400, .prepare 1 0 () false, .tick 600 600, .tick 800 800] s₃ = some s₄ ∧
      s₁.ticked = 0 ∧ s₂.ticked = 1 ∧ s₃.ticked = 1 ∧ s₄.ticked = 4 :=
    ⟨_, _, _, _, rfl, rfl, rfl, rfl, rfl, rfl, rfl, rfl⟩
  refine ⟨s₁, s₂, s₃, s₄, h₁, h₂, h₃, h₄, ?_⟩
  have hreached : Reached (by decide) 200 (by decide) (by decide) 0
      (⟨⟨defaultWheel, []⟩, fun _ => none⟩ : AddingThreads 60 Unit) := .init
  refine (emittedBy_iff hreached (by decide) (by decide) (slotSum_lt _ (by decide) 400) h₁
    (by simp) h₂ h₃ (by simp) h₄ ?_).mpr ?_
  · rw [ht₃, ht₄]
    decide
  · rw [ht₁, ht₂]
    decide

/-- No tick to wait, and one effective tick between the steps: the cursor has
passed the slot, and the next effective tick does not emit the timer. -/
theorem not_emittedBy_zero : ∃ s₃ s₄ : AddingThreads 60 Unit,
    run step [.prepare 0 0 () false, .tick 200 200, .insert 0]
      ⟨⟨defaultWheel, []⟩, fun _ => none⟩ = some s₃ ∧
    run step [.tick 400 400] s₃ = some s₄ ∧ s₄.ticked = s₃.ticked + 1 ∧ ¬ EmittedBy s₃ s₄ 0 0 := by
  refine ⟨_, _, rfl, rfl, rfl, ?_⟩
  rintro ⟨i, hi, l, hl, hmem⟩
  obtain rfl : i = 0 := Nat.le_zero.mp hi
  obtain rfl : [] = l := Option.some_inj.mp ((show _ = some [] from rfl).symm.trans hl)
  exact absurd hmem List.not_mem_nil

end AddingThreads

end Server
