/-
No one-shot timer is lost, and none fires twice.

The history of a wheel is extended by the timers that `delTimer` has taken off
it.  A one-shot timer is armed once, and from then on every call moves it by at
most one of the three counts: scheduled, emitted, removed.

* `onePlace` — their sum is 1 in every state of every run whose sums of slots are
  `int`s;
* `call_returns` — in every such state each call returns whose sum is one again, and
  `tick` emits the timers of the current slot in the order of its list
  (`tick_emits`);
* `slot_below_wheel` — a sum of 2^31 leads below the wheel;
* `emitted_append_it` — inside `tick` the timers emitted and those still on the
  list are at every moment the list that the loop was started on.
-/
import AsyncServer.TimerDeletion

namespace Server

open Transition

/-- A run of the wheel with the history of its deletions: `removed` has an entry
for each timer that a `delTimer` took off its list. -/
structure WheelLedger (N : ℕ) (κ : Type*) where
  wheel : WheelRun N κ
  removed : List TimerPtr

namespace WheelLedger

variable {N : ℕ} {κ : Type*}

/-- The timer that a call removes: that of `delTimer`, if it is on the list that
is searched. -/
def removes (m : TimerManager N κ) : TimerOp κ → List TimerPtr
  | .addTimer _ _ _ => []
  | .delTimer timer => if timer ∈ m.mWheel (m.heap timer).slot then [timer] else []
  | .tick _ _ => []

/-- One call, recorded. -/
def step (s : WheelLedger N κ) (op : TimerOp κ) : Option (WheelLedger N κ) :=
  (s.wheel.step op).map fun w =>
    { wheel := w, removed := s.removed ++ removes s.wheel.mgr op }

/-- A wheel from its constructor. -/
def start [Inhabited κ] (hN : 0 < N) (ticktime : ℕ) (hpos : 0 < ticktime)
    (hint : ticktime < 2 ^ 31) (now : BitVec 64) : WheelLedger N κ :=
  ⟨⟨.create hN ticktime hpos hint now, []⟩, []⟩

/-- The runs from there in which all calls fit. -/
def Used [Inhabited κ] (hN : 0 < N) (ticktime : ℕ) (hpos : 0 < ticktime)
    (hint : ticktime < 2 ^ 31) (now : BitVec 64) : WheelLedger N κ → Prop :=
  Reachable step (fun s op => s.wheel.Fits op) (start hN ticktime hpos hint now)

/-- How often `p` has been removed. -/
def dropped (s : WheelLedger N κ) (p : TimerPtr) : ℕ := s.removed.count p

end WheelLedger

namespace TimerManager

variable {N : ℕ} {κ : Type*} {m m' : TimerManager N κ} {p : TimerPtr}

open WheelRun WheelLedger

/-- `p` stands once in exactly one slot list. -/
def OnWheel (m : TimerManager N κ) (p : TimerPtr) : Prop :=
  ∃ slot, (m.mWheel slot).count p = 1 ∧ ∀ slot', slot' ≠ slot → p ∉ m.mWheel slot'

/-- `p` stands in no slot list. -/
def OffWheel (m : TimerManager N κ) (p : TimerPtr) : Prop := ∀ slot, p ∉ m.mWheel slot

/-- The timers that a call of `tick` at the clock reading `now` is to emit. -/
def due (m : TimerManager N κ) (now : BitVec 64) : List TimerPtr :=
  if m.expired now then m.mWheel m.mCurSlot else []

theorem onWheel_of_held (hm : m.Wf) (h : Agenda.held (m.agenda p) = 1) : m.OnWheel p := by
  cases hn : m.agenda p with
  | none => exact absurd h (by simp [hn, Agenda.held])
  | some n =>
    obtain ⟨slot, hmem, -⟩ := (agenda_eq_some hm).mp hn
    exact ⟨slot, (hm.nodup slot).count.trans (if_pos hmem),
      fun slot' hne hmem' => hne (hm.unique hmem' hmem)⟩

theorem offWheel_of_held (h : Agenda.held (m.agenda p) = 0) : m.OffWheel p := by
  cases hn : m.agenda p with
  | none => exact agenda_eq_none.mp hn
  | some n => exact absurd h (by simp [hn, Agenda.held])

/-! ### The loop of `tick` -/

/-- At every moment of the loop the timers that it has emitted and those on the
list are the timers it was started on, in the same order, and `cbs` has the
callbacks of the former. -/
theorem emitted_append_it (heap : TimerPtr → Timer N κ) (l : List TimerPtr) (cbs : List κ)
    (n : ℕ) :
    let s := tickBody^[n] ⟨l, heap, cbs, [], []⟩
    s.emitted ++ s.it = l ∧
      s.cbs ++ s.it.map (fun p => (s.heap p).callback) =
        cbs ++ l.map fun p => (heap p).callback := by
  have hend : tickEnd (tickBody^[n] ⟨l, heap, cbs, [], []⟩) = tickEnd ⟨l, heap, cbs, [], []⟩ := by
    induction n with
    | zero => rfl
    | succ n ih =>
      rw [Function.iterate_succ_apply', tickEnd_tickBody]
      exact ih
  constructor
  · simpa [tickEnd] using congrArg TickLoop.emitted hend
  · simpa [tickEnd] using congrArg TickLoop.cbs hend

/-! ### One place for each one-shot timer -/

/-- What a run keeps: each one-shot timer is scheduled, has been emitted, or has
been removed, once altogether; a pointer that has not been handed out has no
history. -/
structure Accounted (s : WheelLedger N κ) : Prop where
  once : ∀ p < s.wheel.mgr.next, (s.wheel.mgr.heap p).recurring = false →
    Agenda.held (s.wheel.mgr.agenda p) + s.wheel.fired p + s.dropped p = 1
  unfired : ∀ p, s.wheel.mgr.next ≤ p → s.wheel.fired p = 0
  undropped : ∀ p, s.wheel.mgr.next ≤ p → s.dropped p = 0

theorem accounted_addTimer {s : WheelLedger N κ} (hwf : s.wheel.mgr.Wf) (hs : Accounted s)
    {timing : ℤ} {cb : κ} {recurr : Bool}
    (hadd : s.wheel.mgr.addTimer timing cb recurr = some (p, m')) :
    Accounted ⟨{ s.wheel with mgr := m' }, s.removed⟩ := by
  obtain ⟨_, -, hnew⟩ := agenda_addTimer_slot hwf hadd
  have hold : ∀ q, q ≠ p → m'.agenda q = s.wheel.mgr.agenda q := fun q hq =>
    agenda_addTimer_of_ne hadd hq
  obtain ⟨rfl, slot, _, rfl⟩ := addTimer_eq_some hadd
  refine ⟨fun q hq hrec => ?_, fun q hq => hs.unfired q (Nat.le_of_succ_le hq),
    fun q hq => hs.undropped q (Nat.le_of_succ_le hq)⟩
  rcases Nat.lt_succ_iff_lt_or_eq.mp hq with hlt | rfl
  · have hne : q ≠ s.wheel.mgr.next := hlt.ne
    have honce := hs.once q hlt (by simpa [hne] using hrec)
    rw [hold q hne]
    exact honce
  -- the new one is scheduled and has no history
  · have hfired : s.wheel.fired s.wheel.mgr.next = 0 := hs.unfired _ le_rfl
    have hdropped : s.dropped s.wheel.mgr.next = 0 := hs.undropped _ le_rfl
    rw [hnew, Agenda.arm_self]
    show 1 + s.wheel.fired s.wheel.mgr.next + s.dropped s.wheel.mgr.next = 1
    omega

theorem dropped_append (s : WheelLedger N κ) (w : WheelRun N κ) (l : List TimerPtr)
    (p : TimerPtr) :
    dropped ⟨w, s.removed ++ l⟩ p = s.dropped p + l.count p := by
  rw [dropped, List.count_append, dropped]

theorem count_removes (m : TimerManager N κ) (t q : TimerPtr) :
    (removes m (.delTimer t)).count q =
      if q = t ∧ q ∈ m.mWheel (m.heap q).slot then 1 else 0 := by
  by_cases hqt : q = t
  · subst hqt
    by_cases hmem : q ∈ m.mWheel (m.heap q).slot <;> simp [removes, hmem]
  · rw [if_neg fun h => hqt h.1, List.count_eq_zero, removes]
    split_ifs
    · simpa using hqt
    · exact List.not_mem_nil

theorem accounted_delTimer {s : WheelLedger N κ} (hwf : s.wheel.mgr.Wf) (hs : Accounted s)
    (t : TimerPtr) :
    Accounted ⟨{ s.wheel with mgr := s.wheel.mgr.delTimer t },
      s.removed ++ removes s.wheel.mgr (.delTimer t)⟩ := by
  refine ⟨fun q hq hrec => ?_, hs.unfired, fun q hq => ?_⟩
  · have honce := hs.once q hq hrec
    rw [dropped_append, count_removes]
    show Agenda.held ((s.wheel.mgr.delTimer t).agenda q) + s.wheel.fired q + _ = 1
    by_cases hqt : q = t
    · subst hqt
      rw [agenda_delTimer hwf]
      by_cases hmem : q ∈ s.wheel.mgr.mWheel (s.wheel.mgr.heap q).slot
      · rw [agenda_of_mem hwf hmem] at honce
        rw [if_pos hmem, if_pos ⟨rfl, hmem⟩, Agenda.cancel_self]
        simp only [Agenda.held] at honce ⊢
        omega
      · rw [if_neg hmem, if_neg fun h => hmem h.2]
        exact honce
    · rw [agenda_delTimer_of_ne hqt, if_neg fun h => hqt h.1]
      exact honce
  -- what is on a list has been handed out
  · have hoff : ¬ (q = t ∧ q ∈ s.wheel.mgr.mWheel (s.wheel.mgr.heap q).slot) :=
      fun h => (show s.wheel.mgr.next ≤ q from hq).not_gt (hwf.fresh h.2)
    rw [dropped_append, count_removes, if_neg hoff]
    exact hs.undropped q hq

theorem accounted_tick {s : WheelLedger N κ} {w : WheelRun N κ} (hwf : s.wheel.mgr.Wf)
    (hs : Accounted s) {now now' : BitVec 64} (h : s.wheel.step (.tick now now') = some w) :
    Accounted ⟨w, s.removed⟩ := by
  obtain ⟨-, rfl⟩ | ⟨he, r, hr, rfl⟩ := tick_step_cases h
  · exact hs
  refine ⟨fun p hp hrec => ?_, fun p hp => ?_, fun p hp => ?_⟩
  · obtain ⟨hrec', hnext⟩ := recurring_tick hr p
    have hone := hrec'.symm.trans hrec
    have honce := hs.once p (hnext ▸ hp) hone
    have hheld := Agenda.held_countdown (s.wheel.mgr.agenda p)
    -- what leaves the agenda is what is emitted
    show Agenda.held (r.mgr.agenda p) + fired _ p + s.dropped p = 1
    rw [agenda_tick hwf hr he fun _ => hone, fired_tick hwf, Agenda.tick]
    simp only [agenda_due hwf] at hheld
    omega
  · have hp' : s.wheel.mgr.next ≤ p := (recurring_tick hr p).2 ▸ hp
    rw [fired_tick hwf, hs.unfired p hp', if_neg fun hc => hp'.not_gt (hwf.fresh hc)]
  · exact hs.undropped p ((recurring_tick hr p).2 ▸ hp)

/-- The step lemma. -/
theorem accounted_step {s s' : WheelLedger N κ} {op : TimerOp κ} (hwf : s.wheel.mgr.Wf)
    (hs : Accounted s) (h : s.step op = some s') : Accounted s' := by
  obtain ⟨w, hw, rfl⟩ := Option.map_eq_some_iff.mp h
  cases op with
  | addTimer timing cb recurr =>
    obtain ⟨⟨q, m'⟩, hadd, rfl⟩ := Option.map_eq_some_iff.mp hw
    rw [removes, List.append_nil]
    exact accounted_addTimer hwf hs hadd
  | delTimer t =>
    obtain rfl : _ = w := Option.some_inj.mp hw
    exact accounted_delTimer hwf hs t
  | tick now now' =>
    rw [removes, List.append_nil]
    exact accounted_tick hwf hs hw

variable [Inhabited κ] {hN : 0 < N} {ticktime : ℕ} {hpos : 0 < ticktime}
  {hint : ticktime < 2 ^ 31} {now : BitVec 64} {s : WheelLedger N κ}

/-- The wheel of a recorded run is a wheel in use. -/
theorem used_wheel (h : s.Used hN ticktime hpos hint now) :
    s.wheel.Used hN ticktime hpos hint now := by
  refine Reachable.invariant (I := fun s => s.wheel.Used hN ticktime hpos hint now) .init ?_ h
  intro s op s' hs hop hstep
  obtain ⟨w, hw, rfl⟩ := Option.map_eq_some_iff.mp hstep
  exact hs.step op hop hw

theorem used_accounted (h : s.Used hN ticktime hpos hint now) : Accounted s := by
  refine Reachable.invariant' (I := Accounted) ?_ ?_ h
  · exact ⟨fun p hp => absurd hp (Nat.not_lt_zero p), fun _ _ => rfl, fun _ _ => rfl⟩
  · intro s op s' hreach hs hop hstep
    exact accounted_step (used_placed (used_wheel hreach)).1 hs hstep

/-- A one-shot timer is in one of three places. -/
theorem onePlace (h : s.Used hN ticktime hpos hint now) (hp : p < s.wheel.mgr.next)
    (hrec : (s.wheel.mgr.heap p).recurring = false) :
    (s.wheel.mgr.OnWheel p ∧ s.wheel.fired p = 0 ∧ s.dropped p = 0) ∨
      (s.wheel.mgr.OffWheel p ∧ s.wheel.fired p = 1 ∧ s.dropped p = 0) ∨
      (s.wheel.mgr.OffWheel p ∧ s.wheel.fired p = 0 ∧ s.dropped p = 1) := by
  have hwf := (used_placed (used_wheel h)).1
  have honce := (used_accounted h).once p hp hrec
  rcases show Agenda.held (s.wheel.mgr.agenda p) = 1 ∨ Agenda.held (s.wheel.mgr.agenda p) = 0 by
    omega with h1 | h0
  · exact .inl ⟨onWheel_of_held hwf h1, by omega, by omega⟩
  · have hoff := offWheel_of_held h0
    rcases Nat.eq_zero_or_pos (s.dropped p) with hd | hd
    · exact .inr (.inl ⟨hoff, by omega, hd⟩)
    · exact .inr (.inr ⟨hoff, by omega, by omega⟩)

/-- Every call that fits returns. -/
theorem call_returns (h : s.Used hN ticktime hpos hint now) {op : TimerOp κ}
    (hop : s.wheel.Fits op) : ∃ s', s.step op = some s' := by
  obtain ⟨hwf, hr, hplaced⟩ := used_placed (used_wheel h)
  cases op with
  | addTimer timing cb recurr =>
    obtain ⟨slot, hslot⟩ := exists_slotAt s.wheel.mgr hop.1 hop.2.1
    exact ⟨_, by rw [WheelLedger.step, WheelRun.step, addTimer, hslot]; rfl⟩
  | delTimer t => exact ⟨_, rfl⟩
  | tick now₁ now₂ =>
    obtain ⟨r, htick⟩ := tick_defined hplaced.tickable hr now₁ now₂ []
    exact ⟨_, by rw [WheelLedger.step, WheelRun.step, htick]; rfl⟩

/-- A call of `tick` returns, and emits what is due in the order of the list. -/
theorem tick_emits (h : s.Used hN ticktime hpos hint now) (now₁ now₂ : BitVec 64)
    (cbs : List κ) :
    ∃ r, s.wheel.mgr.tick now₁ now₂ cbs = some r ∧ r.emitted = s.wheel.mgr.due now₁ ∧
      r.cbs = cbs ++ (s.wheel.mgr.due now₁).map fun p => (s.wheel.mgr.heap p).callback := by
  obtain ⟨hwf, hr, hplaced⟩ := used_placed (used_wheel h)
  obtain ⟨r, htick⟩ := tick_defined hplaced.tickable hr now₁ now₂ cbs
  have hdue : r.emitted = s.wheel.mgr.due now₁ := by
    unfold due
    obtain ⟨he, rfl⟩ | ⟨he, _, _, rfl⟩ := tick_cases htick
    · rw [he, if_neg (by simp)]
    · rw [he, if_pos rfl]
  exact ⟨r, htick, hdue, hdue ▸ tick_cbs htick⟩

/-- **One-shot timers are conserved.**  In every state of every run of calls with
delays that are not negative and sums of slots that are `int`s, every such call
returns, and `tick` emits the timers due in the order of their list; every one-shot
timer that was added stands once in one slot list, or has been emitted once, or has
been removed once, and only one of these; and while the loop of `tick` runs, the
timers it has emitted and those still on the list are together the list it found, in
this order. -/
theorem oneShot_conserved (h : s.Used hN ticktime hpos hint now) :
    (∀ op, s.wheel.Fits op → ∃ s', s.step op = some s') ∧
    (∀ (now₁ now₂ : BitVec 64) (cbs : List κ),
      ∃ r, s.wheel.mgr.tick now₁ now₂ cbs = some r ∧ r.emitted = s.wheel.mgr.due now₁ ∧
        r.cbs = cbs ++ (s.wheel.mgr.due now₁).map fun p => (s.wheel.mgr.heap p).callback) ∧
    (∀ p < s.wheel.mgr.next, (s.wheel.mgr.heap p).recurring = false →
      (s.wheel.mgr.OnWheel p ∧ s.wheel.fired p = 0 ∧ s.dropped p = 0) ∨
      (s.wheel.mgr.OffWheel p ∧ s.wheel.fired p = 1 ∧ s.dropped p = 0) ∨
      (s.wheel.mgr.OffWheel p ∧ s.wheel.fired p = 0 ∧ s.dropped p = 1)) ∧
    (∀ (slot : Fin N) (cbs : List κ) (n : ℕ),
      let t := tickBody^[n] ⟨s.wheel.mgr.mWheel slot, s.wheel.mgr.heap, cbs, [], []⟩
      t.emitted ++ t.it = s.wheel.mgr.mWheel slot) :=
  ⟨fun _ => call_returns h, tick_emits h, fun _ hp hrec => onePlace h hp hrec,
    fun _ cbs n => (emitted_append_it _ _ cbs n).1⟩

/-- Three one-shot timers: one is emitted by the first tick, one is deleted
before it, and one still waits. -/
theorem conserved_three : ∃ s : WheelLedger 60 Unit,
    s.Used (by decide) 200 (by decide) (by decide) 0 ∧
    s.wheel.fired 0 = 1 ∧ s.dropped 1 = 1 ∧ s.wheel.mgr.OnWheel 2 := by
  have hrun : ∃ s, run WheelLedger.step
        [.addTimer 0 () false, .addTimer 400 () false, .addTimer 400 () false, .delTimer 1,
          .tick 200 200] ⟨⟨defaultWheel, []⟩, []⟩ = some s ∧
      s.wheel.log = [[0]] ∧ s.removed = [1] ∧ 2 < s.wheel.mgr.next ∧
      (s.wheel.mgr.heap 2).recurring = false := ⟨_, rfl, rfl, rfl, by decide, rfl⟩
  obtain ⟨s, hs, hlog, hremoved, hnext, hrec⟩ := hrun
  have hused : s.Used (by decide) 200 (by decide) (by decide) 0 := by
    refine Reachable.of_run_admitted (fun op hop s => ?_) hs
    simp only [List.mem_cons, List.not_mem_nil, or_false] at hop
    have hadd : ∀ timing, 0 ≤ timing → s.wheel.Fits (.addTimer timing () false) :=
      fun timing h0 => ⟨h0, slotSum_lt _ (by decide) timing, by simp⟩
    rcases hop with rfl | rfl | rfl | rfl | rfl
    · exact hadd 0 (by decide)
    · exact hadd 400 (by decide)
    · exact hadd 400 (by decide)
    · trivial
    · trivial
  have hfired : ∀ p, s.wheel.fired p = [0].count p := fun p => by rw [fired, hlog]; rfl
  have hdropped : ∀ p, s.dropped p = [1].count p := fun p => by rw [dropped, hremoved]
  refine ⟨s, hused, hfired 0, hdropped 1, ?_⟩
  rcases (oneShot_conserved hused).2.2.1 2 hnext hrec with ⟨hon, -⟩ | ⟨-, h1, -⟩ | ⟨-, -, h1⟩
  · exact hon
  · exact absurd ((hfired 2).symm.trans h1) (by decide)
  · exact absurd ((hdropped 2).symm.trans h1) (by decide)

/-- **A sum of 2^31 leads below the wheel.**  On a wheel of 2^31 - 1 slots of 1 ms,
after two ticks, a one-shot timer of 2147483646 ms is written to slot -1: the call
has no outcome, though its delay is not negative. -/
theorem slot_below_wheel : ∃ s : WheelLedger 2147483647 Unit,
    run WheelLedger.step [.tick 1 1, .tick 2 2]
      (start (by decide) 1 (by decide) (by decide) 0) = some s ∧
    (s.wheel.mgr.mCurSlot : ℕ) = 2 ∧ s.wheel.mgr.slot 2147483646 = -1 ∧
    s.step (.addTimer 2147483646 () false) = none :=
  ⟨_, rfl, rfl, rfl, rfl⟩

end TimerManager

end Server
