/-
When a one-shot timer fires.

A run of the wheel is a list of calls of `addTimer`, `delTimer` and `tick`; its
history is the list of what the effective ticks emitted, one entry for each.
A timer with a delay of `k = timing / mTickTime` ticks should be emitted by the
`(k + 1)`-th effective tick after it was added.

* `firesAt_mod` — in every run it is emitted by effective tick number
  `k % mSlotNum + 1`: `tick` looks at a timer with rounds left again and again,
  without moving on, until it has none, so that every timer is emitted the
  first time the cursor comes by;
* `tick_returns_iff` — a due tick returns exactly when the loop over its slot
  ends and every recurring timer of it finds a place;
* `oneShot_fires_iff` — so a timer fires on time exactly when the delay is shorter
  than one revolution and its slot is not lost in a sum above 2^31.
-/
import AsyncServer.TimerWheel
import AsyncServer.Transition

namespace Server

open Transition

/-- A call on a `TimerManager`. -/
inductive TimerOp (κ : Type*) where
  | addTimer (timing : ℤ) (cb : κ) (recurr : Bool)
  | delTimer (timer : TimerPtr)
  | tick (now now' : BitVec 64)

/-- A wheel and the history of its effective ticks: for each, the timers it
emitted into `cbs`, in this order. -/
structure WheelRun (N : ℕ) (κ : Type*) where
  mgr : TimerManager N κ
  log : List (List TimerPtr)

namespace WheelRun

variable {N : ℕ} {κ : Type*}

/-- One call.  The vector `cbs` of a tick is a fresh one. -/
def step (s : WheelRun N κ) : TimerOp κ → Option (WheelRun N κ)
  | .addTimer timing cb recurr =>
    (s.mgr.addTimer timing cb recurr).map fun r => { s with mgr := r.2 }
  | .delTimer timer => some { s with mgr := s.mgr.delTimer timer }
  | .tick now now' => (s.mgr.tick now now' []).map fun r =>
    { mgr := r.mgr, log := if s.mgr.expired now then s.log ++ [r.emitted] else s.log }

/-- The runs of a wheel from its constructor. -/
def Reached [Inhabited κ] (hN : 0 < N) (ticktime : ℕ) (hpos : 0 < ticktime)
    (hint : ticktime < 2 ^ 31) (now : BitVec 64) : WheelRun N κ → Prop :=
  Reachable step anyStep ⟨.create hN ticktime hpos hint now, []⟩

end WheelRun

namespace TimerManager

variable {N : ℕ} {κ : Type*} {m m' : TimerManager N κ}

open WheelRun

/-- In every run from `m` that does not delete `p`, effective tick number `k`
(from 0) emits `p`, once, and no other effective tick does. -/
def FiresAt (m : TimerManager N κ) (p : TimerPtr) (k : ℕ) : Prop :=
  ∀ ops s, .delTimer p ∉ ops → run step ops ⟨m, []⟩ = some s →
    ∀ i l, s.log[i]? = some l → l.count p = if i = k then 1 else 0

/-- The ticks of `p`'s delay. -/
def delay (m : TimerManager N κ) (p : TimerPtr) : ℕ :=
  ((m.heap p).intervalTime / m.mTickTime).toNat

/-- With a delay of `k` ticks the sum of slots is an `int` wherever the cursor
stands. -/
def SumsFit (N k : ℕ) : Prop := N + k % N ≤ 2 ^ 31

/-- All timers on the wheel were added with a delay that is not negative, and the
recurring ones with one that gives them a place at every cursor. -/
structure Tickable (m : TimerManager N κ) : Prop where
  nonneg : ∀ s, ∀ p ∈ m.mWheel s, 0 ≤ (m.heap p).intervalTime
  recurring : ∀ s, ∀ p ∈ m.mWheel s, (m.heap p).recurring = true → SumsFit N (m.delay p)

/-- The timers on the wheel have the rounds of their delay. -/
def FullRounds (m : TimerManager N κ) : Prop :=
  ∀ s, ∀ p ∈ m.mWheel s, (m.heap p).round = m.round (m.heap p).intervalTime

/-- The callbacks that a tick appends to `cbs` are those of the timers it
emits, in the same order. -/
theorem tick_cbs {now now' : BitVec 64} {cbs : List κ} {r : Tick N κ}
    (h : m.tick now now' cbs = some r) :
    r.cbs = cbs ++ r.emitted.map fun p => (m.heap p).callback := by
  obtain ⟨_, rfl⟩ | ⟨_, _, _, rfl⟩ := tick_cases h
  · simp
  · rfl

/-- What a tick does to a run: nothing; or the wheel ticks, and the list of the
current slot is the new entry of the history. -/
theorem tick_step_cases {s s' : WheelRun N κ} {now now' : BitVec 64}
    (h : s.step (.tick now now') = some s') :
    (s.mgr.expired now = false ∧ s' = s) ∨
    (s.mgr.expired now = true ∧ ∃ r, s.mgr.tick now now' [] = some r ∧
      s' = ⟨r.mgr, s.log ++ [s.mgr.mWheel s.mgr.mCurSlot]⟩) := by
  obtain ⟨r, hr, rfl⟩ := Option.map_eq_some_iff.mp h
  obtain ⟨he, rfl⟩ | ⟨he, m₁, h₁, rfl⟩ := tick_cases hr
  · exact .inl ⟨he, by simp [he]⟩
  · exact .inr ⟨he, _, hr, by simp [he]⟩

/-- Every call keeps the wheel well formed. -/
theorem wf_step {s s' : WheelRun N κ} {op : TimerOp κ} (hwf : s.mgr.Wf)
    (h : s.step op = some s') : s'.mgr.Wf := by
  cases op with
  | addTimer timing cb recurr =>
    obtain ⟨⟨q, m'⟩, hadd, rfl⟩ := Option.map_eq_some_iff.mp h
    exact wf_addTimer hwf hadd
  | delTimer t =>
    obtain rfl : _ = s' := Option.some_inj.mp h
    exact wf_delTimer hwf t
  | tick now now' =>
    obtain ⟨r, hr, rfl⟩ := Option.map_eq_some_iff.mp h
    exact wf_tick hwf hr

/-! ### A one-shot timer stays on schedule -/

/-- What a run keeps about a one-shot timer `p` armed with `n` ticks. -/
structure Tracks (p : TimerPtr) (n : ℕ) (s : WheelRun N κ) : Prop where
  wf : s.mgr.Wf
  allocated : p < s.mgr.next
  oneShot : (s.mgr.heap p).recurring = false
  onSchedule : Agenda.OnSchedule p n s.mgr.agenda s.log

theorem recurring_tick {now now' : BitVec 64} {cbs : List κ} {r : Tick N κ}
    (h : m.tick now now' cbs = some r) (p : TimerPtr) :
    (r.mgr.heap p).recurring = (m.heap p).recurring ∧ r.mgr.next = m.next := by
  obtain ⟨_, rfl⟩ | ⟨_, m₁, h₁, rfl⟩ := tick_cases h
  · exact ⟨rfl, rfl⟩
  · have hsame := (reinsert_fold h₁).1
    exact ⟨(hsame.recurring p).trans (drain_recurring _ _ _), hsame.next⟩

/-- The step lemma: every call but the deletion of `p` keeps it on schedule. -/
theorem tracks_step {p : TimerPtr} {n : ℕ} {s s' : WheelRun N κ} {op : TimerOp κ}
    (hs : Tracks p n s) (hop : op ≠ .delTimer p) (h : s.step op = some s') :
    Tracks p n s' := by
  have hwf := wf_step hs.wf h
  cases op with
  | addTimer timing cb recurr =>
    obtain ⟨⟨q, m'⟩, hadd, rfl⟩ := Option.map_eq_some_iff.mp h
    -- a new timer is another one than `p`
    have hq : p ≠ q := by
      rw [(addTimer_eq_some hadd).1]
      exact hs.allocated.ne
    refine ⟨hwf, ?_, ?_, hs.onSchedule.congr (agenda_addTimer_of_ne hadd hq)⟩
    · obtain ⟨_, _, _, rfl⟩ := addTimer_eq_some hadd
      exact Nat.lt_succ_of_lt hs.allocated
    · obtain ⟨_, _, _, rfl⟩ := addTimer_eq_some hadd
      simpa [hq] using hs.oneShot
  | delTimer t =>
    obtain rfl : _ = s' := Option.some_inj.mp h
    have ht : p ≠ t := fun hpt => hop (by rw [hpt])
    exact ⟨hwf, hs.allocated, hs.oneShot, hs.onSchedule.congr (agenda_delTimer_of_ne ht)⟩
  | tick now now' =>
    obtain ⟨-, rfl⟩ | ⟨he, r, hr, rfl⟩ := tick_step_cases h
    · exact hs
    · obtain ⟨hrec, hnext⟩ := recurring_tick hr p
      refine ⟨hwf, hnext ▸ hs.allocated, hrec.trans hs.oneShot, ?_⟩
      -- what the tick emits is what is due in the agenda
      exact hs.onSchedule.tick (count_due hs.wf p) (agenda_tick hs.wf hr he fun _ => hs.oneShot)

/-- **A one-shot timer is emitted the first time the cursor comes by** the slot
that was computed for it. -/
theorem firesAt_slot (hm : m.Wf) {timing : ℤ} {cb : κ} {p : TimerPtr}
    (h : m.addTimer timing cb false = some (p, m')) :
    ∃ slot, slotAt N (m.slot timing) = some slot ∧ m'.FiresAt p (m.wait slot) := by
  obtain ⟨slot, hslot, harm⟩ := agenda_addTimer_slot hm h
  refine ⟨slot, hslot, fun ops s hops hrun => ?_⟩
  have hstart : Tracks p (m.wait slot) ⟨m', []⟩ := by
    refine ⟨wf_addTimer hm h, ?_, ?_, .start ?_⟩
    · obtain ⟨rfl, _, _, rfl⟩ := addTimer_eq_some h
      exact Nat.lt_succ_self _
    · obtain ⟨_, _, _, rfl⟩ := addTimer_eq_some h
      simp
    · rw [harm, Agenda.arm_self]
  exact (Reachable.run_invariant
    (fun s op s' hop hs hstep => tracks_step hs (fun heq => hops (heq ▸ hop)) hstep)
    hstart hrun).onSchedule.fired

/-- That is effective tick number `timing / mTickTime % mSlotNum`, from 0, if the sum
of slots is an `int`. -/
theorem firesAt_mod (hm : m.Wf) {timing : ℤ} (h0 : 0 ≤ timing)
    (hsum : m.slotSum timing < 2 ^ 31) {cb : κ} {p : TimerPtr}
    (h : m.addTimer timing cb false = some (p, m')) :
    m'.FiresAt p ((timing / m.mTickTime).toNat % N) := by
  obtain ⟨slot, hslot, hfires⟩ := firesAt_slot hm h
  rwa [wait_slot h0 hsum hslot] at hfires

/-! ### Which ticks return -/

theorem reinsert_fold_defined {l : List TimerPtr} (hl : ∀ p ∈ l, ∃ s, m.place p = some s) :
    ∃ m₁, l.foldlM reinsert m = some m₁ := by
  induction l generalizing m with
  | nil => exact ⟨m, rfl⟩
  | cons t l ih =>
    obtain ⟨slot, hslot⟩ := hl t List.mem_cons_self
    obtain ⟨m₂, h₂⟩ : ∃ m₂, reinsert m t = some m₂ :=
      ⟨_, by rw [reinsert, ← place, hslot]; rfl⟩
    obtain ⟨m₁, h₁⟩ := ih (m := m₂) fun p hp => by
      rw [(sameTimers_reinsert h₂).place]
      exact hl p (List.mem_cons_of_mem t hp)
    exact ⟨m₁, by rw [List.foldlM_cons, h₂]; exact h₁⟩

/-- The slot at the cursor can be worked off: no timer of it has a negative round,
and every recurring one finds a place. -/
def SlotReturns (m : TimerManager N κ) : Prop :=
  ∀ p ∈ m.mWheel m.mCurSlot, 0 ≤ (m.heap p).round ∧
    ((m.heap p).recurring = true → ∃ s, m.place p = some s)

/-- **When a due tick returns.** -/
theorem tick_returns_iff {now : BitVec 64} (he : m.expired now = true) (now' : BitVec 64)
    (cbs : List κ) : (∃ r, m.tick now now' cbs = some r) ↔ m.SlotReturns := by
  constructor
  · rintro ⟨r, h⟩ p hp
    obtain ⟨m₁, h₁, -⟩ := tick_effective h he
    constructor
    -- a negative round would keep the loop going
    · by_contra hneg
      have hnone : m.tick now now' cbs = none := by
        rw [tick, if_pos he, tickLoop_diverges hp (not_le.mp hneg)]
        rfl
      exact absurd (hnone.symm.trans h) (by simp)
    · intro hrec
      have hplace := (reinsert_fold h₁).2.1 p (List.mem_filter.mpr ⟨hp, hrec⟩)
      rwa [place_emptied] at hplace
  · intro hret
    obtain ⟨s, hs⟩ := tickLoop_terminates (fun p hp => (hret p hp).1) cbs
    obtain rfl := tickLoop_eq hs
    obtain ⟨m₁, h₁⟩ := reinsert_fold_defined (m := m.emptied)
      (l := (m.mWheel m.mCurSlot).filter fun p => (m.heap p).recurring) fun p hp => by
        rw [place_emptied]
        exact (hret p (List.mem_of_mem_filter hp)).2 (List.mem_filter.mp hp).2
    rw [tick, if_pos he]
    exact ⟨_, Option.bind_eq_some_iff.mpr ⟨_, hs, Option.bind_eq_some_iff.mpr ⟨m₁, h₁, rfl⟩⟩⟩

theorem slotSum_lt_of_sumsFit {timing : ℤ} (h0 : 0 ≤ timing)
    (hfit : SumsFit N (timing / m.mTickTime).toNat) : m.slotSum timing < 2 ^ 31 := by
  have hcur := m.mCurSlot.isLt
  unfold SumsFit at hfit
  rw [slotSum_eq m h0]
  omega

theorem Tickable.place (hd : m.Tickable) {s : Fin N} {p : TimerPtr} (hp : p ∈ m.mWheel s)
    (hrec : (m.heap p).recurring = true) : ∃ s', m.place p = some s' :=
  exists_slotAt m (hd.nonneg s p hp)
    (slotSum_lt_of_sumsFit (hd.nonneg s p hp) (hd.recurring s p hp hrec))

/-- On a wheel with such delays every call of `tick` returns. -/
theorem tick_defined (hd : m.Tickable) (hr : m.FullRounds) (now now' : BitVec 64)
    (cbs : List κ) : ∃ r, m.tick now now' cbs = some r := by
  by_cases he : m.expired now = true
  · refine (tick_returns_iff he now' cbs).mpr fun p hp => ⟨?_, hd.place hp⟩
    rw [hr _ p hp, round, ticks]
    exact Int.tdiv_nonneg (Int.tdiv_nonneg (hd.nonneg _ p hp) (Int.natCast_nonneg _))
      (Int.natCast_nonneg _)
  · exact ⟨_, by rw [tick, if_neg he]⟩

/-- A tick writes neither the delay of a timer nor whether it recurs. -/
theorem interval_tick {now now' : BitVec 64} {cbs : List κ} {r : Tick N κ}
    (h : m.tick now now' cbs = some r) (p : TimerPtr) :
    (r.mgr.heap p).intervalTime = (m.heap p).intervalTime ∧ r.mgr.delay p = m.delay p := by
  obtain ⟨_, rfl⟩ | ⟨_, m₁, h₁, rfl⟩ := tick_cases h
  · exact ⟨rfl, rfl⟩
  · have hsame := (reinsert_fold h₁).1
    have hint : (m₁.heap p).intervalTime = (m.heap p).intervalTime :=
      (hsame.intervalTime p).trans (drain_intervalTime _ _ _)
    refine ⟨hint, ?_⟩
    show ((m₁.heap p).intervalTime / m₁.mTickTime).toNat = _
    rw [hint, hsame.mTickTime]
    rfl

/-- What stands on a list after a tick stood on one before. -/
theorem exists_mem_of_tick (hm : m.Wf) {now now' : BitVec 64} {cbs : List κ} {r : Tick N κ}
    (h : m.tick now now' cbs = some r) {s : Fin N} {p : TimerPtr} (hp : p ∈ r.mgr.mWheel s) :
    ∃ s', p ∈ m.mWheel s' := by
  obtain ⟨_, rfl⟩ | ⟨_, m₁, h₁, rfl⟩ := tick_cases h
  · exact ⟨s, hp⟩
  · rcases (mem_tick hm h₁ s p).mp hp with ⟨hp, _⟩ | ⟨hp, _⟩ <;> exact ⟨_, hp⟩

theorem tickable_tick (hm : m.Wf) (hd : m.Tickable) {now now' : BitVec 64}
    {cbs : List κ} {r : Tick N κ} (h : m.tick now now' cbs = some r) : r.mgr.Tickable := by
  constructor
  · intro s p hp
    obtain ⟨s', hp'⟩ := exists_mem_of_tick hm h hp
    rw [(interval_tick h p).1]
    exact hd.nonneg s' p hp'
  · intro s p hp hrec
    obtain ⟨s', hp'⟩ := exists_mem_of_tick hm h hp
    rw [(interval_tick h p).2]
    exact hd.recurring s' p hp' ((recurring_tick h p).1.symm.trans hrec)

theorem round_reinsert_fold {l : List TimerPtr} {m₁ : TimerManager N κ}
    (h : l.foldlM reinsert m = some m₁) (p : TimerPtr) :
    (m₁.heap p).round =
      if p ∈ l then m.round (m.heap p).intervalTime else (m.heap p).round := by
  induction l generalizing m with
  | nil =>
    obtain rfl : m = m₁ := by simpa using h
    simp
  | cons t l ih =>
    rw [List.foldlM_cons, Option.bind_eq_bind, Option.bind_eq_some_iff] at h
    obtain ⟨m₂, h₂, hl⟩ := h
    have hsame := sameTimers_reinsert h₂
    rw [ih hl, hsame.intervalTime]
    obtain ⟨slot, _, rfl⟩ := reinsert_eq_some h₂
    by_cases hpt : p = t
    · subst hpt
      simp [round, ticks]
    · simp [hpt, round, ticks]

theorem fullRounds_tick (hm : m.Wf) (hr : m.FullRounds) {now now' : BitVec 64}
    {cbs : List κ} {r : Tick N κ} (h : m.tick now now' cbs = some r) :
    r.mgr.FullRounds := by
  obtain ⟨_, rfl⟩ | ⟨_, m₁, h₁, rfl⟩ := tick_cases h
  · exact hr
  · intro s p hp
    have hsame := (reinsert_fold h₁).1
    have hT : (m₁.advance now').round = m.round := by
      funext t
      simp [round, ticks, advance, hsame.mTickTime, emptied]
    have hint : (m₁.heap p).intervalTime = (m.heap p).intervalTime :=
      (hsame.intervalTime p).trans (drain_intervalTime _ _ _)
    show (m₁.heap p).round = (m₁.advance now').round (m₁.heap p).intervalTime
    rw [round_reinsert_fold h₁, hT, hint]
    -- not emitted, and the round as it was; or re-inserted, and the round computed anew
    rcases (mem_tick hm h₁ s p).mp hp with ⟨hp, hc⟩ | ⟨hc, hrec, _⟩
    · rw [if_neg fun hf => hc (List.mem_of_mem_filter hf)]
      simpa [emptied, drain, hc] using hr s p hp
    · rw [if_pos (List.mem_filter.mpr ⟨hc, hrec⟩)]
      simp [round, ticks, emptied]

/-- A clock reading at which a tick is due. -/
theorem expired_add (m : TimerManager N κ) :
    m.expired (m.mLastExpireTime + BitVec.ofNat 64 m.mTickTime) = true := by
  have hT := m.tickTime_int
  have hsub : m.mLastExpireTime + BitVec.ofNat 64 m.mTickTime - m.mLastExpireTime =
      BitVec.ofNat 64 m.mTickTime := by
    rw [BitVec.add_comm, BitVec.add_sub_cancel]
  -- `mTickTime` is an `int`, so it is unchanged by the cut to 32 bits
  have hnat : ((BitVec.ofNat 64 m.mTickTime).setWidth 32).toNat = m.mTickTime := by
    simp only [BitVec.toNat_setWidth, BitVec.toNat_ofNat]
    omega
  rw [expired, hsub, decide_eq_true_eq, BitVec.toInt_eq_toNat_of_lt (by omega), hnat]

/-- From a wheel whose ticks return, any number of effective ticks can be
made. -/
theorem exists_ticks (hm : m.Wf) (hd : m.Tickable) (hr : m.FullRounds) (j : ℕ)
    (log : List (List TimerPtr)) :
    ∃ (ops : List (TimerOp κ)) (s : WheelRun N κ), (∀ p, .delTimer p ∉ ops) ∧
      run step ops ⟨m, log⟩ = some s ∧ s.log.length = log.length + j := by
  induction j generalizing m log with
  | zero => exact ⟨[], ⟨m, log⟩, by simp, rfl, rfl⟩
  | succ j ih =>
    obtain ⟨r, h⟩ := tick_defined hd hr (m.mLastExpireTime + BitVec.ofNat 64 m.mTickTime) 0 []
    obtain ⟨ops, s, hops, hrun, hlen⟩ := ih (wf_tick hm h) (tickable_tick hm hd h)
      (fullRounds_tick hm hr h) (log ++ [r.emitted])
    refine ⟨.tick (m.mLastExpireTime + BitVec.ofNat 64 m.mTickTime) 0 :: ops, s,
      fun p hp => ?_, run_cons_eq_some.mpr ⟨⟨r.mgr, log ++ [r.emitted]⟩, ?_, hrun⟩, ?_⟩
    · exact hops p ((List.mem_cons.mp hp).resolve_left (by simp))
    · simp only [WheelRun.step]
      rw [h, expired_add]
      rfl
    · rw [hlen, List.length_append, List.length_singleton]
      omega

/-! ### The firing time -/

theorem fullRounds_addTimer (hr : m.FullRounds) {timing : ℤ} {cb : κ} {recurr : Bool}
    {p : TimerPtr} (h : m.addTimer timing cb recurr = some (p, m')) : m'.FullRounds := by
  obtain ⟨rfl, slot, _, rfl⟩ := addTimer_eq_some h
  intro s q hq
  by_cases hp : q = m.next
  · subst hp
    simp [round, ticks]
  · have hq' := (mem_emplaceBack.mp hq).resolve_right fun h => hp h.1
    simpa [hp, round, ticks] using hr s q hq'

theorem tickable_addTimer (hd : m.Tickable) {timing : ℤ} (h0 : 0 ≤ timing) {cb : κ}
    {recurr : Bool} (hfit : recurr = true → SumsFit N (timing / m.mTickTime).toNat)
    {p : TimerPtr} (h : m.addTimer timing cb recurr = some (p, m')) : m'.Tickable := by
  obtain ⟨rfl, slot, _, rfl⟩ := addTimer_eq_some h
  constructor
  · intro s q hq
    by_cases hp : q = m.next
    · subst hp
      simpa using h0
    · have hq' := (mem_emplaceBack.mp hq).resolve_right fun h => hp h.1
      simpa [hp] using hd.nonneg s q hq'
  · intro s q hq hrec
    by_cases hp : q = m.next
    · subst hp
      simpa [delay] using hfit (by simpa using hrec)
    · have hq' := (mem_emplaceBack.mp hq).resolve_right fun h => hp h.1
      simpa [delay, hp] using hd.recurring s q hq' (by simpa [hp] using hrec)

/-- Every wheel in use is well formed, with the rounds of its timers intact. -/
theorem reached_wf [Inhabited κ] {hN : 0 < N} {ticktime : ℕ} {hpos : 0 < ticktime}
    {hint : ticktime < 2 ^ 31} {now : BitVec 64} {s : WheelRun N κ}
    (h : Reached hN ticktime hpos hint now s) : s.mgr.Wf ∧ s.mgr.FullRounds := by
  refine Reachable.invariant (I := fun s => s.mgr.Wf ∧ s.mgr.FullRounds)
    ⟨wf_create hN ticktime hpos hint now, fun _ _ hp => absurd hp List.not_mem_nil⟩ ?_ h
  rintro s op s' ⟨hwf, hr⟩ - hstep
  refine ⟨wf_step hwf hstep, ?_⟩
  cases op with
  | addTimer timing cb recurr =>
    obtain ⟨⟨q, m'⟩, hadd, rfl⟩ := Option.map_eq_some_iff.mp hstep
    exact fullRounds_addTimer hr hadd
  | delTimer t =>
    obtain rfl : _ = s' := Option.some_inj.mp hstep
    exact fun s p hp => hr s p (mem_delTimer.mp hp).1
  | tick now now' =>
    obtain ⟨r, hr', rfl⟩ := Option.map_eq_some_iff.mp hstep
    exact fullRounds_tick hwf hr hr'

/-- As long as ticks return, a timer fires at one effective tick only. -/
theorem FiresAt.unique (hm : m.Wf) (hd : m.Tickable) (hr : m.FullRounds) {p : TimerPtr}
    {j k : ℕ} (hj : m.FiresAt p j) (hk : m.FiresAt p k) : j = k := by
  obtain ⟨ops, s, hops, hrun, hlen⟩ := exists_ticks hm hd hr (j + 1) []
  obtain ⟨l, hl⟩ : ∃ l, s.log[j]? = some l :=
    ⟨_, List.getElem?_eq_getElem (by rw [hlen]; simp)⟩
  have hone := hj ops s (hops p) hrun j l hl
  have hcount := hk ops s (hops p) hrun j l hl
  rw [if_pos rfl] at hone
  by_contra hne
  rw [if_neg hne, hone] at hcount
  exact one_ne_zero hcount

/-- A one-shot timer that is added now gets a slot, and is emitted by effective tick
number `timing / mTickTime` (from 0). -/
def FiresOnTime (m : TimerManager N κ) (timing : ℤ) (cb : κ) : Prop :=
  ∃ p m', m.addTimer timing cb false = some (p, m') ∧
    m'.FiresAt p (timing / m.mTickTime).toNat

/-- **When a one-shot timer fires on time.**  From every state of a wheel, a
timer whose delay is shorter than one revolution, and for which the sum of slots is
an `int`, is emitted by effective tick number `timing / mTickTime` (from 0) and by
no other; and with any other delay it is not, as long as ticks return at all. -/
theorem oneShot_fires_iff [Inhabited κ] {hN : 0 < N} {ticktime : ℕ} {hpos : 0 < ticktime}
    {hint : ticktime < 2 ^ 31} {now : BitVec 64} {log : List (List TimerPtr)}
    (hm : Reached hN ticktime hpos hint now ⟨m, log⟩) (hslots : N < 2 ^ 31) {timing : ℤ}
    (h0 : 0 ≤ timing) (cb : κ) :
    (timing / m.mTickTime < N ∧ m.slotSum timing < 2 ^ 31 → m.FiresOnTime timing cb) ∧
      (m.Tickable → m.FiresOnTime timing cb →
        timing / m.mTickTime < N ∧ m.slotSum timing < 2 ^ 31) := by
  obtain ⟨hwf, hr⟩ : m.Wf ∧ m.FullRounds := reached_wf hm
  have hk : 0 ≤ timing / m.mTickTime := Int.ediv_nonneg h0 (Int.natCast_nonneg _)
  constructor
  · rintro ⟨hlt, hsum⟩
    obtain ⟨slot, hslot⟩ := exists_slotAt m h0 hsum
    obtain ⟨⟨p, m'⟩, hadd⟩ : ∃ r, m.addTimer timing cb false = some r :=
      ⟨_, by rw [addTimer, hslot]; rfl⟩
    have hmod := firesAt_mod hwf h0 hsum hadd
    rw [Nat.mod_eq_of_lt (by omega)] at hmod
    exact ⟨p, m', hadd, hmod⟩
  · rintro hd ⟨p, m', hadd, hfires⟩
    obtain ⟨slot, hslot, hwait⟩ := firesAt_slot hwf hadd
    have heq : m.wait slot = (timing / m.mTickTime).toNat :=
      hwait.unique (wf_addTimer hwf hadd) (tickable_addTimer hd h0 (by simp) hadd)
        (fullRounds_addTimer hr hadd) hfires
    -- no slot is a whole revolution away
    have hlt : m.wait slot < N := wait_lt slot
    refine ⟨by omega, ?_⟩
    by_contra hsum
    -- the sum wraps around to the first slot, which the cursor reaches too late or too early
    have hzero : (slot : ℕ) = 0 := slot_wraps hslots h0 (not_lt.mp hsum) hslot
    rw [slotSum_eq m h0, Nat.mod_eq_of_lt (by omega)] at hsum
    rw [wait, slotsAhead, hzero] at heq
    split_ifs at heq <;> omega

/-- A delay of two ticks on the default wheel. -/
theorem oneShot_fires_third_tick :
    ∃ m', defaultWheel.addTimer 400 () false = some (0, m') ∧ m'.FiresAt 0 2 := by
  have hm : Reached (by decide) 200 (by decide) (by decide) 0
      ⟨(defaultWheel : TimerManager 60 Unit), []⟩ := .init
  obtain ⟨p, m', hadd, hfires⟩ := (oneShot_fires_iff hm (by decide) (by decide) ()).1
    ⟨by decide, slotSum_lt _ (by decide) 400⟩
  obtain rfl : p = 0 := (addTimer_eq_some hadd).1
  exact ⟨m', hadd, hfires⟩

/-- A `sleep(12)` on the default wheel is over at the next tick, not at the
61st. -/
theorem oneShot_early :
    ∃ m', defaultWheel.addTimer 12000 () false = some (0, m') ∧ ¬ m'.FiresAt 0 60 := by
  refine ⟨_, rfl, fun h => ?_⟩
  have hcount := h [.tick 200 200] _ (by simp) rfl 0 [0] rfl
  exact absurd hcount (by decide)

end TimerManager

end Server
