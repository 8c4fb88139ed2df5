/-
Whether a deleted timer stays silent.

`delTimer` searches one slot list only, that of the `slot` recorded in the
timer.  `tick` re-inserts a recurring timer without recording where, so that the
record stays that of `addTimer`.

* `slot_of_mem` — in every run whose sums of slots are `int`s a timer of `k` ticks
  that has fired `c` times stands `c * k` slots further than it has recorded;
* `delTimer_silences_iff` — so `delTimer` does its work exactly when the timer is
  on no list, or has come round to its first slot again.
-/
import AsyncServer.TimerFiring

namespace Server

open Transition

namespace WheelRun

variable {N : ℕ} {κ : Type*}

/-- The condition on a call: a delay is not negative, and the sum of slots is an
`int`, for a recurring timer wherever the cursor will stand. -/
def Fits (s : WheelRun N κ) : TimerOp κ → Prop
  | .addTimer timing _ recurr => 0 ≤ timing ∧ s.mgr.slotSum timing < 2 ^ 31 ∧
      (recurr = true → TimerManager.SumsFit N (timing / s.mgr.mTickTime).toNat)
  | .delTimer _ => True
  | .tick _ _ => True

/-- The runs of a wheel from its constructor in which all calls fit. -/
def Used [Inhabited κ] (hN : 0 < N) (ticktime : ℕ) (hpos : 0 < ticktime)
    (hint : ticktime < 2 ^ 31) (now : BitVec 64) : WheelRun N κ → Prop :=
  Reachable step Fits ⟨.create hN ticktime hpos hint now, []⟩

/-- How often the ticks of the run have emitted `p`. -/
def fired (s : WheelRun N κ) (p : TimerPtr) : ℕ := s.log.flatten.count p

end WheelRun

namespace TimerManager

variable {N : ℕ} {κ : Type*} {m m' : TimerManager N κ} {p : TimerPtr}

open WheelRun

/-- No tick of any run from `m` emits `p`. -/
def Silent (m : TimerManager N κ) (p : TimerPtr) : Prop :=
  ∀ ops s, run step ops ⟨m, []⟩ = some s → ∀ l ∈ s.log, p ∉ l

/-! ### A timer that is on no list stays silent -/

/-- What a run keeps about a timer that has been handed out and is on no list. -/
structure Gone (p : TimerPtr) (s : WheelRun N κ) : Prop where
  allocated : p < s.mgr.next
  off : ∀ slot, p ∉ s.mgr.mWheel slot
  silent : ∀ l ∈ s.log, p ∉ l

theorem gone_step {s s' : WheelRun N κ} {op : TimerOp κ} (hwf : s.mgr.Wf) (hs : Gone p s)
    (h : s.step op = some s') : Gone p s' := by
  cases op with
  | addTimer timing cb recurr =>
    obtain ⟨⟨q, m'⟩, hadd, rfl⟩ := Option.map_eq_some_iff.mp h
    obtain ⟨rfl, slot, _, rfl⟩ := addTimer_eq_some hadd
    refine ⟨Nat.lt_succ_of_lt hs.allocated, ?_, hs.silent⟩
    intro s' hmem
    -- the timer that is placed is a new one
    rcases mem_emplaceBack.mp hmem with hmem | ⟨hp, _⟩
    · exact hs.off s' hmem
    · exact hs.allocated.ne hp
  | delTimer t =>
    obtain rfl : _ = s' := Option.some_inj.mp h
    exact ⟨hs.allocated, fun slot hmem => hs.off slot (mem_delTimer.mp hmem).1, hs.silent⟩
  | tick now now' =>
    obtain ⟨-, rfl⟩ | ⟨he, r, hr, rfl⟩ := tick_step_cases h
    · exact hs
    have hnext : r.mgr.next = s.mgr.next := (recurring_tick hr p).2
    refine ⟨hnext ▸ hs.allocated, ?_, ?_⟩
    · intro slot hmem
      obtain ⟨m₁, h₁, rfl⟩ := tick_effective hr he
      -- what stands on a list after the tick stood on one before
      rcases (mem_tick hwf h₁ slot p).mp hmem with ⟨hp, _⟩ | ⟨hp, _⟩
      · exact hs.off _ hp
      · exact hs.off _ hp
    · intro l hl
      rcases List.mem_append.mp hl with hl | hl
      · exact hs.silent l hl
      · obtain rfl := List.mem_singleton.mp hl
        exact hs.off _

theorem silent_of_off (hm : m.Wf) (hp : p < m.next) (hoff : ∀ slot, p ∉ m.mWheel slot) :
    m.Silent p := by
  intro ops s hrun
  have hgone := Reachable.run_invariant (I := fun s => s.mgr.Wf ∧ Gone p s)
    (fun s op s' _ hs hstep => ⟨wf_step hs.1 hstep, gone_step hs.1 hs.2 hstep⟩)
    (show m.Wf ∧ Gone p ⟨m, []⟩ from ⟨hm, hp, hoff, by simp⟩) hrun
  exact hgone.2.silent

/-! ### A timer that is on a list is emitted -/

/-- What a run without deletions keeps about a timer `p` that waits for `n`
ticks: it waits for those that are left, or has been emitted. -/
def Coming (p : TimerPtr) (n : ℕ) (s : WheelRun N κ) : Prop :=
  (∃ l ∈ s.log, p ∈ l) ∨
    ∃ slot, p ∈ s.mgr.mWheel slot ∧ s.log.length + s.mgr.wait slot = n

theorem coming_step {n : ℕ} {s s' : WheelRun N κ} {op : TimerOp κ} (hwf : s.mgr.Wf)
    (hs : Coming p n s) (hop : op ≠ .delTimer p) (h : s.step op = some s') :
    Coming p n s' := by
  cases op with
  | addTimer timing cb recurr =>
    obtain ⟨⟨q, m'⟩, hadd, rfl⟩ := Option.map_eq_some_iff.mp h
    obtain ⟨_, slot', _, rfl⟩ := addTimer_eq_some hadd
    exact hs.imp id fun ⟨slot, hmem, hn⟩ => ⟨slot, mem_emplaceBack.mpr (.inl hmem), hn⟩
  | delTimer t =>
    obtain rfl : _ = s' := Option.some_inj.mp h
    have ht : p ≠ t := fun hpt => hop (by rw [hpt])
    exact hs.imp id fun ⟨slot, hmem, hn⟩ =>
      ⟨slot, mem_delTimer.mpr ⟨hmem, fun heq => absurd heq ht⟩, hn⟩
  | tick now now' =>
    obtain ⟨-, rfl⟩ | ⟨he, r, hr, rfl⟩ := tick_step_cases h
    · exact hs
    obtain ⟨m₁, h₁, rfl⟩ := tick_effective hr he
    rcases hs with ⟨l, hl, hp⟩ | ⟨slot, hmem, hn⟩
    · exact .inl ⟨l, by simp [hl], hp⟩
    -- either the cursor is at `p` now, or there is one tick less to wait
    · by_cases hc : p ∈ s.mgr.mWheel s.mgr.mCurSlot
      · exact .inl ⟨s.mgr.mWheel s.mgr.mCurSlot, by simp, hc⟩
      · refine .inr ⟨slot, (mem_tick hwf h₁ slot p).mpr (.inl ⟨hmem, hc⟩), ?_⟩
        have hne : s.mgr.wait slot ≠ 0 := by
          intro h0
          exact hc (wait_eq_zero.mp h0 ▸ hmem)
        have hwait : (m₁.advance now').wait slot = s.mgr.wait slot - 1 := by
          rw [wait_advance, wait_congr (reinsert_fold h₁).1.mCurSlot]
          exact if_neg hne
        show (s.log ++ [s.mgr.mWheel s.mgr.mCurSlot]).length +
          (m₁.advance now').wait slot = n
        rw [hwait, List.length_append, List.length_singleton]
        omega

/-- Enough ticks bring the cursor to every timer on the wheel. -/
theorem not_silent_of_mem (hm : m.Wf) (hd : m.Tickable) (hr : m.FullRounds)
    {slot : Fin N} (hmem : p ∈ m.mWheel slot) : ¬ m.Silent p := by
  intro hsilent
  obtain ⟨ops, s, hops, hrun, hlen⟩ := exists_ticks hm hd hr (m.wait slot + 1) []
  have hcoming := Reachable.run_invariant
    (I := fun s => s.mgr.Wf ∧ Coming p (m.wait slot) s)
    (fun s op s' hop hs hstep => ⟨wf_step hs.1 hstep,
      coming_step hs.1 hs.2 (fun heq => hops p (heq ▸ hop)) hstep⟩)
    (show m.Wf ∧ Coming p (m.wait slot) ⟨m, []⟩ from
      ⟨hm, .inr ⟨slot, hmem, by simp⟩⟩) hrun
  -- after more ticks than `p` had to wait, the second case has no room left
  rcases hcoming.2 with ⟨l, hl, hp⟩ | ⟨slot', _, hn⟩
  · exact hsilent ops s hrun l hl hp
  · rw [hlen, List.length_nil] at hn
    omega

/-! ### Where a timer stands -/

/-- What every run keeps: a timer stands as many times its delay beyond the slot
recorded in it as it has fired. -/
structure Placed (s : WheelRun N κ) : Prop where
  nonneg : ∀ p, 0 ≤ (s.mgr.heap p).intervalTime
  fits : ∀ p, (s.mgr.heap p).recurring = true → SumsFit N (s.mgr.delay p)
  unfired : ∀ p, s.mgr.next ≤ p → s.fired p = 0
  placed : ∀ (slot : Fin N) (p : TimerPtr), p ∈ s.mgr.mWheel slot →
    (slot : ℕ) = ((s.mgr.heap p).slot + s.fired p * s.mgr.delay p) % N

theorem placed_create [Inhabited κ] (hN : 0 < N) (ticktime : ℕ) (hpos : 0 < ticktime)
    (hint : ticktime < 2 ^ 31) (now : BitVec 64) :
    Placed (⟨.create hN ticktime hpos hint now, []⟩ : WheelRun N κ) where
  nonneg _ := le_rfl
  fits _ h := absurd h Bool.false_ne_true
  unfired _ _ := rfl
  placed _ _ hmem := absurd hmem List.not_mem_nil

theorem Placed.tickable {s : WheelRun N κ} (hs : Placed s) : s.mgr.Tickable :=
  ⟨fun _ p _ => hs.nonneg p, fun _ p _ => hs.fits p⟩

theorem placed_addTimer {s : WheelRun N κ} (hwf : s.mgr.Wf) (hs : Placed s) {timing : ℤ}
    (h0 : 0 ≤ timing) {cb : κ} {recurr : Bool}
    (hfit : recurr = true → SumsFit N (timing / s.mgr.mTickTime).toNat)
    (hadd : s.mgr.addTimer timing cb recurr = some (p, m')) :
    Placed { s with mgr := m' } := by
  obtain ⟨rfl, slot, _, rfl⟩ := addTimer_eq_some hadd
  have hfired : s.fired s.mgr.next = 0 := hs.unfired _ le_rfl
  constructor
  · intro q
    by_cases hq : q = s.mgr.next
    · subst hq
      simpa using h0
    · simpa [hq] using hs.nonneg q
  · intro q hrec
    by_cases hq : q = s.mgr.next
    · subst hq
      simpa [delay] using hfit (by simpa using hrec)
    · simpa [delay, hq] using hs.fits q (by simpa [hq] using hrec)
  · intro q hq
    exact hs.unfired q (Nat.le_of_succ_le hq)
  · intro slot' q hmem
    show (slot' : ℕ) = ((Function.update s.mgr.heap s.mgr.next _ q).slot +
      s.fired q * ((Function.update s.mgr.heap s.mgr.next _ q).intervalTime /
        s.mgr.mTickTime).toNat) % N
    rcases mem_emplaceBack.mp hmem with hmem | ⟨rfl, rfl⟩
    -- a timer that stood there before is not the new one, whose record is written here
    · rw [Function.update_of_ne (hwf.fresh hmem).ne]
      exact hs.placed slot' q hmem
    -- the new one stands where it is recorded, and has not fired
    · rw [Function.update_self, hfired, Nat.zero_mul, Nat.add_zero]
      exact (Nat.mod_eq_of_lt slot'.isLt).symm

theorem fired_tick {s : WheelRun N κ} (hwf : s.mgr.Wf) :
    fired ⟨m, s.log ++ [s.mgr.mWheel s.mgr.mCurSlot]⟩ p =
      s.fired p + if p ∈ s.mgr.mWheel s.mgr.mCurSlot then 1 else 0 := by
  rw [fired, fired, List.flatten_append, List.count_append, List.flatten_singleton,
    (hwf.nodup _).count]

theorem placed_tick {s s' : WheelRun N κ} (hwf : s.mgr.Wf) (hs : Placed s)
    {now now' : BitVec 64} (h : s.step (.tick now now') = some s') : Placed s' := by
  obtain ⟨-, rfl⟩ | ⟨he, r, hr, rfl⟩ := tick_step_cases h
  · exact hs
  obtain ⟨m₁, h₁, rfl⟩ := tick_effective hr he
  have hsame := (reinsert_fold h₁).1
  -- draining the slot and re-inserting write `round` only
  have hint : ∀ p, (m₁.heap p).intervalTime = (s.mgr.heap p).intervalTime := fun p =>
    (hsame.intervalTime p).trans (drain_intervalTime _ _ _)
  have hslot : ∀ p, (m₁.heap p).slot = (s.mgr.heap p).slot := fun p =>
    (hsame.slot p).trans (drain_slot _ _ _)
  constructor
  · intro p
    exact (hint p).symm ▸ hs.nonneg p
  · intro p hrec
    rw [(interval_tick hr p).2]
    exact hs.fits p ((recurring_tick hr p).1.symm.trans hrec)
  · intro p hp
    have hp' : s.mgr.next ≤ p := hsame.next ▸ hp
    rw [fired_tick hwf, hs.unfired p hp', if_neg fun hc => hp'.not_gt (hwf.fresh hc)]
  · intro slot p hmem
    show (slot : ℕ) = ((m₁.heap p).slot + _ * ((m₁.heap p).intervalTime /
      m₁.mTickTime).toNat) % N
    rw [hslot, hint, hsame.mTickTime, fired_tick hwf]
    show (slot : ℕ) = ((s.mgr.heap p).slot + _ * s.mgr.delay p) % N
    rcases (mem_tick hwf h₁ slot p).mp hmem with ⟨hp, hc⟩ | ⟨hc, hrec, hplace⟩
    · rw [if_neg hc, Nat.add_zero]
      exact hs.placed slot p hp
    · -- from the cursor, where it has just fired, one delay further
      have hcur := hs.placed _ p hc
      have hsum := slotSum_lt_of_sumsFit (hs.nonneg p) (hs.fits p hrec)
      rw [place, slotAt_eq_some, slot_eq _ (hs.nonneg p) hsum, Nat.cast_inj] at hplace
      rw [if_pos hc, ← hplace, hcur, Nat.add_mul, one_mul, ← Nat.add_assoc]
      exact Nat.mod_add_mod _ _ _ |>.trans (Nat.add_mod_mod _ _ _)

theorem placed_step {s s' : WheelRun N κ} {op : TimerOp κ} (hwf : s.mgr.Wf) (hs : Placed s)
    (hop : s.Fits op) (h : s.step op = some s') : Placed s' := by
  cases op with
  | addTimer timing cb recurr =>
    obtain ⟨⟨q, m'⟩, hadd, rfl⟩ := Option.map_eq_some_iff.mp h
    exact placed_addTimer hwf hs hop.1 hop.2.2 hadd
  | delTimer t =>
    obtain rfl : _ = s' := Option.some_inj.mp h
    exact ⟨hs.nonneg, hs.fits, hs.unfired,
      fun slot q hmem => hs.placed slot q (mem_delTimer.mp hmem).1⟩
  | tick now now' => exact placed_tick hwf hs h

/-- In every state in use the wheel is well formed, its ticks return, and its
timers stand where their firings have taken them. -/
theorem used_placed [Inhabited κ] {hN : 0 < N} {ticktime : ℕ} {hpos : 0 < ticktime}
    {hint : ticktime < 2 ^ 31} {now : BitVec 64} {s : WheelRun N κ}
    (h : Used hN ticktime hpos hint now s) :
    s.mgr.Wf ∧ s.mgr.FullRounds ∧ Placed s := by
  obtain ⟨hwf, hr⟩ := reached_wf (h.mono fun _ _ _ => trivial)
  refine ⟨hwf, hr, Reachable.invariant' (placed_create hN ticktime hpos hint now) ?_ h⟩
  intro s op s' hreach hs hop hstep
  exact placed_step (reached_wf (hreach.mono fun _ _ _ => trivial)).1 hs hop hstep

/-- A timer of `k` ticks that has fired `c` times stands `c * k` slots beyond the
one recorded in it. -/
theorem slot_of_mem [Inhabited κ] {hN : 0 < N} {ticktime : ℕ} {hpos : 0 < ticktime}
    {hint : ticktime < 2 ^ 31} {now : BitVec 64} {s : WheelRun N κ}
    (h : Used hN ticktime hpos hint now s) {slot : Fin N} (hp : p ∈ s.mgr.mWheel slot) :
    (slot : ℕ) = ((s.mgr.heap p).slot + s.fired p * s.mgr.delay p) % N :=
  (used_placed h).2.2.placed slot p hp

/-- **When a deleted timer never fires again.**  From every state of a wheel,
`delTimer(p)` silences `p` exactly when `p` is on no list, or `mSlotNum` divides
the number of times it has fired times the ticks of its delay: then it stands in
the slot recorded in it. -/
theorem delTimer_silences_iff [Inhabited κ] {hN : 0 < N} {ticktime : ℕ} {hpos : 0 < ticktime}
    {hint : ticktime < 2 ^ 31} {now : BitVec 64} {s : WheelRun N κ}
    (hs : Used hN ticktime hpos hint now s) (hp : p < s.mgr.next) :
    (s.mgr.delTimer p).Silent p ↔
      ∀ slot, p ∈ s.mgr.mWheel slot → N ∣ s.fired p * s.mgr.delay p := by
  obtain ⟨hwf, hr, hplaced⟩ := used_placed hs
  -- the slot that `delTimer` searches is the one that holds `p` iff the distance is whole turns
  have hback : ∀ slot, p ∈ s.mgr.mWheel slot →
      (slot = (s.mgr.heap p).slot ↔ N ∣ s.fired p * s.mgr.delay p) := by
    intro slot hmem
    set k := s.fired p * s.mgr.delay p
    have hdvd := Nat.modEq_iff_dvd' (n := N) (Nat.le_add_right (s.mgr.heap p).slot k)
    rw [Nat.add_sub_cancel_left, Nat.ModEq, Nat.mod_eq_of_lt (s.mgr.heap p).slot.isLt] at hdvd
    rw [Fin.ext_iff, slot_of_mem hs hmem, ← hdvd]
    exact eq_comm
  constructor
  · intro hsilent slot hmem
    rw [← hback slot hmem]
    -- searched in the wrong slot, `p` is still on the wheel, and its tick will come
    by_contra hne
    exact not_silent_of_mem (wf_delTimer hwf p)
      ⟨fun _ q _ => hplaced.nonneg q, fun _ q _ => hplaced.fits q⟩
      (fun s q hq => hr s q (mem_delTimer.mp hq).1)
      (mem_delTimer.mpr ⟨hmem, fun _ => hne⟩) hsilent
  · intro hdvd
    refine silent_of_off (wf_delTimer hwf p) hp fun slot hmem => ?_
    obtain ⟨hmem, hne⟩ := mem_delTimer.mp hmem
    exact hne rfl ((hback slot hmem).mpr (hdvd slot hmem))

/-- A recurring timer of one tick, deleted before it has fired. -/
theorem deleted_in_time : ∃ m', defaultWheel.addTimer 200 () true = some (0, m') ∧
    (m'.delTimer 0).Silent 0 := by
  obtain ⟨m', hadd⟩ : ∃ m', defaultWheel.addTimer 200 () true = some (0, m') := ⟨_, rfl⟩
  have hused : Used (by decide) 200 (by decide) (by decide) 0
      (⟨m', []⟩ : WheelRun 60 Unit) := by
    refine Reachable.init.step (.addTimer 200 () true)
      ⟨by decide, slotSum_lt _ (by decide) 200, fun _ => show 60 + 1 % 60 ≤ 2 ^ 31 by decide⟩ ?_
    show (defaultWheel.addTimer 200 () true).map (fun r => (⟨r.2, []⟩ : WheelRun 60 Unit)) = _
    rw [hadd]
    rfl
  have hnext : 0 < m'.next := by
    obtain ⟨_, _, _, rfl⟩ := addTimer_eq_some hadd
    exact Nat.zero_lt_one
  exact ⟨m', hadd, (delTimer_silences_iff hused hnext).mpr fun _ _ => by simp [fired]⟩

/-- The same timer, deleted when it has fired once: it stands in slot 2, is looked
for in slot 1, and fires again. -/
theorem deleted_fires_again : ∃ s, run step
      [.addTimer 200 () true, .tick 200 200, .tick 400 400] ⟨defaultWheel, []⟩ = some s ∧
    s.log = [[], [0]] ∧ ¬ (s.mgr.delTimer 0).Silent 0 := by
  refine ⟨_, rfl, rfl, fun h => ?_⟩
  exact absurd (h [.tick 600 600] _ rfl [0] (by decide)) (by decide)

end TimerManager

end Server
