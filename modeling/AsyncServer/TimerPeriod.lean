/-
The period of a recurring timer.

A recurring timer of `k = timing / mTickTime` ticks should be emitted by every
`k`-th effective tick.  `tick` puts it back `k % mSlotNum` slots from the cursor
and then moves the cursor on, which is right, but its round is lost in the next
visit of the cursor, as for every timer:

* `recurs` — in every run the timer is emitted by every `period N k`-th
  effective tick, where `period N k` is `k` within one revolution;
* `hasPeriod_iff` — so its period is `k` exactly when `k` is at most one
  revolution, on wheels whose sums of slots are `int`s.
-/
import AsyncServer.TimerDeletion

namespace Server

open Transition

namespace WheelRun

variable {N : ℕ} {κ : Type*}

/-- Effective tick number `i` of the run has emitted `p`. -/
def Emits (s : WheelRun N κ) (i : ℕ) (p : TimerPtr) : Prop := ∃ l ∈ s.log[i]?, p ∈ l

end WheelRun

namespace TimerManager

variable {N : ℕ} {κ : Type*} {m m' : TimerManager N κ} {p : TimerPtr}

open WheelRun

/-- In every run from `m` that does not delete `p`, no tick emits `p` twice, and
any two successive emissions of `p` are exactly `k` effective ticks apart. -/
def HasPeriod (m : TimerManager N κ) (p : TimerPtr) (k : ℕ) : Prop :=
  ∀ ops s, .delTimer p ∉ ops → run step ops ⟨m, []⟩ = some s →
    (∀ l ∈ s.log, l.count p ≤ 1) ∧
    ∀ i j, i < j → s.Emits i p → s.Emits j p → (∀ x, i < x → x < j → ¬ s.Emits x p) → j = i + k

/-- How many ticks the cursor takes to a slot that is `k` slots ahead of the one
it has just left, give or take whole revolutions. -/
def period (N k : ℕ) : ℕ := if k % N = 0 then N else k % N

theorem period_pos (hN : 0 < N) (k : ℕ) : 0 < period N k := by
  unfold period
  split_ifs <;> omega

theorem period_le (hN : 0 < N) (k : ℕ) : period N k ≤ N := by
  have := Nat.mod_lt k hN
  unfold period
  split_ifs <;> omega

theorem period_of_le {k : ℕ} (hk : 1 ≤ k) (hle : k ≤ N) : period N k = k := by
  unfold period
  rcases hle.eq_or_lt with rfl | hlt
  · rw [Nat.mod_self, if_pos rfl]
  · rw [Nat.mod_eq_of_lt hlt, if_neg (by omega)]

theorem period_sub_one (N k : ℕ) : period N k - 1 = if k % N = 0 then N - 1 else k % N - 1 := by
  unfold period
  split_ifs <;> rfl

/-! ### A recurring timer recurs -/

/-- What a run keeps about a recurring timer `p` armed with `n` ticks and put
back every `d` ticks. -/
structure Repeats (p : TimerPtr) (n d : ℕ) (s : WheelRun N κ) : Prop where
  wf : s.mgr.Wf
  allocated : p < s.mgr.next
  recurring : (s.mgr.heap p).recurring = true
  nonneg : 0 ≤ (s.mgr.heap p).intervalTime
  fits : SumsFit N (s.mgr.delay p)
  period : period N (s.mgr.delay p) = d
  recurs : Agenda.Recurs p n d s.mgr.agenda s.log

/-- The step lemma: every call but the deletion of `p` leaves it recurring. -/
theorem repeats_step {n d : ℕ} {s s' : WheelRun N κ} {op : TimerOp κ} (hs : Repeats p n d s)
    (hop : op ≠ .delTimer p) (h : s.step op = some s') : Repeats p n d s' := by
  have hwf := wf_step hs.wf h
  cases op with
  | addTimer timing cb recurr =>
    obtain ⟨⟨q, m'⟩, hadd, rfl⟩ := Option.map_eq_some_iff.mp h
    have hq : p ≠ q := by
      rw [(addTimer_eq_some hadd).1]
      exact hs.allocated.ne
    have hrecurs := hs.recurs.congr (agenda_addTimer_of_ne hadd hq)
    obtain ⟨rfl, _, _, rfl⟩ := addTimer_eq_some hadd
    constructor
    · exact hwf
    · exact Nat.lt_succ_of_lt hs.allocated
    · simpa [hq] using hs.recurring
    · simpa [hq] using hs.nonneg
    · simpa [hq, delay] using hs.fits
    · simpa [hq, delay] using hs.period
    · exact hrecurs
  | delTimer t =>
    obtain rfl : _ = s' := Option.some_inj.mp h
    have ht : p ≠ t := fun hpt => hop (by rw [hpt])
    exact ⟨hwf, hs.allocated, hs.recurring, hs.nonneg, hs.fits,
      hs.period,
      hs.recurs.congr (agenda_delTimer_of_ne ht)⟩
  | tick now now' =>
    obtain ⟨-, rfl⟩ | ⟨he, r, hr, rfl⟩ := tick_step_cases h
    · exact hs
    obtain ⟨hrec, hnext⟩ := recurring_tick hr p
    obtain ⟨hint, hdelay⟩ := interval_tick hr p
    refine ⟨hwf, hnext ▸ hs.allocated, hrec.trans hs.recurring, hint ▸ hs.nonneg,
      hdelay ▸ hs.fits, hdelay ▸ hs.period, ?_⟩
    have hN : 0 < N := Nat.zero_lt_of_lt s.mgr.mCurSlot.isLt
    have hd : 0 < d := hs.period ▸ period_pos hN _
    refine hs.recurs.tick hd (count_due hs.wf p) (fun hdue => ?_) (fun hdue => ?_)
    -- emitted and put back, from the cursor that then moves on by one
    · rw [agenda_tick_recurring hs.wf hr he ((agenda_due hs.wf).mp hdue) hs.recurring hs.nonneg
        (slotSum_lt_of_sumsFit hs.nonneg hs.fits), ← period_sub_one, ← hs.period]
      rfl
    · exact agenda_tick hs.wf hr he fun hc => absurd ((agenda_due hs.wf).mpr hc) hdue

/-- **In every run a recurring timer recurs**, every `period N k` effective
ticks, from effective tick number `k % mSlotNum` on. -/
theorem recurs (hm : m.Wf) {timing : ℤ} (h0 : 0 ≤ timing)
    (hfit : SumsFit N (timing / m.mTickTime).toNat) {cb : κ}
    (h : m.addTimer timing cb true = some (p, m')) {ops : List (TimerOp κ)} {s : WheelRun N κ}
    (hops : .delTimer p ∉ ops) (hrun : run step ops ⟨m', []⟩ = some s) :
    Agenda.Recurs p ((timing / m.mTickTime).toNat % N) (period N (timing / m.mTickTime).toNat)
      s.mgr.agenda s.log := by
  have hstart : Repeats p ((timing / m.mTickTime).toNat % N)
      (period N (timing / m.mTickTime).toNat) ⟨m', []⟩ := by
    have hrecurs : Agenda.Recurs p ((timing / m.mTickTime).toNat % N)
        (period N (timing / m.mTickTime).toNat) m'.agenda [] :=
      .start (by rw [agenda_addTimer hm h0 (slotSum_lt_of_sumsFit h0 hfit) h, Agenda.arm_self])
    have hwf := wf_addTimer hm h
    obtain ⟨rfl, _, _, rfl⟩ := addTimer_eq_some h
    exact ⟨hwf, Nat.lt_succ_self _, by simp, by simpa using h0, by simpa [delay] using hfit,
      by simp [delay], hrecurs⟩
  exact (Reachable.run_invariant
    (fun s op s' hop hs hstep => repeats_step hs (fun heq => hops (heq ▸ hop)) hstep)
    hstart hrun).recurs

/-- The period that a recurring timer has. -/
theorem hasPeriod_period (hm : m.Wf) {timing : ℤ} (h0 : 0 ≤ timing)
    (hfit : SumsFit N (timing / m.mTickTime).toNat) {cb : κ}
    (h : m.addTimer timing cb true = some (p, m')) :
    m'.HasPeriod p (period N (timing / m.mTickTime).toNat) := by
  intro ops s hops hrun
  have hrec := recurs hm h0 hfit h hops hrun
  constructor
  · intro l hl
    obtain ⟨i, hi⟩ := List.mem_iff_getElem?.mp hl
    rw [hrec.fired i l hi]
    split_ifs <;> omega
  · rintro i j hij ⟨l, hi, hl⟩ ⟨l', hj, hl'⟩ hbetween
    have hN : 0 < N := Nat.zero_lt_of_lt m.mCurSlot.isLt
    exact hrec.successive (period_pos hN _) hij hi hl hj hl' fun x l hx hx' hlog hp =>
      hbetween x hx hx' ⟨l, hlog, hp⟩

/-- **When a recurring timer has its period.**  From every state of a wheel, a
recurring timer of `k` ticks, `k ≥ 1`, whose sum of slots is an `int` at every cursor
is emitted every `k` effective ticks if `k` is at most one revolution; and if it is
more, it is not, as long as the ticks of its runs return at all. -/
theorem hasPeriod_iff [Inhabited κ] {hN : 0 < N} {ticktime : ℕ} {hpos : 0 < ticktime}
    {hint : ticktime < 2 ^ 31} {now : BitVec 64} {log : List (List TimerPtr)}
    (hm : Reached hN ticktime hpos hint now ⟨m, log⟩) {timing : ℤ}
    (hk : 1 ≤ timing / m.mTickTime) (hfit : SumsFit N (timing / m.mTickTime).toNat) {cb : κ}
    (hadd : m.addTimer timing cb true = some (p, m')) :
    (timing / m.mTickTime ≤ N → m'.HasPeriod p (timing / m.mTickTime).toNat) ∧
      (m.Tickable → m'.HasPeriod p (timing / m.mTickTime).toNat →
        timing / m.mTickTime ≤ N) := by
  obtain ⟨hwf, hr⟩ : m.Wf ∧ m.FullRounds := reached_wf hm
  have h0 : 0 ≤ timing := by
    by_contra hneg
    have := Int.ediv_neg_of_neg_of_pos (not_le.mp hneg) (Int.natCast_pos.mpr m.tickTime_pos)
    omega
  set k := (timing / m.mTickTime).toNat with hkdef
  constructor
  · intro hle
    have hperiod := hasPeriod_period hwf h0 hfit hadd
    rwa [← hkdef, period_of_le (by omega) (by omega)] at hperiod
  · intro hd hperiod
    -- make ticks up to the second emission
    obtain ⟨ops, s, hops, hrun, hlen⟩ := exists_ticks (wf_addTimer hwf hadd)
      (tickable_addTimer hd h0 (fun _ => hfit) hadd) (fullRounds_addTimer hr hadd)
      (k % N + period N k + 1) []
    have hrec : Agenda.Recurs p (k % N) (period N k) s.mgr.agenda s.log :=
      recurs hwf h0 hfit hadd (hops p) hrun
    have hemits : ∀ i, i < s.log.length → (s.Emits i p ↔ Agenda.DueAt (k % N) (period N k) i) := by
      intro i hi
      have hl : s.log[i]? = some s.log[i] := List.getElem?_eq_getElem hi
      rw [← hrec.mem_iff hl, Emits, hl]
      simp
    have hpos' := period_pos hN k
    have hle := period_le hN k
    have hfirst := Agenda.DueAt.first (k % N) (period N k)
    rw [List.length_nil, Nat.zero_add] at hlen
    have heq := (hperiod ops s (hops p) hrun).2 (k % N) (k % N + period N k) (by omega)
      ((hemits _ (by omega)).mpr hfirst) ((hemits _ (by omega)).mpr hfirst.next)
      fun x hx hx' he => by
        have := hfirst.add_le ((hemits x (by omega)).mp he) hx
        omega
    omega

/-- A recurring timer of two ticks on the default wheel. -/
theorem hasPeriod_two :
    ∃ m', defaultWheel.addTimer 400 () true = some (0, m') ∧ m'.HasPeriod 0 2 := by
  obtain ⟨m', hadd⟩ : ∃ m', defaultWheel.addTimer 400 () true = some (0, m') := ⟨_, rfl⟩
  have hm : Reached (by decide) 200 (by decide) (by decide) 0
      ⟨(defaultWheel : TimerManager 60 Unit), []⟩ := .init
  have hfit : SumsFit 60 ((400 : ℤ) / (200 : ℕ)).toNat := by
    unfold SumsFit
    decide
  exact ⟨m', hadd, (hasPeriod_iff hm (by decide) hfit hadd).1 (by decide)⟩

/-- A recurring timer of 61 ticks on the default wheel is emitted by every
tick. -/
theorem not_hasPeriod_sixty_one :
    ∃ m', defaultWheel.addTimer 12200 () true = some (0, m') ∧ ¬ m'.HasPeriod 0 61 := by
  refine ⟨_, rfl, fun h => ?_⟩
  have hlog : ∃ s, run step [.tick 200 200, .tick 400 400, .tick 600 600]
      ⟨(defaultWheel.addTimer 12200 () true).elim defaultWheel Prod.snd, []⟩ = some s ∧
      s.log = [[], [0], [0]] := ⟨_, rfl, rfl⟩
  obtain ⟨s, hs, hlog⟩ := hlog
  have hemits : ∀ i, s.Emits i 0 ↔ i = 1 ∨ i = 2 := by
    intro i
    rw [Emits, hlog]
    rcases i with _ | _ | _ | i <;> simp
  have heq := (h _ s (by simp) hs).2 1 2 (by omega) ((hemits 1).mpr (.inl rfl))
    ((hemits 2).mpr (.inr rfl)) (fun x hx hx' => by omega)
  omega

end TimerManager

end Server
