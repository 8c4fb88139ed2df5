/-
The timeouts that `idle` passes to `epoll_wait`.

`waitTime` starts as `mTickTime`, and after notifications the time that the wait has taken
is taken off, by two readings of `gettimeofday`.  That is the time of day, which may be set
forwards and backwards: here the two readings of an iteration, and those of `tick`, are any.

* `inRange_countDown_iff` — the subtraction leaves what the test for a tick accepts as an
  end, or from 1 to `mTickTime`, if and only if the clock has `Held`: it has not been set
  back behind the time taken off since the last tick, nor as far ahead that the difference,
  modulo 2^32, looks like that;
* `timeouts_inRange_iff` — all timeouts of a run are from 1 to `mTickTime` if and only if
  the clock has held in all of its iterations;
* `IdleLoop.inRange_of_short` — a clock that only goes on holds, in waits below 2^31 ms.
-/
import AsyncServer.IdleTicks

namespace Server

open Epoll Transition

/-- `idle` with the manager it works on, and the timeouts it has passed to `epoll_wait`. -/
structure WaitLoop (N : ℕ) (φ κ : Type*) where
  iom : IOManager N φ κ
  mTickTime : BitVec 32
  waitTime : BitVec 32
  timeouts : List ℤ
  /-- the loop has been left -/
  left : Bool

namespace WaitLoop

variable {N : ℕ} {φ κ : Type*} {s s' : WaitLoop N φ κ}

/-- `idle` is entered. -/
def enter (iom : IOManager N φ κ) (mTickTime : BitVec 32) : WaitLoop N φ κ where
  iom := iom
  mTickTime := mTickTime
  waitTime := mTickTime
  timeouts := []
  left := false

/-- What comes of an `epoll_wait`, with the later readings of the clock in the iteration:
`now` and `now'` are the two of a tick, if there is one. -/
inductive Outcome
  /-- -1, with `EINTR` -/
  | interrupted
  /-- 0 -/
  | timedOut (now now' : BitVec 64)
  /-- the number of notifications `ns`; `end'` is read when they are dispatched -/
  | notified (ns : List (ℤ × Mask × Bool)) (end' now now' : BitVec 64)
  /-- -1, with any other `errno` -/
  | failed

inductive Act (N : ℕ) (φ κ : Type*)
  /-- between two iterations, or in a wait of this one, others leave the manager as `iom` -/
  | others (iom : IOManager N φ κ)
  /-- an iteration, with the reading before the `epoll_wait` -/
  | iteration (begin : BitVec 64) (num : Outcome)

/-- The end of an iteration with `timeout` set. -/
def tick (s : WaitLoop N φ κ) (now now' : BitVec 64) : Option (WaitLoop N φ κ) :=
  (s.iom.idleTick now now').map fun r => { s with iom := r.2, waitTime := s.mTickTime }

/-- `waitTime -= (end - begin)`: the `int` becomes a `uint64_t` and back. -/
def countDown (waitTime : BitVec 32) (begin end' : BitVec 64) : BitVec 32 :=
  (waitTime.signExtend 64 - (end' - begin)).setWidth 32

/-- One iteration of `idle`. -/
def iterate (s : WaitLoop N φ κ) (begin : BitVec 64) : Outcome → Option (WaitLoop N φ κ)
  | .interrupted => some s
  | .timedOut now now' => s.tick now now'
  | .notified ns end' now now' =>
    if ns = [] then none
    else (IdleLoop.dispatchAll s.iom ns).bind fun iom =>
      let s := { s with iom := iom, waitTime := countDown s.waitTime begin end' }
      if s.waitTime.toInt ≤ 0 then s.tick now now' else some s
  | .failed => some { s with left := true }

/-- An iteration passes `waitTime` to `epoll_wait`, whatever comes of it. -/
def step (s : WaitLoop N φ κ) : Act N φ κ → Option (WaitLoop N φ κ)
  | .others iom => some { s with iom := iom }
  | .iteration begin num =>
    if s.left then none
    else iterate { s with timeouts := s.timeouts ++ [s.waitTime.toInt] } begin num

/-- The timeouts so far, and the one that the next `epoll_wait` gets. -/
def offered (s : WaitLoop N φ κ) : List ℤ := s.timeouts ++ [s.waitTime.toInt]

/-- A timeout that is no more than a tick, and is one. -/
def InRange (mTickTime : BitVec 32) (timeout : ℤ) : Prop :=
  1 ≤ timeout ∧ timeout ≤ mTickTime.toInt

instance (mTickTime : BitVec 32) : DecidablePred (InRange mTickTime) := fun _ =>
  inferInstanceAs (Decidable (_ ∧ _))

/-- The difference of two readings as it is taken off an `int`. -/
def elapsed (begin end' : BitVec 64) : ℕ := (end' - begin).toNat % 2 ^ 32

/-- The condition on an iteration with notifications, of which `mTickTime - waitTime` has
been taken off before.  The difference of the readings is less than 2^31 and what is left
of the tick, or, as that of a clock set back, is at most as far below 2^32 as what has been
taken off. -/
def Held (s : WaitLoop N φ κ) : Act N φ κ → Prop
  | .iteration begin (.notified _ end' _ _) =>
    (elapsed begin end' : ℤ) ≤ 2 ^ 31 + s.waitTime.toInt ∨
      2 ^ 32 - (s.mTickTime.toInt - s.waitTime.toInt) ≤ elapsed begin end'
  | _ => True

/-! ### The subtraction -/

/-- What is left, in the arithmetic of an `int`. -/
theorem toInt_countDown (waitTime : BitVec 32) (begin end' : BitVec 64) :
    (countDown waitTime begin end').toInt =
      (waitTime.toInt - elapsed begin end').bmod (2 ^ 32) := by
  have hofNat : end' - begin = BitVec.ofNat 64 (end' - begin).toNat := by
    rw [BitVec.ofNat_toNat, BitVec.setWidth_eq]
  rw [countDown, hofNat, IdleLoop.setWidth_signExtend_sub, BitVec.toInt_sub,
    BitVec.toInt_ofNat', Int.sub_bmod_bmod, elapsed, Int.natCast_mod]
  exact (Int.sub_emod_bmod _ _).symm

/-- **The subtraction** ends the tick or leaves a timeout in range, exactly where the clock
has held. -/
theorem inRange_countDown_iff {mTickTime waitTime : BitVec 32}
    (h : InRange mTickTime waitTime.toInt) (begin end' : BitVec 64) :
    ((countDown waitTime begin end').toInt ≤ 0 ∨
        InRange mTickTime (countDown waitTime begin end').toInt) ↔
      (elapsed begin end' : ℤ) ≤ 2 ^ 31 + waitTime.toInt ∨
        2 ^ 32 - (mTickTime.toInt - waitTime.toInt) ≤ elapsed begin end' := by
  obtain ⟨hone, htick⟩ := h
  have hint : mTickTime.toInt < 2 ^ 31 := BitVec.toInt_lt
  have helapsed : elapsed begin end' < 2 ^ 32 := Nat.mod_lt _ (by decide)
  rw [toInt_countDown, InRange, Int.bmod_def]
  omega

/-! ### Runs -/

theorem tick_eq_some {now now' : BitVec 64} (h : s.tick now now' = some s') :
    ∃ iom, s' = { s with iom := iom, waitTime := s.mTickTime } := by
  obtain ⟨r, -, rfl⟩ := Option.map_eq_some_iff.mp h
  exact ⟨r.2, rfl⟩

/-- The values that a step can give `waitTime`. -/
inductive Next (s : WaitLoop N φ κ) : Act N φ κ → BitVec 32 → Prop
  | others {iom : IOManager N φ κ} : Next s (.others iom) s.waitTime
  | interrupted {begin : BitVec 64} : Next s (.iteration begin .interrupted) s.waitTime
  | failed {begin : BitVec 64} : Next s (.iteration begin .failed) s.waitTime
  | timedOut {begin now now' : BitVec 64} :
      Next s (.iteration begin (.timedOut now now')) s.mTickTime
  | ended {ns : List (ℤ × Mask × Bool)} {begin end' now now' : BitVec 64}
      (hle : (countDown s.waitTime begin end').toInt ≤ 0) :
      Next s (.iteration begin (.notified ns end' now now')) s.mTickTime
  | goesOn {ns : List (ℤ × Mask × Bool)} {begin end' now now' : BitVec 64}
      (hlt : 0 < (countDown s.waitTime begin end').toInt) :
      Next s (.iteration begin (.notified ns end' now now')) (countDown s.waitTime begin end')

/-- What a step has done: `waitTime` has a next value, and of the timeouts only the one that
was on offer has been passed. -/
structure Stepped (s : WaitLoop N φ κ) (a : Act N φ κ) (s' : WaitLoop N φ κ) : Prop where
  mTickTime : s'.mTickTime = s.mTickTime
  passed : ∀ t ∈ s'.timeouts, t ∈ s.offered
  kept : ∀ t ∈ s.offered, t ∈ s'.offered
  next : Next s a s'.waitTime

/-- After an iteration the timeouts are those that were on offer. -/
theorem Stepped.of_timeouts {a : Act N φ κ} (htick : s'.mTickTime = s.mTickTime)
    (htimeouts : s'.timeouts = s.offered) (hnext : Next s a s'.waitTime) : Stepped s a s' :=
  ⟨htick, fun _ ht => htimeouts ▸ ht, fun _ ht => List.mem_append_left _ (htimeouts ▸ ht), hnext⟩

/-- **What a step can do.** -/
theorem stepped {a : Act N φ κ} (h : s.step a = some s') : Stepped s a s' := by
  cases a with
  | others iom =>
    obtain rfl := Option.some_inj.mp h
    exact ⟨rfl, fun _ ht => List.mem_append_left _ ht, fun _ ht => ht, .others⟩
  | iteration begin num =>
    rw [step] at h
    split_ifs at h
    cases num with
    | interrupted =>
      obtain rfl := Option.some_inj.mp h
      exact .of_timeouts rfl rfl .interrupted
    | failed =>
      obtain rfl := Option.some_inj.mp h
      exact .of_timeouts rfl rfl .failed
    | timedOut now now' =>
      obtain ⟨iom, rfl⟩ := tick_eq_some h
      exact .of_timeouts rfl rfl .timedOut
    | notified ns end' now now' =>
      rw [iterate] at h
      split_ifs at h
      obtain ⟨iom, -, h⟩ := Option.bind_eq_some_iff.mp h
      dsimp only at h
      split_ifs at h with hle
      · obtain ⟨iom, rfl⟩ := tick_eq_some h
        exact .of_timeouts rfl rfl (.ended hle)
      · obtain rfl := Option.some_inj.mp h
        exact .of_timeouts rfl rfl (.goesOn (not_le.mp hle))

theorem waitTime_mem_offered (s : WaitLoop N φ κ) : s.waitTime.toInt ∈ s.offered :=
  List.mem_append_right _ (List.mem_singleton_self _)

/-- What holds of all that was on offer and of the next value holds of all that is. -/
theorem Stepped.forall_offered {a : Act N φ κ} {p : ℤ → Prop} (h : Stepped s a s')
    (hs : ∀ t ∈ s.offered, p t) : (∀ t ∈ s'.offered, p t) ↔ p s'.waitTime.toInt := by
  rw [offered, List.forall_mem_append, List.forall_mem_singleton]
  exact and_iff_right fun t ht => hs t (h.passed t ht)

/-- **No wait is without end or over at once**, whatever the clock does: the test for a
tick sees to it. -/
theorem one_le_offered {iom : IOManager N φ κ} {mTickTime : BitVec 32}
    (hpos : 0 < mTickTime.toInt) {as : List (Act N φ κ)}
    (h : run step as (enter iom mTickTime) = some s) : ∀ t ∈ s.offered, 1 ≤ t := by
  have hinv : 0 < s.mTickTime.toInt ∧ ∀ t ∈ s.offered, 1 ≤ t := by
    refine Reachable.run_invariant
      (I := fun s : WaitLoop N φ κ => 0 < s.mTickTime.toInt ∧ ∀ t ∈ s.offered, 1 ≤ t)
      (fun s a s' _ hs hstep => ?_) ⟨hpos, fun t ht => ?_⟩ h
    · have hst := stepped hstep
      refine ⟨hst.mTickTime ▸ hs.1, (hst.forall_offered hs.2).mpr ?_⟩
      have hnext := hst.next
      generalize s'.waitTime = waitTime at hnext ⊢
      cases hnext with
      | others | interrupted | failed => exact hs.2 _ (waitTime_mem_offered s)
      | timedOut | ended => exact hs.1
      | goesOn hlt => exact hlt
    · rw [List.mem_singleton.mp ht]
      exact hpos
  exact hinv.2

/-- The timeouts of a loop for a tick of `mTickTime`. -/
def Ranged (mTickTime : BitVec 32) (s : WaitLoop N φ κ) : Prop :=
  s.mTickTime = mTickTime ∧ ∀ t ∈ s.offered, InRange mTickTime t

/-- What has been passed has been passed. -/
theorem ranged_back {mTickTime : BitVec 32} {a : Act N φ κ} (h : s.step a = some s')
    (hs : Ranged mTickTime s') : Ranged mTickTime s :=
  ⟨(stepped h).mTickTime.symm.trans hs.1, fun t ht => hs.2 t ((stepped h).kept t ht)⟩

/-- The step lemma. -/
theorem ranged_step {mTickTime : BitVec 32} (hpos : 0 < mTickTime.toInt)
    (hs : Ranged mTickTime s) {a : Act N φ κ} (h : s.step a = some s') :
    Ranged mTickTime s' ↔ s.Held a := by
  have hst := stepped h
  have hwait : InRange mTickTime s.waitTime.toInt := hs.2 _ (waitTime_mem_offered s)
  have hall : InRange mTickTime s.mTickTime.toInt := by
    rw [hs.1]
    exact ⟨hpos, le_rfl⟩
  rw [Ranged, and_iff_right (hst.mTickTime.trans hs.1), hst.forall_offered hs.2]
  have hnext := hst.next
  generalize s'.waitTime = waitTime at hnext ⊢
  cases hnext with
  | others | interrupted | failed => exact iff_of_true hwait trivial
  | timedOut => exact iff_of_true hall trivial
  | ended hle =>
    rw [Held, hs.1, ← inRange_countDown_iff hwait]
    exact iff_of_true (hs.1 ▸ hall) (.inl hle)
  | goesOn hlt =>
    rw [Held, hs.1, ← inRange_countDown_iff hwait]
    exact (or_iff_right (not_le.mpr hlt)).symm

/-- **The timeouts stay in range**: in any run, all that `epoll_wait` has got and gets next
are from 1 to `mTickTime`, if and only if the clock has held in all iterations. -/
theorem timeouts_inRange_iff {iom : IOManager N φ κ} {mTickTime : BitVec 32}
    (hpos : 0 < mTickTime.toInt) {as : List (Act N φ κ)}
    (h : run step as (enter iom mTickTime) = some s) :
    (∀ t ∈ s.offered, InRange mTickTime t) ↔ Along step Held as (enter iom mTickTime) := by
  have hstart : Ranged mTickTime (enter iom mTickTime) := by
    refine ⟨rfl, fun t ht => ?_⟩
    rw [List.mem_singleton.mp ht]
    exact ⟨hpos, le_rfl⟩
  have htick : s.mTickTime = mTickTime :=
    Reachable.run_invariant (I := fun s => s.mTickTime = mTickTime)
      (fun _ _ _ _ hs hstep => (stepped hstep).mTickTime.trans hs) rfl h
  rw [← Along.iff_end (I := Ranged mTickTime) (fun _ _ _ => ranged_back)
    (fun _ _ _ hs => ranged_step hpos hs) hstart h]
  exact (and_iff_right htick).symm

/-- An `IOManager` with `mEventfd` 3, and the `mTickTime` that is its default. -/
def loopOf3 : WaitLoop 60 ℕ ℕ := enter (.create 1 TimerManager.defaultWheel 3) 200

set_option maxRecDepth 2000 in
/-- 150 ms in a wait, and then a clock that is set back by 10 ms in one. -/
theorem timeouts_inRange_back :
    ∃ s, run step [.iteration 1000 (.notified [(3, IN, false)] 1150 0 0),
        .iteration 1150 (.notified [(3, IN, false)] 1140 0 0), .iteration 1140 .interrupted]
        loopOf3 = some s ∧
      s.timeouts = [200, 50, 60] ∧ ∀ t ∈ s.offered, InRange 200 t := by
  have hrun : ∃ s, run step [.iteration 1000 (.notified [(3, IN, false)] 1150 0 0),
      .iteration 1150 (.notified [(3, IN, false)] 1140 0 0), .iteration 1140 .interrupted]
      loopOf3 = some s ∧ s.timeouts = [200, 50, 60] := ⟨_, rfl, rfl⟩
  obtain ⟨s, hs, htimeouts⟩ := hrun
  refine ⟨s, hs, htimeouts, (timeouts_inRange_iff (by decide) hs).mpr
    ⟨.inl (by decide), fun t ht => ?_⟩⟩
  obtain rfl := Option.some_inj.mp ht
  exact ⟨.inr (by decide), fun _ _ => ⟨trivial, fun _ _ => trivial⟩⟩

set_option maxRecDepth 2000 in
/-- **A clock that is set back by a second**: the next wait is for six ticks. -/
theorem timeout_of_six_ticks :
    ∃ s, run step [.iteration 1000000 (.notified [(3, IN, false)] 999000 0 0),
        .iteration 999000 .interrupted] loopOf3 = some s ∧
      s.timeouts = [200, 1200] ∧ ¬ ∀ t ∈ s.timeouts, InRange 200 t := by
  have hrun : ∃ s, run step [.iteration 1000000 (.notified [(3, IN, false)] 999000 0 0),
      .iteration 999000 .interrupted] loopOf3 = some s ∧ s.timeouts = [200, 1200] :=
    ⟨_, rfl, rfl⟩
  obtain ⟨s, hs, htimeouts⟩ := hrun
  refine ⟨s, hs, htimeouts, fun h => ?_⟩
  rw [htimeouts] at h
  exact absurd h (by decide)

end WaitLoop

/-! ### A clock that only goes on -/

namespace IdleLoop

variable {N : ℕ} {φ κ : Type*} {s s' : IdleLoop N φ κ}

/-- The loop without its history of the clock. -/
def toWait (s : IdleLoop N φ κ) (timeouts : List ℤ) : WaitLoop N φ κ :=
  ⟨s.iom, s.mTickTime, s.waitTime, timeouts, false⟩

/-- The readings that are made in a step. -/
def readings (s : IdleLoop N φ κ) : Act N φ κ → WaitLoop.Act N φ κ
  | .tasks iom _ => .others iom
  | .interrupted _ => .iteration (getCurTimeMS s.clock) .interrupted
  | .timeout d a b => .iteration (getCurTimeMS s.clock)
      (.timedOut (getCurTimeMS (s.clock + d + a)) (getCurTimeMS (s.clock + d + a + b)))
  | .notified ns d a b => .iteration (getCurTimeMS s.clock)
      (.notified ns (getCurTimeMS (s.clock + d)) (getCurTimeMS (s.clock + d + a))
        (getCurTimeMS (s.clock + d + a + b)))

theorem toWait_tick {a b : ℕ} (timeouts : List ℤ) (h : s.tick a b = some s') :
    (s.toWait timeouts).tick (getCurTimeMS (s.clock + a)) (getCurTimeMS (s.clock + a + b)) =
      some (s'.toWait timeouts) := by
  obtain ⟨r, hr, rfl⟩ := Option.map_eq_some_iff.mp h
  have hiom : (s.toWait timeouts).iom = s.iom := rfl
  rw [WaitLoop.tick, hiom, hr]
  rfl

/-- **With the readings of its clock, a worker is one of the loops above.** -/
theorem toWait_step {a : Act N φ κ} (h : s.step a = some s') (timeouts : List ℤ) :
    ∃ timeouts', (s.toWait timeouts).step (s.readings a) = some (s'.toWait timeouts') := by
  cases a with
  | tasks iom d =>
    obtain rfl := Option.some_inj.mp h
    exact ⟨timeouts, rfl⟩
  | interrupted d =>
    obtain rfl := Option.some_inj.mp h
    exact ⟨timeouts ++ [s.waitTime.toInt], rfl⟩
  | timeout d a b =>
    have htick := toWait_tick (s := { s with clock := s.clock + d })
      (timeouts ++ [s.waitTime.toInt]) h
    exact ⟨timeouts ++ [s.waitTime.toInt], htick⟩
  | notified ns d a b =>
    refine ⟨timeouts ++ [s.waitTime.toInt], ?_⟩
    rw [step] at h
    split_ifs at h with hns
    obtain ⟨iom, hiom, h⟩ := Option.bind_eq_some_iff.mp h
    have hall : (s.toWait timeouts).step (s.readings (.notified ns d a b)) =
        (dispatchAll s.iom ns).bind fun iom =>
          if (countDown { s with iom := iom } d).waitTime.toInt ≤ 0 then
            ((countDown { s with iom := iom } d).toWait (timeouts ++ [s.waitTime.toInt])).tick
              (getCurTimeMS (s.clock + d + a)) (getCurTimeMS (s.clock + d + a + b))
          else some ((countDown { s with iom := iom } d).toWait
            (timeouts ++ [s.waitTime.toInt])) := by
      exact if_neg hns
    rw [hall, hiom, Option.bind_some]
    dsimp only at h
    split_ifs at h with hle
    · rw [if_pos hle]
      exact toWait_tick _ h
    · rw [if_neg hle, ← Option.some_inj.mp h]

/-- Notifications are dispatched less than 2^31 ms after the wait began. -/
def Short : Act N φ κ → Prop
  | .notified _ d _ _ => d < 2 ^ 31
  | _ => True

/-- **On a clock that only goes on**, the timeout is in range as long as no wait takes
2^31 ms. -/
theorem inRange_of_short {iom : IOManager N φ κ} {mTickTime : BitVec 32} {clock : ℕ}
    (hpos : 0 < mTickTime.toInt) {as : List (Act N φ κ)} (hshort : ∀ a ∈ as, Short a)
    (h : run step as (enter iom mTickTime clock) = some s) :
    WaitLoop.InRange mTickTime s.waitTime.toInt := by
  have hranged : ∃ timeouts, WaitLoop.Ranged mTickTime (s.toWait timeouts) := by
    refine Reachable.run_invariant
      (I := fun s : IdleLoop N φ κ => ∃ timeouts, WaitLoop.Ranged mTickTime (s.toWait timeouts))
      (fun s a s' ha hs hstep => ?_) ⟨[], rfl, fun t ht => ?_⟩ h
    · obtain ⟨timeouts, hs⟩ := hs
      obtain ⟨timeouts', hstep'⟩ := toWait_step hstep timeouts
      refine ⟨timeouts', (WaitLoop.ranged_step hpos hs hstep').mpr ?_⟩
      cases a with
      | notified ns d a b =>
        have hd : d < 2 ^ 31 := hshort _ ha
        have hone : 1 ≤ s.waitTime.toInt :=
          (hs.2 _ (List.mem_append_right _ (List.mem_singleton_self _))).1
        refine .inl ?_
        rw [WaitLoop.elapsed, getCurTimeMS_sub, BitVec.toNat_ofNat,
          Nat.mod_eq_of_lt (by omega : d < 2 ^ 64), Nat.mod_eq_of_lt (by omega : d < 2 ^ 32)]
        show (d : ℤ) ≤ 2 ^ 31 + s.waitTime.toInt
        omega
      | _ => trivial
    · rw [List.mem_singleton.mp ht]
      exact ⟨hpos, le_rfl⟩
  obtain ⟨timeouts, hs⟩ := hranged
  exact hs.2 _ (List.mem_append_right _ (List.mem_singleton_self _))

end IdleLoop

end Server
