/-
The timer wheel (timer.h, timer.cpp).

`TimerManager N κ` is a wheel of `N = mSlotNum` slot lists, over callbacks of
type `κ`.  A `Timer::ptr` is the address of a `Timer` object, so that two
holders of one pointer see the same `round`: the objects live in `heap`, and
the slot lists hold addresses.

* `addTimer`, `delTimer`, `tick` are the three public operations, statement by
  statement;
* `tickLoop_eq` — what the `while` loop of `tick` does to the slot it walks.

The C++ `int`s are integers with the truncating division of C++ (`Int.tdiv`,
`Int.tmod`).  The sum `mCurSlot + ticks % mSlotNum` is the one operation of the
wheel that can leave `int`, on wheels of more than 2^30 slots: it wraps around
(`slot`).  Clock readings are `uint64_t`, and the elapsed time is narrowed to
`int` as in the source.

An index outside `mWheel` is undefined behaviour, and a timer with a negative
round is counted down without end: both have no outcome (`none`).
-/
import Mathlib.Tactic
import AsyncServer.WhileLoop

namespace Server

open WhileLoop

/-- `Timer::ptr`: the address of a `Timer` object. -/
abbrev TimerPtr := ℕ

/-- `struct Timer`. -/
structure Timer (N : ℕ) (κ : Type*) where
  intervalTime : ℤ
  round : ℤ
  slot : Fin N
  callback : κ
  recurring : Bool

/-- `class TimerManager`; `mSlotNum` is the parameter `N`, and `heap` holds the
`Timer` objects, of which the addresses below `next` have been handed out. -/
structure TimerManager (N : ℕ) (κ : Type*) where
  mTickTime : ℕ
  mCurSlot : Fin N
  mLastExpireTime : BitVec 64
  mWheel : Fin N → List TimerPtr
  heap : TimerPtr → Timer N κ
  next : TimerPtr
  tickTime_pos : 0 < mTickTime
  tickTime_int : mTickTime < 2 ^ 31

namespace TimerManager

variable {N : ℕ} {κ : Type*}

/-- `TimerManager(slotnum, ticktime)` at the clock reading `now`. -/
def create [Inhabited κ] (hN : 0 < N) (ticktime : ℕ) (hpos : 0 < ticktime)
    (hint : ticktime < 2 ^ 31) (now : BitVec 64) : TimerManager N κ where
  mTickTime := ticktime
  mCurSlot := ⟨0, hN⟩
  mLastExpireTime := now
  mWheel := fun _ => []
  heap := fun _ => ⟨0, 0, ⟨0, hN⟩, default, false⟩
  next := 0
  tickTime_pos := hpos
  tickTime_int := hint

theorem defaultSlots_pos : 0 < 60 := by decide

theorem defaultTick_pos : 0 < 200 := by decide

theorem defaultTick_int : 200 < 2 ^ 31 := by decide

/-- The wheel that `IOManager` has by default: 60 slots of 200 ms. -/
def defaultWheel [Inhabited κ] : TimerManager 60 κ :=
  create defaultSlots_pos 200 defaultTick_pos defaultTick_int 0

/-- `int ticks = timing / mTickTime`. -/
def ticks (m : TimerManager N κ) (timing : ℤ) : ℤ := timing.tdiv m.mTickTime

/-- `int round = ticks / mSlotNum`. -/
def round (m : TimerManager N κ) (timing : ℤ) : ℤ := (m.ticks timing).tdiv N

/-- `mCurSlot + (ticks % mSlotNum)`, as a number. -/
def slotSum (m : TimerManager N κ) (timing : ℤ) : ℤ :=
  (m.mCurSlot : ℤ) + (m.ticks timing).tmod N

/-- `int slot = (mCurSlot + (ticks % mSlotNum)) % mSlotNum`, with the sum in 32 bits. -/
def slot (m : TimerManager N κ) (timing : ℤ) : ℤ :=
  (BitVec.ofInt 32 (m.slotSum timing)).toInt.tmod N

theorem slot_bmod (m : TimerManager N κ) (timing : ℤ) :
    m.slot timing = ((m.slotSum timing).bmod (2 ^ 32)).tmod N := by
  rw [slot, BitVec.toInt_ofInt]

/-- The element of `mWheel` that `mWheel[slot]` names, if there is one. -/
def slotAt (N : ℕ) (slot : ℤ) : Option (Fin N) :=
  if h : 0 ≤ slot ∧ slot < N then some ⟨slot.toNat, by omega⟩ else none

/-- `mWheel[slot].emplace_back(p)`. -/
def emplaceBack (m : TimerManager N κ) (slot : Fin N) (p : TimerPtr) : Fin N → List TimerPtr :=
  Function.update m.mWheel slot (m.mWheel slot ++ [p])

/-- `TimerManager::addTimer`. -/
def addTimer (m : TimerManager N κ) (timing : ℤ) (cb : κ) (recurr : Bool) :
    Option (TimerPtr × TimerManager N κ) :=
  (slotAt N (m.slot timing)).map fun slot =>
    (m.next,
      { m with
        heap := Function.update m.heap m.next ⟨timing, m.round timing, slot, cb, recurr⟩
        next := m.next + 1
        mWheel := m.emplaceBack slot m.next })

/-- What `addTimer` does before it locks: a new object, for the slot that has been
computed. -/
def newTimer (m : TimerManager N κ) (timing : ℤ) (cb : κ) (recurr : Bool) (slot : Fin N) :
    TimerManager N κ :=
  { m with
    heap := Function.update m.heap m.next ⟨timing, m.round timing, slot, cb, recurr⟩
    next := m.next + 1 }

/-- What it does under the lock. -/
def insertTimer (m : TimerManager N κ) (p : TimerPtr) (slot : Fin N) : TimerManager N κ :=
  { m with mWheel := m.emplaceBack slot p }

/-- `addTimer` is the one after the other. -/
theorem addTimer_eq (m : TimerManager N κ) (timing : ℤ) (cb : κ) (recurr : Bool) :
    m.addTimer timing cb recurr = (slotAt N (m.slot timing)).map fun slot =>
      (m.next, (m.newTimer timing cb recurr slot).insertTimer m.next slot) := rfl

/-- `TimerManager::delTimer`: `mWheel[timer->slot].remove(timer)`. -/
def delTimer (m : TimerManager N κ) (timer : TimerPtr) : TimerManager N κ :=
  let slot := (m.heap timer).slot
  { m with mWheel := Function.update m.mWheel slot ((m.mWheel slot).filter (· ≠ timer)) }

/-- The test of `tick`: `(int)(getCurTimeMS() - mLastExpireTime) >= mTickTime`. -/
def expired (m : TimerManager N κ) (now : BitVec 64) : Bool :=
  (m.mTickTime : ℤ) ≤ ((now - m.mLastExpireTime).setWidth 32).toInt

/-! ### The loop of `tick` -/

/-- The variables of the `while` loop of `tick`.  No branch of the loop moves
`it` past an element that it keeps, so the current slot list is always the part
from `it` on.  `emitted` is a history variable: the timers whose callbacks were
put into `cbs`. -/
structure TickLoop (N : ℕ) (κ : Type*) where
  it : List TimerPtr
  heap : TimerPtr → Timer N κ
  cbs : List κ
  recurTimer : List TimerPtr
  emitted : List TimerPtr

/-- `t->round--`. -/
def decRound (heap : TimerPtr → Timer N κ) (t : TimerPtr) : TimerPtr → Timer N κ :=
  Function.update heap t { heap t with round := (heap t).round - 1 }

/-- The body of the `while` loop of `tick`: a timer with rounds left loses one
and is looked at again, any other is emitted and erased. -/
def tickBody (s : TickLoop N κ) : TickLoop N κ :=
  match s.it with
  | [] => s
  | tmp :: rest =>
    if (s.heap tmp).round ≠ 0 then
      -- neither `it++` nor a move to the next: the same timer again
      { s with heap := decRound s.heap tmp }
    else
      { s with
        it := rest
        cbs := s.cbs ++ [(s.heap tmp).callback]
        recurTimer := if (s.heap tmp).recurring then s.recurTimer ++ [tmp] else s.recurTimer
        emitted := s.emitted ++ [tmp] }

/-- `it != mWheel[mCurSlot].end()`. -/
def tickCond (s : TickLoop N κ) : Bool := !s.it.isEmpty

/-- One iteration for each round left on the list and one for each timer of it:
the number of iterations that the loop needs, if it ends. -/
def rounds (heap : TimerPtr → Timer N κ) (l : List TimerPtr) : ℕ :=
  (l.map fun p => (heap p).round.toNat + 1).sum

/-- The `while` loop of `tick` on the slot list `l`. -/
def tickLoop (heap : TimerPtr → Timer N κ) (l : List TimerPtr) (cbs : List κ) :
    Option (TickLoop N κ) :=
  whileLoop tickCond tickBody (rounds heap l + 1) ⟨l, heap, cbs, [], []⟩

/-- One pass of the second loop of `tick`: a recurring timer gets a new round
and goes to the slot for its interval, counted from the current one; `tmp->slot`
is left as it was. -/
def reinsert (m : TimerManager N κ) (tmp : TimerPtr) : Option (TimerManager N κ) :=
  let timing := (m.heap tmp).intervalTime
  (slotAt N (m.slot timing)).map fun slot =>
    { m with
      heap := Function.update m.heap tmp { m.heap tmp with round := m.round timing }
      mWheel := m.emplaceBack slot tmp }

/-- What a call of `tick` leaves: the wheel, the callbacks in `cbs`, and, as a
history variable, the timers that were emitted. -/
structure Tick (N : ℕ) (κ : Type*) where
  mgr : TimerManager N κ
  cbs : List κ
  emitted : List TimerPtr

/-- `mCurSlot = (mCurSlot + 1) % mSlotNum; mLastExpireTime = getCurTimeMS()`. -/
def advance (m : TimerManager N κ) (now : BitVec 64) : TimerManager N κ :=
  { m with
    mCurSlot := ⟨(m.mCurSlot + 1) % N, Nat.mod_lt _ (Nat.zero_lt_of_lt m.mCurSlot.isLt)⟩
    mLastExpireTime := now }

/-- `TimerManager::tick`; `now` and `now'` are its two clock readings. -/
def tick (m : TimerManager N κ) (now now' : BitVec 64) (cbs : List κ) : Option (Tick N κ) :=
  if m.expired now then do
    let s ← tickLoop m.heap (m.mWheel m.mCurSlot) cbs
    -- the cursor still stands on the slot that was emptied
    let m₁ ← s.recurTimer.foldlM reinsert
      { m with heap := s.heap, mWheel := Function.update m.mWheel m.mCurSlot s.it }
    return ⟨m₁.advance now', s.cbs, s.emitted⟩
  else
    some ⟨m, cbs, []⟩

/-- The objects after the loop has counted the timers of `l` down. -/
def drain (heap : TimerPtr → Timer N κ) (l : List TimerPtr) : TimerPtr → Timer N κ :=
  fun p => if p ∈ l then { heap p with round := 0 } else heap p

/-- Where the loop ends when it is in state `s`. -/
def tickEnd (s : TickLoop N κ) : TickLoop N κ where
  it := []
  heap := drain s.heap s.it
  cbs := s.cbs ++ s.it.map fun p => (s.heap p).callback
  recurTimer := s.recurTimer ++ s.it.filter fun p => (s.heap p).recurring
  emitted := s.emitted ++ s.it

@[simp] theorem drain_callback (heap : TimerPtr → Timer N κ) (l : List TimerPtr) (p : TimerPtr) :
    (drain heap l p).callback = (heap p).callback := by
  unfold drain
  split <;> rfl

@[simp] theorem drain_recurring (heap : TimerPtr → Timer N κ) (l : List TimerPtr)
    (p : TimerPtr) : (drain heap l p).recurring = (heap p).recurring := by
  unfold drain
  split <;> rfl

@[simp] theorem drain_slot (heap : TimerPtr → Timer N κ) (l : List TimerPtr) (p : TimerPtr) :
    (drain heap l p).slot = (heap p).slot := by
  unfold drain
  split <;> rfl

@[simp] theorem drain_intervalTime (heap : TimerPtr → Timer N κ) (l : List TimerPtr)
    (p : TimerPtr) : (drain heap l p).intervalTime = (heap p).intervalTime := by
  unfold drain
  split <;> rfl

@[simp] theorem decRound_callback (heap : TimerPtr → Timer N κ) (t p : TimerPtr) :
    (decRound heap t p).callback = (heap p).callback := by
  by_cases h : p = t
  · subst h
    simp [decRound]
  · simp [decRound, h]

@[simp] theorem decRound_recurring (heap : TimerPtr → Timer N κ) (t p : TimerPtr) :
    (decRound heap t p).recurring = (heap p).recurring := by
  by_cases h : p = t
  · subst h
    simp [decRound]
  · simp [decRound, h]

theorem decRound_round (heap : TimerPtr → Timer N κ) (t p : TimerPtr) :
    (decRound heap t p).round = if p = t then (heap t).round - 1 else (heap p).round := by
  by_cases h : p = t
  · subst h
    simp [decRound]
  · simp [decRound, h]

@[simp] theorem drain_nil (heap : TimerPtr → Timer N κ) : drain heap [] = heap := by
  funext p
  simp [drain]

theorem drain_decRound (heap : TimerPtr → Timer N κ) {t : TimerPtr} {l : List TimerPtr}
    (h : t ∈ l) : drain (decRound heap t) l = drain heap l := by
  funext p
  by_cases hp : p = t
  · subst hp
    simp [drain, decRound, h]
  · simp [drain, decRound, hp]

theorem drain_cons (heap : TimerPtr → Timer N κ) {t : TimerPtr} (h : (heap t).round = 0)
    (l : List TimerPtr) : drain heap (t :: l) = drain heap l := by
  funext p
  by_cases hp : p = t
  · subst hp
    by_cases hl : p ∈ l <;> simp [drain, hl, ← h]
  · simp [drain, hp]

/-- The loop heads for the same end from one iteration to the next. -/
theorem tickEnd_tickBody (s : TickLoop N κ) : tickEnd (tickBody s) = tickEnd s := by
  obtain ⟨it, heap, cbs, recurTimer, emitted⟩ := s
  rcases it with _ | ⟨tmp, rest⟩
  · rfl
  -- a timer without rounds is emitted now, any other in a later iteration
  · by_cases hr : (heap tmp).round = 0
    · by_cases hrec : (heap tmp).recurring <;>
        simp [tickBody, tickEnd, hr, hrec, drain_cons]
    · simp [tickBody, tickEnd, hr, drain_decRound]

theorem tickCond_eq_false {s : TickLoop N κ} : tickCond s = false ↔ s.it = [] := by
  simp [tickCond]

/-- If the loop ends, it has emitted every timer of the list, whatever rounds
these had. -/
theorem tickLoop_eq {heap : TimerPtr → Timer N κ} {l : List TimerPtr} {cbs : List κ}
    {s : TickLoop N κ} (h : tickLoop heap l cbs = some s) :
    s = tickEnd ⟨l, heap, cbs, [], []⟩ := by
  obtain ⟨hend, hcond⟩ := whileLoop_invariant
    (I := fun s => tickEnd s = tickEnd ⟨l, heap, cbs, [], []⟩)
    (fun s hs _ => (tickEnd_tickBody s).trans hs) rfl h
  rw [← hend]
  obtain ⟨it, heap', cbs', recurTimer, emitted⟩ := s
  obtain rfl : it = [] := tickCond_eq_false.mp hcond
  simp [tickEnd]

theorem rounds_cons (heap : TimerPtr → Timer N κ) (t : TimerPtr) (l : List TimerPtr) :
    rounds heap (t :: l) = (heap t).round.toNat + 1 + rounds heap l := by
  simp [rounds]

theorem rounds_decRound_le (heap : TimerPtr → Timer N κ) (t : TimerPtr) (l : List TimerPtr) :
    rounds (decRound heap t) l ≤ rounds heap l := by
  refine List.sum_le_sum fun p _ => ?_
  rw [decRound_round]
  split_ifs with h
  · subst h
    omega
  · exact le_rfl

/-- The loop ends when no timer of the list has a negative round. -/
theorem tickLoop_terminates {heap : TimerPtr → Timer N κ} {l : List TimerPtr}
    (hl : ∀ p ∈ l, 0 ≤ (heap p).round) (cbs : List κ) :
    ∃ s, tickLoop heap l cbs = some s := by
  refine whileLoop_terminates (I := fun s => ∀ p ∈ s.it, 0 ≤ (s.heap p).round)
    (v := fun s => rounds s.heap s.it) ?_ hl (Nat.lt_succ_self _)
  rintro ⟨it, heap, cbs, recurTimer, emitted⟩ hs hc
  rcases it with _ | ⟨tmp, rest⟩
  · exact absurd hc (by simp [tickCond])
  -- an emitted timer takes its share off `rounds`, a counted one takes off 1
  · have htmp : 0 ≤ (heap tmp).round := hs tmp List.mem_cons_self
    by_cases hr : (heap tmp).round = 0
    · simp only [tickBody, hr, ne_eq, not_true_eq_false, if_false]
      exact ⟨fun p hp => hs p (List.mem_cons_of_mem _ hp), by rw [rounds_cons]; omega⟩
    · simp only [tickBody, ne_eq, hr, not_false_eq_true, if_true]
      refine ⟨fun p hp => ?_, ?_⟩
      · rw [decRound_round]
        split_ifs with h
        · omega
        · exact hs p hp
      · have := rounds_decRound_le heap tmp rest
        rw [rounds_cons, rounds_cons, decRound_round, if_pos rfl]
        omega

/-- A negative round on the list keeps the loop going for ever. -/
theorem tickLoop_diverges {heap : TimerPtr → Timer N κ} {l : List TimerPtr} {p : TimerPtr}
    (hp : p ∈ l) (hr : (heap p).round < 0) (cbs : List κ) : tickLoop heap l cbs = none := by
  refine whileLoop_diverges (I := fun s => p ∈ s.it ∧ (s.heap p).round < 0) ?_ ⟨hp, hr⟩
  rintro ⟨it, heap, cbs, recurTimer, emitted⟩ ⟨hmem, hneg : (heap p).round < 0⟩
  rcases it with _ | ⟨tmp, rest⟩
  · exact absurd hmem (by simp)
  · refine ⟨rfl, ?_⟩
    by_cases h0 : (heap tmp).round = 0
    -- the head is erased, and it is not `p`
    · have hne : p ≠ tmp := fun h => by subst h; omega
      simp only [tickBody, h0, ne_eq, not_true_eq_false, if_false]
      exact ⟨(List.mem_cons.mp hmem).resolve_left hne, hneg⟩
    · simp only [tickBody, ne_eq, h0, not_false_eq_true, if_true]
      refine ⟨hmem, ?_⟩
      rw [decRound_round]
      split_ifs with h
      · subst h
        omega
      · exact hneg

end TimerManager

end Server
