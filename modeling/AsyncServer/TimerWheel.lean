/-
The timer wheel refines an agenda.

A slot list is visited once a revolution, so a timer in slot `s` waits for as
many ticks as the cursor needs to get there (`TimerManager.wait`).  That makes
every wheel stand for an agenda (`TimerManager.agenda`), and

* `agenda_addTimer` — `addTimer` arms the new timer with `ticks % mSlotNum`
  ticks, as long as `mCurSlot + ticks % mSlotNum` is an `int`: the round it
  computes is not part of the agenda, because `tick` counts all rounds of a slot
  down in the visit it makes to it;
* `agenda_delTimer` — `delTimer` cancels a timer that is in the slot recorded in
  it, and does nothing otherwise;
* `agenda_tick`, `agenda_tick_recurring` — an effective tick is a tick of the
  agenda, after which the recurring timers among the emitted ones are armed
  again.

The invariant behind it is `TimerManager.Wf`: no timer is twice on the wheel.
-/
import AsyncServer.Agenda
import AsyncServer.Timer

namespace Server

namespace TimerManager

variable {N : ℕ} {κ : Type*} {m m' : TimerManager N κ}

/-! ### What each operation does -/

theorem slotAt_eq_some {i : ℤ} {s : Fin N} : slotAt N i = some s ↔ i = (s : ℕ) := by
  unfold slotAt
  split_ifs with h
  · rw [Option.some_inj, Fin.ext_iff]
    have := s.isLt
    simp only
    omega
  · refine ⟨fun h0 => absurd h0 (by simp), fun h0 => absurd ⟨?_, ?_⟩ h⟩
    · omega
    · have := s.isLt
      omega

theorem addTimer_eq_some {timing : ℤ} {cb : κ} {recurr : Bool} {p : TimerPtr}
    (h : m.addTimer timing cb recurr = some (p, m')) :
    p = m.next ∧ ∃ slot, slotAt N (m.slot timing) = some slot ∧
      m' = { m with
        heap := Function.update m.heap p ⟨timing, m.round timing, slot, cb, recurr⟩
        next := m.next + 1
        mWheel := m.emplaceBack slot p } := by
  obtain ⟨slot, hslot, heq⟩ := Option.map_eq_some_iff.mp h
  obtain ⟨rfl, rfl⟩ := Prod.mk.injEq .. ▸ heq
  exact ⟨rfl, slot, hslot, rfl⟩

theorem mem_emplaceBack {s slot : Fin N} {p q : TimerPtr} :
    q ∈ m.emplaceBack slot p s ↔ q ∈ m.mWheel s ∨ (q = p ∧ s = slot) := by
  unfold emplaceBack
  by_cases hs : s = slot
  · subst hs
    simp
  · simp [hs]

theorem mem_delTimer {s : Fin N} {p q : TimerPtr} :
    q ∈ (m.delTimer p).mWheel s ↔ q ∈ m.mWheel s ∧ (q = p → s ≠ (m.heap p).slot) := by
  unfold delTimer
  by_cases hs : s = (m.heap p).slot
  · subst hs
    simp
  · simp [hs]

/-- The slot that a recurring timer goes to when it is re-inserted. -/
def place (m : TimerManager N κ) (p : TimerPtr) : Option (Fin N) :=
  slotAt N (m.slot (m.heap p).intervalTime)

theorem reinsert_eq_some {t : TimerPtr} (h : reinsert m t = some m') :
    ∃ slot, m.place t = some slot ∧
      m' = { m with
        heap := Function.update m.heap t
          { m.heap t with round := m.round (m.heap t).intervalTime }
        mWheel := m.emplaceBack slot t } := by
  obtain ⟨slot, hslot, heq⟩ := Option.map_eq_some_iff.mp h
  exact ⟨slot, hslot, heq.symm⟩

/-- Two managers with the same cursor and the same timers, rounds apart. -/
structure SameTimers (m m' : TimerManager N κ) : Prop where
  mTickTime : m'.mTickTime = m.mTickTime
  mCurSlot : m'.mCurSlot = m.mCurSlot
  next : m'.next = m.next
  intervalTime : ∀ p, (m'.heap p).intervalTime = (m.heap p).intervalTime
  slot : ∀ p, (m'.heap p).slot = (m.heap p).slot
  callback : ∀ p, (m'.heap p).callback = (m.heap p).callback
  recurring : ∀ p, (m'.heap p).recurring = (m.heap p).recurring

theorem SameTimers.refl (m : TimerManager N κ) : SameTimers m m :=
  ⟨rfl, rfl, rfl, fun _ => rfl, fun _ => rfl, fun _ => rfl, fun _ => rfl⟩

theorem SameTimers.trans {m'' : TimerManager N κ} (h : SameTimers m m')
    (h' : SameTimers m' m'') : SameTimers m m'' where
  mTickTime := h'.mTickTime.trans h.mTickTime
  mCurSlot := h'.mCurSlot.trans h.mCurSlot
  next := h'.next.trans h.next
  intervalTime p := (h'.intervalTime p).trans (h.intervalTime p)
  slot p := (h'.slot p).trans (h.slot p)
  callback p := (h'.callback p).trans (h.callback p)
  recurring p := (h'.recurring p).trans (h.recurring p)

/-- The slot depends on the cursor and the tick time only. -/
theorem slot_congr (m m' : TimerManager N κ) (hcur : m'.mCurSlot = m.mCurSlot)
    (htick : m'.mTickTime = m.mTickTime) (timing : ℤ) : m'.slot timing = m.slot timing := by
  rw [slot, slotSum, ticks, hcur, htick]
  rfl

theorem SameTimers.place (h : SameTimers m m') : m'.place = m.place := by
  funext p
  rw [TimerManager.place, slot_congr m m' h.mCurSlot h.mTickTime, h.intervalTime]
  rfl

theorem sameTimers_reinsert {t : TimerPtr} (h : reinsert m t = some m') :
    SameTimers m m' := by
  obtain ⟨slot, _, rfl⟩ := reinsert_eq_some h
  refine ⟨rfl, rfl, rfl, fun p => ?_, fun p => ?_, fun p => ?_, fun p => ?_⟩ <;>
    · by_cases hp : p = t
      · subst hp
        simp
      · simp [hp]

/-- The second loop of `tick` appends every recurring timer to its place. -/
theorem reinsert_fold {l : List TimerPtr} (h : l.foldlM reinsert m = some m') :
    SameTimers m m' ∧ (∀ p ∈ l, ∃ s, m.place p = some s) ∧
      ∀ s, m'.mWheel s = m.mWheel s ++ l.filter fun p => m.place p = some s := by
  induction l generalizing m with
  | nil =>
    obtain rfl : m = m' := by simpa using h
    exact ⟨.refl m, by simp, by simp⟩
  | cons t l ih =>
    rw [List.foldlM_cons, Option.bind_eq_bind, Option.bind_eq_some_iff] at h
    obtain ⟨m₁, h₁, hl⟩ := h
    have hsame := sameTimers_reinsert h₁
    obtain ⟨slot, hslot, rfl⟩ := reinsert_eq_some h₁
    obtain ⟨hsame', hplace, hwheel⟩ := ih hl
    rw [hsame.place] at hplace hwheel
    refine ⟨hsame.trans hsame', ?_, fun s => ?_⟩
    · rintro p (_ | ⟨_, hp⟩)
      · exact ⟨slot, hslot⟩
      · exact hplace p hp
    -- the timer at the head is behind what was in its slot, and before those of the tail
    · rw [hwheel s]
      by_cases hs : s = slot
      · subst hs
        simp [emplaceBack, hslot]
      · have hne : ¬ slot = s := fun h => hs h.symm
        simp [emplaceBack, hs, hslot, hne]

/-- The manager between the two loops of `tick`: the current slot is empty and
its timers are counted down. -/
def emptied (m : TimerManager N κ) : TimerManager N κ :=
  { m with
    heap := drain m.heap (m.mWheel m.mCurSlot)
    mWheel := Function.update m.mWheel m.mCurSlot [] }

theorem place_emptied (m : TimerManager N κ) : m.emptied.place = m.place := by
  funext p
  rw [place, slot_congr m m.emptied rfl rfl, emptied, drain_intervalTime]
  rfl

/-- **What `tick` does.**  A call before its time changes nothing; an effective
one empties the current slot, re-inserts the recurring timers of it, and
advances the cursor. -/
theorem tick_cases {now now' : BitVec 64} {cbs : List κ} {r : Tick N κ}
    (h : m.tick now now' cbs = some r) :
    (m.expired now = false ∧ r = ⟨m, cbs, []⟩) ∨
    (m.expired now = true ∧
      ∃ m₁, ((m.mWheel m.mCurSlot).filter fun p => (m.heap p).recurring).foldlM reinsert
          m.emptied = some m₁ ∧
        r = ⟨m₁.advance now', cbs ++ (m.mWheel m.mCurSlot).map fun p => (m.heap p).callback,
          m.mWheel m.mCurSlot⟩) := by
  unfold tick at h
  cases he : m.expired now with
  | false =>
    rw [he, if_neg (by simp), Option.some_inj] at h
    exact .inl ⟨rfl, h.symm⟩
  | true =>
    rw [he, if_pos rfl] at h
    simp only [Option.bind_eq_bind, Option.pure_def, Option.bind_eq_some_iff,
      Option.some_inj] at h
    obtain ⟨s, hs, m₁, h₁, rfl⟩ := h
    obtain rfl := tickLoop_eq hs
    exact .inr ⟨rfl, m₁, h₁, by simp [tickEnd]⟩

theorem tick_effective {now now' : BitVec 64} {cbs : List κ} {r : Tick N κ}
    (h : m.tick now now' cbs = some r) (he : m.expired now = true) :
    ∃ m₁, ((m.mWheel m.mCurSlot).filter fun p => (m.heap p).recurring).foldlM reinsert
        m.emptied = some m₁ ∧
      r = ⟨m₁.advance now', cbs ++ (m.mWheel m.mCurSlot).map fun p => (m.heap p).callback,
        m.mWheel m.mCurSlot⟩ := by
  obtain ⟨hf, _⟩ | ⟨_, hr⟩ := tick_cases h
  · exact absurd he (by simp [hf])
  · exact hr

/-! ### No timer is twice on the wheel -/

/-- Every timer on the wheel has been handed out, and stands in one place. -/
structure Wf (m : TimerManager N κ) : Prop where
  nodup : ∀ s, (m.mWheel s).Nodup
  unique : ∀ {s s' p}, p ∈ m.mWheel s → p ∈ m.mWheel s' → s = s'
  fresh : ∀ {s p}, p ∈ m.mWheel s → p < m.next

theorem wf_create [Inhabited κ] (hN : 0 < N) (ticktime : ℕ) (hpos : 0 < ticktime)
    (hint : ticktime < 2 ^ 31) (now : BitVec 64) :
    (create (κ := κ) hN ticktime hpos hint now).Wf where
  nodup _ := List.nodup_nil
  unique h := absurd h List.not_mem_nil
  fresh h := absurd h List.not_mem_nil

theorem wf_newTimer (hm : m.Wf) (timing : ℤ) (cb : κ) (recurr : Bool) (slot : Fin N) :
    (m.newTimer timing cb recurr slot).Wf where
  nodup := hm.nodup
  unique := hm.unique
  fresh h := Nat.lt_succ_of_lt (hm.fresh h)

/-- A timer that is on no list may be put on one. -/
theorem wf_insertTimer (hm : m.Wf) {p : TimerPtr} (hp : p < m.next) (hoff : ∀ s, p ∉ m.mWheel s)
    (slot : Fin N) : (m.insertTimer p slot).Wf := by
  refine ⟨fun s => ?_, fun {s s' q} hs hs' => ?_, fun {s q} hs => ?_⟩
  · by_cases hs : s = slot
    · subst hs
      simp only [insertTimer, emplaceBack, Function.update_self]
      exact List.nodup_append.mpr ⟨hm.nodup s, List.nodup_singleton _,
        fun a ha b hb => by rw [List.mem_singleton.mp hb]; exact fun h => hoff s (h ▸ ha)⟩
    · simp only [insertTimer, emplaceBack, ne_eq, hs, not_false_eq_true, Function.update_of_ne]
      exact hm.nodup s
  · rcases mem_emplaceBack.mp hs with hs | ⟨hq, hs⟩ <;>
      rcases mem_emplaceBack.mp hs' with hs' | ⟨hq', hs'⟩
    · exact hm.unique hs hs'
    · exact absurd (hq' ▸ hs) (hoff s)
    · exact absurd (hq ▸ hs') (hoff s')
    · exact hs.trans hs'.symm
  · rcases mem_emplaceBack.mp hs with hs | ⟨rfl, rfl⟩
    · exact hm.fresh hs
    · exact hp

theorem wf_addTimer (hm : m.Wf) {timing : ℤ} {cb : κ} {recurr : Bool} {p : TimerPtr}
    (h : m.addTimer timing cb recurr = some (p, m')) : m'.Wf := by
  obtain ⟨rfl, slot, _, rfl⟩ := addTimer_eq_some h
  -- the pointer that is handed out is on no list
  exact wf_insertTimer (wf_newTimer hm timing cb recurr slot) (Nat.lt_succ_self _)
    (fun s hs => lt_irrefl _ (hm.fresh hs)) slot

theorem wf_delTimer (hm : m.Wf) (p : TimerPtr) : (m.delTimer p).Wf where
  nodup s := by
    unfold delTimer
    by_cases hs : s = (m.heap p).slot
    · subst hs
      simpa using (hm.nodup _).filter _
    · simpa [hs] using hm.nodup s
  unique h h' := hm.unique (mem_delTimer.mp h).1 (mem_delTimer.mp h').1
  fresh h := hm.fresh (mem_delTimer.mp h).1

theorem wf_emptied (hm : m.Wf) : m.emptied.Wf := by
  have hmem : ∀ {s p}, p ∈ m.emptied.mWheel s → p ∈ m.mWheel s := by
    intro s p h
    by_cases hs : s = m.mCurSlot <;> simp_all [emptied]
  refine ⟨fun s => ?_, fun h h' => hm.unique (hmem h) (hmem h'), fun h => hm.fresh (hmem h)⟩
  by_cases hs : s = m.mCurSlot
  · simp [emptied, hs]
  · simpa [emptied, hs] using hm.nodup s

/-- After an effective tick a timer is where it was, unless it was emitted;
then it is at its place if it is recurring, and nowhere if it is not. -/
theorem mem_tick (hm : m.Wf) {m₁ : TimerManager N κ}
    (h : ((m.mWheel m.mCurSlot).filter fun p => (m.heap p).recurring).foldlM reinsert
      m.emptied = some m₁) (s : Fin N) (p : TimerPtr) :
    p ∈ m₁.mWheel s ↔ (p ∈ m.mWheel s ∧ p ∉ m.mWheel m.mCurSlot) ∨
      (p ∈ m.mWheel m.mCurSlot ∧ (m.heap p).recurring = true ∧ m.place p = some s) := by
  obtain ⟨_, _, hwheel⟩ := reinsert_fold h
  rw [hwheel s, List.mem_append, List.mem_filter, List.mem_filter, place_emptied]
  refine or_congr ?_ (by simp [and_assoc])
  -- the slot at the cursor is empty before the re-insertion, and the others are untouched
  by_cases hs : s = m.mCurSlot
  · subst hs
    simp [emptied]
  · simp only [emptied, ne_eq, hs, not_false_eq_true, Function.update_of_ne]
    exact ⟨fun hp => ⟨hp, fun hc => hs (hm.unique hp hc)⟩, fun hp => hp.1⟩

theorem wf_tick (hm : m.Wf) {now now' : BitVec 64} {cbs : List κ} {r : Tick N κ}
    (h : m.tick now now' cbs = some r) : r.mgr.Wf := by
  obtain ⟨_, rfl⟩ | ⟨_, m₁, h₁, rfl⟩ := tick_cases h
  · exact hm
  · obtain ⟨hsame, _, hwheel⟩ := reinsert_fold h₁
    refine ⟨fun s => ?_, fun {s s' p} hs hs' => ?_, fun {s p} hs => ?_⟩
    · show (m₁.mWheel s).Nodup
      rw [hwheel s]
      refine List.nodup_append.mpr
        ⟨(wf_emptied hm).nodup s, ((hm.nodup _).filter _).filter _, fun a ha b hb hab => ?_⟩
      subst hab
      have hcur := List.mem_of_mem_filter (List.mem_of_mem_filter hb)
      -- a re-inserted timer stood at the cursor, so it is on no other list
      by_cases hs : s = m.mCurSlot
      · simp [emptied, hs] at ha
      · simp only [emptied, ne_eq, hs, not_false_eq_true, Function.update_of_ne] at ha
        exact hs (hm.unique ha hcur)
    · rcases (mem_tick hm h₁ s p).mp hs with ⟨hp, hc⟩ | ⟨hc, _, hp⟩ <;>
        rcases (mem_tick hm h₁ s' p).mp hs' with ⟨hp', hc'⟩ | ⟨hc', _, hp'⟩
      · exact hm.unique hp hp'
      · exact absurd hc' hc
      · exact absurd hc hc'
      · exact Option.some_inj.mp (hp.symm.trans hp')
    · show p < m₁.next
      rw [hsame.next]
      rcases (mem_tick hm h₁ s p).mp hs with ⟨hp, _⟩ | ⟨hp, _⟩ <;> exact hm.fresh hp

/-! ### How long a slot waits -/

/-- The slots from `c` forward to `s` on a wheel of `N`. -/
def slotsAhead (N c s : ℕ) : ℕ := if c ≤ s then s - c else s + N - c

theorem slotsAhead_succ {N c s : ℕ} (hc : c < N) (hs : s < N) :
    slotsAhead N ((c + 1) % N) s =
      if slotsAhead N c s = 0 then N - 1 else slotsAhead N c s - 1 := by
  unfold slotsAhead
  -- the cursor wraps around, or goes on by one
  by_cases hN : c + 1 = N
  · rw [hN, Nat.mod_self]
    split_ifs <;> omega
  · rw [Nat.mod_eq_of_lt (show c + 1 < N by omega)]
    split_ifs <;> omega

theorem slotsAhead_add_mod {N c k : ℕ} (hc : c < N) :
    slotsAhead N c ((c + k % N) % N) = k % N := by
  have hk : k % N < N := Nat.mod_lt _ (by omega)
  unfold slotsAhead
  by_cases hlt : c + k % N < N
  · rw [Nat.mod_eq_of_lt hlt]
    split_ifs <;> omega
  · rw [Nat.mod_eq_sub_mod (by omega), Nat.mod_eq_of_lt (by omega)]
    split_ifs <;> omega

/-- The number of ticks before the one in which the cursor visits slot `s`. -/
def wait (m : TimerManager N κ) (s : Fin N) : ℕ := slotsAhead N m.mCurSlot s

theorem wait_eq_zero {s : Fin N} : m.wait s = 0 ↔ s = m.mCurSlot := by
  have := s.isLt
  have := m.mCurSlot.isLt
  rw [wait, slotsAhead, Fin.ext_iff]
  split_ifs <;> omega

theorem wait_lt (s : Fin N) : m.wait s < N := by
  have := s.isLt
  have := m.mCurSlot.isLt
  rw [wait, slotsAhead]
  split_ifs <;> omega

theorem wait_advance {s : Fin N} {now : BitVec 64} :
    (m.advance now).wait s = if m.wait s = 0 then N - 1 else m.wait s - 1 :=
  slotsAhead_succ m.mCurSlot.isLt s.isLt

theorem wait_congr (h : m'.mCurSlot = m.mCurSlot) : m'.wait = m.wait := by
  funext s
  simp [wait, h]

/-! ### The slot of a delay -/

/-- The sum for a delay of at least no ticks. -/
theorem slotSum_of_ticks {timing : ℤ} (m : TimerManager N κ) (hk : 0 ≤ m.ticks timing) :
    m.slotSum timing = (m.mCurSlot + (m.ticks timing).toNat % N : ℕ) := by
  rw [slotSum]
  conv_lhs => rw [← Int.toNat_of_nonneg hk]
  rw [← Int.ofNat_tmod, ← Nat.cast_add]

theorem ticks_of_nonneg {timing : ℤ} (m : TimerManager N κ) (h0 : 0 ≤ timing) :
    m.ticks timing = timing / m.mTickTime := Int.tdiv_eq_ediv_of_nonneg h0

theorem ticks_nonneg {timing : ℤ} (m : TimerManager N κ) (h0 : 0 ≤ timing) :
    0 ≤ m.ticks timing :=
  Int.tdiv_nonneg h0 (Int.natCast_nonneg _)

/-- The sum for a delay `timing >= 0`. -/
theorem slotSum_eq {timing : ℤ} (m : TimerManager N κ) (h0 : 0 ≤ timing) :
    m.slotSum timing = (m.mCurSlot + (timing / m.mTickTime).toNat % N : ℕ) := by
  rw [slotSum_of_ticks m (ticks_nonneg m h0), ticks_of_nonneg m h0]

/-- On a wheel of up to 2^30 slots the sum is an `int`, whatever the delay. -/
theorem slotSum_lt (m : TimerManager N κ) (hN : N ≤ 2 ^ 30) (timing : ℤ) :
    m.slotSum timing < 2 ^ 31 := by
  have hcur := m.mCurSlot.isLt
  have hlt := Int.tmod_lt_of_pos (m.ticks timing) (show (0 : ℤ) < N by omega)
  rw [slotSum]
  omega

/-- The slot of a delay of at least no ticks, if the sum is an `int`. -/
theorem slot_of_ticks {timing : ℤ} (m : TimerManager N κ) (hk : 0 ≤ m.ticks timing)
    (hsum : m.slotSum timing < 2 ^ 31) :
    m.slot timing = ((m.mCurSlot + (m.ticks timing).toNat % N) % N : ℕ) := by
  rw [slotSum_of_ticks m hk] at hsum
  rw [slot_bmod, slotSum_of_ticks m hk, Int.bmod_eq_of_le (by omega) (by omega), ← Int.ofNat_tmod]

/-- The slot of a delay `timing >= 0`, if the sum is an `int`. -/
theorem slot_eq {timing : ℤ} (m : TimerManager N κ) (h0 : 0 ≤ timing)
    (hsum : m.slotSum timing < 2 ^ 31) :
    m.slot timing = ((m.mCurSlot + (timing / m.mTickTime).toNat % N) % N : ℕ) := by
  rw [slot_of_ticks m (ticks_nonneg m h0) hsum, ticks_of_nonneg m h0]

/-- Such a delay takes a timer `ticks % mSlotNum` slots ahead. -/
theorem wait_slot {timing : ℤ} (h0 : 0 ≤ timing) (hsum : m.slotSum timing < 2 ^ 31) {s : Fin N}
    (h : slotAt N (m.slot timing) = some s) :
    m.wait s = (timing / m.mTickTime).toNat % N := by
  rw [slotAt_eq_some, slot_eq m h0 hsum, Nat.cast_inj] at h
  rw [wait, ← h]
  exact slotsAhead_add_mod m.mCurSlot.isLt

/-- Such a delay has a slot. -/
theorem exists_slotAt (m : TimerManager N κ) {timing : ℤ} (h0 : 0 ≤ timing)
    (hsum : m.slotSum timing < 2 ^ 31) : ∃ s, slotAt N (m.slot timing) = some s :=
  ⟨⟨_, Nat.mod_lt _ (Nat.zero_lt_of_lt m.mCurSlot.isLt)⟩,
    slotAt_eq_some.mpr (slot_eq m h0 hsum)⟩

/-- What a sum of two `int`s above their range wraps around to. -/
theorem bmod_wrapped {y : ℕ} (hlow : 2 ^ 31 ≤ y) (hhigh : y < 2 ^ 32) :
    (y : ℤ).bmod (2 ^ 32) = -((2 ^ 32 - y : ℕ) : ℤ) := by
  rw [← Int.sub_bmod_right, Int.bmod_eq_of_le] <;> omega

/-- A sum that is not an `int` leaves the wheel, or goes to the first slot. -/
theorem slot_wraps {timing : ℤ} (hN : N < 2 ^ 31) (h0 : 0 ≤ timing)
    (hsum : 2 ^ 31 ≤ m.slotSum timing) {s : Fin N} (h : slotAt N (m.slot timing) = some s) :
    (s : ℕ) = 0 := by
  have hcur := m.mCurSlot.isLt
  have hmod := Nat.mod_lt (timing / m.mTickTime).toNat (show 0 < N by omega)
  rw [slotAt_eq_some, slot_bmod] at h
  rw [slotSum_eq m h0] at h hsum
  set x := (m.mCurSlot + (timing / m.mTickTime).toNat % N : ℕ)
  -- the wrapped sum is negative, and so is the remainder unless it is zero
  rw [bmod_wrapped (by omega) (by omega), Int.neg_tmod] at h
  have := Int.tmod_nonneg (N : ℤ) (Int.natCast_nonneg (2 ^ 32 - x))
  omega

/-! ### The agenda of a wheel -/

/-- The agenda that a wheel stands for. -/
def agenda (m : TimerManager N κ) : Agenda TimerPtr :=
  fun p => ((List.finRange N).find? fun s => p ∈ m.mWheel s).map m.wait

theorem agenda_eq_none {p : TimerPtr} : m.agenda p = none ↔ ∀ s, p ∉ m.mWheel s := by
  simp [agenda]

theorem agenda_eq_some (hm : m.Wf) {p : TimerPtr} {n : ℕ} :
    m.agenda p = some n ↔ ∃ s, p ∈ m.mWheel s ∧ m.wait s = n := by
  rw [agenda, Option.map_eq_some_iff]
  constructor
  · rintro ⟨s, hs, hn⟩
    exact ⟨s, by simpa using List.find?_some hs, hn⟩
  · rintro ⟨s, hs, hn⟩
    refine ⟨s, ?_, hn⟩
    cases hf : (List.finRange N).find? fun s => p ∈ m.mWheel s with
    | none => exact absurd hs (by simpa using List.find?_eq_none.mp hf s (List.mem_finRange s))
    | some s' =>
      rw [hm.unique hs (by simpa using List.find?_some hf)]

/-- The wait of a timer is that of the slot it stands in. -/
theorem agenda_of_mem (hm : m.Wf) {p : TimerPtr} {s : Fin N} (h : p ∈ m.mWheel s) :
    m.agenda p = some (m.wait s) :=
  (agenda_eq_some hm).mpr ⟨s, h, rfl⟩

/-- The due timers are those of the current slot. -/
theorem agenda_due (hm : m.Wf) {p : TimerPtr} :
    m.agenda p = some 0 ↔ p ∈ m.mWheel m.mCurSlot := by
  rw [agenda_eq_some hm]
  exact ⟨fun ⟨s, hs, h0⟩ => wait_eq_zero.mp h0 ▸ hs, fun h => ⟨_, h, wait_eq_zero.mpr rfl⟩⟩

/-- The list of the current slot has each timer that is due, once. -/
theorem count_due (hm : m.Wf) (p : TimerPtr) :
    (m.mWheel m.mCurSlot).count p = if m.agenda p = some 0 then 1 else 0 := by
  rw [(hm.nodup _).count]
  simp only [agenda_due hm]

theorem agenda_congr (hcur : m'.mCurSlot = m.mCurSlot) {p : TimerPtr}
    (hmem : ∀ s, p ∈ m'.mWheel s ↔ p ∈ m.mWheel s) : m'.agenda p = m.agenda p := by
  simp [agenda, hmem, wait_congr hcur]

/-- Making a timer changes no list. -/
theorem agenda_newTimer (timing : ℤ) (cb : κ) (recurr : Bool) (slot : Fin N) :
    (m.newTimer timing cb recurr slot).agenda = m.agenda := rfl

theorem agenda_insertTimer_of_ne {p q : TimerPtr} (hq : q ≠ p) (slot : Fin N) :
    (m.insertTimer p slot).agenda q = m.agenda q := by
  refine agenda_congr ?_ fun s => ?_
  · rfl
  · exact mem_emplaceBack.trans ⟨fun h => h.resolve_right fun h => hq h.1, .inl⟩

/-- The insertion arms the timer with the ticks that the cursor needs to its slot. -/
theorem agenda_insertTimer (hm : m.Wf) {p : TimerPtr} (hp : p < m.next)
    (hoff : ∀ s, p ∉ m.mWheel s) (slot : Fin N) :
    (m.insertTimer p slot).agenda = m.agenda.arm p (m.wait slot) := by
  funext q
  by_cases hq : q = p
  · rw [hq, Agenda.arm_self]
    exact agenda_of_mem (wf_insertTimer hm hp hoff slot) (mem_emplaceBack.mpr (.inr ⟨rfl, rfl⟩))
  · rw [Agenda.arm_of_ne _ hq]
    exact agenda_insertTimer_of_ne hq slot

/-- `addTimer` leaves all other timers as they were, whatever the delay. -/
theorem agenda_addTimer_of_ne {timing : ℤ} {cb : κ} {recurr : Bool} {p q : TimerPtr}
    (h : m.addTimer timing cb recurr = some (p, m')) (hq : q ≠ p) :
    m'.agenda q = m.agenda q := by
  obtain ⟨rfl, slot, _, rfl⟩ := addTimer_eq_some h
  exact agenda_insertTimer_of_ne (m := m.newTimer timing cb recurr slot) hq slot

/-- `addTimer` arms the new timer with the ticks up to the slot it has computed. -/
theorem agenda_addTimer_slot (hm : m.Wf) {timing : ℤ} {cb : κ} {recurr : Bool} {p : TimerPtr}
    (h : m.addTimer timing cb recurr = some (p, m')) :
    ∃ slot, slotAt N (m.slot timing) = some slot ∧ m'.agenda = m.agenda.arm p (m.wait slot) := by
  obtain ⟨rfl, slot, hslot, rfl⟩ := addTimer_eq_some h
  exact ⟨slot, hslot, agenda_insertTimer (wf_newTimer hm timing cb recurr slot)
    (Nat.lt_succ_self _) (fun s hs => lt_irrefl _ (hm.fresh hs)) slot⟩

/-- **`addTimer` arms the new timer** with the number of ticks left of its
delay within one revolution. -/
theorem agenda_addTimer (hm : m.Wf) {timing : ℤ} (h0 : 0 ≤ timing)
    (hsum : m.slotSum timing < 2 ^ 31) {cb : κ} {recurr : Bool} {p : TimerPtr}
    (h : m.addTimer timing cb recurr = some (p, m')) :
    m'.agenda = m.agenda.arm p ((timing / m.mTickTime).toNat % N) := by
  obtain ⟨slot, hslot, harm⟩ := agenda_addTimer_slot hm h
  rw [harm, wait_slot h0 hsum hslot]

/-- `delTimer` leaves all other timers as they were. -/
theorem agenda_delTimer_of_ne {p q : TimerPtr} (hq : q ≠ p) :
    (m.delTimer p).agenda q = m.agenda q := by
  refine agenda_congr ?_ fun s => ?_
  · rfl
  · rw [mem_delTimer]
    exact ⟨And.left, fun hs => ⟨hs, fun h => absurd h hq⟩⟩

/-- **`delTimer` cancels** a timer that is in the slot recorded in it. -/
theorem agenda_delTimer (hm : m.Wf) (p : TimerPtr) :
    (m.delTimer p).agenda =
      if p ∈ m.mWheel (m.heap p).slot then m.agenda.cancel p else m.agenda := by
  funext q
  by_cases hq : q = p
  · subst hq
    split_ifs with h
    · rw [Agenda.cancel_self, agenda_eq_none]
      intro s hs
      obtain ⟨hs, hne⟩ := mem_delTimer.mp hs
      exact hne rfl (hm.unique hs h)
    · refine agenda_congr ?_ fun s => ?_
      · rfl
      · rw [mem_delTimer]
        exact ⟨And.left, fun hs => ⟨hs, fun _ he => h (he ▸ hs)⟩⟩
  · rw [agenda_delTimer_of_ne hq]
    split_ifs
    · rw [Agenda.cancel_of_ne _ hq]
    · rfl

/-- **An effective tick is a tick of the agenda** for every timer that it does
not re-insert. -/
theorem agenda_tick (hm : m.Wf) {now now' : BitVec 64} {cbs : List κ} {r : Tick N κ}
    (h : m.tick now now' cbs = some r) (he : m.expired now = true) {p : TimerPtr}
    (hp : p ∈ m.mWheel m.mCurSlot → (m.heap p).recurring = false) :
    r.mgr.agenda p = m.agenda.tick p := by
  have hr := wf_tick hm h
  obtain ⟨m₁, h₁, rfl⟩ := tick_effective h he
  have hwait : ∀ s, (m₁.advance now').wait s = if m.wait s = 0 then N - 1 else m.wait s - 1 := by
    intro s
    rw [wait_advance, wait_congr (reinsert_fold h₁).1.mCurSlot]
    rfl
  rw [Agenda.tick]
  -- by what the agenda has for `p`: nothing, due now, due later
  rcases hn : m.agenda p with _ | _ | n
  · rw [Agenda.countdown, agenda_eq_none]
    intro s hs
    rw [agenda_eq_none] at hn
    rcases (mem_tick hm h₁ s p).mp hs with ⟨hs, _⟩ | ⟨hs, _⟩ <;> exact hn _ hs
  · have hcur := (agenda_due hm).mp hn
    rw [Agenda.countdown, agenda_eq_none]
    intro s hs
    rcases (mem_tick hm h₁ s p).mp hs with ⟨_, hc⟩ | ⟨_, hrec, _⟩
    · exact hc hcur
    · exact absurd hrec (by simp [hp hcur])
  · obtain ⟨s, hs, hws⟩ := (agenda_eq_some hm).mp hn
    have hcur : p ∉ m.mWheel m.mCurSlot := by
      intro hc
      rw [hm.unique hs hc, wait_eq_zero.mpr rfl] at hws
      omega
    rw [Agenda.countdown, agenda_eq_some hr]
    refine ⟨s, (mem_tick hm h₁ s p).mpr (.inl ⟨hs, hcur⟩), ?_⟩
    rw [hwait s, hws, if_neg (by omega)]
    rfl

/-- A recurring timer that an effective tick emits is armed again from the
cursor before it advances, so that it waits for one tick less than a timer that
is added after the tick. -/
theorem agenda_tick_recurring (hm : m.Wf) {now now' : BitVec 64} {cbs : List κ} {r : Tick N κ}
    (h : m.tick now now' cbs = some r) (he : m.expired now = true) {p : TimerPtr}
    (hp : p ∈ m.mWheel m.mCurSlot) (hrec : (m.heap p).recurring = true)
    (h0 : 0 ≤ (m.heap p).intervalTime) (hsum : m.slotSum (m.heap p).intervalTime < 2 ^ 31) :
    r.mgr.agenda p = some
      (if ((m.heap p).intervalTime / m.mTickTime).toNat % N = 0 then N - 1
        else ((m.heap p).intervalTime / m.mTickTime).toNat % N - 1) := by
  have hr := wf_tick hm h
  obtain ⟨m₁, h₁, rfl⟩ := tick_effective h he
  obtain ⟨s, hs⟩ := exists_slotAt m h0 hsum
  have hmem := (mem_tick hm h₁ s p).mpr (.inr ⟨hp, hrec, hs⟩)
  rw [agenda_of_mem hr (s := s) hmem, wait_advance, wait_congr (reinsert_fold h₁).1.mCurSlot]
  rw [← wait_slot h0 hsum hs]
  rfl

end TimerManager

end Server
