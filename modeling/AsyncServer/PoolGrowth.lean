/-
The event pool as a vector of pointers.

`IOManager` keeps pointers to `Event`s in `mEvents`; a waiter that is suspended has its
fiber or callback in one of these objects and nowhere else.  Here the objects are at
addresses of their own, in the order in which they are made, an element of the vector is
null or an address, and the factors 0.8 and 1.5 are rationals.

* `ctxResize_spec` — a resize to no smaller a size keeps all pointers and objects, and
  fills the new elements;
* `pool_grows` — every sequence of `addEvent` calls from the constructor is defined, and in
  every one of them the pool `GrowsFor` its descriptor;
* `addEvent_represents` — forgetting the addresses gives the pool of `IOManager`.
-/
import AsyncServer.EventPool
import AsyncServer.Transition

namespace Server

open Epoll Transition

/-- The address of an `Event`: the number of those made before it. -/
abbrev EventPtr := ℕ

/-- What `addEvent` works on: the vector with its count, the `Event`s that have been made,
and the interest set. -/
structure EventVector (φ κ : Type*) where
  mEvents : List (Option EventPtr)
  mEventCnt : ℕ
  objects : List (Event φ κ)
  epoll : InterestSet

/-- A call of `addEvent` by the fiber `cur`, with an `epoll_ctl` that may fail. -/
structure AddCall (φ κ : Type*) where
  fd : ℤ
  event : Dir
  cb : Option κ
  flag : Mask
  cur : φ
  fault : Bool

namespace IOManager

variable {N : ℕ} {φ κ : Type*} {s : IOManager N φ κ} {fd : ℤ} {d : Dir} {cb : Option κ}
  {flag : Mask} {cur : φ} {fault : Bool} {task : Event φ κ}

/-- `addEvent` returns behind the growth step, as the direction is there or the `epoll_ctl`
fails. -/
theorem addEvent_of_fault (htask : (s.grow fd).eventPtr fd = some task)
    (h : task.event &&& d.mask ≠ 0 ∨
      ctl (s.grow fd).epoll task.addOp fd (flag ||| d.mask ||| task.event) fault = none) :
    s.addEvent fd d cb flag cur fault = some (s.grow fd) := by
  rw [addEvent, addEventCtl, htask, Option.map_some, Option.bind_some]
  by_cases hbit : task.event &&& d.mask = 0
  · rw [if_neg (not_not.mpr hbit), h.resolve_left (not_not.mpr hbit)]
    exact if_neg Bool.false_ne_true
  · rw [if_pos hbit]
    exact if_neg Bool.false_ne_true

/-- It registers. -/
theorem addEvent_of_ctl (htask : (s.grow fd).eventPtr fd = some task)
    (hbit : task.event &&& d.mask = 0) {epoll : InterestSet}
    (h : ctl (s.grow fd).epoll task.addOp fd (flag ||| d.mask ||| task.event) fault =
      some epoll) :
    s.addEvent fd d cb flag cur fault =
      some { (s.grow fd).assign fd (task.register d cb cur) with epoll := epoll } := by
  have htask' : eventPtr { s.grow fd with epoll := epoll } fd = some task := htask
  rw [addEvent, addEventCtl, htask, Option.map_some, Option.bind_some,
    if_neg (not_not.mpr hbit), h]
  dsimp only
  rw [if_pos rfl, addEventUpdate, htask']
  rfl

end IOManager

namespace EventVector

variable {φ κ : Type*} {v v' : EventVector φ κ} {fd : ℤ}

/-- The body of the loop of `ctxResize`. -/
def makeEvent (v : EventVector φ κ) (i : ℕ) : EventVector φ κ :=
  if v.mEvents[i]? = some none then
    { v with
      mEvents := v.mEvents.set i (some v.objects.length)
      objects := v.objects ++ [.new i] }
  else v

/-- `mEvents.resize(size)`: new elements are null. -/
def resize (v : EventVector φ κ) (size : ℕ) : EventVector φ κ :=
  { v with mEvents := v.mEvents.take size ++ List.replicate (size - v.mEvents.length) none }

/-- `IOManager::ctxResize`. -/
def ctxResize (v : EventVector φ κ) (size : ℕ) : EventVector φ κ :=
  let v := (List.range (v.resize size).mEvents.length).foldl makeEvent (v.resize size)
  { v with mEventCnt := v.mEvents.length }

/-- The constructor. -/
def create (mEventfd : ℤ) : EventVector φ κ :=
  ctxResize ⟨[], 0, [], Function.update (fun _ => none) mEventfd (some (IN ||| ET))⟩ 128

/-- `(int)x`, towards zero; where the result is not an `int` it is undefined. -/
def toInt (x : ℚ) : Option ℤ :=
  if -2 ^ 31 ≤ x.num.tdiv x.den ∧ x.num.tdiv x.den < 2 ^ 31 then some (x.num.tdiv x.den) else none

/-- The growth step of `addEvent`. -/
def grow (v : EventVector φ κ) (fd : ℤ) : Option (EventVector φ κ) :=
  if (v.mEventCnt : ℚ) * 0.8 ≤ fd then (toInt (fd * 1.5)).map fun size => v.ctxResize size.toNat
  else some v

/-- The pointer `mEvents[fd]` that is read behind it. -/
def eventPtr (v : EventVector φ κ) (fd : ℤ) : Option EventPtr :=
  if 0 ≤ fd then v.mEvents[fd.toNat]?.join else none

/-- The `Event` there. -/
def eventOf (v : EventVector φ κ) (fd : ℤ) : Option (Event φ κ) :=
  (v.eventPtr fd).bind fun p => v.objects[p]?

/-- `addEvent` behind the growth step. -/
def addTo (v : EventVector φ κ) (c : AddCall φ κ) (p : EventPtr) (task : Event φ κ) :
    EventVector φ κ :=
  if task.event &&& c.event.mask ≠ 0 then v
  else
    match ctl v.epoll task.addOp c.fd (c.flag ||| c.event.mask ||| task.event) c.fault with
    | none => v
    | some epoll =>
      { v with epoll := epoll, objects := v.objects.set p (task.register c.event c.cb c.cur) }

/-- `IOManager::addEvent`. -/
def addEvent (v : EventVector φ κ) (c : AddCall φ κ) : Option (EventVector φ κ) :=
  (v.grow c.fd).bind fun v =>
    (v.eventPtr c.fd).bind fun p => (v.objects[p]?).map fun task => v.addTo c p task

/-! ### What is to hold -/

/-- Every element points to the `Event` with its index. -/
def Filled (v : EventVector φ κ) : Prop :=
  ∀ i < v.mEvents.length, ∃ p task,
    v.mEvents[i]? = some (some p) ∧ v.objects[p]? = some task ∧ task.fd = i

/-- Every `Event` of `v` is at its index and as it was. -/
def Keeps (v v' : EventVector φ κ) : Prop :=
  ∀ (i : ℕ) (p : EventPtr), v.mEvents[i]? = some (some p) →
    v'.mEvents[i]? = some (some p) ∧ v'.objects[p]? = v.objects[p]?

/-- The growth step of a call is defined, and behind it the vector covers the descriptor
and has lost nothing; the rest of the call does not write the vector, and no `Event` but
that of the descriptor. -/
def GrowsFor (v : EventVector φ κ) (c : AddCall φ κ) : Prop :=
  ∃ v', v.grow c.fd = some v' ∧ c.fd < v'.mEvents.length ∧ v'.mEventCnt = v'.mEvents.length ∧
    v.mEvents.length ≤ v'.mEvents.length ∧ v'.Filled ∧ v.Keeps v' ∧
    ∀ w, v.addEvent c = some w → w.mEvents = v'.mEvents ∧ w.mEventCnt = v'.mEventCnt ∧
      ∀ p, v'.eventPtr c.fd ≠ some p → w.objects[p]? = v'.objects[p]?

/-! ### The resize -/

/-- What the loop of `ctxResize` has done to `v` before its index is `n`. -/
structure MadeTo (v v' : EventVector φ κ) (n : ℕ) : Prop where
  length : v'.mEvents.length = v.mEvents.length
  epoll : v'.epoll = v.epoll
  objects : v.objects <+: v'.objects
  kept : ∀ {i : ℕ} {p : EventPtr}, v.mEvents[i]? = some (some p) → v'.mEvents[i]? = some (some p)
  made : ∀ {i : ℕ}, i < n → v.mEvents[i]? = some none →
    ∃ p, v'.mEvents[i]? = some (some p) ∧ v'.objects[p]? = some (.new i)
  rest : ∀ {i : ℕ}, n ≤ i → v'.mEvents[i]? = v.mEvents[i]?

/-- One more element. -/
theorem MadeTo.step {n : ℕ} (h : MadeTo v v' n) : MadeTo v (v'.makeEvent n) (n + 1) := by
  have hn : v'.mEvents[n]? = v.mEvents[n]? := h.rest le_rfl
  unfold makeEvent
  split_ifs with hnull
  · have hlt : n < v'.mEvents.length := (List.getElem?_eq_some_iff.mp hnull).1
    refine ⟨?_, h.epoll, h.objects.trans (List.prefix_append _ _), ?_, ?_, ?_⟩
    · exact List.length_set.trans h.length
    · intro i p hp
      have hne : n ≠ i := fun heq => by
        rw [← heq, ← hn, hnull] at hp
        exact absurd hp (by simp)
      exact (List.getElem?_set_ne hne).trans (h.kept hp)
    · intro i hi hnone
      by_cases heq : n = i
      · subst heq
        refine ⟨v'.objects.length, List.getElem?_set_self hlt, ?_⟩
        exact List.getElem?_concat_length
      · obtain ⟨p, hp, hobj⟩ := h.made (by omega) hnone
        refine ⟨p, (List.getElem?_set_ne heq).trans hp, ?_⟩
        exact (List.getElem?_append_left (List.getElem?_eq_some_iff.mp hobj).1).trans hobj
    · intro i hi
      exact (List.getElem?_set_ne (by omega)).trans (h.rest (by omega))
  · refine ⟨h.length, h.epoll, h.objects, h.kept, ?_, fun hi => h.rest (by omega)⟩
    intro i hi hnone
    rcases Nat.lt_succ_iff_lt_or_eq.mp hi with hi | rfl
    · exact h.made hi hnone
    · exact absurd (hn.trans hnone) hnull

/-- The loop. -/
theorem madeTo_loop (v : EventVector φ κ) (n : ℕ) :
    MadeTo v ((List.range n).foldl makeEvent v) n := by
  induction n with
  | zero =>
    exact ⟨rfl, rfl, List.prefix_rfl, id, fun h => absurd h (Nat.not_lt_zero _), fun _ => rfl⟩
  | succ n ih =>
    rw [List.range_succ, List.foldl_append]
    exact ih.step

theorem length_resize {size : ℕ} (h : v.mEvents.length ≤ size) :
    (v.resize size).mEvents.length = size := by
  simp only [resize, List.length_append, List.length_take, List.length_replicate]
  omega

/-- The old elements stay. -/
theorem getElem?_resize {size i : ℕ} (h : v.mEvents.length ≤ size) (hi : i < v.mEvents.length) :
    (v.resize size).mEvents[i]? = v.mEvents[i]? := by
  rw [resize, List.take_of_length_le h, List.getElem?_append_left hi]

/-- The new elements are null. -/
theorem getElem?_resize_new {size i : ℕ} (h : v.mEvents.length ≤ size)
    (hi : v.mEvents.length ≤ i) (hsize : i < size) :
    (v.resize size).mEvents[i]? = some none := by
  rw [resize, List.take_of_length_le h, List.getElem?_append_right hi,
    List.getElem?_replicate_of_lt (by omega)]

/-- **A resize to no smaller a size** loses nothing: pointers and objects stay, and a new
element points to a new `Event` with its index. -/
theorem ctxResize_spec {size : ℕ} (h : v.mEvents.length ≤ size) :
    (v.ctxResize size).mEvents.length = size ∧ (v.ctxResize size).mEventCnt = size ∧
      (v.ctxResize size).epoll = v.epoll ∧ v.objects <+: (v.ctxResize size).objects ∧
      (∀ (i : ℕ) (p : EventPtr), v.mEvents[i]? = some (some p) →
        (v.ctxResize size).mEvents[i]? = some (some p)) ∧
      ∀ i : ℕ, v.mEvents.length ≤ i → i < size → ∃ p,
        (v.ctxResize size).mEvents[i]? = some (some p) ∧
          (v.ctxResize size).objects[p]? = some (.new i) := by
  have hlen := length_resize h
  have hmade := madeTo_loop (v.resize size) (v.resize size).mEvents.length
  refine ⟨hmade.length.trans hlen, hmade.length.trans hlen, hmade.epoll, hmade.objects,
    fun i p hp => hmade.kept ?_, fun i hi hsize => hmade.made ?_ ?_⟩
  · rw [getElem?_resize h (List.getElem?_eq_some_iff.mp hp).1]
    exact hp
  · rw [hlen]
    exact hsize
  · exact getElem?_resize_new h hi hsize

theorem keeps_ctxResize (hv : v.Filled) {size : ℕ} (h : v.mEvents.length ≤ size) :
    v.Keeps (v.ctxResize size) := by
  obtain ⟨-, -, -, hobjects, hkept, -⟩ := ctxResize_spec h
  intro i p hp
  refine ⟨hkept i p hp, ?_⟩
  obtain ⟨q, task, hq, htask, -⟩ := hv i (List.getElem?_eq_some_iff.mp hp).1
  obtain rfl : p = q := Option.some_inj.mp (Option.some_inj.mp (hp.symm.trans hq))
  obtain ⟨made, hmade⟩ := hobjects
  rw [htask, ← hmade, List.getElem?_append_left (List.getElem?_eq_some_iff.mp htask).1]
  exact htask

theorem filled_ctxResize (hv : v.Filled) {size : ℕ} (h : v.mEvents.length ≤ size) :
    (v.ctxResize size).Filled := by
  obtain ⟨hlen, -, -, -, -, hnew⟩ := ctxResize_spec h
  intro i hi
  rw [hlen] at hi
  by_cases hold : i < v.mEvents.length
  · obtain ⟨p, task, hp, htask, hfd⟩ := hv i hold
    obtain ⟨hp', htask'⟩ := keeps_ctxResize hv h i p hp
    exact ⟨p, task, hp', htask'.trans htask, hfd⟩
  · obtain ⟨p, hp, hobj⟩ := hnew i (not_lt.mp hold) hi
    exact ⟨p, _, hp, hobj, rfl⟩

/-! ### The growth step -/

/-- `fd >= mEventCnt * 0.8`, without fractions. -/
theorem threshold_iff (cnt : ℕ) (fd : ℤ) : (cnt : ℚ) * 0.8 ≤ fd ↔ 4 * (cnt : ℤ) ≤ 5 * fd := by
  have hscale : (cnt : ℚ) * 0.8 ≤ fd ↔ (4 * (cnt : ℚ)) ≤ 5 * fd := by
    constructor <;> intro h <;> linarith
  rw [hscale]
  exact_mod_cast Iff.rfl

/-- `(int)(fd * 1.5)`, without fractions. -/
theorem toInt_half (h0 : 0 ≤ fd) (hfd : fd < 2 ^ 30) :
    toInt ((fd : ℚ) * 1.5) = some (3 * fd / 2) := by
  have hnonneg : (0 : ℚ) ≤ (fd : ℚ) * 1.5 := by positivity
  have hfrac : (fd : ℚ) * 1.5 = ((3 * fd : ℤ) : ℚ) / ((2 : ℕ) : ℚ) := by
    push_cast
    ring
  have htrunc : ((fd : ℚ) * 1.5).num.tdiv ((fd : ℚ) * 1.5).den = 3 * fd / 2 := by
    rw [Int.tdiv_eq_ediv_of_nonneg (Rat.num_nonneg.mpr hnonneg), ← Rat.floor_def', hfrac,
      Rat.floor_intCast_div_natCast]
    rfl
  rw [toInt, htrunc, if_pos (by omega)]

/-- A pool in order. -/
structure Wf (v : EventVector φ κ) : Prop where
  cnt : v.mEventCnt = v.mEvents.length
  size : 128 ≤ v.mEvents.length
  filled : v.Filled

theorem Keeps.refl (v : EventVector φ κ) : v.Keeps v := fun _ _ h => ⟨h, rfl⟩

/-- **The growth step** does nothing, or resizes to no smaller a size, and reaches the
descriptor. -/
theorem grow_cases (hv : v.Wf) (h0 : 0 ≤ fd) (hfd : fd < 2 ^ 30) :
    (4 * (v.mEventCnt : ℤ) ≤ 5 * fd ∧ v.mEvents.length ≤ (3 * fd / 2).toNat ∧
        fd < (3 * fd / 2).toNat ∧ v.grow fd = some (v.ctxResize (3 * fd / 2).toNat)) ∨
      (5 * fd < 4 * (v.mEventCnt : ℤ) ∧ fd < v.mEvents.length ∧ v.grow fd = some v) := by
  have hcnt := hv.cnt
  have hsize := hv.size
  by_cases hle : 4 * (v.mEventCnt : ℤ) ≤ 5 * fd
  · -- 1.5 times the descriptor is at least 1.2 times the count
    refine .inl ⟨hle, by omega, by omega, ?_⟩
    rw [grow, if_pos ((threshold_iff _ _).mpr hle), toInt_half h0 hfd, Option.map_some]
  · refine .inr ⟨not_le.mp hle, by omega, ?_⟩
    rw [grow, if_neg (mt (threshold_iff _ _).mp hle)]

theorem wf_grow (hv : v.Wf) (h0 : 0 ≤ fd) (hfd : fd < 2 ^ 30) :
    ∃ v', v.grow fd = some v' ∧ v'.Wf ∧ fd < v'.mEvents.length ∧
      v.mEvents.length ≤ v'.mEvents.length ∧ v.Keeps v' := by
  obtain ⟨-, hsize, hreach, hgrow⟩ | ⟨-, hreach, hgrow⟩ := grow_cases hv h0 hfd
  · obtain ⟨hlen, hcnt, -⟩ := ctxResize_spec hsize
    refine ⟨_, hgrow, ⟨by rw [hlen, hcnt], ?_, filled_ctxResize hv.filled hsize⟩, ?_, ?_,
      keeps_ctxResize hv.filled hsize⟩
    · rw [hlen]
      exact hv.size.trans hsize
    · rw [hlen]
      exact hreach
    · rw [hlen]
      exact hsize
  · exact ⟨v, hgrow, hv, hreach, le_rfl, .refl v⟩

/-! ### The call behind it -/

theorem eventPtr_eq (h0 : 0 ≤ fd) {p : EventPtr} :
    v.eventPtr fd = some p ↔ v.mEvents[fd.toNat]? = some (some p) := by
  rw [eventPtr, if_pos h0, Option.join_eq_some_iff]

/-- A descriptor within the vector has an `Event`. -/
theorem Filled.exists_event (hv : v.Filled) (h0 : 0 ≤ fd) (hfd : fd < v.mEvents.length) :
    ∃ p task, v.eventPtr fd = some p ∧ v.objects[p]? = some task ∧ task.fd = fd := by
  obtain ⟨p, task, hp, htask, htaskfd⟩ := hv fd.toNat (by omega)
  exact ⟨p, task, (eventPtr_eq h0).mpr hp, htask, by omega⟩

/-- No two elements point to one `Event`. -/
theorem Filled.eq_of_eventPtr (hv : v.Filled) {i j : ℕ} {p : EventPtr}
    (hi : v.mEvents[i]? = some (some p)) (hj : v.mEvents[j]? = some (some p)) : i = j := by
  obtain ⟨q, task, hq, htask, hfd⟩ := hv i (List.getElem?_eq_some_iff.mp hi).1
  obtain ⟨q', task', hq', htask', hfd'⟩ := hv j (List.getElem?_eq_some_iff.mp hj).1
  obtain rfl : p = q := Option.some_inj.mp (Option.some_inj.mp (hi.symm.trans hq))
  obtain rfl : p = q' := Option.some_inj.mp (Option.some_inj.mp (hj.symm.trans hq'))
  obtain rfl : task = task' := Option.some_inj.mp (htask.symm.trans htask')
  exact_mod_cast hfd.symm.trans hfd'

/-- The vector is not written behind the growth step, and the `Event` keeps its descriptor. -/
theorem addTo_cases (v : EventVector φ κ) (c : AddCall φ κ) (p : EventPtr) (task : Event φ κ) :
    v.addTo c p task = v ∨
      ∃ epoll, v.addTo c p task = { v with
        epoll := epoll, objects := v.objects.set p (task.register c.event c.cb c.cur) } := by
  unfold addTo
  split_ifs
  · exact .inl rfl
  · split
    · exact .inl rfl
    · exact .inr ⟨_, rfl⟩

/-- The step lemma for what the growth step is to do. -/
theorem growsFor (hv : v.Wf) {c : AddCall φ κ} (h0 : 0 ≤ c.fd) (hfd : c.fd < 2 ^ 30) :
    v.GrowsFor c := by
  obtain ⟨v', hgrow, hv', hreach, hle, hkeeps⟩ := wf_grow hv h0 hfd
  refine ⟨v', hgrow, hreach, hv'.cnt, hle, hv'.filled, hkeeps, fun w hw => ?_⟩
  rw [addEvent, hgrow, Option.bind_some] at hw
  obtain ⟨p, hp, hw⟩ := Option.bind_eq_some_iff.mp hw
  obtain ⟨task, -, rfl⟩ := Option.map_eq_some_iff.mp hw
  obtain heq | ⟨epoll, heq⟩ := addTo_cases v' c p task
  · rw [heq]
    exact ⟨rfl, rfl, fun _ _ => rfl⟩
  · rw [heq]
    refine ⟨rfl, rfl, fun q hq => List.getElem?_set_ne ?_⟩
    rintro rfl
    exact hq hp

theorem filled_set (hv : v.Filled) {p : EventPtr} {task task' : Event φ κ}
    (htask : v.objects[p]? = some task) (hfd : task'.fd = task.fd) (epoll : InterestSet) :
    ({ v with epoll := epoll, objects := v.objects.set p task' } : EventVector φ κ).Filled := by
  intro i hi
  obtain ⟨q, old, hq, hold, holdfd⟩ := hv i hi
  by_cases hpq : p = q
  · subst hpq
    obtain rfl : task = old := Option.some_inj.mp (htask.symm.trans hold)
    exact ⟨p, task', hq, List.getElem?_set_self (List.getElem?_eq_some_iff.mp htask).1,
      hfd.trans holdfd⟩
  · exact ⟨q, old, hq, (List.getElem?_set_ne hpq).trans hold, holdfd⟩

theorem fd_register (task : Event φ κ) (d : Dir) (cb : Option κ) (cur : φ) :
    (task.register d cb cur).fd = task.fd := by
  simp [Event.register]

theorem wf_addTo (hv : v.Wf) (c : AddCall φ κ) {p : EventPtr} {task : Event φ κ}
    (htask : v.objects[p]? = some task) : (v.addTo c p task).Wf := by
  obtain heq | ⟨epoll, heq⟩ := addTo_cases v c p task
  · rw [heq]
    exact hv
  · rw [heq]
    exact ⟨hv.cnt, hv.size, filled_set hv.filled htask (fd_register _ _ _ _) epoll⟩

/-- The step lemma: a call is defined and leaves the pool in order. -/
theorem wf_addEvent (hv : v.Wf) {c : AddCall φ κ} (h0 : 0 ≤ c.fd) (hfd : c.fd < 2 ^ 30) :
    ∃ v', v.addEvent c = some v' ∧ v'.Wf := by
  obtain ⟨v₁, hgrow, hv₁, hreach, -⟩ := wf_grow hv h0 hfd
  obtain ⟨p, task, hp, htask, -⟩ := hv₁.filled.exists_event h0 hreach
  refine ⟨v₁.addTo c p task, ?_, wf_addTo hv₁ c htask⟩
  rw [addEvent, hgrow, Option.bind_some, hp, Option.bind_some, htask, Option.map_some]

theorem filled_of_nil (h : v.mEvents = []) : v.Filled := by
  intro i hi
  rw [h] at hi
  exact absurd hi (Nat.not_lt_zero i)

theorem wf_ctxResize_nil (h : v.mEvents = []) : (v.ctxResize 128).Wf := by
  have hle : v.mEvents.length ≤ 128 := by
    rw [h]
    exact Nat.zero_le 128
  obtain ⟨hlen, hcnt, -⟩ := ctxResize_spec hle
  exact ⟨hcnt.trans hlen.symm, hlen.ge, filled_ctxResize (filled_of_nil h) hle⟩

/-- **The pool only grows and always covers the descriptor**, in every sequence of calls
from the constructor. -/
theorem pool_grows (mEventfd : ℤ) {calls : List (AddCall φ κ)}
    (hcalls : ∀ c ∈ calls, 0 ≤ c.fd ∧ c.fd < 2 ^ 30) :
    (∃ v, run addEvent calls (create mEventfd) = some v) ∧
      Along addEvent GrowsFor calls (create mEventfd) :=
  Along.total (fun _ _ hv hc => ⟨growsFor hv hc.1 hc.2, wf_addEvent hv hc.1 hc.2⟩) hcalls
    (wf_ctxResize_nil rfl)

/-- The pool is resized for 110, for 164 and for 5000. -/
theorem pool_grows_far :
    (∃ v, run addEvent [⟨110, .read, none, ET, 1, false⟩, ⟨164, .write, some 7, ET, 1, false⟩,
        ⟨5000, .read, none, ET, 2, true⟩] (create 3 : EventVector ℕ ℕ) = some v) ∧
      Along addEvent GrowsFor [⟨110, .read, none, ET, 1, false⟩,
        ⟨164, .write, some 7, ET, 1, false⟩, ⟨5000, .read, none, ET, 2, true⟩] (create 3) :=
  pool_grows 3 (by decide)

/-! ### The pool of `IOManager` -/

/-- The pool `s` is the one of `v`, without the addresses. -/
structure Represents {N : ℕ} (v : EventVector φ κ) (s : IOManager N φ κ) : Prop where
  mEvents : ∀ fd, s.eventPtr fd = v.eventOf fd
  length : s.mEvents.length = v.mEvents.length
  mEventCnt : s.mEventCnt = v.mEventCnt
  epoll : s.epoll = v.epoll

variable {N : ℕ} {s : IOManager N φ κ}

theorem eventOf_eq_some_iff (h0 : 0 ≤ fd) {task : Event φ κ} :
    v.eventOf fd = some task ↔
      ∃ p, v.mEvents[fd.toNat]? = some (some p) ∧ v.objects[p]? = some task := by
  simp only [eventOf, Option.bind_eq_some_iff, eventPtr_eq h0]

theorem eventOf_of_le (h : (v.mEvents.length : ℤ) ≤ fd) : v.eventOf fd = none := by
  rw [eventOf, eventPtr, if_pos (by omega), List.getElem?_eq_none (by omega)]
  rfl

theorem eventOf_of_neg (h : fd < 0) : v.eventOf fd = none := by
  rw [eventOf, eventPtr, if_neg (not_le.mpr h)]
  rfl

/-- What a resize shows. -/
theorem eventOf_ctxResize (hv : v.Filled) {size : ℕ} (h : v.mEvents.length ≤ size) (g : ℤ) :
    (v.ctxResize size).eventOf g =
      if 0 ≤ g ∧ g < size then some ((v.eventOf g).getD (.new g)) else none := by
  obtain ⟨hlen, -, -, -, -, hnew⟩ := ctxResize_spec h
  split_ifs with hg
  · rw [eventOf_eq_some_iff hg.1]
    by_cases hold : g < v.mEvents.length
    · obtain ⟨p, task, hp, htask, -⟩ := hv g.toNat (by omega)
      obtain ⟨hp', htask'⟩ := keeps_ctxResize hv h _ p hp
      have hof : v.eventOf g = some task := (eventOf_eq_some_iff hg.1).mpr ⟨p, hp, htask⟩
      rw [hof, Option.getD_some]
      exact ⟨p, hp', htask'.trans htask⟩
    · obtain ⟨p, hp, hobj⟩ := hnew g.toNat (by omega) (by omega)
      rw [eventOf_of_le (not_lt.mp hold), Option.getD_none]
      refine ⟨p, hp, ?_⟩
      rw [hobj, Int.toNat_of_nonneg hg.1]
  · by_cases h0 : 0 ≤ g
    · exact eventOf_of_le (by omega)
    · exact eventOf_of_neg (not_le.mp h0)

theorem represents_ctxResize (hv : v.Filled) (hr : Represents v s) {size : ℕ}
    (h : v.mEvents.length ≤ size) : Represents (v.ctxResize size) (s.ctxResize size) := by
  obtain ⟨hlen, hcnt, hepoll, -⟩ := ctxResize_spec h
  have hle : s.mEvents.length ≤ size := by
    rw [hr.length]
    exact h
  have hslen := IOManager.length_ctxResize hle
  refine ⟨fun g => ?_, hslen.trans hlen.symm, hslen.trans hcnt.symm, hr.epoll.trans hepoll.symm⟩
  rw [IOManager.ctxResize_of_le hle, eventOf_ctxResize hv h, IOManager.eventAt, hr.mEvents]

theorem represents_grow (hv : v.Wf) (hr : Represents v s) (h0 : 0 ≤ fd) (hfd : fd < 2 ^ 30)
    (h : v.grow fd = some v') : Represents v' (s.grow fd) := by
  rw [IOManager.grow, hr.mEventCnt]
  obtain ⟨hle, hsize, -, hgrow⟩ | ⟨hlt, -, hgrow⟩ := grow_cases hv h0 hfd
  · rw [if_pos hle, ← Option.some_inj.mp (hgrow.symm.trans h)]
    exact represents_ctxResize hv.filled hr hsize
  · rw [if_neg (not_le.mpr hlt), ← Option.some_inj.mp (hgrow.symm.trans h)]
    exact hr

/-- Writing through a pointer is writing the `Event` of its descriptor. -/
theorem represents_set (hv : v.Filled) (hr : Represents v s) (h0 : 0 ≤ fd) {p : EventPtr}
    (hp : v.eventPtr fd = some p) {task : Event φ κ} (htask : v.objects[p]? = some task)
    (task' : Event φ κ) (epoll : InterestSet) :
    Represents { v with epoll := epoll, objects := v.objects.set p task' }
      { s.assign fd task' with epoll := epoll } := by
  have hp' := (eventPtr_eq h0).mp hp
  have hsome : (s.eventPtr fd).isSome := by
    rw [hr.mEvents, eventOf, hp, Option.bind_some, htask]
    rfl
  refine ⟨fun g => ?_, ?_, hr.mEventCnt, rfl⟩
  · refine (IOManager.eventPtr_assign hsome task' g).trans ?_
    split_ifs with hg
    · rw [hg]
      have hnew : (v.objects.set p task')[p]? = some task' :=
        List.getElem?_set_self (List.getElem?_eq_some_iff.mp htask).1
      have hof : eventOf { v with epoll := epoll, objects := v.objects.set p task' } fd =
          some task' := (eventOf_eq_some_iff h0).mpr ⟨p, hp', hnew⟩
      exact hof.symm
    · -- another element points to another object
      rw [hr.mEvents, eventOf, eventOf]
      cases hq : v.eventPtr g with
      | none =>
        have hq' : EventVector.eventPtr { v with
            epoll := epoll, objects := v.objects.set p task' } g = none := hq
        rw [hq']
        rfl
      | some q =>
        have hq' : EventVector.eventPtr { v with
            epoll := epoll, objects := v.objects.set p task' } g = some q := hq
        have hg0 : 0 ≤ g := by
          by_contra hneg
          rw [eventPtr, if_neg hneg] at hq
          exact absurd hq (by simp)
        have hpq : p ≠ q := by
          rintro rfl
          have := hv.eq_of_eventPtr hp' ((eventPtr_eq hg0).mp hq)
          omega
        rw [hq', Option.bind_some, Option.bind_some, List.getElem?_set_ne hpq]
  · exact List.length_set.trans hr.length

/-- **`addEvent` on the vector is `addEvent` on the pool.** -/
theorem addEvent_represents (hv : v.Wf) (hr : Represents v s) {c : AddCall φ κ} (h0 : 0 ≤ c.fd)
    (hfd : c.fd < 2 ^ 30) (h : v.addEvent c = some v') :
    ∃ s', s.addEvent c.fd c.event c.cb c.flag c.cur c.fault = some s' ∧ Represents v' s' := by
  obtain ⟨v₁, hgrow, h⟩ := Option.bind_eq_some_iff.mp h
  obtain ⟨p, hp, h⟩ := Option.bind_eq_some_iff.mp h
  obtain ⟨task, htask, rfl⟩ := Option.map_eq_some_iff.mp h
  obtain ⟨v₂, hgrow₂, hv₁, -⟩ := wf_grow hv h0 hfd
  obtain rfl : v₁ = v₂ := Option.some_inj.mp (hgrow.symm.trans hgrow₂)
  have hr₁ := represents_grow hv hr h0 hfd hgrow
  have hptr : (s.grow c.fd).eventPtr c.fd = some task := by
    rw [hr₁.mEvents, eventOf, hp, Option.bind_some, htask]
  have hctl₁ := congrArg (fun epoll =>
    ctl epoll task.addOp c.fd (c.flag ||| c.event.mask ||| task.event) c.fault) hr₁.epoll
  by_cases hbit : task.event &&& c.event.mask = 0
  · cases hctl : ctl v₁.epoll task.addOp c.fd (c.flag ||| c.event.mask ||| task.event) c.fault with
    | none =>
      refine ⟨s.grow c.fd, IOManager.addEvent_of_fault hptr (.inr (hctl₁.trans hctl)), ?_⟩
      rw [addTo, if_neg (not_not.mpr hbit), hctl]
      exact hr₁
    | some epoll =>
      refine ⟨_, IOManager.addEvent_of_ctl hptr hbit (hctl₁.trans hctl), ?_⟩
      rw [addTo, if_neg (not_not.mpr hbit), hctl]
      exact represents_set hv₁.filled hr₁ h0 hp htask _ epoll
  · refine ⟨s.grow c.fd, IOManager.addEvent_of_fault hptr (.inl hbit), ?_⟩
    rw [addTo, if_pos hbit]
    exact hr₁

/-- A call on the pool without addresses. -/
def addEventTo (s : IOManager N φ κ) (c : AddCall φ κ) : Option (IOManager N φ κ) :=
  s.addEvent c.fd c.event c.cb c.flag c.cur c.fault

theorem represents_create (threadCnt : ℕ) (mTimerManager : TimerManager N κ) (mEventfd : ℤ) :
    Represents (create mEventfd : EventVector φ κ)
      (IOManager.create threadCnt mTimerManager mEventfd) := by
  refine represents_ctxResize (filled_of_nil rfl) ⟨fun g => ?_, rfl, rfl, rfl⟩ (Nat.zero_le 128)
  rw [IOManager.eventPtr, eventOf, eventPtr]
  split_ifs <;> rfl

/-- **The vector of pointers implements the pool**: from the constructor every sequence of
calls does the same on both. -/
theorem run_represents (threadCnt : ℕ) (mTimerManager : TimerManager N κ) (mEventfd : ℤ)
    {calls : List (AddCall φ κ)} (hcalls : ∀ c ∈ calls, 0 ≤ c.fd ∧ c.fd < 2 ^ 30)
    (h : run addEvent calls (create mEventfd) = some v) :
    ∃ s, run addEventTo calls (IOManager.create threadCnt mTimerManager mEventfd) = some s ∧
      Represents v s := by
  have hstep : ∀ (v : EventVector φ κ) (c : AddCall φ κ) (v' : EventVector φ κ)
      (s : IOManager N φ κ), v.Wf ∧ Represents v s → 0 ≤ c.fd ∧ c.fd < 2 ^ 30 →
        v.addEvent c = some v' →
          ∃ s', addEventTo s (id c) = some s' ∧ v'.Wf ∧ Represents v' s' := by
    intro v c v' s hvr hc hstep
    obtain ⟨w, hw, hwf⟩ := wf_addEvent hvr.1 hc.1 hc.2
    obtain rfl : v' = w := Option.some_inj.mp (hstep.symm.trans hw)
    obtain ⟨s', hs', hr⟩ := addEvent_represents hvr.1 hvr.2 hc.1 hc.2 hstep
    exact ⟨s', hs', hwf, hr⟩
  obtain ⟨s, hs, -, hr⟩ := run_simulated hstep hcalls
    ⟨wf_ctxResize_nil rfl, represents_create threadCnt mTimerManager mEventfd⟩ h
  rw [List.map_id] at hs
  exact ⟨s, hs, hr⟩

end EventVector

end Server
