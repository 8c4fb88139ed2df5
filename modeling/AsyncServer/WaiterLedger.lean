/-
Waiters that leave the event pool.

A waiter is the fiber or the callback in a slot of an `Event`.  The books of a
run say which registrations were accepted and which waiters `triggerEvent` has
put into the task queue; in between, the rest of the program does with the queue
what it likes.

* `Moves` — what an operation on one descriptor does to the waiters there: the
  accepted one comes, some are queued, some are lost;
* `moves_step` — only `delEvent` loses any, and it loses all that are there;
* `conserved_iff` — so the books balance after a run, and every waiter taken off
  was queued, exactly if no `delEvent`, and no `close`, met a waiter.
-/
import AsyncServer.EpollMirror

namespace Server

open Epoll Transition

/-! ### The slots of an event -/

namespace Event

variable {φ κ : Type*} {task : Event φ κ}

/-- The waiters of an event. -/
def waiters (task : Event φ κ) : List (Task φ κ) :=
  task.read.task.toList ++ task.write.task.toList

/-- `event` has the bits of the directions with a waiter, and no others. -/
structure Tidy (task : Event φ κ) : Prop where
  dirs : readiness task.event = task.event
  free : ∀ d, task.event &&& d.mask = 0 → task.getEvent d = ⟨none, none⟩
  taken : ∀ d, task.event &&& d.mask ≠ 0 → (task.getEvent d).task.isSome

theorem tidy_new (fd : ℤ) : (new fd : Event φ κ).Tidy := by
  refine ⟨readiness_zero, fun d _ => ?_, fun d h => absurd BitVec.zero_and h⟩
  cases d <;> rfl

theorem waiters_new (fd : ℤ) : (new fd : Event φ κ).waiters = [] := rfl

theorem Tidy.waiters_eq_nil (h : task.Tidy) (hzero : task.event = 0) : task.waiters = [] := by
  have hfree : ∀ d, task.getEvent d = ⟨none, none⟩ := by
    intro d
    apply h.free d
    rw [hzero]
    exact BitVec.zero_and
  rw [waiters, show task.read = _ from hfree .read, show task.write = _ from hfree .write]
  rfl

/-- An event with a bit set has that of a direction. -/
theorem Tidy.exists_dir (h : task.Tidy) (hne : task.event ≠ 0) :
    ∃ d : Dir, task.event &&& d.mask ≠ 0 := by
  by_contra hnone
  push Not at hnone
  exact hne (h.dirs.symm.trans (readiness_eq_zero hnone))

/-- An event with a bit set has a waiter. -/
theorem Tidy.waiters_ne_nil (h : task.Tidy) (hne : task.event ≠ 0) : task.waiters ≠ [] := by
  intro hnil
  obtain ⟨hread, hwrite⟩ := List.append_eq_nil_iff.mp hnil
  obtain ⟨d, hd⟩ := h.exists_dir hne
  have hsome := h.taken d hd
  -- without waiters both slots are empty
  have hnone : (task.getEvent d).task = none := by
    cases d
    · exact Option.toList_eq_nil_iff.mp hread
    · exact Option.toList_eq_nil_iff.mp hwrite
  rw [hnone] at hsome
  exact Bool.false_ne_true hsome

/-- One slot among the two. -/
theorem waiters_perm (task : Event φ κ) {d e : Dir} (h : e ≠ d) :
    task.waiters.Perm ((task.getEvent d).task.toList ++ (task.getEvent e).task.toList) := by
  cases d <;> cases e
  · exact absurd rfl h
  · exact .refl _
  · exact List.perm_append_comm
  · exact absurd rfl h

/-- From one event and queue to another, the waiters that are gone are queued. -/
structure Wakes (r r' : Event φ κ × List (Task φ κ)) (put : List (Task φ κ)) : Prop where
  queue : r'.2 = r.2 ++ put
  perm : r.1.waiters.Perm (r'.1.waiters ++ put)
  tidy : r.1.Tidy → r'.1.Tidy
  slot : ∀ d t, (r.1.getEvent d).task = some t → (r'.1.getEvent d).task = some t ∨ t ∈ put

theorem Wakes.refl (r : Event φ κ × List (Task φ κ)) : Wakes r r [] where
  queue := (List.append_nil _).symm
  perm := by rw [List.append_nil]
  tidy h := h
  slot _ _ h := .inl h

theorem Wakes.trans {r r' r'' : Event φ κ × List (Task φ κ)} {put put' : List (Task φ κ)}
    (h : Wakes r r' put) (h' : Wakes r' r'' put') : Wakes r r'' (put ++ put') where
  queue := by rw [h'.queue, h.queue, List.append_assoc]
  perm := by
    refine h.perm.trans ((h'.perm.append_right put).trans ?_)
    rw [List.append_assoc]
    exact List.perm_append_comm.append_left _
  tidy ht := h'.tidy (h.tidy ht)
  slot d t ht := by
    rcases h.slot d t ht with ht | ht
    · exact (h'.slot d t ht).imp_right (List.mem_append_right put)
    · exact .inr (List.mem_append_left put' ht)

/-- **A trigger queues the waiter it takes off.** -/
theorem wakes_triggerEvent (threadCnt : ℕ) (d : Dir) (r : Event φ κ × List (Task φ κ)) :
    Wakes r (triggerEvent threadCnt d r) (r.1.getEvent d).task.toList := by
  -- the slot of `d` is emptied into the queue, and that of the other direction stays
  obtain ⟨e, he⟩ := d.exists_ne
  constructor
  · exact tasks_triggerEvent threadCnt d r
  · have hp := waiters_perm (triggerEvent threadCnt d r).1 he
    rw [getEvent_triggerEvent, getEvent_triggerEvent_of_ne _ _ _ he] at hp
    refine (waiters_perm r.1 he).trans (List.perm_append_comm.trans ?_)
    exact hp.symm.append_right _
  · intro ht
    constructor
    · rw [event_triggerEvent, readiness_and, ht.dirs]
    · intro g hg
      by_cases hgd : g = d
      · rw [hgd, getEvent_triggerEvent]
      · rw [event_triggerEvent, and_not_mask_of_ne _ hgd] at hg
        rw [getEvent_triggerEvent_of_ne _ _ _ hgd]
        exact ht.free g hg
    · intro g hg
      by_cases hgd : g = d
      · rw [hgd, event_triggerEvent] at hg
        exact absurd (and_not_mask_self r.1.event d) hg
      · rw [event_triggerEvent, and_not_mask_of_ne _ hgd] at hg
        rw [getEvent_triggerEvent_of_ne _ _ _ hgd]
        exact ht.taken g hg
  · intro g t ht
    by_cases hgd : g = d
    · rw [hgd] at ht
      exact .inr (by simp [ht])
    · rw [getEvent_triggerEvent_of_ne _ _ _ hgd]
      exact .inl ht

theorem wakes_triggerAll (threadCnt : ℕ) (real : Mask) (r : Event φ κ × List (Task φ κ)) :
    ∃ put, Wakes r (IOManager.triggerAll threadCnt real r) put := by
  unfold IOManager.triggerAll
  split_ifs
  · exact ⟨_, (wakes_triggerEvent threadCnt .read r).trans (wakes_triggerEvent threadCnt .write _)⟩
  · exact ⟨_, wakes_triggerEvent threadCnt .read r⟩
  · exact ⟨_, wakes_triggerEvent threadCnt .write r⟩
  · exact ⟨_, .refl r⟩

/-- The task of a registration with callback `cb` by fiber `cur`. -/
def waiter (cb : Option κ) (cur : φ) : Task φ κ :=
  match cb with
  | some cb => .ofFunc cb
  | none => .ofFiber cur

theorem task_register (h : task.Tidy) {d : Dir} (hfree : task.event &&& d.mask = 0)
    (cb : Option κ) (cur : φ) :
    ((task.register d cb cur).getEvent d).task = some (waiter cb cur) := by
  simp only [register, getEvent_setEvent, getEvent_with_event, h.free d hfree]
  cases cb <;> rfl

theorem isSome_register (task : Event φ κ) (d : Dir) (cb : Option κ) (cur : φ) :
    ((task.register d cb cur).getEvent d).task.isSome := by
  simp only [register, getEvent_setEvent, getEvent_with_event]
  cases cb with
  | some cb => cases (task.getEvent d).fiber <;> rfl
  | none => rfl

/-- A registration for a free direction adds its waiter. -/
theorem waiters_register (h : task.Tidy) {d : Dir} (hfree : task.event &&& d.mask = 0)
    (cb : Option κ) (cur : φ) :
    (waiter cb cur :: task.waiters).Perm (task.register d cb cur).waiters := by
  obtain ⟨e, he⟩ := d.exists_ne
  have hp := waiters_perm (task.register d cb cur) he
  have hq := waiters_perm task he
  rw [task_register h hfree, getEvent_register_of_ne _ he] at hp
  rw [h.free d hfree] at hq
  exact (hq.cons _).trans hp.symm

/-- A registration keeps the events tidy, also one for a direction that is taken. -/
theorem tidy_register (h : task.Tidy) (d : Dir) (cb : Option κ) (cur : φ) :
    (task.register d cb cur).Tidy := by
  constructor
  -- the bit and the slot of `d` are both set, those of the other direction are as before
  · rw [event_register, readiness_or, h.dirs, readiness_mask]
  · intro g hg
    by_cases hgd : g = d
    · rw [hgd, event_register] at hg
      exact absurd hg (or_mask_and_self task.event d)
    · rw [event_register, or_mask_and_of_ne _ hgd] at hg
      rw [getEvent_register_of_ne _ hgd]
      exact h.free g hg
  · intro g hg
    by_cases hgd : g = d
    · rw [hgd]
      exact isSome_register task d cb cur
    · rw [event_register, or_mask_and_of_ne _ hgd] at hg
      rw [getEvent_register_of_ne _ hgd]
      exact h.taken g hg

end Event

namespace IOManager

variable {N : ℕ} {φ κ : Type*} {s s' : IOManager N φ κ} {fd : ℤ}

/-! ### The pool -/

/-- The waiters in the pool. -/
def registered (s : IOManager N φ κ) : List (Task φ κ) := s.mEvents.flatMap Event.waiters

theorem registered_eq {n : ℕ} (hn : s.mEvents.length ≤ n) :
    s.registered = (List.range n).flatMap fun i : ℕ => (s.eventAt i).waiters := by
  -- behind the end of the pool `eventAt` gives new events, which add no waiters
  obtain ⟨k, rfl⟩ := Nat.exists_eq_add_of_le hn
  have hold : s.mEvents = (List.range s.mEvents.length).map fun i : ℕ => s.eventAt i := by
    refine List.ext_getElem (by simp) fun i hi _ => ?_
    rw [List.getElem_map, List.getElem_range, eventAt, eventPtr, if_pos (Int.natCast_nonneg i),
      Int.toNat_natCast, List.getElem?_eq_getElem hi, Option.getD_some]
  have hnew : ((List.range k).map (s.mEvents.length + ·)).flatMap
      (fun i : ℕ => (s.eventAt i).waiters) = [] := by
    refine List.flatMap_eq_nil_iff.mpr fun i hi => ?_
    obtain ⟨j, -, rfl⟩ := List.mem_map.mp hi
    rw [eventAt, eventPtr, if_pos (Int.natCast_nonneg _), Int.toNat_natCast,
      List.getElem?_eq_none (Nat.le_add_right _ j), Option.getD_none, Event.waiters_new]
  rw [List.range_add, List.flatMap_append, hnew, List.append_nil, registered]
  conv_lhs => rw [hold]
  exact List.flatMap_map _ _ _

/-- Two families of lists that differ at one index. -/
theorem flatMap_perm {α ι : Type*} {f g : ι → List α} {l : List ι} (hl : l.Nodup) {k : ι}
    (hk : k ∈ l) (h : ∀ i, i ≠ k → g i = f i) :
    ∃ rest, (l.flatMap f).Perm (f k ++ rest) ∧ (l.flatMap g).Perm (g k ++ rest) := by
  obtain ⟨a, b, rfl⟩ := List.append_of_mem hk
  have hne : ∀ i ∈ a ++ b, i ≠ k := by
    intro i hi hik
    exact (List.nodup_cons.mp (List.nodup_middle.mp hl)).1 (hik ▸ hi)
  have hsame : (a ++ b).flatMap g = (a ++ b).flatMap f :=
    List.flatMap_congr fun i hi => h i (hne i hi)
  have hmid : ∀ f : ι → List α, ((a ++ k :: b).flatMap f).Perm (f k ++ (a ++ b).flatMap f) := by
    intro f
    rw [List.flatMap_append, List.flatMap_append, List.flatMap_cons, ← List.append_assoc,
      ← List.append_assoc]
    exact List.perm_append_comm.append_right _
  exact ⟨(a ++ b).flatMap f, hmid f, hsame ▸ hmid g⟩

/-- Where one event changes, the pool keeps the waiters of the others. -/
theorem registered_frame (h : ∀ {g}, g ≠ fd → s'.eventAt g = s.eventAt g) :
    ∃ rest, s.registered.Perm ((s.eventAt fd).waiters ++ rest) ∧
      s'.registered.Perm ((s'.eventAt fd).waiters ++ rest) := by
  by_cases h0 : 0 ≤ fd
  · obtain ⟨i, rfl⟩ := Int.eq_ofNat_of_zero_le h0
    -- a range that covers both pools and the descriptor
    set n := max (max s.mEvents.length s'.mEvents.length) (i + 1) with hn
    rw [registered_eq (s := s) (n := n) (by omega), registered_eq (s := s') (n := n) (by omega)]
    exact flatMap_perm List.nodup_range (List.mem_range.mpr (by omega : i < n))
      fun j hj => by rw [h (by omega)]
  -- a negative descriptor has no event in either pool
  · have hnew : ∀ s : IOManager N φ κ, (s.eventAt fd).waiters = [] := by
      intro s
      rw [eventAt, eventPtr, if_neg h0, Option.getD_none, Event.waiters_new]
    set n := max s.mEvents.length s'.mEvents.length with hn
    refine ⟨s.registered, by rw [hnew, List.nil_append], ?_⟩
    rw [hnew, List.nil_append, registered_eq (s := s) (n := n) (by omega),
      registered_eq (s := s') (n := n) (by omega)]
    rw [List.flatMap_congr fun i _ => by rw [h (by omega)]]

/-! ### The operations -/

/-- The registration that an operation accepts. -/
def accepts (s : IOManager N φ κ) : EventOp φ κ → List (Task φ κ)
  | .addEvent fd d cb flag cur fault =>
    if (s.addEventCtl fd d flag fault).any (·.1) then [Event.waiter cb cur] else []
  | _ => []

/-- The hooked `close`: `ctx` says whether `FdManager` has the descriptor, and `last`
whether `close_f` lets go of the file, when the kernel drops it from the interest set. -/
def close (s : IOManager N φ κ) (fd : ℤ) (ctx fault last : Bool) : Option (IOManager N φ κ) :=
  (if ctx then s.delEvent fd fault else some s).map fun s =>
    if last then { s with epoll := Function.update s.epoll fd none } else s

/-- What an operation on `fd` does to the waiters there: those of `came` come, those of
`put` are queued, those of `lost` are neither. -/
structure Moves (fd : ℤ) (s s' : IOManager N φ κ) (came put lost : List (Task φ κ)) : Prop where
  frame : Frame fd s s'
  tidy : (s'.eventAt fd).Tidy
  queue : s'.mTasks = s.mTasks ++ put
  perm : ((s.eventAt fd).waiters ++ came).Perm ((s'.eventAt fd).waiters ++ (put ++ lost))
  slot : ∀ d t, ((s.eventAt fd).getEvent d).task = some t →
    ((s'.eventAt fd).getEvent d).task = some t ∨ t ∈ put ++ lost

theorem Moves.of_wakes (hframe : Frame fd s s') (ht : (s.eventAt fd).Tidy) {put : List (Task φ κ)}
    (h : Event.Wakes (s.eventAt fd, s.mTasks) (s'.eventAt fd, s'.mTasks) put) :
    Moves fd s s' [] put [] where
  frame := hframe
  tidy := h.tidy ht
  queue := h.queue
  perm := by simpa using h.perm
  slot d t := by simpa using h.slot d t

/-- An operation that leaves its own event alone as well. -/
theorem Moves.still (hframe : Frame fd s s') (ht : (s.eventAt fd).Tidy)
    (hat : s'.eventAt fd = s.eventAt fd) (htasks : s'.mTasks = s.mTasks) :
    Moves fd s s' [] [] [] :=
  .of_wakes hframe ht (by rw [hat, htasks]; exact .refl _)

theorem moves_addEvent (hs : s.PoolWf) (ht : (s.eventAt fd).Tidy) {d : Dir} {cb : Option κ}
    {flag : Mask} {cur : φ} {fault : Bool} (h : s.addEvent fd d cb flag cur fault = some s') :
    Moves fd s s' (s.accepts (.addEvent fd d cb flag cur fault)) [] [] := by
  obtain ⟨⟨go, s₁⟩, hctl, h⟩ := Option.bind_eq_some_iff.mp h
  obtain ⟨hframe, hat, htasks, -, hcases⟩ := addEventCtl_cases hs hctl
  rw [accepts, hctl, Option.any_some]
  obtain ⟨rfl, -, -⟩ | ⟨rfl, hfree, -⟩ := hcases
  -- the test or `epoll_ctl` fails, and the waiter is turned down
  · obtain rfl : s₁ = s' := Option.some_inj.mp h
    rw [if_neg Bool.false_ne_true]
    exact .still hframe ht hat htasks
  -- the second half runs, and finds the slot as the first half left it
  · obtain ⟨hframe', hat', htasks', -⟩ := addEventUpdate_eq hframe.wf h
    rw [hat] at hat'
    rw [if_pos rfl]
    constructor
    · exact hframe.trans hframe'
    · rw [hat']
      exact Event.tidy_register ht d cb cur
    · rw [htasks', htasks, List.append_nil]
    · rw [hat', List.append_nil, List.append_nil]
      exact List.perm_append_comm.trans (Event.waiters_register ht hfree cb cur)
    · intro e t he
      rw [hat']
      by_cases hed : e = d
      · rw [hed, ht.free d hfree] at he
        exact absurd he (by simp [EventCtx.task])
      · rw [Event.getEvent_register_of_ne _ hed]
        exact .inl he

theorem moves_cancelEvent (hs : s.PoolWf) (ht : (s.eventAt fd).Tidy) {d : Dir} {fault : Bool}
    (h : s.cancelEvent fd d fault = some s') : ∃ put, Moves fd s s' [] put [] := by
  obtain ⟨hframe, ⟨-, rfl⟩ | ⟨-, htrigger, -⟩⟩ := cancelEvent_cases hs h
  · exact ⟨[], .still hframe ht rfl rfl⟩
  · exact ⟨_, .of_wakes hframe ht (htrigger ▸ Event.wakes_triggerEvent s.threadCnt d _)⟩

theorem moves_dispatch (hs : s.PoolWf) (ht : (s.eventAt fd).Tidy) {events : Mask} {fault : Bool}
    (h : s.dispatch fd events fault = some s') : ∃ put, Moves fd s s' [] put [] := by
  obtain ⟨hframe, rfl | ⟨-, -, htrigger, -⟩⟩ := dispatch_cases hs h
  · exact ⟨[], .still hframe ht rfl rfl⟩
  · obtain ⟨put, hput⟩ := Event.wakes_triggerAll s.threadCnt (realEvent events)
      (s.eventAt fd, s.mTasks)
    exact ⟨put, .of_wakes hframe ht (htrigger ▸ hput)⟩

/-- **`delEvent` loses the waiters it finds.** -/
theorem moves_delEvent (hs : s.PoolWf) (ht : (s.eventAt fd).Tidy) {fault : Bool}
    (h : s.delEvent fd fault = some s') : Moves fd s s' [] [] (s.eventAt fd).waiters := by
  obtain ⟨hframe, htasks, ⟨hzero, hsame⟩ | ⟨-, hat, -⟩⟩ := delEvent_cases hs h
  -- `event` is 0, so there is nobody to lose
  · rw [ht.waiters_eq_nil hzero]
    exact .still hframe ht (by rw [hsame]) htasks
  · constructor
    · exact hframe
    -- `task->event = 0` and two calls of `reset`, with no trigger before them
    · rw [hat]
      exact Event.tidy_new fd
    · rw [htasks, List.append_nil]
    · rw [hat, Event.waiters_new, List.append_nil, List.nil_append, List.nil_append]
    · intro d t hd
      refine .inr ?_
      rw [List.nil_append, Event.waiters]
      cases d
      · exact List.mem_append_left _ (Option.mem_toList.mpr hd)
      · exact List.mem_append_right _ (Option.mem_toList.mpr hd)

/-- The pool keeps its invariant. -/
structure Ordered (s : IOManager N φ κ) : Prop where
  wf : s.PoolWf
  tidy : ∀ fd, (s.eventAt fd).Tidy

theorem Ordered.congr (hs : s.Ordered) (hev : s'.mEvents = s.mEvents)
    (hcnt : s'.mEventCnt = s.mEventCnt) : s'.Ordered :=
  ⟨hs.wf.congr hev hcnt, fun fd => eventAt_congr hev fd ▸ hs.tidy fd⟩

theorem Moves.ordered (hs : s.Ordered) {came put lost : List (Task φ κ)}
    (h : Moves fd s s' came put lost) : s'.Ordered := by
  refine ⟨h.frame.wf, fun g => ?_⟩
  by_cases hg : g = fd
  · rw [hg]
    exact h.tidy
  · rw [h.frame.eventAt hg]
    exact hs.tidy g

theorem Moves.registered {came put lost : List (Task φ κ)} (h : Moves fd s s' came put lost) :
    (s.registered ++ came).Perm (s'.registered ++ (put ++ lost)) := by
  obtain ⟨rest, hrest, hrest'⟩ := registered_frame h.frame.eventAt
  -- the waiters of the other events stand between those of this one and the news
  have hswap : ∀ a b : List (Task φ κ), ((a ++ rest) ++ b).Perm ((a ++ b) ++ rest) := by
    intro a b
    rw [List.append_assoc, List.append_assoc]
    exact List.perm_append_comm.append_left a
  refine (hrest.append_right came).trans ((hswap _ _).trans ?_)
  refine (h.perm.append_right rest).trans ((hswap _ _).symm.trans ?_)
  exact hrest'.symm.append_right _

theorem moves_step (hs : s.Ordered) {op : EventOp φ κ} (h : s.step op = some s') :
    ∃ fd came put lost, Moves fd s s' came put lost := by
  cases op with
  | addEvent fd d cb flag cur fault =>
    exact ⟨fd, _, [], [], moves_addEvent hs.wf (hs.tidy fd) h⟩
  | cancelEvent fd d fault =>
    obtain ⟨put, hput⟩ := moves_cancelEvent hs.wf (hs.tidy fd) h
    exact ⟨fd, [], put, [], hput⟩
  | delEvent fd fault => exact ⟨fd, [], [], _, moves_delEvent hs.wf (hs.tidy fd) h⟩
  | dispatch fd events fault =>
    obtain ⟨put, hput⟩ := moves_dispatch hs.wf (hs.tidy fd) h
    exact ⟨fd, [], put, [], hput⟩

end IOManager

/-! ### The books of a run -/

/-- An event loop with its history: the registrations accepted, and the waiters that its
operations put into the task queue. -/
structure WaiterLedger (N : ℕ) (φ κ : Type*) where
  iom : IOManager N φ κ
  accepted : List (Task φ κ)
  woken : List (Task φ κ)

namespace WaiterLedger

variable {N : ℕ} {φ κ : Type*} {s s' : WaiterLedger N φ κ}

/-- A loop that starts. -/
def start (iom : IOManager N φ κ) : WaiterLedger N φ κ := ⟨iom, [], []⟩

inductive Act (φ κ : Type*) where
  /-- `addEvent`, `cancelEvent`, `delEvent`, or the dispatch of a notification -/
  | event (op : EventOp φ κ)
  /-- the hooked `close` -/
  | close (fd : ℤ) (ctx fault last : Bool)
  /-- what others make of the task queue in between -/
  | others (mTasks : List (Task φ κ))

/-- An operation is over: what it accepted, and what it put behind the queue. -/
def book (s : WaiterLedger N φ κ) (came : List (Task φ κ)) (iom : IOManager N φ κ) :
    WaiterLedger N φ κ where
  iom := iom
  accepted := s.accepted ++ came
  woken := s.woken ++ iom.mTasks.drop s.iom.mTasks.length

/-- One step. -/
def step (s : WaiterLedger N φ κ) : Act φ κ → Option (WaiterLedger N φ κ)
  | .event op => (s.iom.step op).map (s.book (s.iom.accepts op))
  | .close fd ctx fault last => (s.iom.close fd ctx fault last).map (s.book [])
  | .others mTasks => some { s with iom := { s.iom with mTasks := mTasks } }

/-- The accepted registrations are those still registered and those queued. -/
def Conserved (s : WaiterLedger N φ κ) : Prop :=
  s.accepted.Perm (s.iom.registered ++ s.woken)

/-- What an operation takes off the pool, it queues. -/
def WakesRemoved (s : WaiterLedger N φ κ) (a : Act φ κ) : Prop :=
  ∀ s', s.step a = some s' → ∃ put, s'.woken = s.woken ++ put ∧
    ∀ fd d t, ((s.iom.eventAt fd).getEvent d).task = some t →
      ((s'.iom.eventAt fd).getEvent d).task = some t ∨ t ∈ put

/-- The condition on a step: `delEvent`, also the one of a `close`, finds no event. -/
def NoneForgotten (s : WaiterLedger N φ κ) : Act φ κ → Prop
  | .event (.delEvent fd _) => (s.iom.eventAt fd).event = 0
  | .close fd ctx _ _ => ctx = true → (s.iom.eventAt fd).event = 0
  | _ => True

/-- An entry in the books. -/
structure Entry (s s' : WaiterLedger N φ κ) (came put lost : List (Task φ κ)) : Prop where
  ordered : s'.iom.Ordered
  accepted : s'.accepted = s.accepted ++ came
  woken : s'.woken = s.woken ++ put
  pool : (s.iom.registered ++ came).Perm (s'.iom.registered ++ (put ++ lost))
  slot : ∀ fd d t, ((s.iom.eventAt fd).getEvent d).task = some t →
    ((s'.iom.eventAt fd).getEvent d).task = some t ∨ t ∈ put ++ lost

theorem entry_book (hs : s.iom.Ordered) {fd : ℤ} {iom : IOManager N φ κ}
    {came put lost : List (Task φ κ)} (h : IOManager.Moves fd s.iom iom came put lost) :
    Entry s (s.book came iom) came put lost where
  ordered := h.ordered hs
  accepted := rfl
  woken := by rw [book, h.queue, List.drop_left]
  pool := h.registered
  slot g d t ht := by
    by_cases hg : g = fd
    · subst hg
      exact h.slot d t ht
    · refine .inl ?_
      show ((iom.eventAt g).getEvent d).task = some t
      rw [h.frame.eventAt hg]
      exact ht

/-- `close` does with the waiters what its `delEvent` does. -/
theorem moves_close (hs : s.iom.Ordered) {fd : ℤ} {ctx fault last : Bool}
    {iom : IOManager N φ κ} (h : s.iom.close fd ctx fault last = some iom) :
    IOManager.Moves fd s.iom iom [] []
      (if ctx then (s.iom.eventAt fd).waiters else []) := by
  obtain ⟨iom₁, hdel, rfl⟩ := Option.map_eq_some_iff.mp h
  have hmoves : IOManager.Moves fd s.iom iom₁ [] []
      (if ctx then (s.iom.eventAt fd).waiters else []) := by
    cases ctx with
    | true => exact IOManager.moves_delEvent hs.wf (hs.tidy fd) hdel
    | false =>
      obtain rfl : s.iom = iom₁ := Option.some_inj.mp hdel
      exact .still (.refl hs.wf fd) (hs.tidy fd) rfl rfl
  cases last with
  | false => exact hmoves
  | true =>
    -- what the kernel drops is the entry of the same descriptor
    refine ⟨?_, hmoves.tidy, hmoves.queue, hmoves.perm, hmoves.slot⟩
    have hframe := hmoves.frame
    exact ⟨⟨hframe.wf.cnt, hframe.wf.size, hframe.wf.fd⟩, hframe.eventAt,
      fun hg => (Function.update_of_ne hg _ _).trans (hframe.epoll hg), hframe.mEventfd,
      hframe.threadCnt, hframe.mTimerCnt, hframe.mTimerManager⟩

theorem waiters_eq_nil_iff (hs : s.iom.Ordered) (fd : ℤ) :
    (s.iom.eventAt fd).waiters = [] ↔ (s.iom.eventAt fd).event = 0 :=
  ⟨fun h => by_contra fun hne => (hs.tidy fd).waiters_ne_nil hne h, (hs.tidy fd).waiters_eq_nil⟩

/-- The step lemma: only a `delEvent` that finds waiters loses any. -/
theorem entry_step (hs : s.iom.Ordered) {a : Act φ κ} (h : s.step a = some s') :
    ∃ came put lost, Entry s s' came put lost ∧ (lost = [] ↔ s.NoneForgotten a) := by
  cases a with
  | event op =>
    obtain ⟨iom, hop, rfl⟩ := Option.map_eq_some_iff.mp h
    cases op with
    | addEvent fd d cb flag cur fault =>
      exact ⟨_, [], [], entry_book hs (IOManager.moves_addEvent hs.wf (hs.tidy fd) hop),
        iff_of_true rfl trivial⟩
    | cancelEvent fd d fault =>
      obtain ⟨put, hput⟩ := IOManager.moves_cancelEvent hs.wf (hs.tidy fd) hop
      exact ⟨[], put, [], entry_book hs hput, iff_of_true rfl trivial⟩
    | delEvent fd fault =>
      exact ⟨[], [], _, entry_book hs (IOManager.moves_delEvent hs.wf (hs.tidy fd) hop),
        waiters_eq_nil_iff hs fd⟩
    | dispatch fd events fault =>
      obtain ⟨put, hput⟩ := IOManager.moves_dispatch hs.wf (hs.tidy fd) hop
      exact ⟨[], put, [], entry_book hs hput, iff_of_true rfl trivial⟩
  | close fd ctx fault last =>
    obtain ⟨iom, hclose, rfl⟩ := Option.map_eq_some_iff.mp h
    refine ⟨[], [], _, entry_book hs (moves_close hs hclose), ?_⟩
    cases ctx with
    | true =>
      rw [if_pos rfl, waiters_eq_nil_iff hs fd]
      exact ⟨fun h _ => h, fun h => h rfl⟩
    | false => exact iff_of_true rfl fun h => absurd h (by decide)
  | others mTasks =>
    obtain rfl := Option.some_inj.mp h
    refine ⟨[], [], [], ⟨hs.congr rfl rfl, ?_, ?_, ?_, ?_⟩, iff_of_true rfl trivial⟩
    · exact (List.append_nil _).symm
    · exact (List.append_nil _).symm
    · exact .refl _
    · exact fun _ _ _ ht => .inl ht

/-! ### Runs -/

/-- The accepted registrations that are nowhere. -/
def owed (s : WaiterLedger N φ κ) : ℤ :=
  s.accepted.length - (s.iom.registered.length + s.woken.length)

theorem Entry.owed {came put lost : List (Task φ κ)} (h : Entry s s' came put lost) :
    s'.owed = s.owed + lost.length := by
  have hlen := h.pool.length_eq
  simp only [List.length_append] at hlen
  simp only [WaiterLedger.owed, h.accepted, h.woken, List.length_append]
  omega

theorem Conserved.owed (h : s.Conserved) : s.owed = 0 := by
  have hlen := h.length_eq
  rw [List.length_append] at hlen
  rw [WaiterLedger.owed, hlen]
  omega

theorem Entry.conserved (hs : s.Conserved) {came put : List (Task φ κ)}
    (h : Entry s s' came put []) : s'.Conserved := by
  have hpool := h.pool
  rw [List.append_nil] at hpool
  rw [Conserved, h.accepted, h.woken]
  -- accepted, came / registered, woken, came / registered, came, woken / registered', put, woken
  refine (hs.append_right came).trans ?_
  rw [List.append_assoc]
  refine (List.perm_append_comm.append_left _).trans ?_
  rw [← List.append_assoc]
  refine (hpool.append_right _).trans ?_
  rw [List.append_assoc]
  exact List.perm_append_comm.append_left _

/-- A run never finds again what it lost. -/
theorem owed_run (hs : s.iom.Ordered) {as : List (Act φ κ)} (h : run step as s = some s') :
    s.owed ≤ s'.owed ∧ (s'.owed = s.owed → Along step NoneForgotten as s) := by
  induction as generalizing s with
  | nil =>
    obtain rfl := Option.some_inj.mp h
    exact ⟨le_rfl, fun _ => trivial⟩
  -- what is owed never shrinks, so if it is the same in the end no step has added to it
  | cons a as ih =>
    obtain ⟨t, ht, h⟩ := run_cons_eq_some.mp h
    obtain ⟨came, put, lost, hentry, hlost⟩ := entry_step hs ht
    obtain ⟨hle, halong⟩ := ih hentry.ordered h
    have howed := hentry.owed
    refine ⟨by omega, fun heq => ⟨hlost.mp ?_, fun u hu => ?_⟩⟩
    · exact List.length_eq_zero_iff.mp (by omega)
    · obtain rfl := Option.some_inj.mp (ht.symm.trans hu)
      exact halong (by omega)

theorem ordered_create (threadCnt : ℕ) (mTimerManager : TimerManager N κ) (mEventfd : ℤ) :
    (IOManager.create threadCnt mTimerManager mEventfd : IOManager N φ κ).Ordered := by
  refine ⟨IOManager.poolWf_create threadCnt mTimerManager mEventfd, fun fd => ?_⟩
  rw [IOManager.eventAt_create]
  exact Event.tidy_new fd

theorem conserved_create (threadCnt : ℕ) (mTimerManager : TimerManager N κ) (mEventfd : ℤ) :
    (start (.create threadCnt mTimerManager mEventfd) : WaiterLedger N φ κ).Conserved := by
  have hnone : (IOManager.create threadCnt mTimerManager mEventfd :
      IOManager N φ κ).registered = [] := by
    rw [IOManager.registered_eq le_rfl]
    refine List.flatMap_eq_nil_iff.mpr fun i _ => ?_
    rw [IOManager.eventAt_create, Event.waiters_new]
  rw [Conserved, start, hnone]
  exact .refl _

/-- **Every waiter taken off is woken, and the books balance**, after a run of any
operations with any outcomes of their `epoll_ctl`, if and only if no `delEvent` and no
`close` of the run met a waiter. -/
theorem conserved_iff {threadCnt : ℕ} {mTimerManager : TimerManager N κ} {mEventfd : ℤ}
    {as : List (Act φ κ)}
    (h : run step as (start (.create threadCnt mTimerManager mEventfd)) = some s) :
    (s.Conserved ∧ Along step WakesRemoved as (start (.create threadCnt mTimerManager mEventfd))) ↔
      Along step NoneForgotten as (start (.create threadCnt mTimerManager mEventfd)) := by
  have hordered := ordered_create (φ := φ) threadCnt mTimerManager mEventfd
  have hstart := conserved_create (φ := φ) threadCnt mTimerManager mEventfd
  constructor
  -- counting is enough for this direction: a waiter once lost is owed for ever
  · rintro ⟨hs, -⟩
    refine (owed_run hordered h).2 ?_
    rw [hs.owed, hstart.owed]
  · intro hnone
    constructor
    · refine (hnone.run_invariant (I := fun s => s.iom.Ordered ∧ s.Conserved) ?_
        ⟨hordered, hstart⟩ h).2
      intro s a s' hs hok hstep
      obtain ⟨came, put, lost, hentry, hlost⟩ := entry_step hs.1 hstep
      obtain rfl := hlost.mpr hok
      exact ⟨hentry.ordered, hentry.conserved hs.2⟩
    · refine hnone.imp (I := fun s => s.iom.Ordered) (fun s a s' hs hstep hok => ?_) hordered h
      obtain ⟨came, put, lost, hentry, hlost⟩ := entry_step hs hstep
      obtain rfl := hlost.mpr hok
      refine ⟨fun t ht => ?_, hentry.ordered⟩
      obtain rfl := Option.some_inj.mp (hstep.symm.trans ht)
      exact ⟨put, hentry.woken, fun fd d t ht => by simpa using hentry.slot fd d t ht⟩

/-- Fiber 0 waits to read descriptor 5, and a callback for it to be writable. -/
def twoWaiters : List (Act ℕ ℕ) :=
  [.event (.addEvent 5 .read none ET 0 false), .event (.addEvent 5 .write (some 7) ET 1 false)]

/-- An event loop with `mEventfd` 3. -/
def ledgerOf3 : WaiterLedger 60 ℕ ℕ := start (.create 1 TimerManager.defaultWheel 3)

set_option maxRecDepth 2000 in
/-- Both are reported, and the descriptor is closed after that. -/
theorem conserved_reported :
    ∃ s, run step (twoWaiters ++ [.event (.dispatch 5 (IN ||| OUT) false),
        .close 5 true false true]) ledgerOf3 = some s ∧
      s.woken = [.ofFiber 0, .ofFunc 7] ∧ s.Conserved := by
  have hrun : ∃ s, run step (twoWaiters ++ [.event (.dispatch 5 (IN ||| OUT) false),
      .close 5 true false true]) ledgerOf3 = some s ∧ s.woken = [.ofFiber 0, .ofFunc 7] :=
    ⟨_, rfl, rfl⟩
  obtain ⟨s, hs, hwoken⟩ := hrun
  refine ⟨s, hs, hwoken, ((conserved_iff hs).mpr ?_).1⟩
  refine ⟨trivial, fun t ht => ⟨trivial, fun u hu => ⟨trivial, fun v hv =>
    ⟨?_, fun _ _ => trivial⟩⟩⟩⟩
  obtain rfl := Option.some_inj.mp ht
  obtain rfl := Option.some_inj.mp hu
  obtain rfl := Option.some_inj.mp hv
  exact fun _ => rfl

set_option maxRecDepth 2000 in
/-- The descriptor is closed while they wait: nothing is registered or queued. -/
theorem closed_forgets :
    ∃ s, run step (twoWaiters ++ [.close 5 true false true]) ledgerOf3 = some s ∧
      s.accepted = [.ofFiber 0, .ofFunc 7] ∧ s.iom.registered = [] ∧ s.woken = [] ∧
      ¬ s.Conserved := by
  have hrun : ∃ s, run step (twoWaiters ++ [.close 5 true false true]) ledgerOf3 = some s ∧
      s.accepted = [.ofFiber 0, .ofFunc 7] ∧ s.iom.registered = [] ∧ s.woken = [] :=
    ⟨_, rfl, rfl, rfl, rfl⟩
  obtain ⟨s, hs, haccepted, hregistered, hwoken⟩ := hrun
  refine ⟨s, hs, haccepted, hregistered, hwoken, fun h => ?_⟩
  have := h.length_eq
  rw [haccepted, hregistered, hwoken] at this
  exact absurd this (by decide)

end WaiterLedger

end Server
