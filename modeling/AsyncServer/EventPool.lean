/-
What each operation does to the event pool.

`eventAt s fd` is the `Event` of a descriptor, a fresh one where the pool does
not reach yet, so that growing the pool changes nothing (`eventAt_grow`).  Every
operation on a descriptor leaves all other descriptors alone (`Frame`), and for
its own there is one lemma an operation: `addEventCtl_cases`,
`addEventUpdate_eq`, `cancelEvent_cases`, `delEvent_cases`, `dispatch_cases`.
-/
import AsyncServer.IOManager

namespace Server

open Epoll

namespace IOManager

variable {N : ℕ} {φ κ : Type*} {s s' : IOManager N φ κ} {fd : ℤ} {d : Dir} {fault : Bool}

/-- The `Event` of `fd`, or the one that the pool will have for it. -/
def eventAt (s : IOManager N φ κ) (fd : ℤ) : Event φ κ := (s.eventPtr fd).getD (.new fd)

/-- A pool in order: the count is the size, never less than the first one, and
every `Event` knows its index. -/
structure PoolWf (s : IOManager N φ κ) : Prop where
  cnt : s.mEventCnt = s.mEvents.length
  size : 128 ≤ s.mEventCnt
  fd : ∀ {fd task}, s.eventPtr fd = some task → task.fd = fd

/-- What an operation on `fd` leaves alone. -/
structure Frame (fd : ℤ) (s s' : IOManager N φ κ) : Prop where
  wf : s'.PoolWf
  eventAt : ∀ {g}, g ≠ fd → s'.eventAt g = s.eventAt g
  epoll : ∀ {g}, g ≠ fd → s'.epoll g = s.epoll g
  mEventfd : s'.mEventfd = s.mEventfd
  threadCnt : s'.threadCnt = s.threadCnt
  mTimerCnt : s'.mTimerCnt = s.mTimerCnt
  mTimerManager : s'.mTimerManager = s.mTimerManager

theorem Frame.refl (hs : s.PoolWf) (fd : ℤ) : Frame fd s s :=
  ⟨hs, fun _ => rfl, fun _ => rfl, rfl, rfl, rfl, rfl⟩

theorem Frame.trans {s'' : IOManager N φ κ} (h : Frame fd s s') (h' : Frame fd s' s'') :
    Frame fd s s'' where
  wf := h'.wf
  eventAt hg := (h'.eventAt hg).trans (h.eventAt hg)
  epoll hg := (h'.epoll hg).trans (h.epoll hg)
  mEventfd := h'.mEventfd.trans h.mEventfd
  threadCnt := h'.threadCnt.trans h.threadCnt
  mTimerCnt := h'.mTimerCnt.trans h.mTimerCnt
  mTimerManager := h'.mTimerManager.trans h.mTimerManager

theorem eventAt_of_eventPtr {task : Event φ κ} (h : s.eventPtr fd = some task) :
    s.eventAt fd = task := by
  rw [eventAt, h, Option.getD_some]

theorem fd_eventAt (hs : s.PoolWf) (fd : ℤ) : (s.eventAt fd).fd = fd := by
  rw [eventAt]
  cases h : s.eventPtr fd with
  | none => rfl
  | some task => exact hs.fd h

theorem eventPtr_isSome : (s.eventPtr fd).isSome ↔ 0 ≤ fd ∧ fd < s.mEvents.length := by
  unfold eventPtr
  split_ifs with h
  · rw [isSome_getElem?]
    simp only [h, true_and]
    omega
  · simp [h]

theorem eventPtr_assign (h : (s.eventPtr fd).isSome) (task : Event φ κ) (g : ℤ) :
    (s.assign fd task).eventPtr g = if g = fd then some task else s.eventPtr g := by
  obtain ⟨h0, hlt⟩ := eventPtr_isSome.mp h
  by_cases hg : g = fd
  · subst hg
    rw [if_pos rfl, eventPtr, if_pos h0, assign, List.getElem?_set_self (by omega)]
  · rw [if_neg hg, eventPtr, eventPtr]
    split_ifs with hg0
    · rw [assign, List.getElem?_set_ne (by omega)]
    · rfl

theorem eventAt_assign (h : (s.eventPtr fd).isSome) (task : Event φ κ) :
    (s.assign fd task).eventAt fd = task :=
  eventAt_of_eventPtr (by rw [eventPtr_assign h, if_pos rfl])

theorem frame_assign (hs : s.PoolWf) (h : (s.eventPtr fd).isSome) {task : Event φ κ}
    (htask : task.fd = fd) : Frame fd s (s.assign fd task) := by
  refine ⟨⟨?_, hs.size, fun {g t} hg => ?_⟩, fun {g} hg => ?_, fun _ => rfl, rfl, rfl, rfl, rfl⟩
  · rw [assign, List.length_set]
    exact hs.cnt
  · rw [eventPtr_assign h] at hg
    split_ifs at hg with hgfd
    · rw [← Option.some_inj.mp hg, htask, hgfd]
    · exact hs.fd hg
  · rw [eventAt, eventPtr_assign h, if_neg hg, eventAt]

/-! ### Growing -/

theorem ctxResize_of_le {size : ℕ} (h : s.mEvents.length ≤ size) (g : ℤ) :
    (s.ctxResize size).eventPtr g =
      if 0 ≤ g ∧ g < size then some (s.eventAt g) else none := by
  unfold eventPtr
  by_cases h0 : 0 ≤ g
  · rw [if_pos h0, ctxResize, List.take_of_length_le h]
    -- an old event, a new one, or behind the new end
    by_cases hold : g.toNat < s.mEvents.length
    · rw [List.getElem?_append_left hold, if_pos ⟨h0, by omega⟩, eventAt, eventPtr, if_pos h0,
        List.getElem?_eq_getElem hold, Option.getD_some]
    · have hnew : s.eventAt g = .new g := by
        rw [eventAt, eventPtr, if_pos h0, List.getElem?_eq_none (by omega), Option.getD_none]
      rw [List.getElem?_append_right (by omega), List.getElem?_map, hnew]
      by_cases hg : g < size
      · rw [List.getElem?_range' (by omega), if_pos ⟨h0, hg⟩, Option.map_some]
        congr 2
        omega
      · rw [List.getElem?_eq_none (by rw [List.length_range']; omega), if_neg fun h => hg h.2,
          Option.map_none]
  · rw [if_neg h0, if_neg fun h => h0 h.1]

theorem length_ctxResize {size : ℕ} (h : s.mEvents.length ≤ size) :
    (s.ctxResize size).mEvents.length = size := by
  simp only [ctxResize, List.length_append, List.length_take, List.length_map, List.length_range']
  omega

/-- `ctxResize` to no smaller a size is invisible. -/
theorem eventAt_ctxResize {size : ℕ} (h : s.mEvents.length ≤ size) (g : ℤ) :
    (s.ctxResize size).eventAt g = s.eventAt g := by
  rw [eventAt, ctxResize_of_le h]
  split_ifs with hg
  · rw [Option.getD_some]
  · rw [Option.getD_none, eventAt]
    cases hp : s.eventPtr g with
    | none => rfl
    | some task =>
      have := eventPtr_isSome.mp (Option.isSome_of_eq_some hp)
      omega

theorem frame_ctxResize (hs : s.PoolWf) {size : ℕ} (h : s.mEvents.length ≤ size) (fd : ℤ) :
    Frame fd s (s.ctxResize size) := by
  refine ⟨⟨rfl, ?_, fun {g task} hg => ?_⟩, fun _ => eventAt_ctxResize h _, fun _ => rfl, rfl,
    rfl, rfl, rfl⟩
  · show 128 ≤ (s.ctxResize size).mEvents.length
    rw [length_ctxResize h]
    exact hs.size.trans (hs.cnt ▸ h)
  -- new events carry their index, as the old ones do
  · rw [ctxResize_of_le h] at hg
    split_ifs at hg
    rw [← Option.some_inj.mp hg, fd_eventAt hs]

theorem eventAt_create (threadCnt : ℕ) (mTimerManager : TimerManager N κ) (mEventfd fd : ℤ) :
    (create threadCnt mTimerManager mEventfd : IOManager N φ κ).eventAt fd = .new fd := by
  rw [create, eventAt_ctxResize (by simp), eventAt, eventPtr]
  simp

theorem poolWf_create (threadCnt : ℕ) (mTimerManager : TimerManager N κ) (mEventfd : ℤ) :
    (create threadCnt mTimerManager mEventfd : IOManager N φ κ).PoolWf := by
  refine ⟨rfl, (length_ctxResize (by simp)).ge, fun {fd task} h => ?_⟩
  rw [← eventAt_of_eventPtr h, eventAt_create]
  rfl

/-- `addEvent` asks for no smaller a pool. -/
theorem grow_eq (hs : s.PoolWf) (fd : ℤ) :
    s.grow fd = s ∨ ∃ size, s.mEvents.length ≤ size ∧ s.grow fd = s.ctxResize size := by
  unfold grow
  split_ifs with h
  · have := hs.cnt
    exact .inr ⟨_, by omega, rfl⟩
  · exact .inl rfl

theorem frame_grow (hs : s.PoolWf) (fd g : ℤ) : Frame g s (s.grow fd) := by
  obtain h | ⟨size, hsize, h⟩ := grow_eq hs fd
  · rw [h]
    exact .refl hs g
  · rw [h]
    exact frame_ctxResize hs hsize g

theorem eventAt_grow (hs : s.PoolWf) (fd g : ℤ) : (s.grow fd).eventAt g = s.eventAt g := by
  obtain h | ⟨size, hsize, h⟩ := grow_eq hs fd
  · rw [h]
  · rw [h, eventAt_ctxResize hsize]

@[simp] theorem epoll_grow (s : IOManager N φ κ) (fd : ℤ) : (s.grow fd).epoll = s.epoll := by
  unfold grow
  split_ifs <;> rfl

@[simp] theorem mTasks_grow (s : IOManager N φ κ) (fd : ℤ) : (s.grow fd).mTasks = s.mTasks := by
  unfold grow
  split_ifs <;> rfl

/-- **After the growth step the pool reaches the descriptor.** -/
theorem eventPtr_grow (hs : s.PoolWf) (h0 : 0 ≤ fd) :
    (s.grow fd).eventPtr fd = some (s.eventAt fd) := by
  have hcnt := hs.cnt
  have hsize := hs.size
  unfold grow
  split_ifs with h
  · rw [ctxResize_of_le (by omega), if_pos (by omega)]
  · obtain ⟨task, ht⟩ : ∃ task, s.eventPtr fd = some task :=
      Option.isSome_iff_exists.mp (eventPtr_isSome.mpr ⟨h0, by omega⟩)
    rw [ht, eventAt_of_eventPtr ht]

/-! ### The operations -/

/-- The first half of `addEvent` either returns, for the direction is there or
the `epoll_ctl` fails, or goes on with the direction in the interest set. -/
theorem addEventCtl_cases (hs : s.PoolWf) {flag : Mask} {go : Bool}
    (h : s.addEventCtl fd d flag fault = some (go, s')) :
    Frame fd s s' ∧ s'.eventAt fd = s.eventAt fd ∧ s'.mTasks = s.mTasks ∧
      (s'.eventPtr fd).isSome ∧
      ((go = false ∧ s'.epoll = s.epoll ∧
          ((s.eventAt fd).event &&& d.mask = 0 →
            ctl s.epoll (s.eventAt fd).addOp fd (flag ||| d.mask ||| (s.eventAt fd).event) fault =
              none)) ∨
        (go = true ∧ (s.eventAt fd).event &&& d.mask = 0 ∧
          ctl s.epoll (s.eventAt fd).addOp fd
            (flag ||| d.mask ||| (s.eventAt fd).event) fault = some s'.epoll)) := by
  obtain ⟨task, htask, h⟩ := Option.map_eq_some_iff.mp h
  have hat : s.eventAt fd = task := by rw [← eventAt_grow hs fd, eventAt_of_eventPtr htask]
  -- the growth step alone, which comes before the test in every case
  have hgrow : Frame fd s (s.grow fd) ∧ (s.grow fd).eventAt fd = s.eventAt fd ∧
      (s.grow fd).mTasks = s.mTasks ∧ ((s.grow fd).eventPtr fd).isSome :=
    ⟨frame_grow hs fd fd, eventAt_grow hs fd fd, mTasks_grow s fd, by rw [htask]; rfl⟩
  rw [epoll_grow] at h
  rw [hat]
  split_ifs at h with hbit
  · obtain ⟨rfl, rfl⟩ := Prod.mk.inj h
    rw [← hat]
    exact ⟨hgrow.1, hgrow.2.1, hgrow.2.2.1, hgrow.2.2.2, .inl ⟨rfl, epoll_grow s fd,
      fun h0 => absurd (hat ▸ h0) hbit⟩⟩
  · split at h
    · rename_i hctl
      obtain ⟨rfl, rfl⟩ := Prod.mk.inj h
      rw [← hat]
      exact ⟨hgrow.1, hgrow.2.1, hgrow.2.2.1, hgrow.2.2.2, .inl ⟨rfl, epoll_grow s fd,
        fun _ => hat ▸ hctl⟩⟩
    · rename_i epoll hctl
      obtain ⟨rfl, rfl⟩ := Prod.mk.inj h
      rw [← hat]
      refine ⟨⟨⟨hgrow.1.wf.cnt, hgrow.1.wf.size, hgrow.1.wf.fd⟩, hgrow.1.eventAt,
        fun hg => ctl_of_ne hctl hg, hgrow.1.mEventfd, hgrow.1.threadCnt, hgrow.1.mTimerCnt,
        hgrow.1.mTimerManager⟩, hgrow.2.1, hgrow.2.2.1, hgrow.2.2.2, .inr ⟨rfl, ?_, ?_⟩⟩
      · rw [hat]
        simpa using hbit
      · rw [hat]
        exact hctl

/-- The second half of `addEvent` registers. -/
theorem addEventUpdate_eq (hs : s.PoolWf) {cb : Option κ} {cur : φ}
    (h : s.addEventUpdate fd d cb cur = some s') :
    Frame fd s s' ∧ s'.eventAt fd = (s.eventAt fd).register d cb cur ∧ s'.mTasks = s.mTasks ∧
      s'.epoll = s.epoll := by
  obtain ⟨task, htask, rfl⟩ := Option.map_eq_some_iff.mp h
  have hsome : (s.eventPtr fd).isSome := Option.isSome_of_eq_some htask
  rw [eventAt_of_eventPtr htask]
  exact ⟨frame_assign hs hsome (by simp [Event.register, hs.fd htask]), eventAt_assign hsome _,
    rfl, rfl⟩

/-- The two halves together leave the other descriptors alone. -/
theorem frame_addEvent (hs : s.PoolWf) {cb : Option κ} {flag : Mask} {cur : φ}
    (h : s.addEvent fd d cb flag cur fault = some s') : Frame fd s s' := by
  obtain ⟨r, hctl, hupdate⟩ := Option.bind_eq_some_iff.mp h
  have hframe := (addEventCtl_cases hs hctl).1
  split_ifs at hupdate
  · exact hframe.trans (addEventUpdate_eq hframe.wf hupdate).1
  · exact Option.some_inj.mp hupdate ▸ hframe

/-- The `Event` of a descriptor that the pool does not reach is fresh. -/
theorem eventAt_of_le (hs : s.PoolWf) (h : (s.mEventCnt : ℤ) ≤ fd) : s.eventAt fd = .new fd := by
  have hcnt := hs.cnt
  have hnone : s.eventPtr fd = none := by
    refine Option.not_isSome_iff_eq_none.mp fun hp => ?_
    have := eventPtr_isSome.mp hp
    omega
  rw [eventAt, hnone, Option.getD_none]

/-- A step that stores the event and puts the interest set and the queue in
place. -/
theorem frame_update (hs : s.PoolWf) {task task' : Event φ κ}
    (htask : s.eventPtr fd = some task) (hfd : task'.fd = task.fd) (epoll : InterestSet)
    (hepoll : ∀ {g}, g ≠ fd → epoll g = s.epoll g) (mTasks : List (Task φ κ)) :
    Frame fd s { s.assign fd task' with epoll := epoll, mTasks := mTasks } ∧
      ({ s.assign fd task' with epoll := epoll, mTasks := mTasks } : IOManager N φ κ).eventAt fd =
        task' := by
  have hsome : (s.eventPtr fd).isSome := Option.isSome_of_eq_some htask
  -- `assign` touches one event, and the fields written besides are not part of the frame
  have hframe := frame_assign hs hsome (hfd.trans (hs.fd htask))
  exact ⟨⟨⟨hframe.wf.cnt, hframe.wf.size, hframe.wf.fd⟩, hframe.eventAt, hepoll, rfl, rfl, rfl,
    rfl⟩, eventAt_assign hsome task'⟩

/-- `cancelEvent` does nothing, or triggers the direction. -/
theorem cancelEvent_cases (hs : s.PoolWf) (h : s.cancelEvent fd d fault = some s') :
    Frame fd s s' ∧
      (((s.eventAt fd).event &&& d.mask = 0 ∧ s' = s) ∨
        ((s.eventAt fd).event &&& d.mask ≠ 0 ∧
          (s'.eventAt fd, s'.mTasks) =
            Event.triggerEvent s.threadCnt d (s.eventAt fd, s.mTasks) ∧
          s'.epoll = (ctl s.epoll (leaveOp ((s.eventAt fd).event &&& ~~~d.mask)) fd
            ((s.eventAt fd).event ||| ET) fault).getD s.epoll)) := by
  unfold cancelEvent at h
  split_ifs at h with hcnt
  · obtain rfl := Option.some_inj.mp h
    -- out of the pool's range: a fresh event, with no direction to cancel
    rw [eventAt_of_le hs hcnt]
    exact ⟨.refl hs fd, .inl ⟨BitVec.zero_and, rfl⟩⟩
  · obtain ⟨task, htask, h⟩ := Option.map_eq_some_iff.mp h
    rw [eventAt_of_eventPtr htask]
    split_ifs at h with hbit
    · obtain ⟨hframe, hat⟩ := frame_update hs htask (Event.fd_triggerEvent s.threadCnt d
        (task, s.mTasks)) _ (fun hg => ctl_getD_of_ne hg) _
      rw [← h]
      exact ⟨hframe, .inr ⟨hbit, by rw [hat], rfl⟩⟩
    · rw [← h]
      exact ⟨.refl hs fd, .inl ⟨by simpa using hbit, rfl⟩⟩

/-- `delEvent` does nothing, or forgets both directions. -/
theorem delEvent_cases (hs : s.PoolWf) (h : s.delEvent fd fault = some s') :
    Frame fd s s' ∧ s'.mTasks = s.mTasks ∧
      (((s.eventAt fd).event = 0 ∧ s' = s) ∨
        ((s.eventAt fd).event ≠ 0 ∧ s'.eventAt fd = .new fd ∧
          s'.epoll = (ctl s.epoll .del fd 0 fault).getD s.epoll)) := by
  unfold delEvent at h
  split_ifs at h with hcnt
  · obtain rfl := Option.some_inj.mp h
    rw [eventAt_of_le hs hcnt]
    exact ⟨.refl hs fd, rfl, .inl ⟨rfl, rfl⟩⟩
  · obtain ⟨task, htask, h⟩ := Option.map_eq_some_iff.mp h
    rw [eventAt_of_eventPtr htask]
    split_ifs at h with hbit
    · rw [← h]
      exact ⟨.refl hs fd, rfl, .inl ⟨hbit, rfl⟩⟩
    -- what is left after the two resets is an event as the pool makes it
    · have hnew : ((({ task with event := 0 } : Event φ κ).reset .read).reset .write) = .new fd := by
        rw [← hs.fd htask]
        rfl
      have hfd : (Event.new fd : Event φ κ).fd = task.fd := (hs.fd htask).symm
      rw [hnew] at h
      obtain ⟨hframe, hat⟩ := frame_update hs htask hfd _ (fun hg => ctl_getD_of_ne hg) s.mTasks
      rw [← h]
      exact ⟨hframe, rfl, .inr ⟨hbit, hat, rfl⟩⟩

theorem fd_triggerAll (threadCnt : ℕ) (real : Mask) (r : Event φ κ × List (Task φ κ)) :
    (triggerAll threadCnt real r).1.fd = r.1.fd := by
  unfold triggerAll
  split_ifs <;> simp

/-- The triggers of a notification take its directions out of `event`. -/
theorem event_triggerAll (threadCnt : ℕ) (events : Mask) (r : Event φ κ × List (Task φ κ)) :
    (triggerAll threadCnt (realEvent events) r).1.event = r.1.event &&& ~~~realEvent events := by
  -- `realEvent` is one of four masks, and the triggers are those of its directions
  have hreal : realEvent events = 0 ∨ realEvent events = IN ∨ realEvent events = OUT ∨
      realEvent events = IN ||| OUT := by
    unfold realEvent
    split_ifs
    · exact .inr (.inr (.inr rfl))
    · exact .inr (.inl (by decide))
    · exact .inr (.inr (.inl (by decide)))
    · exact .inl (by decide)
  unfold triggerAll
  rcases hreal with h | h | h | h <;> rw [h]
  · rw [if_neg (by decide), if_neg (by decide)]
    exact BitVec.and_allOnes.symm
  · rw [if_neg (by decide), if_pos (by decide), Event.event_triggerEvent]
    rfl
  · rw [if_pos (by decide), if_neg (by decide), Event.event_triggerEvent]
    rfl
  · rw [if_pos (by decide), if_pos (by decide), Event.event_triggerEvent,
      Event.event_triggerEvent, BitVec.and_assoc]
    rfl

/-- A trigger of a notification empties a slot, or leaves it. -/
theorem getEvent_triggerAll (threadCnt : ℕ) (real : Mask) (r : Event φ κ × List (Task φ κ))
    (d : Dir) :
    (triggerAll threadCnt real r).1.getEvent d = ⟨none, none⟩ ∨
      (triggerAll threadCnt real r).1.getEvent d = r.1.getEvent d := by
  -- one trigger empties its own slot, and two of them are two of these
  have hone : ∀ e (r : Event φ κ × List (Task φ κ)),
      (Event.triggerEvent threadCnt e r).1.getEvent d = ⟨none, none⟩ ∨
        (Event.triggerEvent threadCnt e r).1.getEvent d = r.1.getEvent d := by
    intro e r
    by_cases hde : d = e
    · rw [hde, Event.getEvent_triggerEvent]
      exact .inl rfl
    · exact .inr (Event.getEvent_triggerEvent_of_ne threadCnt e r hde)
  unfold triggerAll
  split_ifs
  · rcases hone .write (Event.triggerEvent threadCnt .read r) with h | h
    · exact .inl h
    · rw [h]
      exact hone .read r
  · exact hone .read r
  · exact hone .write r
  · exact .inr rfl

/-- A direction of the notification is triggered. -/
theorem getEvent_triggerAll_self (threadCnt : ℕ) {real : Mask} {d : Dir} (h : real &&& d.mask ≠ 0)
    (r : Event φ κ × List (Task φ κ)) :
    (triggerAll threadCnt real r).1.getEvent d = ⟨none, none⟩ := by
  unfold triggerAll
  cases d with
  | read =>
    change real &&& IN ≠ 0 at h
    rw [if_pos h]
    dsimp only
    split_ifs
    · rw [Event.getEvent_triggerEvent_of_ne _ _ _ (by decide), Event.getEvent_triggerEvent]
    · exact Event.getEvent_triggerEvent threadCnt .read r
  | write =>
    change real &&& OUT ≠ 0 at h
    dsimp only
    rw [if_pos h]
    exact Event.getEvent_triggerEvent threadCnt .write _

/-- A direction that the notification does not name is left alone. -/
theorem getEvent_triggerAll_of_not (threadCnt : ℕ) {real : Mask} {d : Dir}
    (h : real &&& d.mask = 0) (r : Event φ κ × List (Task φ κ)) :
    (triggerAll threadCnt real r).1.getEvent d = r.1.getEvent d := by
  unfold triggerAll
  cases d with
  | read =>
    change real &&& IN = 0 at h
    rw [if_neg (not_not.mpr h)]
    dsimp only
    split_ifs
    · exact Event.getEvent_triggerEvent_of_ne _ _ _ (by decide)
    · rfl
  | write =>
    change real &&& OUT = 0 at h
    dsimp only
    rw [if_neg (not_not.mpr h)]
    split_ifs
    · exact Event.getEvent_triggerEvent_of_ne _ _ _ (by decide)
    · rfl

/-- The tasks that a notification queues: those of its directions, in this order. -/
theorem tasks_triggerAll (threadCnt : ℕ) (real : Mask) (r : Event φ κ × List (Task φ κ)) :
    (triggerAll threadCnt real r).2 = r.2 ++
      ((if real &&& IN ≠ 0 then (r.1.getEvent .read).task.toList else []) ++
        if real &&& OUT ≠ 0 then (r.1.getEvent .write).task.toList else []) := by
  have hwrite : (Event.triggerEvent threadCnt .read r).1.getEvent .write = r.1.getEvent .write :=
    Event.getEvent_triggerEvent_of_ne _ _ _ (by decide)
  unfold triggerAll
  split_ifs
  · rw [Event.tasks_triggerEvent, Event.tasks_triggerEvent, hwrite, List.append_assoc]
  · rw [Event.tasks_triggerEvent, List.append_nil]
  · rw [Event.tasks_triggerEvent, List.nil_append]
  · rw [List.append_nil, List.append_nil]

theorem realEvent_and_mask {events : Mask} {d : Dir} (h : events &&& d.mask ≠ 0) :
    realEvent events &&& d.mask ≠ 0 := by
  unfold realEvent
  cases d with
  | read =>
    change events &&& IN ≠ 0 at h
    rw [if_pos h, BitVec.or_comm]
    exact or_mask_and_self _ .read
  | write =>
    rw [show (if events &&& OUT ≠ 0 then OUT else 0) = OUT from if_pos h]
    exact or_mask_and_self _ .write

/-- `realEvent` names the directions that the notification names. -/
theorem realEvent_and_mask_eq_zero_iff {events : Mask} {d : Dir} :
    realEvent events &&& d.mask = 0 ↔ events &&& d.mask = 0 := by
  refine ⟨fun h => ?_, fun h => ?_⟩
  · by_contra hne
    exact realEvent_and_mask hne h
  · unfold realEvent
    cases d with
    | read =>
      change events &&& IN = 0 at h
      rw [if_neg (not_not.mpr h)]
      split_ifs <;> decide
    | write =>
      rw [show (if events &&& OUT ≠ 0 then OUT else 0) = 0 from if_neg (not_not.mpr h)]
      split_ifs <;> decide

/-- The `epoll_ctl` of the dispatch of a notification. -/
def leaveCtl (s : IOManager N φ κ) (fd : ℤ) (events : Mask) (fault : Bool) : Option InterestSet :=
  ctl s.epoll (leaveOp ((s.eventAt fd).event &&& ~~~realEvent events)) fd
    (ET ||| (s.eventAt fd).event &&& ~~~realEvent events) fault

/-- It takes a descriptor that is watched off the interest set, or leaves it there for
the directions that are left. -/
theorem leaveCtl_eq {events : Mask} (hentry : (s.epoll fd).isSome) :
    s.leaveCtl fd events false = some (Function.update s.epoll fd
      (if (s.eventAt fd).event &&& ~~~realEvent events = 0 then none
        else some (ET ||| (s.eventAt fd).event &&& ~~~realEvent events))) := by
  unfold leaveCtl leaveOp
  split_ifs
  · exact ctl_del hentry
  · exact ctl_mod hentry

/-- A notification that finds none of its directions, or whose `epoll_ctl` fails, has no
effect; else it takes its directions out of the interest set and triggers them. -/
theorem dispatch_spec (hs : s.PoolWf) {events : Mask}
    (h : s.dispatch fd events fault = some s') :
    Frame fd s s' ∧
      ((s' = s ∧ (fd = s.mEventfd ∨ (s.eventAt fd).event &&& realEvent events = 0 ∨
          s.leaveCtl fd events fault = none)) ∨
        (fd ≠ s.mEventfd ∧ (s.eventAt fd).event &&& realEvent events ≠ 0 ∧
          (s'.eventAt fd, s'.mTasks) =
            triggerAll s.threadCnt (realEvent events) (s.eventAt fd, s.mTasks) ∧
          s.leaveCtl fd events fault = some s'.epoll)) := by
  unfold dispatch at h
  unfold leaveCtl
  split_ifs at h with hfd
  · obtain rfl := Option.some_inj.mp h
    exact ⟨.refl hs fd, .inl ⟨rfl, .inl hfd⟩⟩
  · obtain ⟨task, htask, h⟩ := Option.map_eq_some_iff.mp h
    rw [eventAt_of_eventPtr htask]
    dsimp only at h
    split_ifs at h with hbit
    · rw [← h]
      exact ⟨.refl hs fd, .inl ⟨rfl, .inr (.inl hbit)⟩⟩
    · rw [hs.fd htask] at h
      split at h
      · rename_i hctl
        rw [← h]
        exact ⟨.refl hs fd, .inl ⟨rfl, .inr (.inr hctl)⟩⟩
      · rename_i epoll hctl
        obtain ⟨hframe, hat⟩ := frame_update hs htask (fd_triggerAll s.threadCnt
          (realEvent events) (task, s.mTasks)) epoll (fun hg => ctl_of_ne hctl hg) _
        rw [← h]
        exact ⟨hframe, .inr ⟨hfd, hbit, by rw [hat], hctl⟩⟩

theorem dispatch_cases (hs : s.PoolWf) {events : Mask}
    (h : s.dispatch fd events fault = some s') :
    Frame fd s s' ∧
      (s' = s ∨
        (fd ≠ s.mEventfd ∧ (s.eventAt fd).event &&& realEvent events ≠ 0 ∧
          (s'.eventAt fd, s'.mTasks) =
            triggerAll s.threadCnt (realEvent events) (s.eventAt fd, s.mTasks) ∧
          s.leaveCtl fd events fault = some s'.epoll)) := by
  obtain ⟨hframe, ⟨hsame, -⟩ | hgo⟩ := dispatch_spec hs h
  · exact ⟨hframe, .inl hsame⟩
  · exact ⟨hframe, .inr hgo⟩

/-! ### Timers and tasks -/

/-- What leaves the vector alone leaves the pool in order. -/
theorem PoolWf.congr (hs : s.PoolWf) (hev : s'.mEvents = s.mEvents)
    (hcnt : s'.mEventCnt = s.mEventCnt) : s'.PoolWf := by
  refine ⟨by rw [hcnt, hev, hs.cnt], hcnt ▸ hs.size, ?_⟩
  intro fd task h
  rw [eventPtr, hev] at h
  exact hs.fd h

theorem eventAt_congr (hev : s'.mEvents = s.mEvents) (fd : ℤ) : s'.eventAt fd = s.eventAt fd := by
  rw [eventAt, eventAt, eventPtr, eventPtr, hev]

theorem addTimer_eq_some {timing : ℤ} {cb : κ} {recurr : Bool} {timer : TimerPtr}
    (h : s.addTimer timing cb recurr = some (timer, s')) :
    ∃ m, s.mTimerManager.addTimer timing cb recurr = some (timer, m) ∧
      s' = { s with mTimerCnt := s.mTimerCnt + 1, mTimerManager := m } := by
  obtain ⟨⟨p, m⟩, hm, heq⟩ := Option.map_eq_some_iff.mp h
  obtain ⟨rfl, rfl⟩ := Prod.mk.inj heq
  exact ⟨m, hm, rfl⟩

theorem foldl_addTask (s : IOManager N φ κ) (cbs : List κ) :
    cbs.foldl (fun s cb => s.addTask (.ofFunc cb)) s =
      { s with mTasks := s.mTasks ++ cbs.map .ofFunc } := by
  induction cbs generalizing s with
  | nil => simp
  | cons cb cbs ih =>
    rw [List.foldl_cons, ih]
    simp [addTask]

/-- A tick queues the callbacks of the timers it emits. -/
theorem idleTick_eq_some {now now' : BitVec 64} {emitted : List TimerPtr}
    (h : s.idleTick now now' = some (emitted, s')) :
    ∃ r, s.mTimerManager.tick now now' [] = some r ∧ emitted = r.emitted ∧
      s' = { s with mTimerManager := r.mgr, mTasks := s.mTasks ++ r.cbs.map .ofFunc } := by
  obtain ⟨r, hr, heq⟩ := Option.map_eq_some_iff.mp h
  obtain ⟨rfl, rfl⟩ := Prod.mk.inj heq
  exact ⟨r, hr, rfl, foldl_addTask _ _⟩

end IOManager

end Server
