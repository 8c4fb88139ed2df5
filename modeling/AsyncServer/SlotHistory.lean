/-
The history of each event slot.

Every call of `triggerEvent` is logged with the direction it is for and what it
appends to the task queue, and every registration that `addEvent` accepts with the
descriptor and the direction it is for.

* `slotMove` — what an operation does to one slot;
* `Coherent` — a bit of `event` is set exactly when its slot has one of `cb` and
  `fiber`;
* `slots_coherent` — in every state of every run all events are coherent, and what
  was queued for a slot is a sublist of what was accepted for it: each registration
  is queued at most once, in its turn, and by its own slot only.
-/
import AsyncServer.LockedEvents
import AsyncServer.WaiterLedger

namespace Server

open Epoll Transition

/-! ### One slot -/

/-- What an operation does to a slot: `came` is accepted there, `put` is queued. -/
inductive SlotMove {φ κ : Type*} (ctx ctx' : EventCtx φ κ) (came put : List (Task φ κ)) : Prop
  | stays (hctx : ctx' = ctx) (hcame : came = []) (hput : put = [])
  | registers (cb : Option κ) (cur : φ) (hfree : ctx = ⟨none, none⟩)
      (hctx : ctx' = ⟨cb, if cb.isSome then none else some cur⟩)
      (hcame : came = [Event.waiter cb cur]) (hput : put = [])
  | triggered (hctx : ctx' = ⟨none, none⟩) (hcame : came = []) (hput : put = ctx.task.toList)
  | removed (hctx : ctx' = ⟨none, none⟩) (hcame : came = []) (hput : put = [])

namespace EventCtx

variable {φ κ : Type*} {ctx ctx' : EventCtx φ κ} {came put : List (Task φ κ)}

/-- No slot has both a callback and a fiber. -/
def Single (ctx : EventCtx φ κ) : Prop := ctx.cb = none ∨ ctx.fiber = none

theorem Single.move (h : ctx.Single) (hmove : SlotMove ctx ctx' came put) : ctx'.Single := by
  cases hmove with
  | stays hctx => exact hctx ▸ h
  | registers cb cur _ hctx =>
    rw [hctx, Single]
    cases cb with
    | none => exact .inl rfl
    | some k => exact .inr rfl
  | triggered hctx => exact hctx ▸ .inl rfl
  | removed hctx => exact hctx ▸ .inl rfl

/-- **What goes through a slot**: of the one that was there and the one that comes,
one is there afterwards, and of those that are gone some have been queued. -/
theorem task_move (hmove : SlotMove ctx ctx' came put) :
    ∃ gone, ctx.task.toList ++ came = gone ++ ctx'.task.toList ∧ put.Sublist gone := by
  cases hmove with
  | stays hctx hcame hput =>
    refine ⟨[], ?_, hput ▸ List.nil_sublist _⟩
    rw [hctx, hcame, List.append_nil, List.nil_append]
  | registers cb cur hfree hctx hcame hput =>
    refine ⟨[], ?_, hput ▸ List.nil_sublist _⟩
    rw [hfree, hctx, hcame]
    cases cb <;> rfl
  | triggered hctx hcame hput =>
    refine ⟨ctx.task.toList, ?_, hput ▸ List.Sublist.refl _⟩
    rw [hctx, hcame]
    rfl
  | removed hctx hcame hput =>
    refine ⟨ctx.task.toList, ?_, hput ▸ List.nil_sublist _⟩
    rw [hctx, hcame]
    rfl

end EventCtx

namespace Event

variable {φ κ : Type*} {task : Event φ κ}

/-- The bit of a direction is set if and only if its slot has exactly one of `cb` and
`fiber`, and clear if and only if it has neither. -/
structure Coherent (task : Event φ κ) : Prop where
  set_iff : ∀ d : Dir, task.event &&& d.mask ≠ 0 ↔
    Xor ((task.getEvent d).cb.isSome = true) ((task.getEvent d).fiber.isSome = true)
  clear_iff : ∀ d : Dir, task.event &&& d.mask = 0 ↔
    (task.getEvent d).cb = none ∧ (task.getEvent d).fiber = none

theorem Tidy.coherent (h : task.Tidy) (hsingle : ∀ d, (task.getEvent d).Single) :
    task.Coherent := by
  have hclear : ∀ d : Dir, task.event &&& d.mask = 0 ↔
      (task.getEvent d).cb = none ∧ (task.getEvent d).fiber = none := by
    intro d
    refine ⟨fun h0 => by simp [h.free d h0], fun ⟨hcb, hfiber⟩ => ?_⟩
    by_contra hne
    have htaken := h.taken d hne
    rw [EventCtx.task, hcb, hfiber] at htaken
    exact Bool.false_ne_true htaken
  refine ⟨fun d => ?_, hclear⟩
  rw [ne_eq, hclear]
  -- of the four combinations the invariant leaves out that of both
  rcases hsingle d with hnone | hnone <;> rw [hnone]
  · cases (task.getEvent d).fiber <;> simp [Xor]
  · cases (task.getEvent d).cb <;> simp [Xor]

/-- The calls of `triggerEvent` for the directions `dirs`, one after the other, each
with what it appends to the queue. -/
def triggerLog (threadCnt : ℕ) : List Dir → Event φ κ × List (Task φ κ) → List (Dir × Task φ κ)
  | [], _ => []
  | d :: dirs, r =>
    ((triggerEvent threadCnt d r).2.drop r.2.length).map (fun t => (d, t)) ++
      triggerLog threadCnt dirs (triggerEvent threadCnt d r)

/-- Each of them appends the waiter of its own slot. -/
theorem triggerLog_eq (threadCnt : ℕ) {dirs : List Dir} (hdirs : dirs.Nodup)
    (r : Event φ κ × List (Task φ κ)) :
    triggerLog threadCnt dirs r =
      dirs.flatMap fun d => (r.1.getEvent d).task.toList.map fun t => (d, t) := by
  induction dirs generalizing r with
  | nil => rfl
  | cons d dirs ih =>
    obtain ⟨hd, hdirs⟩ := List.nodup_cons.mp hdirs
    rw [triggerLog, tasks_triggerEvent, List.drop_left, ih hdirs, List.flatMap_cons]
    congr 1
    -- the later ones find their slots as they were
    refine List.flatMap_congr fun e he => ?_
    have hed : e ≠ d := fun h => hd (h ▸ he)
    rw [getEvent_triggerEvent_of_ne _ _ _ hed]

end Event

/-! ### The log of an operation -/

namespace IOManager

variable {N : ℕ} {φ κ : Type*} {s s' : IOManager N φ κ} {fd : ℤ}

/-- The calls of `triggerEvent` that an operation makes; a descriptor that the pool does
not reach has an event without bits. -/
def triggers (s : IOManager N φ κ) : EventOp φ κ → List Dir
  | .addEvent _ _ _ _ _ _ => []
  | .cancelEvent fd d _ => if (s.eventAt fd).event &&& d.mask = 0 then [] else [d]
  | .delEvent _ _ => []
  | .dispatch fd events fault =>
    if fd = s.mEventfd ∨ (s.eventAt fd).event &&& realEvent events = 0 ∨
        s.leaveCtl fd events fault = none then []
    else realDirs (realEvent events)

/-- The descriptor that an operation is about. -/
def about : EventOp φ κ → ℤ
  | .addEvent fd _ _ _ _ _ | .cancelEvent fd _ _ | .delEvent fd _ | .dispatch fd _ _ => fd

/-- What the triggers of an operation put into the queue, each for its slot. -/
def queues (s : IOManager N φ κ) (op : EventOp φ κ) : List ((ℤ × Dir) × Task φ κ) :=
  (Event.triggerLog s.threadCnt (s.triggers op) (s.eventAt (about op), s.mTasks)).map fun e =>
    ((about op, e.1), e.2)

/-- The registration that an operation accepts, with its slot. -/
def acceptsAt (s : IOManager N φ κ) : EventOp φ κ → List ((ℤ × Dir) × Task φ κ)
  | .addEvent fd d cb flag cur fault =>
    (s.accepts (.addEvent fd d cb flag cur fault)).map fun t => ((fd, d), t)
  | _ => []

/-- The entries for one slot. -/
def forSlot (slot : ℤ × Dir) (l : List ((ℤ × Dir) × Task φ κ)) : List (Task φ κ) :=
  (l.filter fun e => e.1 = slot).map Prod.snd

theorem forSlot_append (slot : ℤ × Dir) (l l' : List ((ℤ × Dir) × Task φ κ)) :
    forSlot slot (l ++ l') = forSlot slot l ++ forSlot slot l' := by
  rw [forSlot, List.filter_append, List.map_append, forSlot, forSlot]

theorem forSlot_map (slot slot' : ℤ × Dir) (l : List (Task φ κ)) :
    forSlot slot (l.map fun t => (slot', t)) = if slot' = slot then l else [] := by
  rw [forSlot, List.filter_map]
  split_ifs with h
  · simp [Function.comp_def, h]
  · simp [Function.comp_def, h]

theorem forSlot_flatMap (slot : ℤ × Dir) (fd : ℤ) {dirs : List Dir} (hdirs : dirs.Nodup)
    (f : Dir → List (Task φ κ)) :
    forSlot slot (dirs.flatMap fun d => (f d).map fun t => ((fd, d), t)) =
      if fd = slot.1 ∧ slot.2 ∈ dirs then f slot.2 else [] := by
  induction dirs with
  | nil => simp [forSlot]
  | cons d dirs ih =>
    obtain ⟨hd, hdirs⟩ := List.nodup_cons.mp hdirs
    rw [List.flatMap_cons, forSlot_append, forSlot_map, ih hdirs]
    by_cases hslot : (fd, d) = slot
    · subst hslot
      simp [hd]
    · have hne : fd = slot.1 → slot.2 ≠ d := fun hfd h => hslot (Prod.ext hfd h.symm)
      rw [if_neg hslot, List.nil_append]
      by_cases hfd : fd = slot.1
      · simp [hfd, hne hfd]
      · simp [hfd]

theorem mem_realDirs {real : Mask} {d : Dir} : d ∈ realDirs real ↔ real &&& d.mask ≠ 0 := by
  have hread : Dir.read.mask = IN := rfl
  have hwrite : Dir.write.mask = OUT := rfl
  unfold realDirs
  cases d <;> split_ifs <;> simp_all

theorem triggers_dispatch {events : Mask} {fault : Bool} (hfd : fd ≠ s.mEventfd)
    (hbit : (s.eventAt fd).event &&& realEvent events ≠ 0)
    (hctl : s.leaveCtl fd events fault ≠ none) :
    s.triggers (.dispatch fd events fault) = realDirs (realEvent events) := by
  rw [triggers, if_neg]
  rintro (h | h | h)
  · exact hfd h
  · exact hbit h
  · exact hctl h

theorem nodup_triggers (s : IOManager N φ κ) (op : EventOp φ κ) : (s.triggers op).Nodup := by
  cases op with
  | addEvent => exact List.nodup_nil
  | delEvent => exact List.nodup_nil
  | cancelEvent =>
    simp only [triggers]
    split_ifs <;> simp
  | dispatch =>
    simp only [triggers, realDirs]
    split_ifs <;> decide

/-- What is queued for a slot. -/
theorem forSlot_queues (slot : ℤ × Dir) (s : IOManager N φ κ) (op : EventOp φ κ) :
    forSlot slot (s.queues op) =
      if about op = slot.1 ∧ slot.2 ∈ s.triggers op then
        ((s.eventAt slot.1).getEvent slot.2).task.toList else [] := by
  have hflat : s.queues op = (s.triggers op).flatMap fun d =>
      ((s.eventAt (about op)).getEvent d).task.toList.map fun t => ((about op, d), t) := by
    rw [queues, Event.triggerLog_eq _ (nodup_triggers s op), List.map_flatMap]
    simp only [List.map_map]
    rfl
  rw [hflat, forSlot_flatMap slot _ (nodup_triggers s op)]
  split_ifs with h
  · rw [h.1]
  · rfl

theorem forSlot_acceptsAt_of_ne {slot : ℤ × Dir} {op : EventOp φ κ} (h : about op ≠ slot.1) :
    forSlot slot (s.acceptsAt op) = [] := by
  cases op with
  | addEvent fd d cb flag cur fault =>
    rw [acceptsAt, forSlot_map, if_neg fun heq => h (congrArg Prod.fst heq)]
  | _ => rfl

/-! ### What an operation does to a slot -/

theorem slotMove_addEvent (hs : s.Ordered) {d : Dir} {cb : Option κ} {flag : Mask} {cur : φ}
    {fault : Bool} (h : s.addEvent fd d cb flag cur fault = some s') (e : Dir) :
    SlotMove ((s.eventAt fd).getEvent e) ((s'.eventAt fd).getEvent e)
      (forSlot (fd, e) (s.acceptsAt (.addEvent fd d cb flag cur fault))) [] := by
  obtain ⟨⟨go, s₁⟩, hctl, h⟩ := Option.bind_eq_some_iff.mp h
  obtain ⟨hframe, hat, -, -, hcases⟩ := addEventCtl_cases hs.wf hctl
  rw [acceptsAt, accepts, hctl, Option.any_some]
  obtain ⟨rfl, -, -⟩ | ⟨rfl, hbit, -⟩ := hcases
  · obtain rfl : s₁ = s' := Option.some_inj.mp h
    rw [if_neg Bool.false_ne_true, hat]
    exact .stays rfl rfl rfl
  · obtain ⟨-, hat', -⟩ := addEventUpdate_eq hframe.wf h
    rw [if_pos rfl, hat', hat, forSlot_map]
    by_cases hed : e = d
    -- the bit was clear, so that the slot was empty
    · subst hed
      have hfree := (hs.tidy fd).free e hbit
      rw [if_pos rfl]
      refine .registers cb cur hfree ?_ rfl rfl
      rw [Event.register, Event.getEvent_setEvent, Event.getEvent_with_event, hfree]
      cases cb <;> rfl
    · rw [if_neg fun heq => hed (congrArg Prod.snd heq).symm, Event.getEvent_register_of_ne _ hed]
      exact .stays rfl rfl rfl

theorem slotMove_cancelEvent (hs : s.Ordered) {d : Dir} {fault : Bool}
    (h : s.cancelEvent fd d fault = some s') (e : Dir) :
    SlotMove ((s.eventAt fd).getEvent e) ((s'.eventAt fd).getEvent e) []
      (forSlot (fd, e) (s.queues (.cancelEvent fd d fault))) := by
  rw [forSlot_queues, triggers, about]
  obtain ⟨-, ⟨hbit, rfl⟩ | ⟨hbit, htrigger, -⟩⟩ := cancelEvent_cases hs.wf h
  · rw [if_pos hbit]
    exact .stays rfl rfl (if_neg fun hmem => absurd hmem.2 List.not_mem_nil)
  · have hat : s'.eventAt fd = _ := congrArg Prod.fst htrigger
    rw [if_neg hbit, hat]
    by_cases hed : e = d
    · subst hed
      rw [Event.getEvent_triggerEvent]
      exact .triggered rfl rfl (if_pos ⟨rfl, List.mem_singleton_self e⟩)
    · rw [Event.getEvent_triggerEvent_of_ne _ _ _ hed]
      exact .stays rfl rfl (if_neg fun hmem => hed (List.mem_singleton.mp hmem.2))

theorem slotMove_delEvent (hs : s.Ordered) {fault : Bool} (h : s.delEvent fd fault = some s')
    (e : Dir) : SlotMove ((s.eventAt fd).getEvent e) ((s'.eventAt fd).getEvent e) [] [] := by
  obtain ⟨-, -, ⟨-, rfl⟩ | ⟨-, hat, -⟩⟩ := delEvent_cases hs.wf h
  · exact .stays rfl rfl rfl
  · rw [hat]
    refine .removed ?_ rfl rfl
    cases e <;> rfl

theorem slotMove_dispatch (hs : s.Ordered) {events : Mask} {fault : Bool}
    (h : s.dispatch fd events fault = some s') (e : Dir) :
    SlotMove ((s.eventAt fd).getEvent e) ((s'.eventAt fd).getEvent e) []
      (forSlot (fd, e) (s.queues (.dispatch fd events fault))) := by
  rw [forSlot_queues, about]
  obtain ⟨-, ⟨rfl, hnone⟩ | ⟨hfd, hbit, htrigger, hctl⟩⟩ := dispatch_spec hs.wf h
  · rw [triggers, if_pos hnone]
    exact .stays rfl rfl (if_neg fun hmem => absurd hmem.2 List.not_mem_nil)
  · have hat : s'.eventAt fd = _ := congrArg Prod.fst htrigger
    rw [triggers_dispatch hfd hbit (by simp [hctl]), hat]
    by_cases he : realEvent events &&& e.mask = 0
    · rw [getEvent_triggerAll_of_not s.threadCnt he]
      exact .stays rfl rfl (if_neg fun hmem => mem_realDirs.mp hmem.2 he)
    · rw [getEvent_triggerAll_self s.threadCnt he]
      exact .triggered rfl rfl (if_pos ⟨rfl, mem_realDirs.mpr he⟩)

theorem frame_step (hs : s.Ordered) {op : EventOp φ κ} (h : s.step op = some s') :
    Frame (about op) s s' := by
  cases op with
  | addEvent fd d cb flag cur fault => exact (moves_addEvent hs.wf (hs.tidy fd) h).frame
  | cancelEvent fd d fault => exact (cancelEvent_cases hs.wf h).1
  | delEvent fd fault => exact (delEvent_cases hs.wf h).1
  | dispatch fd events fault => exact (dispatch_cases hs.wf h).1

/-- **What an operation does to one slot.** -/
theorem slotMove (hs : s.Ordered) {op : EventOp φ κ} (h : s.step op = some s')
    (slot : ℤ × Dir) :
    SlotMove ((s.eventAt slot.1).getEvent slot.2) ((s'.eventAt slot.1).getEvent slot.2)
      (forSlot slot (s.acceptsAt op)) (forSlot slot (s.queues op)) := by
  obtain ⟨fd, e⟩ := slot
  by_cases hfd : about op = fd
  · subst hfd
    cases op with
    | addEvent fd d cb flag cur fault => exact slotMove_addEvent hs h e
    | cancelEvent fd d fault => exact slotMove_cancelEvent hs h e
    | delEvent fd fault => exact slotMove_delEvent hs h e
    | dispatch fd events fault => exact slotMove_dispatch hs h e
  -- the slots of other descriptors stay as they are
  · rw [forSlot_queues, forSlot_acceptsAt_of_ne hfd, if_neg fun h => hfd h.1,
      (frame_step hs h).eventAt (Ne.symm hfd)]
    exact .stays rfl rfl rfl

/-- **What an operation appends to the queue is what its triggers are logged with.** -/
theorem tasks_step (hs : s.Ordered) {op : EventOp φ κ} (h : s.step op = some s') :
    s'.mTasks = s.mTasks ++ (s.queues op).map Prod.snd := by
  rw [queues, Event.triggerLog_eq _ (nodup_triggers s op), List.map_map, List.map_flatMap]
  simp only [List.map_map, Function.comp_def, List.map_id_fun', id]
  cases op with
  | addEvent fd d cb flag cur fault => exact (moves_addEvent hs.wf (hs.tidy fd) h).queue
  | cancelEvent fd d fault =>
    rw [triggers, about]
    obtain ⟨-, ⟨hbit, rfl⟩ | ⟨hbit, htrigger, -⟩⟩ := cancelEvent_cases hs.wf h
    · rw [if_pos hbit, List.flatMap_nil, List.append_nil]
    · have htasks : s'.mTasks = _ := congrArg Prod.snd htrigger
      rw [if_neg hbit, List.flatMap_singleton, htasks, Event.tasks_triggerEvent]
  | delEvent fd fault =>
    rw [(delEvent_cases hs.wf h).2.1]
    exact (List.append_nil _).symm
  | dispatch fd events fault =>
    rw [about]
    obtain ⟨-, ⟨rfl, hnone⟩ | ⟨hfd, hbit, htrigger, hctl⟩⟩ := dispatch_spec hs.wf h
    · rw [triggers, if_pos hnone, List.flatMap_nil, List.append_nil]
    · have htasks : s'.mTasks = _ := congrArg Prod.snd htrigger
      rw [triggers_dispatch hfd hbit (by simp [hctl]), htasks, tasks_triggerAll, realDirs,
        List.flatMap_append]
      split_ifs <;> simp

end IOManager

/-! ### Runs -/

/-- An event loop with the history of its slots: the registrations accepted, and the
waiters queued, each with the slot. -/
structure SlotHistory (N : ℕ) (φ κ : Type*) where
  iom : IOManager N φ κ
  accepted : List ((ℤ × Dir) × Task φ κ)
  queued : List ((ℤ × Dir) × Task φ κ)

namespace SlotHistory

open IOManager

variable {N : ℕ} {φ κ : Type*} {s s' : SlotHistory N φ κ}

/-- A loop that starts. -/
def start (iom : IOManager N φ κ) : SlotHistory N φ κ := ⟨iom, [], []⟩

inductive Act (φ κ : Type*) where
  /-- `addEvent`, `cancelEvent`, `delEvent`, or the dispatch of a notification -/
  | event (op : EventOp φ κ)
  /-- what the kernel makes of the interest set in between, so that the next `epoll_ctl`
  may have any result -/
  | kernel (epoll : InterestSet)
  /-- what others make of the task queue in between -/
  | others (mTasks : List (Task φ κ))

/-- One step, recorded. -/
def step (s : SlotHistory N φ κ) : Act φ κ → Option (SlotHistory N φ κ)
  | .event op => (s.iom.step op).map fun iom =>
    { iom := iom
      accepted := s.accepted ++ s.iom.acceptsAt op
      queued := s.queued ++ s.iom.queues op }
  | .kernel epoll => some { s with iom := { s.iom with epoll := epoll } }
  | .others mTasks => some { s with iom := { s.iom with mTasks := mTasks } }

/-- What an operation appends to the task queue is what its step adds to the history. -/
def Recorded (s : SlotHistory N φ κ) : Act φ κ → Prop
  | .event op => ∀ s', s.step (.event op) = some s' → ∃ put,
      s'.queued = s.queued ++ put ∧ s'.iom.mTasks = s.iom.mTasks ++ put.map Prod.snd
  | _ => True

/-- What every run keeps: in each slot stands the last one accepted for it, or none, and
what was queued for it is a part of those before. -/
structure Told (s : SlotHistory N φ κ) : Prop where
  ordered : s.iom.Ordered
  single : ∀ fd d, ((s.iom.eventAt fd).getEvent d).Single
  slot : ∀ slot, ∃ past, forSlot slot s.accepted =
      past ++ ((s.iom.eventAt slot.1).getEvent slot.2).task.toList ∧
    (forSlot slot s.queued).Sublist past

theorem told_start (threadCnt : ℕ) (mTimerManager : TimerManager N κ) (mEventfd : ℤ) :
    (start (.create threadCnt mTimerManager mEventfd) : SlotHistory N φ κ).Told := by
  have hempty : ∀ fd d, ((IOManager.create threadCnt mTimerManager mEventfd :
      IOManager N φ κ).eventAt fd).getEvent d = ⟨none, none⟩ := by
    intro fd d
    rw [eventAt_create]
    cases d <;> rfl
  refine ⟨WaiterLedger.ordered_create threadCnt mTimerManager mEventfd, fun fd d => ?_,
    fun slot => ⟨[], ?_, List.Sublist.refl _⟩⟩
  · exact .inl (by rw [start, hempty])
  · rw [start, hempty]
    rfl

/-- The step lemma. -/
theorem told_step (hs : s.Told) {a : Act φ κ} (h : s.step a = some s') : s'.Told := by
  cases a with
  | event op =>
    obtain ⟨iom, hop, rfl⟩ := Option.map_eq_some_iff.mp h
    obtain ⟨fd, came, put, lost, hmoves⟩ := moves_step hs.ordered hop
    refine ⟨hmoves.ordered hs.ordered,
      fun fd d => (hs.single fd d).move (slotMove hs.ordered hop (fd, d)), fun slot => ?_⟩
    obtain ⟨past, haccepted, hqueued⟩ := hs.slot slot
    obtain ⟨gone, htask, hput⟩ := EventCtx.task_move (slotMove hs.ordered hop slot)
    -- those that are gone from the slot now belong to the past of it
    refine ⟨past ++ gone, ?_, ?_⟩
    · rw [forSlot_append, haccepted, List.append_assoc, htask, ← List.append_assoc]
    · rw [forSlot_append]
      exact hqueued.append hput
  | kernel epoll =>
    obtain rfl := Option.some_inj.mp h
    exact ⟨hs.ordered.congr rfl rfl, hs.single, hs.slot⟩
  | others mTasks =>
    obtain rfl := Option.some_inj.mp h
    exact ⟨hs.ordered.congr rfl rfl, hs.single, hs.slot⟩

theorem recorded (hs : s.Told) (a : Act φ κ) : s.Recorded a := by
  cases a with
  | event op =>
    intro s' h
    obtain ⟨iom, hop, rfl⟩ := Option.map_eq_some_iff.mp h
    exact ⟨_, rfl, tasks_step hs.ordered hop⟩
  | _ => trivial

/-- **Event slots stay coherent, and a registration is queued at most once.**  In every
state of every run from the constructor, with any results of `epoll_ctl`, all events of
the pool are coherent; and for each slot what its triggers have put into the task queue is
a sublist of what was accepted for it. -/
theorem slots_coherent {threadCnt : ℕ} {mTimerManager : TimerManager N κ} {mEventfd : ℤ}
    {as : List (Act φ κ)}
    (h : run step as (start (.create threadCnt mTimerManager mEventfd)) = some s) :
    (∀ fd task, s.iom.eventPtr fd = some task → task.Coherent) ∧
      (∀ slot, (forSlot slot s.queued).Sublist (forSlot slot s.accepted)) ∧
      Along step Recorded as (start (.create threadCnt mTimerManager mEventfd)) := by
  have hstart := told_start (φ := φ) threadCnt mTimerManager mEventfd
  have hs : s.Told :=
    Reachable.run_invariant (fun s a s' _ hs hstep => told_step hs hstep) hstart h
  refine ⟨fun fd task htask => ?_, fun slot => ?_, ?_⟩
  · rw [← eventAt_of_eventPtr htask]
    exact (hs.ordered.tidy fd).coherent (hs.single fd)
  · obtain ⟨past, haccepted, hqueued⟩ := hs.slot slot
    rw [haccepted]
    exact hqueued.trans (List.sublist_append_left _ _)
  · exact Along.of_invariant (fun s a hs => recorded hs a)
      (fun s a s' hs hstep => told_step hs hstep) hstart

/-- A loop that starts, with one worker and the eventfd 3. -/
def historyOf3 : SlotHistory 60 ℕ ℕ := start (.create 1 TimerManager.defaultWheel 3)

/-- Fiber 0 waits to read, and the callback 7 to write; both are reported, and the
notification is dispatched once more. -/
def reportedTwice : List (Act ℕ ℕ) :=
  [.event (.addEvent 5 .read none ET 0 false), .event (.addEvent 5 .write (some 7) ET 1 false),
    .event (.dispatch 5 (IN ||| OUT) false), .event (.dispatch 5 (IN ||| OUT) false)]

set_option maxRecDepth 2000 in
theorem slots_coherent_reported :
    ∃ s, run step reportedTwice historyOf3 = some s ∧
      s.queued.map Prod.snd = [.ofFiber 0, .ofFunc 7] ∧
      (∀ fd task, s.iom.eventPtr fd = some task → task.Coherent) ∧
      (∀ slot, (forSlot slot s.queued).Sublist (forSlot slot s.accepted)) ∧
      Along step Recorded reportedTwice historyOf3 := by
  have hrun : ∃ s, run step reportedTwice historyOf3 = some s ∧
      s.queued.map Prod.snd = [.ofFiber 0, .ofFunc 7] := ⟨_, rfl, rfl⟩
  obtain ⟨s, hs, hqueued⟩ := hrun
  exact ⟨s, hs, hqueued, slots_coherent hs⟩

end SlotHistory

end Server
