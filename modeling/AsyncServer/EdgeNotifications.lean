/-
Readiness edges between `epoll_ctl` and the update of `addEvent`.

The interest is armed by the first half of `addEvent`, the waiter is registered by
the second.  The kernel turns a readiness change of an armed direction into an edge;
an idle thread takes all edges of a descriptor as one notification and dispatches it
under the lock of the `Event`.  A clock that advances with each `epoll_ctl` and each
edge says which came first; it and `discarded`, the edges that were dispatched
without waking a waiter of their direction, are history variables.

* `heard` — in every run in which a dispatch that carries an awaited edge wakes a
  waiter, no registered waiter has missed an edge;
* `discarded_awaited` — a dispatch that does not is the end of it: the waiter is
  there already, or will be when its `addEvent` is through;
* `edge_between_halves` — the run that loses one.
-/
import AsyncServer.WaiterLedger

namespace Server

open Epoll Transition

/-- An edge, with the time when the kernel raised it. -/
structure Edge where
  fd : ℤ
  dir : Dir
  time : ℕ

/-- An `addEvent` between its halves, with the time of its `epoll_ctl`. -/
structure PendingAdd (φ κ : Type*) where
  fd : ℤ
  dir : Dir
  cb : Option κ
  cur : φ
  time : ℕ

/-- An event loop with its callers of `addEvent`, the kernel, and its idle threads with
the notifications they have taken. -/
structure EdgeLoop (N : ℕ) (φ κ : Type*) where
  iom : IOManager N φ κ
  adds : ℕ → Option (PendingAdd φ κ)
  ready : List Edge
  taken : ℕ → List (ℤ × List Edge)
  clock : ℕ
  /-- when the `epoll_ctl` of the waiter of a direction was -/
  armedAt : ℤ → Dir → ℕ
  discarded : List Edge

namespace EdgeLoop

variable {N : ℕ} {φ κ : Type*} {s s' : EdgeLoop N φ κ}

/-- The loop that starts. -/
def start (iom : IOManager N φ κ) : EdgeLoop N φ κ where
  iom := iom
  adds := fun _ => none
  ready := []
  taken := fun _ => []
  clock := 0
  armedAt := fun _ _ => 0
  discarded := []

inductive Act (φ κ : Type*) where
  /-- `addEvent` of caller `c` up to its `epoll_ctl` -/
  | addCtl (c : ℕ) (fd : ℤ) (d : Dir) (cb : Option κ) (flag : Mask) (cur : φ) (fault : Bool)
  /-- the rest of the `addEvent` of caller `c` -/
  | addUpdate (c : ℕ)
  /-- a readiness change -/
  | edge (fd : ℤ) (d : Dir)
  /-- idle thread `w` takes the notification for `fd` -/
  | take (w : ℕ) (fd : ℤ)
  /-- idle thread `w` handles the next notification it has taken -/
  | dispatch (w : ℕ) (fault : Bool)

/-- The interest set watches a direction. -/
def armed (set : InterestSet) (fd : ℤ) (d : Dir) : Bool := (set fd).any fun m => m &&& d.mask ≠ 0

/-- The `events` of a notification. -/
def events (edges : List Edge) : Mask := edges.foldr (fun e m => e.dir.mask ||| m) 0

/-- From one state of the pool to the other, the waiter of a direction left. -/
def woke (iom iom' : IOManager N φ κ) (fd : ℤ) (d : Dir) : Bool :=
  ((iom.eventAt fd).getEvent d).task.isSome && ((iom'.eventAt fd).getEvent d).task.isNone

/-- One step. -/
def step (s : EdgeLoop N φ κ) : Act φ κ → Option (EdgeLoop N φ κ)
  | .addCtl c fd d cb flag cur fault =>
    -- a caller is in one call at a time
    if (s.adds c).isSome then none
    else (s.iom.addEventCtl fd d flag fault).map fun r =>
      { s with
        iom := r.2
        adds := Function.update s.adds c (if r.1 then some ⟨fd, d, cb, cur, s.clock⟩ else none)
        clock := s.clock + 1 }
  | .addUpdate c =>
    (s.adds c).bind fun add =>
      (s.iom.addEventUpdate add.fd add.dir add.cb add.cur).map fun iom =>
        { s with
          iom := iom
          adds := Function.update s.adds c none
          armedAt := Function.update s.armedAt add.fd
            (Function.update (s.armedAt add.fd) add.dir add.time) }
  -- a change of a direction that is not watched makes no notification
  | .edge fd d =>
    if armed s.iom.epoll fd d then
      some { s with ready := s.ready ++ [⟨fd, d, s.clock⟩], clock := s.clock + 1 }
    else some s
  -- `epoll_wait` reports what the interest set watches at that moment; all else is forgotten
  | .take w fd =>
    some { s with
      ready := s.ready.filter fun e => e.fd ≠ fd
      taken := Function.update s.taken w
        (s.taken w ++ [(fd, s.ready.filter fun e => e.fd = fd ∧ armed s.iom.epoll fd e.dir)]) }
  | .dispatch w fault =>
    match s.taken w with
    | [] => none
    | (fd, edges) :: rest => (s.iom.dispatch fd (events edges) fault).map fun iom =>
      { s with
        iom := iom
        taken := Function.update s.taken w rest
        discarded := s.discarded ++ edges.filter fun e => !woke s.iom iom e.fd e.dir }

/-- The waiter of a direction. -/
def waiter (s : EdgeLoop N φ κ) (fd : ℤ) (d : Dir) : Option (Task φ κ) :=
  ((s.iom.eventAt fd).getEvent d).task

/-- **No edge is lost**: none that was raised after the `epoll_ctl` of a registered waiter
was discarded. -/
def NoEdgeLost (s : EdgeLoop N φ κ) : Prop :=
  ∀ e ∈ s.discarded, (s.waiter e.fd e.dir).isSome → e.time ≤ s.armedAt e.fd e.dir

/-- An edge is awaited: it came after the `epoll_ctl` of the waiter of its direction, or of
an `addEvent` that has not registered its waiter yet. -/
def Awaited (s : EdgeLoop N φ κ) (e : Edge) : Prop :=
  ((s.waiter e.fd e.dir).isSome ∧ s.armedAt e.fd e.dir < e.time) ∨
    ∃ c add, s.adds c = some add ∧ add.fd = e.fd ∧ add.dir = e.dir ∧ add.time < e.time

/-- The condition on a step: when a notification with an awaited edge is dispatched, a
waiter of the direction is registered and the `epoll_ctl` succeeds. -/
def Heard (s : EdgeLoop N φ κ) : Act φ κ → Prop
  | .dispatch w fault => ∀ fd edges rest, s.taken w = (fd, edges) :: rest → ∀ e ∈ edges,
      s.Awaited e → (s.waiter e.fd e.dir).isSome ∧ (s.iom.leaveCtl fd (events edges) fault).isSome
  | _ => True

/-! ### A dispatch -/

section Dispatch

variable {iom iom' : IOManager N φ κ} {fd : ℤ} {edges : List Edge} {fault : Bool}

theorem events_and_mask {e : Edge} (he : e ∈ edges) : events edges &&& e.dir.mask ≠ 0 := by
  induction edges with
  | nil => exact absurd he List.not_mem_nil
  | cons a edges ih =>
    rw [events, List.foldr_cons, BitVec.and_comm, BitVec.and_or_distrib_left, BitVec.and_comm,
      BitVec.and_comm e.dir.mask]
    -- no bit of the disjunction is lost, so the mask of `e` would be 0
    intro h0
    obtain ⟨hhead, htail⟩ := BitVec.or_eq_zero_iff.mp h0
    rcases List.mem_cons.mp he with rfl | he
    · rw [BitVec.and_self] at hhead
      exact absurd hhead (by cases e.dir <;> decide)
    · exact ih he htail

/-- A slot keeps its waiter, or is emptied. -/
theorem slot_dispatch (hs : iom.PoolWf) (h : iom.dispatch fd (events edges) fault = some iom')
    (g : ℤ) (d : Dir) : (iom'.eventAt g).getEvent d = ⟨none, none⟩ ∨
      (iom'.eventAt g).getEvent d = (iom.eventAt g).getEvent d := by
  obtain ⟨hframe, rfl | ⟨-, -, htrigger, -⟩⟩ := IOManager.dispatch_cases hs h
  · exact .inr rfl
  · by_cases hg : g = fd
    · subst hg
      have hev : iom'.eventAt g = _ := congrArg Prod.fst htrigger
      rw [hev]
      exact IOManager.getEvent_triggerAll _ _ _ d
    · rw [hframe.eventAt hg]
      exact .inr rfl

/-- **A dispatch whose `epoll_ctl` succeeds wakes the waiters of its edges.** -/
theorem woke_dispatch (hs : iom.Ordered) (h : iom.dispatch fd (events edges) fault = some iom')
    (hfd : fd ≠ iom.mEventfd) {e : Edge} (he : e ∈ edges)
    (hwait : ((iom.eventAt fd).getEvent e.dir).task.isSome)
    (hctl : (iom.leaveCtl fd (events edges) fault).isSome) : woke iom iom' fd e.dir = true := by
  have hreal := IOManager.realEvent_and_mask (events_and_mask he)
  -- the direction of the edge is registered, so the test of the dispatch lets it pass
  have hbit : (iom.eventAt fd).event &&& IOManager.realEvent (events edges) ≠ 0 := by
    intro h0
    have hfree : (iom.eventAt fd).event &&& e.dir.mask = 0 := by
      rw [← (and_mask_cases _ e.dir).resolve_left hreal, ← BitVec.and_assoc, h0]
      exact BitVec.zero_and
    rw [(hs.tidy fd).free e.dir hfree] at hwait
    exact absurd hwait (by simp [EventCtx.task])
  obtain ⟨-, ⟨-, hwhy⟩ | ⟨-, -, htrigger, -⟩⟩ := IOManager.dispatch_spec hs.wf h
  -- none of the reasons for leaving early applies
  · rcases hwhy with hwhy | hwhy | hwhy
    · exact absurd hwhy hfd
    · exact absurd hwhy hbit
    · rw [hwhy] at hctl
      exact absurd hctl (by decide)
  · have hev : iom'.eventAt fd = _ := congrArg Prod.fst htrigger
    rw [woke, hwait, hev, IOManager.getEvent_triggerAll_self _ hreal]
    rfl

end Dispatch

/-! ### What every run keeps -/

/-- The entry of the loop's own descriptor. -/
structure OwnEntry (iom : IOManager N φ κ) : Prop where
  watched : (iom.epoll iom.mEventfd).isSome
  free : (iom.eventAt iom.mEventfd).event = 0

theorem OwnEntry.of_frame {iom iom' : IOManager N φ κ} (h : OwnEntry iom) {fd : ℤ}
    (hframe : IOManager.Frame fd iom iom')
    (hfd : fd = iom.mEventfd → iom'.epoll fd = iom.epoll fd ∧ iom'.eventAt fd = iom.eventAt fd) :
    OwnEntry iom' := by
  have hsame : iom'.epoll iom.mEventfd = iom.epoll iom.mEventfd ∧
      iom'.eventAt iom.mEventfd = iom.eventAt iom.mEventfd := by
    by_cases heq : fd = iom.mEventfd
    · exact heq ▸ hfd heq
    · exact ⟨hframe.epoll (Ne.symm heq), hframe.eventAt (Ne.symm heq)⟩
  constructor
  · rw [hframe.mEventfd, hsame.1]
    exact h.watched
  · rw [hframe.mEventfd, hsame.2]
    exact h.free

/-- The first half of `addEvent` does not get past the `epoll_ctl` for it. -/
theorem OwnEntry.ne_of_ctl {iom iom' : IOManager N φ κ} (h : OwnEntry iom) (hs : iom.PoolWf)
    {fd : ℤ} {d : Dir} {flag : Mask} {fault : Bool}
    (hctl : iom.addEventCtl fd d flag fault = some (true, iom')) : fd ≠ iom.mEventfd := by
  rintro rfl
  obtain ⟨-, -, -, -, ⟨hgo, -, -⟩ | ⟨-, -, hepoll⟩⟩ := IOManager.addEventCtl_cases hs hctl
  · exact absurd hgo (by decide)
  · rw [Event.addOp, if_pos h.free, ctl_add_of_isSome h.watched] at hepoll
    exact absurd hepoll (by simp)

/-- The pool is in order, nobody registers for the descriptor of the loop itself, and
every edge is in the past. -/
structure Ordered (s : EdgeLoop N φ κ) : Prop where
  pool : s.iom.Ordered
  own : OwnEntry s.iom
  adds : ∀ c add, s.adds c = some add → add.fd ≠ s.iom.mEventfd
  ready : ∀ e ∈ s.ready, e.time < s.clock
  taken : ∀ w n, n ∈ s.taken w → ∀ e ∈ n.2, e.fd = n.1 ∧ e.time < s.clock
  discarded : ∀ e ∈ s.discarded, e.time < s.clock

theorem ordered_step {a : Act φ κ} (hs : s.Ordered) (h : s.step a = some s') : s'.Ordered := by
  cases a with
  | addCtl c fd d cb flag cur fault =>
    rw [step] at h
    split_ifs at h
    obtain ⟨⟨go, iom⟩, hctl, rfl⟩ := Option.map_eq_some_iff.mp h
    obtain ⟨hframe, hev, htasks, -, hcases⟩ := IOManager.addEventCtl_cases hs.pool.wf hctl
    -- the descriptor of the loop is in the interest set with no event, so `ADD` fails for it
    have hgo : go = true → fd ≠ s.iom.mEventfd := by
      rintro rfl
      exact hs.own.ne_of_ctl hs.pool.wf hctl
    constructor
    · exact (IOManager.Moves.still hframe (hs.pool.tidy fd) hev htasks).ordered hs.pool
    · refine hs.own.of_frame hframe fun hfd => ⟨?_, hev⟩
      rcases hcases with ⟨-, hepoll, -⟩ | ⟨hgo', -, -⟩
      · rw [hepoll]
      · exact absurd hfd (hgo hgo')
    · intro v add hv
      show add.fd ≠ iom.mEventfd
      rw [hframe.mEventfd]
      change Function.update s.adds c _ v = some add at hv
      rw [Function.update_apply] at hv
      split_ifs at hv with hvc hgo'
      · obtain rfl := Option.some_inj.mp hv
        exact hgo hgo'
      · exact hs.adds v add hv
    · exact fun e he => Nat.lt_succ_of_lt (hs.ready e he)
    · exact fun w n hn e he => (hs.taken w n hn e he).imp_right Nat.lt_succ_of_lt
    · exact fun e he => Nat.lt_succ_of_lt (hs.discarded e he)
  | addUpdate c =>
    obtain ⟨add, hadd, h⟩ := Option.bind_eq_some_iff.mp h
    obtain ⟨iom, hupd, rfl⟩ := Option.map_eq_some_iff.mp h
    obtain ⟨hframe, hev, -, hepoll⟩ := IOManager.addEventUpdate_eq hs.pool.wf hupd
    have hne := hs.adds c add hadd
    refine ⟨⟨hframe.wf, fun g => ?_⟩, hs.own.of_frame hframe fun hfd => absurd hfd hne, ?_,
      hs.ready, hs.taken, hs.discarded⟩
    · by_cases hg : g = add.fd
      · show (iom.eventAt g).Tidy
        rw [hg, hev]
        exact Event.tidy_register (hs.pool.tidy add.fd) add.dir add.cb add.cur
      · show (iom.eventAt g).Tidy
        rw [hframe.eventAt hg]
        exact hs.pool.tidy g
    · intro v b hv
      show b.fd ≠ iom.mEventfd
      rw [hframe.mEventfd]
      change Function.update s.adds c none v = some b at hv
      rw [Function.update_apply] at hv
      split_ifs at hv
      exact hs.adds v b hv
  | edge fd d =>
    rw [step] at h
    split_ifs at h
    · obtain rfl := Option.some_inj.mp h
      refine ⟨hs.pool, hs.own, hs.adds, ?_, ?_, ?_⟩
      · intro e he
        rcases List.mem_append.mp he with he | he
        · exact Nat.lt_succ_of_lt (hs.ready e he)
        · rw [List.mem_singleton.mp he]
          exact Nat.lt_succ_self _
      · exact fun w n hn e he => (hs.taken w n hn e he).imp_right Nat.lt_succ_of_lt
      · exact fun e he => Nat.lt_succ_of_lt (hs.discarded e he)
    · obtain rfl := Option.some_inj.mp h
      exact hs
  | take w fd =>
    obtain rfl := Option.some_inj.mp h
    refine ⟨hs.pool, hs.own, hs.adds, ?_, ?_, hs.discarded⟩
    · exact fun e he => hs.ready e (List.mem_filter.mp he).1
    · intro v n hn
      change n ∈ Function.update s.taken w _ v at hn
      rw [Function.update_apply] at hn
      split_ifs at hn
      · rcases List.mem_append.mp hn with hn | hn
        · exact hs.taken w n hn
        · intro e he
          rw [List.mem_singleton.mp hn] at he ⊢
          obtain ⟨hmem, hfd⟩ := List.mem_filter.mp he
          exact ⟨(of_decide_eq_true hfd).1, hs.ready e hmem⟩
      · exact hs.taken v n hn
  | dispatch w fault =>
    rw [step] at h
    split at h
    · exact absurd h (by simp)
    · rename_i fd edges rest htaken
      obtain ⟨iom, hdisp, rfl⟩ := Option.map_eq_some_iff.mp h
      have hhead := hs.taken w (fd, edges) (by rw [htaken]; exact List.mem_cons_self)
      obtain ⟨put, hmoves⟩ := IOManager.moves_dispatch hs.pool.wf (hs.pool.tidy fd) hdisp
      constructor
      · exact hmoves.ordered hs.pool
      -- a notification of the loop's own descriptor is read and done with
      · refine hs.own.of_frame hmoves.frame fun hfd => ?_
        rw [IOManager.dispatch, if_pos hfd, Option.some_inj] at hdisp
        rw [hdisp]
        exact ⟨rfl, rfl⟩
      · intro v add hv
        show add.fd ≠ iom.mEventfd
        rw [hmoves.frame.mEventfd]
        exact hs.adds v add hv
      · exact hs.ready
      · intro v n hn
        change n ∈ Function.update s.taken w rest v at hn
        rw [Function.update_apply] at hn
        split_ifs at hn
        · exact hs.taken w n (by rw [htaken]; exact List.mem_cons_of_mem _ hn)
        · exact hs.taken v n hn
      · intro e he
        rcases List.mem_append.mp he with he | he
        · exact hs.discarded e he
        · exact (hhead e (List.mem_filter.mp he).1).2

theorem ordered_start (threadCnt : ℕ) (mTimerManager : TimerManager N κ) (mEventfd : ℤ) :
    (start (.create threadCnt mTimerManager mEventfd) : EdgeLoop N φ κ).Ordered where
  pool := WaiterLedger.ordered_create threadCnt mTimerManager mEventfd
  own := by
    constructor
    · simp [start, IOManager.create, IOManager.ctxResize]
    · rw [start, IOManager.eventAt_create]
      rfl
  adds _ _ h := absurd h (by simp [start])
  ready _ h := absurd h List.not_mem_nil
  taken _ _ h := absurd h List.not_mem_nil
  discarded _ h := absurd h List.not_mem_nil

/-! ### Discarded edges -/

/-- No discarded edge is awaited. -/
def Silent (s : EdgeLoop N φ κ) : Prop := ∀ e ∈ s.discarded, ¬ s.Awaited e

/-- What awaits an edge after an `addUpdate` did so before. -/
theorem awaited_of_addUpdate (hs : s.Ordered) {c : ℕ} (h : s.step (.addUpdate c) = some s')
    {e : Edge} (he : s'.Awaited e) : s.Awaited e := by
  obtain ⟨add, hadd, h⟩ := Option.bind_eq_some_iff.mp h
  obtain ⟨iom, hupd, rfl⟩ := Option.map_eq_some_iff.mp h
  obtain ⟨hframe, hev, -, -⟩ := IOManager.addEventUpdate_eq hs.pool.wf hupd
  obtain ⟨hwait, htime⟩ | ⟨v, b, hv, hb⟩ := he
  · change ((iom.eventAt e.fd).getEvent e.dir).task.isSome at hwait
    change Function.update s.armedAt add.fd _ e.fd e.dir < e.time at htime
    by_cases hfd : e.fd = add.fd
    · rw [hfd, hev] at hwait
      rw [hfd, Function.update_self] at htime
      by_cases hdir : e.dir = add.dir
      · -- the waiter is the one that was on its way
        rw [hdir, Function.update_self] at htime
        exact .inr ⟨c, add, hadd, hfd.symm, hdir.symm, htime⟩
      · rw [Function.update_of_ne hdir] at htime
        rw [Event.getEvent_register_of_ne _ hdir] at hwait
        rw [← hfd] at hwait htime
        exact .inl ⟨hwait, htime⟩
    · rw [Function.update_of_ne hfd] at htime
      rw [hframe.eventAt hfd] at hwait
      exact .inl ⟨hwait, htime⟩
  · change Function.update s.adds c none v = some b at hv
    rw [Function.update_apply] at hv
    split_ifs at hv
    exact .inr ⟨v, b, hv, hb⟩

/-- A dispatch discards the awaited edges that are not heard, and makes no edge awaited. -/
theorem awaited_of_dispatch (hs : s.Ordered) {w : ℕ} {fault : Bool}
    (h : s.step (.dispatch w fault) = some s') {e : Edge} (he : s'.Awaited e) : s.Awaited e := by
  rw [step] at h
  split at h
  · exact absurd h (by simp)
  · rename_i fd edges rest htaken
    obtain ⟨iom, hdisp, rfl⟩ := Option.map_eq_some_iff.mp h
    refine he.imp_left fun ⟨hwait, htime⟩ => ⟨?_, htime⟩
    change ((iom.eventAt e.fd).getEvent e.dir).task.isSome at hwait
    rcases slot_dispatch hs.pool.wf hdisp e.fd e.dir with hslot | hslot
    · rw [hslot] at hwait
      exact absurd hwait (by simp [EventCtx.task])
    · rw [hslot] at hwait
      exact hwait

/-- The step lemma. -/
theorem silent_step {a : Act φ κ} (hs : s.Ordered) (hq : s.Silent) (hok : s.Heard a)
    (h : s.step a = some s') : s'.Silent := by
  intro e he hawaited
  cases a with
  | addCtl c fd d cb flag cur fault =>
    rw [step] at h
    split_ifs at h
    obtain ⟨⟨go, iom⟩, hctl, rfl⟩ := Option.map_eq_some_iff.mp h
    obtain ⟨hframe, hev, -, -, -⟩ := IOManager.addEventCtl_cases hs.pool.wf hctl
    have hsame : iom.eventAt e.fd = s.iom.eventAt e.fd := by
      by_cases hfd : e.fd = fd
      · rw [hfd, hev]
      · exact hframe.eventAt hfd
    obtain ⟨hwait, htime⟩ | ⟨v, b, hv, hb⟩ := hawaited
    · change ((iom.eventAt e.fd).getEvent e.dir).task.isSome at hwait
      rw [hsame] at hwait
      exact hq e he (.inl ⟨hwait, htime⟩)
    · change Function.update s.adds c _ v = some b at hv
      rw [Function.update_apply] at hv
      split_ifs at hv
      · -- its `epoll_ctl` is later than all edges so far
        obtain rfl := Option.some_inj.mp hv
        have := hs.discarded e he
        exact absurd hb.2.2 this.not_gt
      · exact hq e he (.inr ⟨v, b, hv, hb⟩)
  | addUpdate c =>
    have hdiscarded : s'.discarded = s.discarded := by
      obtain ⟨add, -, h⟩ := Option.bind_eq_some_iff.mp h
      obtain ⟨iom, -, rfl⟩ := Option.map_eq_some_iff.mp h
      rfl
    exact hq e (hdiscarded ▸ he) (awaited_of_addUpdate hs h hawaited)
  | edge fd d =>
    rw [step] at h
    split_ifs at h <;> obtain rfl := Option.some_inj.mp h
    · exact hq e he hawaited
    · exact hq e he hawaited
  | take w fd =>
    obtain rfl := Option.some_inj.mp h
    exact hq e he hawaited
  -- the old edges stay unawaited; a new one was either not awaited or has woken its waiter
  | dispatch w fault =>
    have hbefore := awaited_of_dispatch hs h hawaited
    rw [step] at h
    split at h
    · exact absurd h (by simp)
    · rename_i fd edges rest htaken
      obtain ⟨iom, hdisp, rfl⟩ := Option.map_eq_some_iff.mp h
      rcases List.mem_append.mp he with he | he
      · exact hq e he hbefore
      · obtain ⟨hmem, hwoke⟩ := List.mem_filter.mp he
        obtain ⟨hwait, hctl⟩ := hok fd edges rest htaken e hmem hbefore
        have hfd : e.fd = fd :=
          (hs.taken w (fd, edges) (by rw [htaken]; exact List.mem_cons_self) e hmem).1
        rw [waiter, hfd] at hwait
        rw [hfd] at hwoke
        have hne : fd ≠ s.iom.mEventfd := by
          rintro rfl
          have hfree := (hs.pool.tidy s.iom.mEventfd).free e.dir
            (by rw [hs.own.free]; exact BitVec.zero_and)
          rw [hfree] at hwait
          exact absurd hwait (by simp [EventCtx.task])
        rw [woke_dispatch hs.pool hdisp hne hmem hwait hctl] at hwoke
        exact absurd hwoke (by decide)

/-- **No readiness edge is lost** in any run whose dispatches of awaited edges find a waiter
and have their `epoll_ctl` succeed. -/
theorem heard {threadCnt : ℕ} {mTimerManager : TimerManager N κ} {mEventfd : ℤ}
    (h : Reachable step Heard (start (.create threadCnt mTimerManager mEventfd)) s) :
    s.NoEdgeLost := by
  have hinv : s.Ordered ∧ s.Silent := by
    refine h.invariant (I := fun s => s.Ordered ∧ s.Silent)
      ⟨ordered_start threadCnt mTimerManager mEventfd, ?_⟩ ?_
    · exact fun _ he => absurd he List.not_mem_nil
    · exact fun s a s' hs hok hstep => ⟨ordered_step hs.1 hstep, silent_step hs.1 hs.2 hok hstep⟩
  intro e he hwait
  by_contra hlt
  exact hinv.2 e he (.inl ⟨hwait, by omega⟩)

/-- **The condition is no stronger than it has to be**: where a dispatch does not meet it,
an edge of a registered waiter is lost at once, or when an `addEvent` is through. -/
theorem discarded_awaited (hs : s.Ordered) {w : ℕ} {fault : Bool}
    (h : s.step (.dispatch w fault) = some s') (hnot : ¬ s.Heard (.dispatch w fault)) :
    ¬ s'.NoEdgeLost ∨ ∃ c, ∀ s'', s'.step (.addUpdate c) = some s'' → ¬ s''.NoEdgeLost := by
  rw [step] at h
  split at h
  · exact absurd h (by simp)
  · rename_i fd edges rest htaken
    obtain ⟨iom, hdisp, rfl⟩ := Option.map_eq_some_iff.mp h
    -- the edge that is awaited and not heard
    obtain ⟨e, hmem, hawaited, hdeaf⟩ : ∃ e ∈ edges, s.Awaited e ∧
        ¬ ((s.waiter e.fd e.dir).isSome ∧ (s.iom.leaveCtl fd (events edges) fault).isSome) := by
      by_contra hall
      refine hnot fun fd' edges' rest' htaken' e he hawaited => ?_
      obtain ⟨hn, -⟩ := List.cons.inj (htaken.symm.trans htaken')
      obtain ⟨rfl, rfl⟩ := Prod.mk.inj hn
      by_contra hdeaf
      exact hall ⟨e, he, hawaited, hdeaf⟩
    obtain ⟨hframe, hcases⟩ := IOManager.dispatch_spec hs.pool.wf hdisp
    have hwoke : woke s.iom iom e.fd e.dir = false := by
      rcases hcases with ⟨hsame, -⟩ | ⟨-, -, -, hctl⟩
      · rw [hsame, woke]
        cases ((s.iom.eventAt e.fd).getEvent e.dir).task <;> rfl
      · have hwait : ((s.iom.eventAt e.fd).getEvent e.dir).task.isSome = false := by
          rw [Bool.eq_false_iff]
          exact fun hwait => hdeaf ⟨hwait, by rw [hctl]; rfl⟩
        rw [woke, hwait]
        rfl
    have hdiscarded : e ∈ s.discarded ++ edges.filter fun e => !woke s.iom iom e.fd e.dir :=
      List.mem_append_right _ (List.mem_filter.mpr ⟨hmem, by rw [hwoke]; rfl⟩)
    obtain ⟨hwait, htime⟩ | ⟨c, add, hadd, hfd, hdir, htime⟩ := hawaited
    · -- the `epoll_ctl` fails, and the waiter stays
      refine .inl fun hnone => ?_
      rcases hcases with ⟨hsame, -⟩ | ⟨-, -, -, hctl⟩
      · subst hsame
        have := hnone e hdiscarded hwait
        exact absurd htime this.not_gt
      · exact hdeaf ⟨hwait, by rw [hctl]; rfl⟩
    -- the waiter comes with the time of its `epoll_ctl`, which is before the edge
    · refine .inr ⟨c, fun s'' hupd hnone => ?_⟩
      obtain ⟨add', hadd', hupd⟩ := Option.bind_eq_some_iff.mp hupd
      obtain rfl : add = add' := Option.some_inj.mp (hadd.symm.trans hadd')
      obtain ⟨iom', hreg, rfl⟩ := Option.map_eq_some_iff.mp hupd
      obtain ⟨-, hev, -, -⟩ := IOManager.addEventUpdate_eq hframe.wf hreg
      have hle : e.time ≤ add.time := by
        have hwait := Event.isSome_register (iom.eventAt add.fd) add.dir add.cb add.cur
        rw [← hev, hfd, hdir] at hwait
        have hle := hnone e hdiscarded hwait
        change e.time ≤ Function.update s.armedAt add.fd _ e.fd e.dir at hle
        rw [← hfd, Function.update_self, ← hdir, Function.update_self] at hle
        exact hle
      exact absurd htime hle.not_gt

/-- An event loop with `mEventfd` 3. -/
def edgesOf3 : EdgeLoop 60 ℕ Unit := start (.create 1 TimerManager.defaultWheel 3)

set_option maxRecDepth 2000 in
/-- The edge comes between the halves, and is dispatched after them. -/
theorem heard_after_halves :
    ∃ s, Reachable step Heard edgesOf3 s ∧ s.iom.mTasks = [.ofFiber 0] ∧ s.NoEdgeLost := by
  have hrun : ∃ s, run step [.addCtl 0 5 .read none ET 0 false, .edge 5 .read, .take 0 5,
      .addUpdate 0] edgesOf3 = some s ∧ s.taken 0 = [(5, [⟨5, .read, 1⟩])] ∧
      (s.waiter 5 .read).isSome ∧ (s.iom.leaveCtl 5 (events [⟨5, .read, 1⟩]) false).isSome ∧
      ∃ s', s.step (.dispatch 0 false) = some s' ∧ s'.iom.mTasks = [.ofFiber 0] :=
    ⟨_, rfl, rfl, rfl, rfl, _, rfl, rfl⟩
  obtain ⟨s, hs, htaken, hwait, hctl, s', hs', htasks⟩ := hrun
  have hreach : Reachable step Heard edgesOf3 s := .of_run_admitted (by simp [Heard]) hs
  have hreach' : Reachable step Heard edgesOf3 s' := by
    refine hreach.step (.dispatch 0 false) ?_ hs'
    intro fd edges rest hn e he _
    rw [htaken] at hn
    obtain ⟨hhead, -⟩ := List.cons.inj hn
    obtain ⟨rfl, rfl⟩ := Prod.mk.inj hhead
    obtain rfl := List.mem_singleton.mp he
    exact ⟨hwait, hctl⟩
  exact ⟨s', hreach', htasks, heard hreach'⟩

set_option maxRecDepth 2000 in
/-- The edge is dispatched between the halves of the `addEvent` that armed it: no waiter is
registered yet, and the one that is registered afterwards has missed it. -/
theorem edge_between_halves :
    ∃ s, run step [.addCtl 0 5 .read none ET 0 false, .edge 5 .read, .take 0 5,
        .dispatch 0 false, .addUpdate 0] edgesOf3 = some s ∧
      s.waiter 5 .read = some (.ofFiber 0) ∧ s.iom.mTasks = [] ∧ ¬ s.NoEdgeLost := by
  have hrun : ∃ s, run step [.addCtl 0 5 .read none ET 0 false, .edge 5 .read, .take 0 5,
      .dispatch 0 false, .addUpdate 0] edgesOf3 = some s ∧
      s.waiter 5 .read = some (.ofFiber 0) ∧ s.iom.mTasks = [] ∧
      s.discarded = [⟨5, .read, 1⟩] ∧ s.armedAt 5 .read = 0 :=
    ⟨_, rfl, rfl, rfl, rfl, rfl⟩
  obtain ⟨s, hs, hwait, htasks, hdiscarded, harmed⟩ := hrun
  refine ⟨s, hs, hwait, htasks, fun h => ?_⟩
  have hle := h ⟨5, .read, 1⟩ (by rw [hdiscarded]; exact List.mem_singleton.mpr rfl)
    (by rw [hwait]; rfl)
  rw [harmed] at hle
  exact absurd hle (by decide)

end EdgeLoop

end Server
