/-
The indices that a hooked call uses.

The application may pass any `int` to a hooked call.  `FdManager::get` returns for -1,
and for what its vector does not reach; `FdManager::del`, `addEvent` and `delEvent`
test their index from above only, and are called with a descriptor that has a context.

* `getIndices`, `delIndices`, `addEventIndices`, `delEventIndices` — the index
  expressions that a function evaluates, each with the size of the vector then, and that
  the function is defined exactly when all of them are within;
* `tableStep` — the threads, among any other use of the two tables;
* `indices_within_iff` — all indices of a call are within the vectors if and only if the
  descriptor is not below -1.
-/
import AsyncServer.EpollMirror
import AsyncServer.ReusedDescriptors

namespace Server

open Epoll Transition

/-- An index, and the size of the vector that it is used on. -/
def Within (a : ℤ × ℕ) : Prop := 0 ≤ a.1 ∧ a.1 < a.2

instance : DecidablePred Within := fun _ => inferInstanceAs (Decidable (_ ∧ _))

/-! ### The index expressions -/

namespace FdManager

variable {m : FdManager} {fd : ℤ}

/-- `mCtxs[fd]` in `get`: the look-up, and the assignment after the growth. -/
def getIndices (m : FdManager) (fd : ℤ) (autoCreate sock : Bool) : List (ℤ × ℕ) :=
  if fd = -1 then []
  else if (m.mCtxs.length : ℤ) ≤ fd then
    if autoCreate then [(fd, (m.build fd sock).mCtxs.length)] else []
  else if (m.ctxAt fd).isSome || !autoCreate then [(fd, m.mCtxs.length)]
  else [(fd, m.mCtxs.length), (fd, (m.build fd sock).mCtxs.length)]

/-- `mCtxs[fd]` in `del`. -/
def delIndices (m : FdManager) (fd : ℤ) : List (ℤ × ℕ) :=
  if (m.mCtxs.length : ℤ) ≤ fd then [] else [(fd, m.mCtxs.length)]

theorem getIndices_within (hm : m.Wf) (hfd : -1 ≤ fd) (autoCreate sock : Bool) :
    ∀ a ∈ m.getIndices fd autoCreate sock, Within a := by
  intro a ha
  unfold getIndices at ha
  by_cases hneg : fd = -1
  · rw [if_pos hneg] at ha
    exact absurd ha List.not_mem_nil
  have h0 : 0 ≤ fd := by omega
  have hbuild : fd < ((m.build fd sock).mCtxs.length : ℤ) := lt_length_build hm h0
  rw [if_neg hneg] at ha
  split_ifs at ha with hlen
  · rw [List.mem_singleton.mp ha]
    exact ⟨h0, hbuild⟩
  · exact absurd ha List.not_mem_nil
  · rw [List.mem_singleton.mp ha]
    exact ⟨h0, not_le.mp hlen⟩
  · rcases List.mem_cons.mp ha with rfl | ha
    · exact ⟨h0, not_le.mp hlen⟩
    · rw [List.mem_singleton.mp ha]
      exact ⟨h0, hbuild⟩

/-- Below -1 the look-up is made all the same. -/
theorem mem_getIndices (hfd : fd < -1) (autoCreate sock : Bool) :
    (fd, m.mCtxs.length) ∈ m.getIndices fd autoCreate sock := by
  unfold getIndices
  rw [if_neg (by omega), if_neg (by omega)]
  split_ifs <;> exact List.mem_cons_self

/-- **Where `get` is defined.** -/
theorem get_isSome_iff (hm : m.Wf) (fd : ℤ) (autoCreate sock : Bool) :
    (m.get fd autoCreate sock).isSome ↔ ∀ a ∈ m.getIndices fd autoCreate sock, Within a := by
  by_cases hfd : -1 ≤ fd
  · refine iff_of_true ?_ (getIndices_within hm hfd autoCreate sock)
    unfold get
    split_ifs <;> first | rfl | omega
  · refine iff_of_false ?_ fun h => hfd ?_
    · rw [get, if_neg (by omega), if_neg (by omega), if_neg (by omega)]
      exact Bool.false_ne_true
    · have := (h _ (mem_getIndices (not_le.mp hfd) autoCreate sock)).1
      exact le_trans (by norm_num) this

theorem del_isSome_iff (m : FdManager) (fd : ℤ) :
    (m.del fd).isSome ↔ ∀ a ∈ m.delIndices fd, Within a := by
  unfold del delIndices
  split_ifs with hlen h0
  · exact iff_of_true rfl fun a ha => absurd ha List.not_mem_nil
  · refine iff_of_true rfl fun a ha => ?_
    rw [List.mem_singleton.mp ha]
    exact ⟨h0, not_le.mp hlen⟩
  · exact iff_of_false Bool.false_ne_true fun h => h0 (h _ (List.mem_singleton_self _)).1

end FdManager

namespace IOManager

variable {N : ℕ} {φ κ : Type*} {s s' : IOManager N φ κ} {fd : ℤ}

/-- `mEvents[fd]` in `addEvent`, after its growth step. -/
def addEventIndices (s : IOManager N φ κ) (fd : ℤ) : List (ℤ × ℕ) :=
  [(fd, (s.grow fd).mEvents.length)]

/-- `mEvents[fd]` in `delEvent`. -/
def delEventIndices (s : IOManager N φ κ) (fd : ℤ) : List (ℤ × ℕ) :=
  if (s.mEventCnt : ℤ) ≤ fd then [] else [(fd, s.mEvents.length)]

theorem addEventCtl_isSome_iff (s : IOManager N φ κ) (fd : ℤ) (d : Dir) (flag : Mask)
    (fault : Bool) :
    (s.addEventCtl fd d flag fault).isSome ↔ ∀ a ∈ s.addEventIndices fd, Within a := by
  unfold addEventCtl addEventIndices
  rw [Option.isSome_map, eventPtr_isSome, List.forall_mem_singleton]
  exact Iff.rfl

theorem delEventTest_isSome_iff (s : IOManager N φ κ) (fd : ℤ) :
    (s.delEventTest fd).isSome ↔ ∀ a ∈ s.delEventIndices fd, Within a := by
  unfold delEventTest delEventIndices
  split_ifs with hcnt
  · exact iff_of_true rfl fun a ha => absurd ha List.not_mem_nil
  · rw [Option.isSome_map, eventPtr_isSome, List.forall_mem_singleton]
    exact Iff.rfl

theorem addEventIndices_within (hs : s.PoolWf) (h0 : 0 ≤ fd) :
    ∀ a ∈ s.addEventIndices fd, Within a := by
  rw [addEventIndices, List.forall_mem_singleton]
  have hsome : ((s.grow fd).eventPtr fd).isSome := by rw [eventPtr_grow hs h0]; rfl
  exact eventPtr_isSome.mp hsome

theorem delEventIndices_within (hs : s.PoolWf) (h0 : 0 ≤ fd) :
    ∀ a ∈ s.delEventIndices fd, Within a := by
  have hcnt := hs.cnt
  unfold delEventIndices
  split_ifs with hle
  · exact fun a ha => absurd ha List.not_mem_nil
  · rw [List.forall_mem_singleton]
    exact ⟨h0, by show fd < (s.mEvents.length : ℤ); omega⟩

/-- The operations keep the pool in order. -/
theorem poolWf_step (hs : s.PoolWf) {op : EventOp φ κ} (h : s.step op = some s') :
    s'.PoolWf := by
  cases op with
  | addEvent fd d cb flag cur fault => exact (frame_addEvent hs h).wf
  | cancelEvent fd d fault => exact (cancelEvent_cases hs h).1.wf
  | delEvent fd fault => exact (delEvent_cases hs h).1.wf
  | dispatch fd events fault => exact (dispatch_cases hs h).1.wf

end IOManager

/-! ### The threads and the tables -/

namespace FdPc

/-- The descriptor that a call is about to look up. -/
def looksUp : FdPc → Option ℤ
  | .io fd _ .get | .closing fd .get => some fd
  | _ => none

/-- The descriptor that a call has found a context for, or is about to make one for. -/
def found : FdPc → Option ℤ
  | .created fd => some fd
  | .io fd _ .raw | .io fd _ .adding | .io fd _ .updating | .io fd _ .yielding
  | .io fd _ .held => some fd
  | .closing fd .delTest | .closing fd .delCtl | .closing fd .delClear
  | .closing fd .delCtx => some fd
  | _ => none

/-- Within a call, a look-up comes first, and a context is found on a valid descriptor. -/
structure Goes (p p' : FdPc) : Prop where
  found : ∀ fd, p'.found = some fd → p.found = some fd ∨ 0 ≤ fd
  looksUp : ∀ fd, p'.looksUp = some fd → p'.looksUp = p.looksUp ∨ p = .free

theorem Goes.refl (p : FdPc) : Goes p p := ⟨fun _ h => .inl h, fun _ _ => .inl rfl⟩

theorem goes_free (p : FdPc) : Goes p .free := by
  constructor <;> simp [FdPc.found, FdPc.looksUp]

/-- A context that has just been found, or is about to be made, on a valid descriptor. -/
theorem goes_found {p p' : FdPc} {fd : ℤ} (h0 : 0 ≤ fd) (hfound : p'.found = some fd)
    (hlooks : p'.looksUp = none) : Goes p p' := by
  refine ⟨fun g hg => .inr ?_, fun g hg => absurd (hlooks.symm.trans hg) (by simp)⟩
  have hfd : fd = g := Option.some_inj.mp (hfound.symm.trans hg)
  rw [← hfd]
  exact h0

/-- What stays behind the look-up. -/
theorem goes_of_eq {p p' : FdPc} (hfound : p'.found = p.found ∨ p'.found = none)
    (hlooks : p'.looksUp = none) : Goes p p' := by
  refine ⟨fun fd h => .inl ?_, fun fd h => absurd (hlooks.symm.trans h) (by simp)⟩
  rcases hfound with heq | hnone
  · rw [← heq, h]
  · exact absurd (hnone.symm.trans h) (by simp)

end FdPc

namespace FdHost

variable {N : ℕ} {κ : Type*} {s s' s₁ : FdHost N κ} {t : ℕ} {fd : ℤ}

/-- The index expressions of the next step of thread `t`. -/
def indices (s : FdHost N κ) (t : ℕ) : List (ℤ × ℕ) :=
  match s.pc t with
  | .created fd => s.fdManager.getIndices fd true true
  | .io fd _ .get | .closing fd .get => s.fdManager.getIndices fd false false
  | .io fd _ .adding => s.iom.addEventIndices fd
  | .closing fd .delTest => s.iom.delEventIndices fd
  | .closing fd .delCtx => s.fdManager.delIndices fd
  | _ => []

/-- A step of a thread, or a use of the tables by code that is not in a hooked call. -/
inductive TableAct (κ : Type*) where
  | host (a : Act)
  | event (op : EventOp ℕ κ)
  | getCtx (fd : ℤ) (autoCreate sock : Bool)
  | delCtx (fd : ℤ)

/-- One such step. -/
def tableStep (s : FdHost N κ) : TableAct κ → Option (FdHost N κ)
  | .host a => s.step a
  | .event op => (s.iom.step op).map fun iom => { s with iom := iom }
  | .getCtx fd autoCreate sock =>
    (s.fdManager.get fd autoCreate sock).map fun r => { s with fdManager := r.2 }
  | .delCtx fd => (s.fdManager.del fd).map fun m => { s with fdManager := m }

/-- A step of `t` to `p` is a move of `t`, and the other threads stay. -/
theorem goes_goto {p : FdPc} (h : FdPc.Goes (s.pc t) p) (u : ℕ) :
    FdPc.Goes (s.pc u) ((s.goto t p).pc u) := by
  by_cases hu : u = t
  · rw [hu]
    simpa [goto] using h
  · simp [goto, Function.update_of_ne hu, FdPc.Goes.refl]

/-- What `io_func` does with a context is behind the look-up. -/
theorem goes_enter {d : Dir} {r : Option FdCtxPtr × FdManager}
    (h : s.fdManager.get fd false false = some r) (p : FdPc) :
    FdPc.Goes p (s.enter fd d r.1) := by
  rw [FdManager.get_eq h]
  unfold enter
  cases hctx : s.fdManager.ctxAt fd with
  | none => exact FdPc.goes_of_eq (.inr rfl) rfl
  | some q =>
    have h0 := FdManager.nonneg_of_ctxAt hctx
    dsimp only
    split_ifs
    · exact FdPc.goes_free p
    · exact FdPc.goes_of_eq (.inr rfl) rfl
    · exact FdPc.goes_found h0 rfl rfl

/-- **Where the threads go in a step.** -/
theorem goes_step {a : Act} (h : s.step a = some s') (u : ℕ) :
    FdPc.Goes (s.pc u) (s'.pc u) := by
  cases a with
  | socket t fd | accepted t fd =>
    simp only [step] at h
    split at h
    all_goals first
      | contradiction
      | split_ifs at h with hfd
        rw [← Option.some_inj.mp h]
        exact goes_goto (FdPc.goes_found hfd.1 rfl rfl) u
  | build t sock =>
    simp only [step] at h
    split at h
    · obtain ⟨r, -, rfl⟩ := Option.map_eq_some_iff.mp h
      exact goes_goto (FdPc.goes_free _) u
    · exact absurd h (by simp)
  | openOutside fd =>
    simp only [step] at h
    split_ifs at h
    rw [← Option.some_inj.mp h]
    exact .refl _
  | call t fd d | close t fd =>
    simp only [step] at h
    split at h
    · rename_i hpc
      rw [← Option.some_inj.mp h]
      exact goes_goto ⟨by simp [FdPc.found], fun _ _ => .inr hpc⟩ u
    · exact absurd h (by simp)
  | getCtx t =>
    simp only [step] at h
    split at h
    · obtain ⟨r, hget, rfl⟩ := Option.map_eq_some_iff.mp h
      exact goes_goto (goes_enter hget _) u
    · exact absurd h (by simp)
  | callDone t =>
    simp only [step] at h
    split at h
    all_goals first
      | contradiction
      | rw [← Option.some_inj.mp h]
        exact goes_goto (FdPc.goes_free _) u
  | rawAgain t | yield t | delCtl t fault =>
    simp only [step] at h
    split at h
    · rename_i hpc
      rw [← Option.some_inj.mp h]
      exact goes_goto (FdPc.goes_of_eq (.inl (by rw [hpc]; rfl)) rfl) u
    · exact absurd h (by simp)
  | addCtl t fault | delTest t =>
    -- the call goes on or is done, by what the test of the event returns
    simp only [step] at h
    split at h
    · rename_i hpc
      obtain ⟨r, -, rfl⟩ := Option.map_eq_some_iff.mp h
      refine goes_goto (FdPc.goes_of_eq (.inl ?_) ?_) u
      · rw [hpc]
        split_ifs <;> rfl
      · split_ifs <;> rfl
    · exact absurd h (by simp)
  | update t | delClear t =>
    simp only [step] at h
    split at h
    · rename_i hpc
      split_ifs at h
      obtain ⟨iom, -, rfl⟩ := Option.map_eq_some_iff.mp h
      exact goes_goto (FdPc.goes_of_eq (.inl (by rw [hpc]; rfl)) rfl) u
    · exact absurd h (by simp)
  | take t =>
    simp only [step] at h
    split at h
    · rename_i hpc
      split_ifs at h
      rw [← Option.some_inj.mp h]
      exact goes_goto (FdPc.goes_of_eq (.inl (by rw [hpc]; rfl)) rfl) u
    · exact absurd h (by simp)
  | closeGet t =>
    simp only [step] at h
    split at h
    · rename_i fd hpc
      obtain ⟨r, hget, rfl⟩ := Option.map_eq_some_iff.mp h
      refine goes_goto ?_ u
      rw [FdManager.get_eq hget]
      cases hctx : s.fdManager.ctxAt fd with
      | none => exact FdPc.goes_of_eq (.inr rfl) rfl
      | some q => exact FdPc.goes_found (FdManager.nonneg_of_ctxAt hctx) rfl rfl
    · exact absurd h (by simp)
  | delCtx t =>
    simp only [step] at h
    split at h
    · obtain ⟨m, -, rfl⟩ := Option.map_eq_some_iff.mp h
      exact goes_goto (FdPc.goes_of_eq (.inr rfl) rfl) u
    · exact absurd h (by simp)
  | rawClose t =>
    simp only [step] at h
    split at h
    · rw [← Option.some_inj.mp h]
      exact goes_goto (FdPc.goes_free _) u
    · exact absurd h (by simp)
  | dispatch fd events fault | cancelEvent fd d fault =>
    simp only [step] at h
    split_ifs at h
    obtain ⟨r, -, rfl⟩ := Option.map_eq_some_iff.mp h
    exact .refl _
  | trigger fd =>
    simp only [step] at h
    split at h
    all_goals first
      | contradiction
      | obtain ⟨iom, -, rfl⟩ := Option.map_eq_some_iff.mp h
        exact .refl _

/-- The tables in order, and no call behind its look-up on an invalid descriptor. -/
structure Indexed (s : FdHost N κ) : Prop where
  pool : s.iom.PoolWf
  ctxs : s.fdManager.Wf
  nonneg : ∀ {t fd}, (s.pc t).found = some fd → 0 ≤ fd

theorem indexed_start (threadCnt : ℕ) (mTimerManager : TimerManager N κ) (mEventfd : ℤ)
    (inherited : List ℕ) : (start threadCnt mTimerManager mEventfd inherited).Indexed where
  pool := IOManager.poolWf_create threadCnt mTimerManager mEventfd
  ctxs := FdManager.wf_create
  nonneg h := absurd h (by simp [start, FdPc.found])

theorem pool_step (hs : s.iom.PoolWf) {a : Act} (h : s.step a = some s') : s'.iom.PoolWf := by
  cases stepped hs h with
  | opened | openOutside | built | call | close | deleted => exact hs
  | moved hsame | dispatched _ _ hsame => exact hsame.wf
  | updated _ _ hreg => exact (IOManager.addEventUpdate_eq hs hreg).1.wf
  | taken | released => exact hs.congr rfl rfl
  | cleared _ _ hclear => exact (IOManager.delEventClear_spec hs hclear).1
  | triggerClear _ htrigger => exact (IOManager.triggerClear_spec hs htrigger).1
  | triggerQueue _ htrigger => exact (IOManager.triggerQueue_spec hs htrigger).1
  | triggerReset _ htrigger => exact (IOManager.triggerReset_spec hs htrigger).1

theorem ctxs_step (hs : s.Indexed) {a : Act} (h : s.step a = some s') : s'.fdManager.Wf := by
  cases stepped hs.pool h with
  | built _ hget => exact FdManager.wf_get hs.ctxs hget
  | deleted _ hdel => exact (FdManager.wf_del hs.ctxs hdel).1
  | _ => exact hs.ctxs

theorem goes_tableStep {a : TableAct κ} (h : s.tableStep a = some s') (u : ℕ) :
    FdPc.Goes (s.pc u) (s'.pc u) := by
  cases a with
  | host a => exact goes_step h u
  | event op | getCtx fd autoCreate sock | delCtx fd =>
    obtain ⟨r, -, rfl⟩ := Option.map_eq_some_iff.mp h
    exact .refl _

/-- The step lemma. -/
theorem Indexed.step (hs : s.Indexed) {a : TableAct κ} (h : s.tableStep a = some s') :
    s'.Indexed := by
  have hnonneg : ∀ {t fd}, (s'.pc t).found = some fd → 0 ≤ fd := fun {t fd} hfound =>
    ((goes_tableStep h t).found fd hfound).elim hs.nonneg id
  cases a with
  | host a => exact ⟨pool_step hs.pool h, ctxs_step hs h, hnonneg⟩
  | event op =>
    obtain ⟨iom, hop, rfl⟩ := Option.map_eq_some_iff.mp h
    exact ⟨IOManager.poolWf_step hs.pool hop, hs.ctxs, hnonneg⟩
  | getCtx fd autoCreate sock =>
    obtain ⟨r, hget, rfl⟩ := Option.map_eq_some_iff.mp h
    exact ⟨hs.pool, FdManager.wf_get hs.ctxs hget, hnonneg⟩
  | delCtx fd =>
    obtain ⟨m, hdel, rfl⟩ := Option.map_eq_some_iff.mp h
    exact ⟨hs.pool, (FdManager.wf_del hs.ctxs hdel).1, hnonneg⟩

theorem indexed_reached {threadCnt : ℕ} {mTimerManager : TimerManager N κ} {mEventfd : ℤ}
    {inherited : List ℕ}
    (h : Reachable tableStep anyStep (start threadCnt mTimerManager mEventfd inherited) s) :
    s.Indexed :=
  h.invariant (indexed_start threadCnt mTimerManager mEventfd inherited)
    fun _ _ _ hs _ hstep => hs.step hstep

/-- All indices of a thread are within, where its look-up is. -/
theorem Indexed.within (hs : s.Indexed) (hlooks : ∀ fd, (s.pc t).looksUp = some fd → -1 ≤ fd) :
    ∀ a ∈ s.indices t, Within a := by
  have hfound : ∀ fd, (s.pc t).found = some fd → 0 ≤ fd := fun _ => hs.nonneg
  unfold indices
  split
  case h_7 => exact fun a ha => absurd ha List.not_mem_nil
  all_goals
    rename_i hpc
    rw [hpc] at hlooks hfound
  · exact FdManager.getIndices_within hs.ctxs ((by norm_num : (-1 : ℤ) ≤ 0).trans
      (hfound _ rfl)) true true
  · exact FdManager.getIndices_within hs.ctxs (hlooks _ rfl) false false
  · exact FdManager.getIndices_within hs.ctxs (hlooks _ rfl) false false
  · exact IOManager.addEventIndices_within hs.pool (hfound _ rfl)
  · exact IOManager.delEventIndices_within hs.pool (hfound _ rfl)
  · unfold FdManager.delIndices
    split_ifs with hlen
    · exact fun a ha => absurd ha List.not_mem_nil
    · rw [List.forall_mem_singleton]
      exact ⟨hfound _ rfl, not_le.mp hlen⟩

/-- **The indices of a hooked call.**  From any state of the threads and the tables, a
thread calls a hooked function or `close` on `fd`: every index that it uses until the
call is over is within its vector, whatever happens in between, if and only if `fd` is
not below -1. -/
theorem indices_within_iff {threadCnt : ℕ} {mTimerManager : TimerManager N κ} {mEventfd : ℤ}
    {inherited : List ℕ}
    (hreach : Reachable tableStep anyStep (start threadCnt mTimerManager mEventfd inherited) s)
    {a : Act} (ha : (∃ d, a = .call t fd d) ∨ a = .close t fd) (hcall : s.step a = some s₁) :
    (∀ s', Reachable tableStep (fun s _ => s.pc t ≠ .free) s₁ s' →
        ∀ a ∈ s'.indices t, Within a) ↔ -1 ≤ fd := by
  -- the call begins with the look-up
  have hbegin : (s₁.pc t).looksUp = some fd ∧
      s₁.indices t = s₁.fdManager.getIndices fd false false := by
    rcases ha with ⟨d, rfl⟩ | rfl
    all_goals
      simp only [step] at hcall
      split at hcall
      · rw [← Option.some_inj.mp hcall]
        simp [goto, FdPc.looksUp, indices]
      · exact absurd hcall (by simp)
  have hs₁ : s₁.Indexed :=
    (indexed_reached hreach).step (a := TableAct.host a) hcall
  constructor
  · intro h
    by_contra hfd
    have hmem := FdManager.mem_getIndices (m := s₁.fdManager) (not_le.mp hfd) false false
    rw [← hbegin.2] at hmem
    exact hfd (le_trans (by norm_num) (h s₁ .init _ hmem).1)
  · intro hfd s' hs'
    -- within the call, no other descriptor is looked up
    have hinv : s'.Indexed ∧ ∀ g, (s'.pc t).looksUp = some g → -1 ≤ g := by
      refine hs'.invariant (I := fun s => s.Indexed ∧
        ∀ g, (s.pc t).looksUp = some g → -1 ≤ g) ⟨hs₁, fun g hg => ?_⟩ ?_
      · rw [← Option.some_inj.mp (hbegin.1.symm.trans hg)]
        exact hfd
      · intro s b s' hs hbusy hstep
        obtain ⟨hs, hlooks⟩ := hs
        refine ⟨hs.step hstep, fun g hg => ?_⟩
        rcases (goes_tableStep hstep t).looksUp g hg with hsame | hfree
        · exact hlooks g (hsame ▸ hg)
        · exact absurd hfree hbusy
    exact hinv.1.within hinv.2

set_option maxRecDepth 1000 in
/-- A hooked read of the socket 5. -/
theorem indices_within_socket :
    ∃ s s₁ : FdHost 60 Unit, s.fdManager.ctxAt 5 = some 0 ∧
      s.step (.call 0 5 .read) = some s₁ ∧
      ∀ s', Reachable tableStep (fun s _ => s.pc 0 ≠ .free) s₁ s' →
        ∀ a ∈ s'.indices 0, Within a := by
  obtain ⟨s, hs, hctx, s₁, hcall⟩ : ∃ s : FdHost 60 Unit,
      run tableStep [.host (.socket 0 5), .host (.build 0 true)] twoWorkers = some s ∧
        s.fdManager.ctxAt 5 = some 0 ∧ ∃ s₁, s.step (.call 0 5 .read) = some s₁ :=
    ⟨_, rfl, rfl, _, rfl⟩
  exact ⟨s, s₁, hctx, hcall,
    (indices_within_iff (.of_run hs) (.inl ⟨_, rfl⟩) hcall).mpr (by decide)⟩

/-- **A hooked read of the descriptor -2**: `FdManager::get` looks into its vector. -/
theorem indices_below_vector :
    ∃ s₁ : FdHost 60 Unit, twoWorkers.step (.call 0 (-2) .read) = some s₁ ∧
      s₁.fdManager.get (-2) false false = none ∧
      ¬ ∀ s', Reachable tableStep (fun s _ => s.pc 0 ≠ .free) s₁ s' →
        ∀ a ∈ s'.indices 0, Within a := by
  obtain ⟨s₁, hcall, hget, hmem⟩ : ∃ s₁ : FdHost 60 Unit,
      twoWorkers.step (.call 0 (-2) .read) = some s₁ ∧
      s₁.fdManager.get (-2) false false = none ∧ (-2, 64) ∈ s₁.indices 0 :=
    ⟨_, rfl, rfl, List.mem_cons_self⟩
  exact ⟨s₁, hcall, hget, fun h => absurd (h s₁ .init _ hmem) (by decide)⟩

end FdHost

end Server
