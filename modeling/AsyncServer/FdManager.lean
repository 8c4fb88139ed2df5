/-
Descriptor contexts (fd_manager.h, fd_manager.cpp).

`FdManager` holds a pointer to an `FdCtx` for each descriptor that came out of a
hooked `socket` or `accept`, in a vector indexed by the descriptor.  As for timers,
a pointer is the number under which the object was made, so that two contexts made
for one descriptor number are told apart.

* `get_of_none`, `get_of_some` — with `auto_create`, `get` makes a context only where
  there is none;
* `ctxAt_build`, `ctxAt_del` — both writers change the entry of their descriptor only.

An index below the vector is undefined behaviour (`none`).
-/
import Mathlib.Tactic

namespace Server

/-- `FdCtx::ptr`. -/
abbrev FdCtxPtr := ℕ

/-- `FdCtx`; the timeouts are `int`s. -/
structure FdCtx where
  mfd : ℤ
  mRecvTimeOut : BitVec 32
  mSendTimeOut : BitVec 32
  isClose : Bool
  isSocket : Bool
  isNonBlock : Bool

namespace FdCtx

/-- The constructor, with `init()`; `sock` is what `fstat` says. -/
def create (fd : ℤ) (sock : Bool) : FdCtx where
  mfd := fd
  mRecvTimeOut := -1
  mSendTimeOut := -1
  isClose := false
  isSocket := sock
  isNonBlock := sock

/-- `FdCtx::setTimeOut`: the `uint32_t` is stored as an `int` of the same bits. -/
def setTimeOut (ctx : FdCtx) (type : ℤ) (t : BitVec 32) : FdCtx :=
  if type ≠ 0 then { ctx with mSendTimeOut := t } else { ctx with mRecvTimeOut := t }

/-- `FdCtx::getTimeOut`. -/
def getTimeOut (ctx : FdCtx) (type : ℤ) : BitVec 32 :=
  if type ≠ 0 then ctx.mSendTimeOut else ctx.mRecvTimeOut

@[simp] theorem getTimeOut_setTimeOut (ctx : FdCtx) (type : ℤ) (t : BitVec 32) :
    (ctx.setTimeOut type t).getTimeOut type = t := by
  unfold setTimeOut getTimeOut
  split_ifs <;> rfl

end FdCtx

/-- `FdManager`; `heap` holds the contexts, of which those below `next` have been
made. -/
structure FdManager where
  mCtxs : List (Option FdCtxPtr)
  heap : FdCtxPtr → FdCtx
  next : FdCtxPtr

namespace FdManager

variable {m m' : FdManager} {fd : ℤ} {sock : Bool}

/-- The constructor. -/
def create : FdManager where
  mCtxs := List.replicate 64 none
  heap := fun _ => .create (-1) false
  next := 0

/-- The pointer in `mCtxs[fd]`, null where the vector does not reach. -/
def ctxAt (m : FdManager) (fd : ℤ) : Option FdCtxPtr :=
  if 0 ≤ fd then m.mCtxs[fd.toNat]?.join else none

/-- The last lines of `get`: a new context for `fd`, in a vector that reaches it. -/
def build (m : FdManager) (fd : ℤ) (sock : Bool) : FdManager :=
  let size := (3 * fd / 2).toNat
  let mCtxs :=
    if (m.mCtxs.length : ℤ) ≤ fd then
      m.mCtxs.take size ++ List.replicate (size - m.mCtxs.length) none
    else m.mCtxs
  { mCtxs := mCtxs.set fd.toNat (some m.next)
    heap := Function.update m.heap m.next (.create fd sock)
    next := m.next + 1 }

/-- `FdManager::get`. -/
def get (m : FdManager) (fd : ℤ) (autoCreate sock : Bool) :
    Option (Option FdCtxPtr × FdManager) :=
  if fd = -1 then some (none, m)
  else if (m.mCtxs.length : ℤ) ≤ fd then
    if autoCreate then some (some m.next, m.build fd sock) else some (none, m)
  else if 0 ≤ fd then
    if (m.ctxAt fd).isSome || !autoCreate then some (m.ctxAt fd, m)
    else some (some m.next, m.build fd sock)
  else none

/-- `FdManager::del`. -/
def del (m : FdManager) (fd : ℤ) : Option FdManager :=
  if (m.mCtxs.length : ℤ) ≤ fd then some m
  else if 0 ≤ fd then some { m with mCtxs := m.mCtxs.set fd.toNat none }
  else none

theorem ctxAt_of_le (h : (m.mCtxs.length : ℤ) ≤ fd) : m.ctxAt fd = none := by
  rw [ctxAt]
  split_ifs
  · rw [List.getElem?_eq_none (by omega)]
    rfl
  · rfl

/-- Without `auto_create`, `get` is a lookup. -/
theorem get_false (h0 : 0 ≤ fd) : m.get fd false sock = some (m.ctxAt fd, m) := by
  rw [get, if_neg (by omega)]
  by_cases hlen : (m.mCtxs.length : ℤ) ≤ fd
  · rw [if_pos hlen, ctxAt_of_le hlen]
    rfl
  · rw [if_neg hlen, if_pos h0, if_pos (by simp)]

/-- Where it is defined at all. -/
theorem get_eq {r : Option FdCtxPtr × FdManager} (h : m.get fd false sock = some r) :
    r = (m.ctxAt fd, m) := by
  by_cases h0 : 0 ≤ fd
  · rw [get_false h0, Option.some_inj] at h
    exact h.symm
  -- below the vector only the test for -1 returns
  · have hlen : ¬ (m.mCtxs.length : ℤ) ≤ fd := by omega
    rw [get, if_neg hlen, if_neg h0] at h
    split_ifs at h
    rw [ctxAt, if_neg h0]
    exact (Option.some_inj.mp h).symm

theorem nonneg_of_ctxAt {p : FdCtxPtr} (h : m.ctxAt fd = some p) : 0 ≤ fd := by
  rw [ctxAt] at h
  split_ifs at h with h0
  exact h0

theorem lt_length_of_ctxAt {p : FdCtxPtr} (h : m.ctxAt fd = some p) :
    fd < (m.mCtxs.length : ℤ) := by
  by_contra hlen
  rw [ctxAt_of_le (not_lt.mp hlen)] at h
  exact absurd h (by simp)

/-- **Where there is no context, `get` makes one.** -/
theorem get_of_none (h0 : 0 ≤ fd) (h : m.ctxAt fd = none) :
    m.get fd true sock = some (some m.next, m.build fd sock) := by
  rw [get, if_neg (by omega)]
  by_cases hlen : (m.mCtxs.length : ℤ) ≤ fd
  · rw [if_pos hlen, if_pos rfl]
  · rw [if_neg hlen, if_pos h0, if_neg (by simp [h])]

/-- **Where there is a context, `get` returns it.** -/
theorem get_of_some (h0 : 0 ≤ fd) {p : FdCtxPtr} (h : m.ctxAt fd = some p) :
    m.get fd true sock = some (some p, m) := by
  have hlen : ¬ (m.mCtxs.length : ℤ) ≤ fd := fun hlen => by
    rw [ctxAt_of_le hlen] at h
    exact absurd h (by simp)
  rw [get, if_neg (by omega), if_neg hlen, if_pos h0, if_pos (by simp [h]), h]

/-- The vector is never smaller than at the start, and points to contexts that have
been made. -/
structure Wf (m : FdManager) : Prop where
  size : 64 ≤ m.mCtxs.length
  made : ∀ {fd p}, m.ctxAt fd = some p → p < m.next

theorem wf_create : create.Wf where
  size := by simp [create]
  made {fd p} h := by
    rw [ctxAt] at h
    split_ifs at h
    rw [create, List.getElem?_replicate] at h
    split_ifs at h <;> exact absurd h (by simp)

theorem ctxAt_create (fd : ℤ) : create.ctxAt fd = none := by
  cases h : create.ctxAt fd with
  | none => rfl
  | some p => exact absurd (wf_create.made h) (Nat.not_lt_zero p)

/-- A new context is the entry of its descriptor, and the others stay. -/
theorem ctxAt_build (hm : m.Wf) (h0 : 0 ≤ fd) (g : ℤ) :
    (m.build fd sock).ctxAt g = if g = fd then some m.next else m.ctxAt g := by
  have hsize := hm.size
  set size := (3 * fd / 2).toNat with hdef
  -- the vector before the assignment reaches `fd`, and shows what it showed
  obtain ⟨mCtxs, hbuild, hlt, hsame⟩ : ∃ mCtxs : List (Option FdCtxPtr),
      (m.build fd sock).mCtxs = mCtxs.set fd.toNat (some m.next) ∧ fd.toNat < mCtxs.length ∧
      ∀ i : ℕ, mCtxs[i]?.join = m.mCtxs[i]?.join := by
    by_cases hlen : (m.mCtxs.length : ℤ) ≤ fd
    · refine ⟨m.mCtxs ++ List.replicate (size - m.mCtxs.length) none, ?_, ?_, fun i => ?_⟩
      · simp only [build, if_pos hlen, ← hdef]
        rw [List.take_of_length_le (by omega)]
      · rw [List.length_append, List.length_replicate]
        omega
      · by_cases hi : i < m.mCtxs.length
        · rw [List.getElem?_append_left hi]
        · have hnone : m.mCtxs[i]? = none := List.getElem?_eq_none (by omega)
          rw [List.getElem?_append_right (by omega), hnone, List.getElem?_replicate]
          split_ifs <;> rfl
    · exact ⟨m.mCtxs, by simp only [build, if_neg hlen], by omega, fun _ => rfl⟩
  rw [ctxAt, hbuild]
  by_cases hg : g = fd
  · rw [hg, if_pos h0, if_pos rfl, List.getElem?_set_self hlt]
    rfl
  · rw [if_neg hg, ctxAt]
    split_ifs with hg0
    · rw [List.getElem?_set_ne (by omega), hsame]
    · rfl

theorem wf_build (hm : m.Wf) (h0 : 0 ≤ fd) : (m.build fd sock).Wf := by
  have hsize := hm.size
  refine ⟨?_, fun {g p} h => ?_⟩
  · simp only [build]
    rw [List.length_set]
    split_ifs with hlen
    · rw [List.length_append, List.length_take, List.length_replicate]
      omega
    · exact hm.size
  · rw [ctxAt_build hm h0] at h
    show p < m.next + 1
    split_ifs at h
    · rw [← Option.some_inj.mp h]
      exact Nat.lt_succ_self _
    · exact Nat.lt_succ_of_lt (hm.made h)

/-- The vector reaches a new context. -/
theorem lt_length_build (hm : m.Wf) (h0 : 0 ≤ fd) :
    fd < ((m.build fd sock).mCtxs.length : ℤ) :=
  lt_length_of_ctxAt ((ctxAt_build hm h0 fd).trans (if_pos rfl))

theorem wf_get (hm : m.Wf) {autoCreate : Bool} {r : Option FdCtxPtr × FdManager}
    (h : m.get fd autoCreate sock = some r) : r.2.Wf := by
  unfold get at h
  split_ifs at h with _ hlen
  · exact Option.some_inj.mp h ▸ hm
  · exact Option.some_inj.mp h ▸ wf_build hm (le_trans (Int.natCast_nonneg _) hlen)
  all_goals first
    | exact Option.some_inj.mp h ▸ hm
    | exact Option.some_inj.mp h ▸ wf_build hm ‹0 ≤ fd›

/-- `del` removes the entry of its descriptor, and no other one. -/
theorem ctxAt_del (h : m.del fd = some m') (g : ℤ) :
    m'.ctxAt g = if g = fd then none else m.ctxAt g := by
  unfold del at h
  split_ifs at h with hlen h0
  · obtain rfl := Option.some_inj.mp h
    split_ifs with hg
    · rw [hg, ctxAt_of_le hlen]
    · rfl
  · obtain rfl := Option.some_inj.mp h
    by_cases hg : g = fd
    · rw [hg, if_pos rfl, ctxAt, if_pos h0, List.getElem?_set_self (by omega)]
      rfl
    · rw [if_neg hg, ctxAt, ctxAt]
      split_ifs with hg0
      · rw [List.getElem?_set_ne (by omega)]
      · rfl

theorem wf_del (hm : m.Wf) (h : m.del fd = some m') : m'.Wf ∧ m'.next = m.next := by
  have hnext : m'.next = m.next := by
    unfold del at h
    split_ifs at h <;> rw [← Option.some_inj.mp h]
  refine ⟨⟨?_, fun {g p} hg => ?_⟩, hnext⟩
  · unfold del at h
    split_ifs at h
    · exact Option.some_inj.mp h ▸ hm.size
    · rw [← Option.some_inj.mp h, List.length_set]
      exact hm.size
  · rw [ctxAt_del h] at hg
    split_ifs at hg
    exact hnext ▸ hm.made hg

end FdManager

end Server
