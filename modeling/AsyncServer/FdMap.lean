/-
`FdManager` as a partial map from descriptors to contexts.

The history of an `FdManager` is the list of the answers that its calls gave, and the
list of the updates: a `get` that answers with a context which no call has returned
before has made it, and a `del` removes the context of its descriptor.

* `Faithful` — what a call answers, given the history so far, that all its indices are
  within the vector, and that the other descriptors are not affected;
* `faithful` — every call of every sequence from the constructor is faithful.
-/
import AsyncServer.DescriptorIndices
import AsyncServer.UpdateLog

namespace Server

open Transition UpdateLog

/-- A call; `sock` is what `fstat` says of the descriptor. -/
inductive FdOp where
  | get (fd : ℤ) (autoCreate sock : Bool)
  | del (fd : ℤ)
  deriving DecidableEq

namespace FdOp

/-- The descriptor. -/
def fd : FdOp → ℤ
  | .get fd _ _ | .del fd => fd

/-- The descriptors that the calls are made with. -/
def Valid : FdOp → Prop
  | .get fd _ _ => -1 ≤ fd ∧ fd < 2 ^ 30
  | .del fd => 0 ≤ fd ∧ fd < 2 ^ 30

instance : DecidablePred Valid
  | .get _ _ _ => inferInstanceAs (Decidable (_ ∧ _))
  | .del _ => inferInstanceAs (Decidable (_ ∧ _))

end FdOp

namespace FdManager

variable {m m' : FdManager} {fd : ℤ}

/-- A call and its answer; `del` has none. -/
def call (m : FdManager) : FdOp → Option (Option FdCtxPtr × FdManager)
  | .get fd autoCreate sock => m.get fd autoCreate sock
  | .del fd => (m.del fd).map fun m' => (none, m')

/-- The index expressions of a call. -/
def indices (m : FdManager) : FdOp → List (ℤ × ℕ)
  | .get fd autoCreate sock => m.getIndices fd autoCreate sock
  | .del fd => m.delIndices fd

theorem indices_within (hm : m.Wf) {op : FdOp} (hop : op.Valid) :
    ∀ a ∈ m.indices op, Within a := by
  cases op with
  | get fd autoCreate sock => exact getIndices_within hm hop.1 autoCreate sock
  | del fd =>
    refine (del_isSome_iff m fd).mp ?_
    unfold del
    split_ifs
    · rfl
    · rfl
    · exact absurd hop.1 ‹_›

/-- `get` does not look further than `ctxAt`. -/
theorem get_congr {sock : Bool} (hfd : -1 ≤ fd) (h : m'.ctxAt fd = m.ctxAt fd) :
    (m'.get fd false sock).map Prod.fst = (m.get fd false sock).map Prod.fst := by
  by_cases hneg : fd = -1
  · rw [get, get, if_pos hneg, if_pos hneg]
    rfl
  · rw [get_false (by omega), get_false (by omega), Option.map_some, Option.map_some, h]

/-- **The cases of a valid call**: it finds the answer and changes nothing, it makes a
context, or it deletes one. -/
theorem call_cases (hm : m.Wf) {op : FdOp} (hop : op.Valid) :
    ∃ answer m', m.call op = some (answer, m') ∧ m'.Wf ∧
      ((m' = m ∧ answer = m.ctxAt op.fd ∧
          ∃ autoCreate sock, op = .get op.fd autoCreate sock ∧
            (autoCreate = true → op.fd = -1 ∨ (m.ctxAt op.fd).isSome)) ∨
        (answer = some m.next ∧ m'.next = m.next + 1 ∧ m.ctxAt op.fd = none ∧ 0 ≤ op.fd ∧
          (∃ sock, op = .get op.fd true sock) ∧
          m'.ctxAt = Function.update m.ctxAt op.fd (some m.next)) ∨
        (answer = none ∧ m'.next = m.next ∧ op = .del op.fd ∧
          m'.ctxAt = Function.update m.ctxAt op.fd none)) := by
  cases op with
  | get fd autoCreate sock =>
    by_cases hneg : fd = -1
    · refine ⟨none, m, ?_, hm, .inl ⟨rfl, ?_, autoCreate, sock, rfl, fun _ => .inl hneg⟩⟩
      · rw [call, get, if_pos hneg]
      · rw [FdOp.fd, hneg]
        rfl
    have h0 : 0 ≤ fd := by have := hop.1; omega
    cases autoCreate with
    | false =>
      exact ⟨m.ctxAt fd, m, get_false h0, hm, .inl ⟨rfl, rfl, false, sock, rfl, by simp⟩⟩
    | true =>
      cases hctx : m.ctxAt fd with
      | some p =>
        refine ⟨some p, m, get_of_some h0 hctx, hm, .inl ⟨rfl, hctx.symm, true, sock, rfl, ?_⟩⟩
        exact fun _ => .inr (Option.isSome_of_eq_some hctx)
      | none =>
        refine ⟨some m.next, m.build fd sock, get_of_none h0 hctx, wf_build hm h0,
          .inr (.inl ⟨rfl, rfl, hctx, h0, ⟨sock, rfl⟩, funext fun g => ?_⟩)⟩
        rw [ctxAt_build hm h0, Function.update_apply]
        rfl
  | del fd =>
    obtain ⟨m', hdel⟩ := Option.isSome_iff_exists.mp
      ((del_isSome_iff m fd).mpr (indices_within hm hop))
    refine ⟨none, m', by rw [call, hdel]; rfl, (wf_del hm hdel).1,
      .inr (.inr ⟨rfl, (wf_del hm hdel).2, rfl, funext fun g => ?_⟩)⟩
    rw [ctxAt_del hdel, Function.update_apply]
    rfl

end FdManager

/-! ### Histories -/

/-- An `FdManager` with its history: what the calls have answered, and the contexts made
and deleted. -/
structure FdHistory where
  manager : FdManager
  answers : List (Option FdCtxPtr)
  updates : List (ℤ × Option FdCtxPtr)

namespace FdHistory

variable {s s' : FdHistory} {op : FdOp}

/-- The constructor. -/
def start : FdHistory := ⟨.create, [], []⟩

/-- What a call and its answer say about the map, after the answers so far. -/
def updated (answers : List (Option FdCtxPtr)) : FdOp → Option FdCtxPtr →
    List (ℤ × Option FdCtxPtr)
  | .get fd true _, some p => if some p ∈ answers then [] else [(fd, some p)]
  | .get _ _ _, _ => []
  | .del fd, _ => [(fd, none)]

/-- One call, recorded. -/
def step (s : FdHistory) (op : FdOp) : Option FdHistory :=
  (s.manager.call op).map fun r =>
    { manager := r.2
      answers := s.answers ++ [r.1]
      updates := s.updates ++ updated s.answers op r.1 }

/-- The answer that a call is to give: the context that was made last for its descriptor
and not deleted since, or else none, or with `auto_create` a new one. -/
def Expected (s : FdHistory) : FdOp → Option FdCtxPtr → Prop
  | .get fd false _, answer => ∀ p, answer = some p ↔ Latest s.updates fd p
  | .get fd true _, answer =>
    (∀ p, Latest s.updates fd p → answer = some p) ∧
      ((∀ p, ¬ Latest s.updates fd p) →
        if fd = -1 then answer = none else ∃ p, answer = some p ∧ some p ∉ s.answers)
  | .del _, _ => True

/-- A call is defined, with all its indices within the vector, answers as it is to, and
leaves the other descriptors alone. -/
def Faithful (s : FdHistory) (op : FdOp) : Prop :=
  ∃ answer m, s.manager.call op = some (answer, m) ∧
    (∀ a ∈ s.manager.indices op, Within a) ∧ s.Expected op answer ∧
    ∀ g, g ≠ op.fd → -1 ≤ g → ∀ sock,
      (m.get g false sock).map Prod.fst = (s.manager.get g false sock).map Prod.fst

/-- What every history keeps. -/
structure Recorded (s : FdHistory) : Prop where
  wf : s.manager.Wf
  shows : s.manager.ctxAt = lookup s.updates
  answered : ∀ {fd p}, s.manager.ctxAt fd = some p → some p ∈ s.answers
  made : ∀ {p}, some p ∈ s.answers → p < s.manager.next

theorem recorded_start : start.Recorded where
  wf := FdManager.wf_create
  shows := funext FdManager.ctxAt_create
  answered h := absurd ((FdManager.ctxAt_create _).symm.trans h) (by simp)
  made h := absurd h List.not_mem_nil

theorem Recorded.latest (hs : s.Recorded) (fd : ℤ) (p : FdCtxPtr) :
    Latest s.updates fd p ↔ s.manager.ctxAt fd = some p := by
  rw [hs.shows, lookup_eq_some_iff]

/-- A new context is one that no call has answered with. -/
theorem Recorded.fresh (hs : s.Recorded) : some s.manager.next ∉ s.answers :=
  fun h => absurd (hs.made h) (lt_irrefl _)

theorem Recorded.faithful_call (hs : s.Recorded) (hop : op.Valid) : s.Faithful op := by
  obtain ⟨answer, m, hcall, -, hcases⟩ := FdManager.call_cases hs.wf hop
  refine ⟨answer, m, hcall, FdManager.indices_within hs.wf hop, ?_, fun g hg hg1 sock =>
    FdManager.get_congr hg1 ?_⟩
  · rcases hcases with ⟨-, rfl, autoCreate, sock, heq, hauto⟩ |
      ⟨rfl, -, hnone, h0, ⟨sock, heq⟩, -⟩ | ⟨-, -, heq, -⟩
    · rw [heq]
      cases autoCreate with
      | false => exact fun p => (hs.latest _ p).symm
      | true =>
        refine ⟨fun p hp => (hs.latest _ p).mp hp, fun hnone => ?_⟩
        -- without a context, the descriptor is -1
        have hnone' : s.manager.ctxAt op.fd = none := by
          rw [Option.eq_none_iff_forall_not_mem]
          exact fun p hp => hnone p ((hs.latest _ p).mpr hp)
        rcases hauto rfl with hneg | hsome
        · exact (if_pos hneg).symm ▸ hnone'
        · rw [hnone'] at hsome
          exact absurd hsome Bool.false_ne_true
    · rw [heq]
      refine ⟨fun p hp => ?_, fun _ => ?_⟩
      · exact absurd (hnone.symm.trans ((hs.latest _ p).mp hp)) (by simp)
      · rw [if_neg (by omega)]
        exact ⟨_, rfl, hs.fresh⟩
    · rw [heq]
      trivial
  · rcases hcases with ⟨rfl, -⟩ | ⟨-, -, -, -, -, hat⟩ | ⟨-, -, -, hat⟩
    · rfl
    · rw [hat, Function.update_of_ne hg]
    · rw [hat, Function.update_of_ne hg]

/-- A context that was there is no update. -/
theorem updated_of_answered {answers : List (Option FdCtxPtr)} {answer : Option FdCtxPtr}
    (h : ∀ p, answer = some p → some p ∈ answers) (fd : ℤ) (autoCreate sock : Bool) :
    updated answers (.get fd autoCreate sock) answer = [] := by
  cases autoCreate with
  | false => cases answer <;> rfl
  | true =>
    cases answer with
    | none => rfl
    | some p => exact if_pos (h p rfl)

/-- The step lemma. -/
theorem Recorded.step (hs : s.Recorded) (hop : op.Valid) (h : s.step op = some s') :
    s'.Recorded := by
  obtain ⟨answer, m, hcall, hwf, hcases⟩ := FdManager.call_cases hs.wf hop
  rw [FdHistory.step, hcall, Option.map_some, Option.some_inj] at h
  subst h
  rcases hcases with ⟨rfl, rfl, autoCreate, sock, heq, -⟩ |
    ⟨rfl, hnext, -, -, ⟨sock, heq⟩, hat⟩ | ⟨rfl, hnext, heq, hat⟩
  · -- nothing changes, and the answer was given before
    refine ⟨hwf, ?_, fun h => List.mem_append_left _ (hs.answered h), fun {p} hp => ?_⟩
    · rw [heq]
      dsimp only [FdOp.fd]
      rw [updated_of_answered (fun p hp => hs.answered hp), List.append_nil]
      exact hs.shows
    · rcases List.mem_append.mp hp with hp | hp
      · exact hs.made hp
      · exact hs.made (hs.answered (List.mem_singleton.mp hp).symm)
  · refine ⟨hwf, ?_, fun {fd p} hp => ?_, fun {p} hp => ?_⟩
    · have hupdated : updated s.answers op (some s.manager.next) =
          [(op.fd, some s.manager.next)] := by
        rw [heq]
        exact if_neg hs.fresh
      show m.ctxAt = lookup (s.updates ++ updated s.answers op (some s.manager.next))
      rw [hupdated, lookup_concat, hat, hs.shows]
    · rw [hat, Function.update_apply] at hp
      split_ifs at hp
      · rw [← hp]
        exact List.mem_append_right _ (List.mem_singleton_self _)
      · exact List.mem_append_left _ (hs.answered hp)
    · show p < m.next
      rw [hnext]
      rcases List.mem_append.mp hp with hp | hp
      · exact Nat.lt_succ_of_lt (hs.made hp)
      · rw [Option.some_inj.mp (List.mem_singleton.mp hp)]
        exact Nat.lt_succ_self _
  · refine ⟨hwf, ?_, fun {fd p} hp => ?_, fun {p} hp => ?_⟩
    · have hupdated : updated s.answers op none = [(op.fd, none)] := by
        rw [heq]
        rfl
      show m.ctxAt = lookup (s.updates ++ updated s.answers op none)
      rw [hupdated, lookup_concat, hat, hs.shows]
    · rw [hat, Function.update_apply] at hp
      split_ifs at hp
      exact List.mem_append_left _ (hs.answered hp)
    · show p < m.next
      rw [hnext]
      rcases List.mem_append.mp hp with hp | hp
      · exact hs.made hp
      · exact absurd (List.mem_singleton.mp hp) (by simp)

/-- **`FdManager` is a partial map.**  Every sequence of valid calls from the constructor
is defined, and every call of it is faithful. -/
theorem faithful {ops : List FdOp} (hops : ∀ op ∈ ops, op.Valid) :
    (∃ s, run step ops start = some s) ∧ Along step Faithful ops start := by
  refine Along.total (I := Recorded) (fun s op hs hop => ⟨hs.faithful_call hop, ?_⟩) hops
    recorded_start
  obtain ⟨answer, m, hcall, -⟩ := hs.faithful_call hop
  obtain ⟨s', hstep⟩ : ∃ s', s.step op = some s' := ⟨_, by rw [step, hcall]; rfl⟩
  exact ⟨s', hstep, hs.step hop hstep⟩

set_option maxRecDepth 2000 in
/-- A context is made, the vector grows for another descriptor, and after a `del` the
next context is a new one. -/
theorem faithful_reopened :
    (∃ s, run step [.get 5 true true, .get (-1) true false, .get 200 true true,
        .get 5 false false, .del 5, .get 5 false false, .get 5 true true] start = some s ∧
      s.answers = [some 0, none, some 1, some 0, none, none, some 2]) ∧
    Along step Faithful [.get 5 true true, .get (-1) true false, .get 200 true true,
      .get 5 false false, .del 5, .get 5 false false, .get 5 true true] start :=
  ⟨⟨_, rfl, rfl⟩, (faithful (by decide)).2⟩

end FdHistory

end Server
