/-
Partial labelled step functions: runs, guarded reachability, invariants.

A system is a step function `step : σ → α → Option σ` over states `σ` and
actions `α`; `none` says that the action is not enabled in that state, or has
no defined outcome there.  One function serves three purposes: a concrete run
is replayed by evaluation (`run`), the states of all runs are an inductive
predicate (`Reachable`), and a property of all of them is proved from its steps
(`Reachable.invariant`).

`Reachable step ok s₀` only admits steps that meet `ok`, a predicate on the
action and the state it is taken in; `Reachable step anyStep s₀` admits all.
-/
import Mathlib.Tactic

namespace Transition

variable {σ α : Type*}

/-- Perform the actions of a list in order; `none` once one of them is not
enabled. -/
def run (step : σ → α → Option σ) : List α → σ → Option σ
  | [], s => some s
  | a :: as, s => (step s a).bind (run step as)

/-- The guard that admits every step. -/
def anyStep : σ → α → Prop := fun _ _ => True

/-- Every step of a run, as far as it goes, meets `P`. -/
def Along (step : σ → α → Option σ) (P : σ → α → Prop) : List α → σ → Prop
  | [], _ => True
  | a :: as, s => P s a ∧ ∀ t, step s a = some t → Along step P as t

/-- The states reached from `s₀` by steps that all meet `ok`. -/
inductive Reachable (step : σ → α → Option σ) (ok : σ → α → Prop) (s₀ : σ) : σ → Prop
  | init : Reachable step ok s₀ s₀
  | step {s s' : σ} (a : α) :
      Reachable step ok s₀ s → ok s a → step s a = some s' → Reachable step ok s₀ s'

variable {step : σ → α → Option σ} {ok : σ → α → Prop} {s₀ s s' : σ}

@[simp] theorem run_nil : run step [] s = some s := rfl

theorem run_cons (a : α) (as : List α) :
    run step (a :: as) s = (step s a).bind (run step as) := rfl

theorem run_cons_eq_some {a : α} {as : List α} :
    run step (a :: as) s = some s' ↔ ∃ t, step s a = some t ∧ run step as t = some s' := by
  rw [run_cons, Option.bind_eq_some_iff]

/-- Along a run, `P` gives `Q` where an invariant of its states does. -/
theorem Along.imp {I : σ → Prop} {P Q : σ → α → Prop} {as : List α}
    (hstep : ∀ s a s', I s → step s a = some s' → P s a → Q s a ∧ I s')
    (hs : I s) (h : Along step P as s) (hr : run step as s = some s') : Along step Q as s := by
  induction as generalizing s with
  | nil => trivial
  | cons a as ih =>
    obtain ⟨t, ht, hr⟩ := run_cons_eq_some.mp hr
    obtain ⟨hQ, hI⟩ := hstep s a t hs ht h.1
    refine ⟨hQ, fun u hu => ?_⟩
    obtain rfl := Option.some_inj.mp (ht.symm.trans hu)
    exact ih hI (h.2 t ht) hr

/-- The same along every run, whether it is defined to its end or not. -/
theorem Along.mono {I : σ → Prop} {P Q : σ → α → Prop} {as : List α}
    (hPQ : ∀ s a, I s → P s a → Q s a) (hstep : ∀ s a s', I s → step s a = some s' → I s')
    (hs : I s) (h : Along step P as s) : Along step Q as s := by
  induction as generalizing s with
  | nil => trivial
  | cons a as ih =>
    exact ⟨hPQ s a hs h.1, fun t ht => ih (hstep s a t hs ht) (h.2 t ht)⟩

/-- What an invariant gives of each step holds along every run, whether it is defined to
its end or not. -/
theorem Along.of_invariant {I : σ → Prop} {P : σ → α → Prop} {as : List α}
    (hP : ∀ s a, I s → P s a) (hstep : ∀ s a s', I s → step s a = some s' → I s')
    (hs : I s) : Along step P as s := by
  induction as generalizing s with
  | nil => trivial
  | cons a as ih => exact ⟨hP s a hs, fun t ht => ih (hstep s a t hs ht)⟩

/-- **The rule of the total run**: where the invariant enables every admitted action and
these keep it, runs of admitted actions are defined, and what it gives of each step holds
along them. -/
theorem Along.total {I : σ → Prop} {admitted : α → Prop} {P : σ → α → Prop} {as : List α}
    (hstep : ∀ s a, I s → admitted a → P s a ∧ ∃ s', step s a = some s' ∧ I s')
    (has : ∀ a ∈ as, admitted a) (hs : I s) :
    (∃ s', run step as s = some s') ∧ Along step P as s := by
  induction as generalizing s with
  | nil => exact ⟨⟨s, rfl⟩, trivial⟩
  | cons a as ih =>
    obtain ⟨ha, has⟩ := List.forall_mem_cons.mp has
    obtain ⟨hP, t, ht, hI⟩ := hstep s a hs ha
    obtain ⟨⟨s', hr⟩, halong⟩ := ih has hI
    refine ⟨⟨s', run_cons_eq_some.mpr ⟨t, ht, hr⟩⟩, hP, fun u hu => ?_⟩
    obtain rfl := Option.some_inj.mp (ht.symm.trans hu)
    exact halong

/-- What the steps that meet `P` keep holds after a run of them. -/
theorem Along.run_invariant {I : σ → Prop} {P : σ → α → Prop} {as : List α}
    (hstep : ∀ s a s', I s → P s a → step s a = some s' → I s')
    (hs : I s) (h : Along step P as s) (hr : run step as s = some s') : I s' := by
  induction as generalizing s with
  | nil =>
    rw [run_nil, Option.some_inj] at hr
    exact hr ▸ hs
  | cons a as ih =>
    obtain ⟨t, ht, hr⟩ := run_cons_eq_some.mp hr
    exact ih (hstep s a t hs h.1 ht) (h.2 t ht) hr

/-- **The simulation rule**: where `R` relates the states of two systems, and each step of
the first that is admitted is matched by one of the second, so is each run. -/
theorem run_simulated {τ β : Type*} {step' : τ → β → Option τ} {R : σ → τ → Prop}
    {admitted : α → Prop} {f : α → β} {as : List α} {u : τ}
    (hstep : ∀ s a s' u, R s u → admitted a → step s a = some s' →
      ∃ u', step' u (f a) = some u' ∧ R s' u')
    (has : ∀ a ∈ as, admitted a) (hs : R s u) (hr : run step as s = some s') :
    ∃ u', run step' (as.map f) u = some u' ∧ R s' u' := by
  induction as generalizing s u with
  | nil =>
    rw [run_nil, Option.some_inj] at hr
    exact ⟨u, rfl, hr ▸ hs⟩
  | cons a as ih =>
    obtain ⟨ha, has⟩ := List.forall_mem_cons.mp has
    obtain ⟨t, ht, hr⟩ := run_cons_eq_some.mp hr
    obtain ⟨v, hv, hR⟩ := hstep s a t u hs ha ht
    obtain ⟨u', hu', hR'⟩ := ih has hR hr
    exact ⟨u', run_cons_eq_some.mpr ⟨v, hv, hu'⟩, hR'⟩

/-- What no step restores is not restored by a run. -/
theorem run_back {I : σ → Prop} {as : List α}
    (hback : ∀ s a s', step s a = some s' → I s' → I s)
    (hr : run step as s = some s') (h : I s') : I s := by
  induction as generalizing s with
  | nil =>
    rw [run_nil, Option.some_inj] at hr
    exact hr ▸ h
  | cons a as ih =>
    obtain ⟨t, ht, hr⟩ := run_cons_eq_some.mp hr
    exact hback s a t ht (ih hr)

/-- **The rule of the exact condition**: where a step keeps `I` if and only if it meets `P`,
and no step restores `I`, a run ends in `I` if and only if all its steps meet `P`. -/
theorem Along.iff_end {I : σ → Prop} {P : σ → α → Prop} {as : List α}
    (hback : ∀ s a s', step s a = some s' → I s' → I s)
    (hstep : ∀ s a s', I s → step s a = some s' → (I s' ↔ P s a))
    (hs : I s) (hr : run step as s = some s') : I s' ↔ Along step P as s := by
  constructor
  · intro h
    induction as generalizing s with
    | nil => trivial
    | cons a as ih =>
      obtain ⟨t, ht, hr⟩ := run_cons_eq_some.mp hr
      have hI : I t := run_back hback hr h
      refine ⟨(hstep s a t hs ht).mp hI, fun u hu => ?_⟩
      obtain rfl := Option.some_inj.mp (ht.symm.trans hu)
      exact ih hI hr
  · intro h
    exact h.run_invariant (fun s a t hI hP ht => (hstep s a t hI ht).mpr hP) hs hr

namespace Reachable

/-- **The invariant rule**: what holds at the start and is kept by every
admitted step holds in every state reached. -/
theorem invariant {I : σ → Prop} (hinit : I s₀)
    (hstep : ∀ s a s', I s → ok s a → step s a = some s' → I s')
    (h : Reachable step ok s₀ s) : I s := by
  induction h with
  | init => exact hinit
  | step a _ hok hs ih => exact hstep _ a _ ih hok hs

/-- The invariant rule, with the reachability of the state a step is taken in
at hand. -/
theorem invariant' {I : σ → Prop} (hinit : I s₀)
    (hstep : ∀ s a s', Reachable step ok s₀ s → I s → ok s a → step s a = some s' → I s')
    (h : Reachable step ok s₀ s) : I s := by
  induction h with
  | init => exact hinit
  | step a hr hok hs ih => exact hstep _ a _ hr ih hok hs

theorem mono {ok' : σ → α → Prop} (hok : ∀ s a, ok s a → ok' s a)
    (h : Reachable step ok s₀ s) : Reachable step ok' s₀ s := by
  induction h with
  | init => exact init
  | step a _ ha hs ih => exact ih.step a (hok _ _ ha) hs

theorem trans (h : Reachable step ok s₀ s) (h' : Reachable step ok s s') :
    Reachable step ok s₀ s' := by
  induction h' with
  | init => exact h
  | step a _ hok hs ih => exact ih.step a hok hs

/-- A replayed run of actions that are always admitted ends in a reachable
state. -/
theorem of_run_admitted {as : List α} (hok : ∀ a ∈ as, ∀ s, ok s a)
    (h : run step as s = some s') : Reachable step ok s s' := by
  induction as generalizing s with
  | nil =>
    rw [run_nil, Option.some_inj] at h
    exact h ▸ init
  | cons a as ih =>
    obtain ⟨t, ht, hr⟩ := run_cons_eq_some.mp h
    exact trans (init.step a (hok a List.mem_cons_self s) ht)
      (ih (fun b hb => hok b (List.mem_cons_of_mem a hb)) hr)

theorem run_admitted (h : Reachable step ok s₀ s) (as : List α) (hr : run step as s = some s')
    (hok : ∀ a ∈ as, ∀ s, ok s a) : Reachable step ok s₀ s' :=
  h.trans (of_run_admitted hok hr)

/-- A replayed run ends in a reachable state. -/
theorem of_run {as : List α} (h : run step as s = some s') :
    Reachable step anyStep s s' :=
  of_run_admitted (fun _ _ _ => trivial) h

/-- What a run keeps from any state it is started in. -/
theorem run_invariant {I : σ → Prop} {as : List α}
    (hstep : ∀ s a s', a ∈ as → I s → step s a = some s' → I s')
    (hs : I s) (h : run step as s = some s') : I s' := by
  induction as generalizing s with
  | nil =>
    rw [run_nil, Option.some_inj] at h
    exact h ▸ hs
  | cons a as ih =>
    obtain ⟨t, ht, hr⟩ := run_cons_eq_some.mp h
    exact ih (fun s b s' hb => hstep s b s' (List.mem_cons_of_mem a hb))
      (hstep s a t List.mem_cons_self hs ht) hr

/-- **The variant rule**: when every step spends more of `cost` than it takes
from `gain`, runs are no longer than what is spent. -/
theorem run_length_le {I : σ → Prop} {gain cost : σ → ℕ} {as : List α}
    (hstep : ∀ s a s', I s → step s a = some s' →
      I s' ∧ gain s + cost s' < gain s' + cost s)
    (hs : I s) (h : run step as s = some s') :
    as.length + gain s + cost s' ≤ gain s' + cost s := by
  induction as generalizing s with
  | nil =>
    rw [run_nil, Option.some_inj] at h
    subst h
    simp
  | cons a as ih =>
    obtain ⟨t, ht, hr⟩ := run_cons_eq_some.mp h
    obtain ⟨hI, hlt⟩ := hstep s a t hs ht
    have := ih hI hr
    rw [List.length_cons]
    omega

end Reachable

end Transition
