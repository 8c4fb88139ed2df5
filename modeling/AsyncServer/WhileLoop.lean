/-
`while` loops run with fuel.

`whileLoop cond body n s` runs `while (cond) body` from `s` for at most `n`
tests of the condition, and is `none` when the loop has not come to its end by
then.  The rules are the usual ones: an invariant of the body holds at the end
(`whileLoop_invariant`), and a variant that the body lowers bounds the fuel
that suffices (`whileLoop_terminates`).  `whileLoopM` is the same for a body that may have no
outcome, such as one with a loop of its own.
-/
import Mathlib.Tactic

namespace WhileLoop

variable {σ : Type*} {cond : σ → Bool} {body : σ → σ}

/-- `while (cond) body` from a state, with fuel. -/
def whileLoop (cond : σ → Bool) (body : σ → σ) : ℕ → σ → Option σ
  | 0, _ => none
  | n + 1, s => if cond s then whileLoop cond body n (body s) else some s

theorem whileLoop_exit {s : σ} (h : cond s = false) (n : ℕ) :
    whileLoop cond body (n + 1) s = some s := by
  rw [whileLoop, h]
  rfl

theorem whileLoop_step {s : σ} (h : cond s = true) (n : ℕ) :
    whileLoop cond body (n + 1) s = whileLoop cond body n (body s) := by
  rw [whileLoop, if_pos h]

/-- **The invariant rule**: the loop ends in a state that satisfies the
invariant and fails the condition. -/
theorem whileLoop_invariant {I : σ → Prop}
    (hbody : ∀ s, I s → cond s = true → I (body s)) :
    ∀ {n : ℕ} {s s' : σ}, I s → whileLoop cond body n s = some s' →
      I s' ∧ cond s' = false := by
  intro n
  induction n with
  | zero =>
    intro s s' _ h
    exact absurd h (by simp [whileLoop])
  | succ n ih =>
    intro s s' hs h
    cases hc : cond s with
    | false =>
      rw [whileLoop_exit hc, Option.some_inj] at h
      exact h ▸ ⟨hs, hc⟩
    | true =>
      rw [whileLoop_step hc] at h
      exact ih (hbody s hs hc) h

/-- **The variant rule**: a loop whose body lowers `v` ends within `v s + 1`
tests. -/
theorem whileLoop_terminates {I : σ → Prop} {v : σ → ℕ}
    (hbody : ∀ s, I s → cond s = true → I (body s) ∧ v (body s) < v s) :
    ∀ {n : ℕ} {s : σ}, I s → v s < n → ∃ s', whileLoop cond body n s = some s' := by
  intro n
  induction n with
  | zero =>
    intro s _ h
    exact absurd h (Nat.not_lt_zero _)
  | succ n ih =>
    intro s hs hv
    cases hc : cond s with
    | false => exact ⟨s, whileLoop_exit hc n⟩
    | true =>
      obtain ⟨hs', hv'⟩ := hbody s hs hc
      rw [whileLoop_step hc]
      exact ih hs' (by omega)

/-- A loop that keeps its condition true never ends. -/
theorem whileLoop_diverges {I : σ → Prop}
    (hbody : ∀ s, I s → cond s = true ∧ I (body s)) :
    ∀ {n : ℕ} {s : σ}, I s → whileLoop cond body n s = none := by
  intro n
  induction n with
  | zero => intro s _; rfl
  | succ n ih =>
    intro s hs
    obtain ⟨hc, hs'⟩ := hbody s hs
    rw [whileLoop_step hc]
    exact ih hs'

/-- `while (cond) body`, with a body that may have no outcome. -/
def whileLoopM (cond : σ → Bool) (body : σ → Option σ) : ℕ → σ → Option σ
  | 0, _ => none
  | n + 1, s => if cond s then (body s).bind (whileLoopM cond body n) else some s

theorem whileLoopM_exit {body : σ → Option σ} {s : σ} (h : cond s = false) (n : ℕ) :
    whileLoopM cond body (n + 1) s = some s := by
  rw [whileLoopM, h]
  rfl

theorem whileLoopM_step {body : σ → Option σ} {s s' : σ} (h : cond s = true)
    (hbody : body s = some s') (n : ℕ) :
    whileLoopM cond body (n + 1) s = whileLoopM cond body n s' := by
  rw [whileLoopM, if_pos h, hbody, Option.bind_some]

end WhileLoop
