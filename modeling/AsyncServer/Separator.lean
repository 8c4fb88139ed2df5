/-
Cutting a list at a separator of several elements.

* `cut sep s` — what stands before the first occurrence of `sep` in `s`, and what stands
  behind it;
* `split sep s` — the pieces of `s` between the occurrences;
* `cut_skip` — nothing is cut in a part without the first element of the separator;
* `split_intercalate` — pieces without that element are got back from the list that they
  are joined to.
-/
import Mathlib.Tactic

namespace Separator

variable {α : Type*} [DecidableEq α]

/-- Cut at the first occurrence of the separator. -/
def cut (sep : List α) : List α → Option (List α × List α)
  | [] => if sep = [] then some ([], []) else none
  | c :: t =>
    if sep <+: c :: t then some ([], (c :: t).drop sep.length)
    else (cut sep t).map fun r => (c :: r.1, r.2)

/-- At most `n` cuts, one behind the other. -/
def splitAt (sep : List α) : ℕ → List α → List (List α)
  | 0, s => [s]
  | n + 1, s =>
    match cut sep s with
    | none => [s]
    | some r => r.1 :: splitAt sep n r.2

/-- The pieces between the occurrences of the separator. -/
def split (sep s : List α) : List (List α) := splitAt sep s.length s

variable {sep a s : List α} {x : α}

/-- There the separator is. -/
theorem cut_here (x : α) (sep s : List α) : cut (x :: sep) (x :: sep ++ s) = some ([], s) := by
  have hpre : x :: sep <+: x :: (sep ++ s) := List.prefix_append (x :: sep) s
  rw [List.cons_append, cut, if_pos hpre]
  have hrest : (x :: (sep ++ s)).drop (x :: sep).length = s := List.drop_left
  rw [hrest]

/-- A byte at which the separator does not start. -/
theorem cut_step {c : α} (h : ¬ sep <+: c :: s) :
    cut sep (c :: s) = (cut sep s).map fun r => (c :: r.1, r.2) := if_neg h

/-- **Nothing is cut where the separator cannot start.** -/
theorem cut_skip (h : x ∉ a) (s : List α) :
    cut (x :: sep) (a ++ s) = (cut (x :: sep) s).map fun r => (a ++ r.1, r.2) := by
  induction a with
  | nil =>
    rw [List.nil_append]
    cases cut (x :: sep) s <;> rfl
  | cons c a ih =>
    have hc : ¬ x :: sep <+: c :: (a ++ s) := by
      intro hpre
      exact h ((List.cons_prefix_cons.mp hpre).1 ▸ List.mem_cons_self)
    rw [List.cons_append, cut_step hc, ih fun hm => h (List.mem_cons_of_mem _ hm), Option.map_map]
    rfl

theorem cut_of_notMem (h : x ∉ s) : cut (x :: sep) s = none := by
  rw [← List.append_nil s, cut_skip h, cut, if_neg (List.cons_ne_nil x sep)]
  rfl

theorem splitAt_intercalate {pieces : List (List α)} (hne : pieces ≠ [])
    (h : ∀ l ∈ pieces, x ∉ l) :
    ∀ n, pieces.length ≤ n + 1 →
      splitAt (x :: sep) n ((x :: sep).intercalate pieces) = pieces := by
  induction pieces with
  | nil => exact absurd rfl hne
  | cons l pieces ih =>
    obtain ⟨hl, hpieces⟩ := List.forall_mem_cons.mp h
    intro n hn
    cases pieces with
    | nil =>
      rw [List.intercalate_singleton]
      cases n with
      | zero => rfl
      | succ n => rw [splitAt, cut_of_notMem hl]
    | cons l' pieces =>
      obtain ⟨n, rfl⟩ : ∃ k, n = k + 1 := ⟨n - 1, by simp only [List.length_cons] at hn; omega⟩
      rw [List.intercalate_cons_cons, splitAt, List.append_assoc, cut_skip hl, cut_here]
      simp only [Option.map_some, List.append_nil]
      rw [ih (List.cons_ne_nil _ _) hpieces n (by rw [List.length_cons] at hn; omega)]

omit [DecidableEq α] in
/-- Every separator has an element. -/
theorem length_le_intercalate (pieces : List (List α)) :
    pieces.length ≤ ((x :: sep).intercalate pieces).length + 1 := by
  induction pieces with
  | nil => exact Nat.zero_le _
  | cons l pieces ih =>
    cases pieces with
    | nil => exact Nat.succ_le_succ (Nat.zero_le _)
    | cons l' pieces =>
      rw [List.intercalate_cons_cons, List.length_append, List.length_append, List.length_cons,
        List.length_cons (a := x)]
      omega

/-- **Pieces are got back from what they are joined to.** -/
theorem split_intercalate {pieces : List (List α)} (hne : pieces ≠ [])
    (h : ∀ l ∈ pieces, x ∉ l) : split (x :: sep) ((x :: sep).intercalate pieces) = pieces :=
  splitAt_intercalate hne h _ (length_le_intercalate pieces)

end Separator
