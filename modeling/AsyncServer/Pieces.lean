/-
Streams of data that arrive in pieces.

An `Item` is a piece of a datum of some kind, or a mark between the data.  `join` puts
adjacent pieces of one kind together, and so forgets where the data were cut.

* `join_append_congr` — a stream may be joined up to any place first;
* `join_eq_data_cons`, `join_eq_mark_cons` — a stream that joins to given items is one
  of them cut into pieces.
-/
import Mathlib.Tactic

namespace Pieces

variable {κ α ν : Type*} [DecidableEq κ]

/-- A piece of a datum of kind `k`, or a mark. -/
inductive Item (κ α ν : Type*)
  | data (k : κ) (l : List α)
  | mark (n : ν)

/-- Put an item before joined ones. -/
def push : Item κ α ν → List (Item κ α ν) → List (Item κ α ν)
  | .data k l, .data k' l' :: zs =>
    if k = k' then .data k (l ++ l') :: zs else .data k l :: .data k' l' :: zs
  | .data k l, zs => .data k l :: zs
  | .mark n, zs => .mark n :: zs

/-- Put adjacent pieces of one kind together. -/
def join (xs : List (Item κ α ν)) : List (Item κ α ν) := xs.foldr push []

variable {k : κ} {n : ν} {l l' : List α} {xs xs' ys zs : List (Item κ α ν)}

@[simp] theorem join_nil : join ([] : List (Item κ α ν)) = [] := rfl

theorem join_cons (x : Item κ α ν) : join (x :: xs) = push x (join xs) := rfl

theorem push_push_data : push (.data k l) (push (.data k l') zs) = push (.data k (l ++ l')) zs := by
  rcases zs with _ | ⟨⟨k', m⟩ | m, zs⟩
  · simp [push]
  · by_cases hk : k = k'
    · subst hk
      simp [push]
    · simp [push, hk]
  · simp [push]

theorem foldr_push (x : Item κ α ν) :
    (push x xs).foldr push zs = push x (xs.foldr push zs) := by
  rcases x with ⟨k, l⟩ | n
  · rcases xs with _ | ⟨⟨k', m⟩ | m, xs⟩
    · rfl
    · by_cases hk : k = k'
      · subst hk
        simp only [push, if_true, List.foldr_cons]
        exact push_push_data.symm
      · simp only [push, if_neg hk, List.foldr_cons]
    · rfl
  · cases xs <;> rfl

theorem foldr_join : (join xs).foldr push zs = xs.foldr push zs := by
  induction xs with
  | nil => rfl
  | cons x xs ih => rw [join_cons, foldr_push, ih, List.foldr_cons]

theorem join_append : join (xs ++ ys) = xs.foldr push (join ys) := List.foldr_append

/-- **What follows does not see how the items before it were cut.** -/
theorem join_append_congr (h : join xs = join xs') : join (xs ++ ys) = join (xs' ++ ys) := by
  rw [join_append, ← foldr_join, h, foldr_join, ← join_append]

theorem join_append_congr_right (h : join ys = join zs) : join (xs ++ ys) = join (xs ++ zs) := by
  rw [join_append, h, ← join_append]

/-- Two pieces are as good as one. -/
theorem join_data_data : join (xs ++ .data k l :: .data k l' :: ys) =
    join (xs ++ .data k (l ++ l') :: ys) := by
  simp only [join_append, join_cons, push_push_data]

theorem mark_mem_push {x : Item κ α ν} :
    Item.mark n ∈ push x zs ↔ Item.mark n = x ∨ .mark n ∈ zs := by
  rcases x with ⟨k, l⟩ | m
  · rcases zs with _ | ⟨⟨k', l'⟩ | m, zs⟩
    · simp [push]
    · by_cases hk : k = k' <;> simp [push, hk]
    · simp [push]
  · simp [push]

/-- The marks are those of the pieces. -/
theorem mark_mem_join : Item.mark n ∈ join xs ↔ Item.mark n ∈ xs := by
  induction xs with
  | nil => rfl
  | cons x xs ih => rw [join_cons, mark_mem_push, List.mem_cons, ih]

theorem filter_push {p : Item κ α ν → Bool} (hp : ∀ k l, p (.data k l) = true) (x : Item κ α ν) :
    join ((push x zs).filter p) = join ((x :: zs).filter p) := by
  rcases x with ⟨k, l⟩ | m
  · rcases zs with _ | ⟨⟨k', l'⟩ | m, zs⟩
    · rfl
    · by_cases hk : k = k'
      · subst hk
        have hpush : push (.data k l) (.data k l' :: zs) = .data k (l ++ l') :: zs := if_pos rfl
        rw [hpush, List.filter_cons_of_pos (hp _ _), List.filter_cons_of_pos (hp _ _),
          List.filter_cons_of_pos (hp _ _), join_cons, join_cons, join_cons, push_push_data]
      · simp only [push, if_neg hk]
    · rfl
  · rfl

/-- Marks may be left out before or after. -/
theorem join_filter_join {p : Item κ α ν → Bool} (hp : ∀ k l, p (.data k l) = true)
    (xs : List (Item κ α ν)) : join ((join xs).filter p) = join (xs.filter p) := by
  induction xs with
  | nil => rfl
  | cons x xs ih =>
    rw [join_cons, filter_push hp]
    cases hx : p x with
    | true => rw [List.filter_cons_of_pos hx, List.filter_cons_of_pos hx, join_cons, ih, join_cons]
    | false =>
      rw [List.filter_cons_of_neg (by simp [hx]), List.filter_cons_of_neg (by simp [hx]), ih]

theorem join_filter_congr {p : Item κ α ν → Bool} (hp : ∀ k l, p (.data k l) = true)
    (h : join xs = join ys) : join (xs.filter p) = join (ys.filter p) := by
  rw [← join_filter_join hp, h, join_filter_join hp]

/-- As many marks as in the pieces. -/
theorem countP_push {p : Item κ α ν → Bool} (hp : ∀ k l, p (.data k l) = false) (x : Item κ α ν) :
    (push x zs).countP p = (x :: zs).countP p := by
  rcases x with ⟨k, l⟩ | m
  · rcases zs with _ | ⟨⟨k', l'⟩ | m, zs⟩
    · rfl
    · by_cases hk : k = k'
      · subst hk
        simp only [push, if_true, List.countP_cons_of_neg (by simp [hp] : ¬ p (.data _ _) = true)]
      · simp only [push, if_neg hk]
    · rfl
  · rfl

theorem countP_join {p : Item κ α ν → Bool} (hp : ∀ k l, p (.data k l) = false)
    (xs : List (Item κ α ν)) : (join xs).countP p = xs.countP p := by
  induction xs with
  | nil => rfl
  | cons x xs ih => rw [join_cons, countP_push hp, List.countP_cons, ih, ← List.countP_cons]

/-! ### Streams with a given join -/

theorem join_eq_nil (h : join xs = []) : xs = [] := by
  rcases xs with _ | ⟨⟨k, l⟩ | n, xs⟩
  · rfl
  · rw [join_cons] at h
    rcases hj : join xs with _ | ⟨⟨k', m⟩ | m, zs⟩ <;> rw [hj] at h
    · exact absurd h (by simp [push])
    · rw [push] at h
      split at h <;> exact absurd h (by simp)
    · exact absurd h (by simp [push])
  · exact absurd h (by simp [join_cons, push])

theorem join_eq_mark_cons (h : join xs = .mark n :: zs) :
    ∃ ys, xs = .mark n :: ys ∧ join ys = zs := by
  rcases xs with _ | ⟨⟨k, l⟩ | m, xs⟩
  · exact absurd h (by simp)
  · rw [join_cons] at h
    rcases hj : join xs with _ | ⟨⟨k', m⟩ | m, zs'⟩ <;> rw [hj] at h
    · exact absurd h (by simp [push])
    · rw [push] at h
      split at h <;> exact absurd h (by simp)
    · exact absurd h (by simp [push])
  · rw [join_cons, push] at h
    obtain ⟨hm, hzs⟩ := List.cons_eq_cons.mp h
    obtain rfl : m = n := by simpa using hm
    exact ⟨xs, rfl, hzs⟩

theorem join_eq_data_cons (h : join xs = .data k l :: zs) :
    ∃ ps ys, ps ≠ [] ∧ xs = ps.map (.data k) ++ ys ∧ ps.flatten = l ∧ join ys = zs := by
  induction xs generalizing l with
  | nil => exact absurd h (by simp)
  | cons x xs ih =>
    rcases x with ⟨k₀, l₀⟩ | m
    · -- the datum ends here, unless the next piece is of the same kind
      have hone : ∀ {ys}, join xs = ys → .data k₀ l₀ :: ys = .data k l :: zs →
          ∃ ps ys, ps ≠ [] ∧ .data k₀ l₀ :: xs = ps.map (.data k) ++ ys ∧ ps.flatten = l ∧
            join ys = zs := by
        intro ys hys heq
        obtain ⟨hd, rfl⟩ := List.cons_eq_cons.mp heq
        obtain ⟨rfl, rfl⟩ : k₀ = k ∧ l₀ = l := by simpa using hd
        exact ⟨[l₀], xs, by simp, rfl, by simp, hys⟩
      rw [join_cons] at h
      rcases hj : join xs with _ | ⟨⟨k', m⟩ | m, zs'⟩ <;> rw [hj] at h
      · exact hone hj h
      · by_cases hk : k₀ = k'
        · subst hk
          simp only [push, if_true] at h
          obtain ⟨hd, rfl⟩ := List.cons_eq_cons.mp h
          obtain ⟨rfl, rfl⟩ : k₀ = k ∧ l₀ ++ m = l := by simpa using hd
          obtain ⟨ps, ys, -, hxs, hps, hys⟩ := ih hj
          exact ⟨l₀ :: ps, ys, by simp, by rw [hxs]; rfl, by rw [List.flatten_cons, hps], hys⟩
        · exact hone hj (by simpa [push, hk] using h)
      · exact hone hj h
    · rw [join_cons, push] at h
      exact absurd (List.cons_eq_cons.mp h).1 (by simp)

end Pieces
