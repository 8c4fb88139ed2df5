/-
Agendas: what a timer container is for.

An agenda says of every key how many more ticks it waits, `none` for a key
that is not scheduled.  A tick fires the keys that wait for no further tick and
takes one off all others.  This file has nothing of any particular timer
container in it: a container refines an agenda when its operations act on the
agenda it stands for by `arm`, `cancel` and `tick`.

The law that clients want is `OnSchedule`: a key armed with `n` is fired by the
`(n + 1)`-th tick after that, once, and by no other.  It is kept by every
operation on other keys (`OnSchedule.congr`) and by ticks (`OnSchedule.tick`).

For a key that is armed again whenever it fires, the law is `Recurs`: it is fired
by every `d`-th tick.  It is kept in the same way (`Recurs.congr`, `Recurs.tick`),
and any two successive firings are `d` ticks apart (`Recurs.successive`).
-/
import Mathlib.Tactic

/-- How many ticks each key still waits; `none` when it is not scheduled. -/
abbrev Agenda (κ : Type*) := κ → Option ℕ

namespace Agenda

variable {κ : Type*} [DecidableEq κ]

/-- Schedule `k` to wait for `n` ticks. -/
def arm (a : Agenda κ) (k : κ) (n : ℕ) : Agenda κ := Function.update a k (some n)

/-- Take `k` off the agenda. -/
def cancel (a : Agenda κ) (k : κ) : Agenda κ := Function.update a k none

/-- What one tick leaves of a waiting time. -/
def countdown : Option ℕ → Option ℕ
  | none => none
  | some 0 => none
  | some (n + 1) => some n

/-- One tick: the due keys leave, all others wait for one tick less. -/
def tick (a : Agenda κ) : Agenda κ := fun k => countdown (a k)

@[simp] theorem arm_self (a : Agenda κ) (k : κ) (n : ℕ) : a.arm k n k = some n := by
  simp [arm]

@[simp] theorem cancel_self (a : Agenda κ) (k : κ) : a.cancel k k = none := by
  simp [cancel]

theorem arm_of_ne (a : Agenda κ) {k j : κ} (h : j ≠ k) (n : ℕ) : a.arm k n j = a j := by
  simp [arm, h]

theorem cancel_of_ne (a : Agenda κ) {k j : κ} (h : j ≠ k) : a.cancel k j = a j := by
  simp [cancel, h]

/-- Whether a key with this waiting time is scheduled, as a number. -/
def held : Option ℕ → ℕ
  | none => 0
  | some _ => 1

/-- A tick loses the keys that are due, and no others. -/
theorem held_countdown (o : Option ℕ) :
    held (countdown o) + (if o = some 0 then 1 else 0) = held o := by
  rcases o with _ | _ | n <;> rfl

/-- `OnSchedule k n a log`: since `k` was armed with `n`, the ticks have fired
the lists `log`, in this order, and brought the agenda to `a`, and `k` has been
dealt with as it should: fired once by tick number `n` (from 0) and by no other,
and waiting for what is left of `n` before that. -/
structure OnSchedule (k : κ) (n : ℕ) (a : Agenda κ) (log : List (List κ)) : Prop where
  fired : ∀ i l, log[i]? = some l → l.count k = if i = n then 1 else 0
  waits : a k = if log.length ≤ n then some (n - log.length) else none

/-- What holds of every entry of a history that is one entry longer. -/
theorem forall_concat {α : Type*} {P : ℕ → α → Prop} {log : List α} {l : α} :
    (∀ i l', (log ++ [l])[i]? = some l' → P i l') ↔
      (∀ i l', log[i]? = some l' → P i l') ∧ P log.length l := by
  constructor
  · intro h
    refine ⟨fun i l' hi => h i l' ?_, h _ _ List.getElem?_concat_length⟩
    rwa [List.getElem?_append_left (List.getElem?_eq_some_iff.mp hi).1]
  · rintro ⟨hlog, hl⟩ i l' hi
    rcases Nat.lt_trichotomy i log.length with hlt | rfl | hgt
    · rw [List.getElem?_append_left hlt] at hi
      exact hlog i l' hi
    · rw [List.getElem?_concat_length, Option.some_inj] at hi
      exact hi ▸ hl
    · rw [List.getElem?_eq_none_iff.mpr (by simp; omega)] at hi
      exact absurd hi (by simp)

namespace OnSchedule

variable {k : κ} {n : ℕ} {a a' : Agenda κ} {log : List (List κ)}

/-- Just armed. -/
theorem start (h : a k = some n) : OnSchedule k n a [] where
  fired := by simp
  waits := by simp [h]

/-- What does not touch `k` keeps it on schedule. -/
theorem congr (h : OnSchedule k n a log) (ha : a' k = a k) : OnSchedule k n a' log where
  fired := h.fired
  waits := ha ▸ h.waits

/-- The key is due exactly when as many ticks have passed as it was to wait. -/
theorem due_iff (h : OnSchedule k n a log) : a k = some 0 ↔ log.length = n := by
  rw [h.waits]
  by_cases hn : log.length ≤ n
  · rw [if_pos hn, Option.some_inj]
    omega
  · rw [if_neg hn]
    exact ⟨fun h0 => absurd h0 (by simp), fun h0 => absurd h0.le hn⟩

/-- **The tick rule.**  A tick that fires `k` exactly when it is due, and counts
it down, keeps it on schedule. -/
theorem tick (h : OnSchedule k n a log) {l : List κ}
    (hl : l.count k = if a k = some 0 then 1 else 0) (ha : a' k = a.tick k) :
    OnSchedule k n a' (log ++ [l]) where
  fired := by
    refine forall_concat.mpr ⟨h.fired, ?_⟩
    rw [hl]
    simp only [h.due_iff]
  waits := by
    rw [ha, Agenda.tick, h.waits, List.length_append, List.length_singleton]
    by_cases hn : log.length ≤ n
    · rw [if_pos hn]
      rcases hd : n - log.length with _ | d
      · rw [if_neg (by omega)]
        rfl
      · rw [if_pos (by omega), show n - (log.length + 1) = d by omega]
        rfl
    · rw [if_neg hn, if_neg (by omega)]
      rfl

end OnSchedule

/-! ### Keys that are armed again -/

/-- Tick number `i` is due for a key that recurs every `d` ticks from number `n` on. -/
def DueAt (n d i : ℕ) : Prop := n ≤ i ∧ d ∣ i - n

instance (n d i : ℕ) : Decidable (DueAt n d i) := inferInstanceAs (Decidable (_ ∧ _))

namespace DueAt

variable {n d i j : ℕ}

theorem first (n d : ℕ) : DueAt n d n := ⟨le_rfl, by simp⟩

theorem next (h : DueAt n d i) : DueAt n d (i + d) :=
  ⟨Nat.le_add_right_of_le h.1, by
    rw [Nat.sub_add_comm h.1]
    exact Nat.dvd_add_self_right.mpr h.2⟩

/-- Nothing is due before the next due tick. -/
theorem add_le (hi : DueAt n d i) (hj : DueAt n d j) (hlt : i < j) : i + d ≤ j := by
  have hdvd : d ∣ (j - n) - (i - n) := Nat.dvd_sub hj.2 hi.2
  have hle := Nat.le_of_dvd (by have := hi.1; omega) hdvd
  have := hi.1
  omega

end DueAt

/-- `Recurs k n d a log`: the ticks so far have fired the lists `log` and brought
the agenda to `a`; `k` was fired once by each tick that is due for it, by no
other, and waits for the next due one. -/
structure Recurs (k : κ) (n d : ℕ) (a : Agenda κ) (log : List (List κ)) : Prop where
  fired : ∀ i l, log[i]? = some l → l.count k = if DueAt n d i then 1 else 0
  waits : ∃ w, a k = some w ∧ DueAt n d (log.length + w) ∧
    ∀ v < w, ¬ DueAt n d (log.length + v)

namespace Recurs

variable {k : κ} {n d : ℕ} {a a' : Agenda κ} {log : List (List κ)}

/-- Just armed. -/
theorem start (h : a k = some n) : Recurs k n d a [] where
  fired := by simp
  waits := by
    refine ⟨n, h, ?_, fun v hv hdue => ?_⟩
    · simpa using DueAt.first n d
    · have := hdue.1
      rw [List.length_nil] at this
      omega

theorem congr (h : Recurs k n d a log) (ha : a' k = a k) : Recurs k n d a' log where
  fired := h.fired
  waits := ha ▸ h.waits

theorem due_iff (h : Recurs k n d a log) : a k = some 0 ↔ DueAt n d log.length := by
  obtain ⟨w, hw, hdue, hmin⟩ := h.waits
  rw [hw, Option.some_inj]
  constructor
  · rintro rfl
    exact hdue
  · intro hlen
    by_contra hpos
    exact hmin 0 (by omega) hlen

/-- **The tick rule.**  A tick that fires `k` exactly when it is due, arms it
again for the `d`-th tick from now if so, and counts it down otherwise. -/
theorem tick (hd : 0 < d) (h : Recurs k n d a log) {l : List κ}
    (hl : l.count k = if a k = some 0 then 1 else 0)
    (hfire : a k = some 0 → a' k = some (d - 1))
    (hwait : a k ≠ some 0 → a' k = a.tick k) : Recurs k n d a' (log ++ [l]) where
  fired := by
    refine forall_concat.mpr ⟨h.fired, ?_⟩
    rw [hl]
    simp only [h.due_iff]
  waits := by
    obtain ⟨w, hw, hdue, hmin⟩ := h.waits
    rw [List.length_append, List.length_singleton]
    rcases w with _ | w
    · refine ⟨d - 1, hfire hw, ?_, fun v hv hv' => ?_⟩
      · rw [show log.length + 1 + (d - 1) = log.length + d by omega]
        exact DueAt.next hdue
      · have := DueAt.add_le hdue hv' (by omega)
        omega
    · refine ⟨w, ?_, ?_, fun v hv => ?_⟩
      · rw [hwait (by simp [hw]), Agenda.tick, hw]
        rfl
      · rwa [show log.length + 1 + w = log.length + (w + 1) by omega]
      · rw [show log.length + 1 + v = log.length + (v + 1) by omega]
        exact hmin _ (by omega)

theorem mem_iff (h : Recurs k n d a log) {i : ℕ} {l : List κ} (hl : log[i]? = some l) :
    k ∈ l ↔ DueAt n d i := by
  rw [← List.count_pos_iff, h.fired i l hl]
  split_ifs with hdue <;> simp [hdue]

/-- **Successive firings** are `d` ticks apart. -/
theorem successive (hd : 0 < d) (h : Recurs k n d a log) {i j : ℕ} {l l' : List κ} (hij : i < j)
    (hi : log[i]? = some l) (hl : k ∈ l) (hj : log[j]? = some l') (hl' : k ∈ l')
    (hbetween : ∀ x l, i < x → x < j → log[x]? = some l → k ∉ l) : j = i + d := by
  have hdue := (h.mem_iff hi).mp hl
  have hle := hdue.add_le ((h.mem_iff hj).mp hl') hij
  -- otherwise `k` has fired in between
  by_contra hne
  have hlen := (List.getElem?_eq_some_iff.mp hj).1
  have hnext : log[i + d]? = some log[i + d] := List.getElem?_eq_getElem (by omega)
  exact hbetween _ _ (by omega) (by omega) hnext ((h.mem_iff hnext).mpr hdue.next)

end Recurs

end Agenda
