/-
Logs of the updates of a map.

A log lists the updates made, the oldest first: `(k, some v)` puts `v` at `k`, and
`(k, none)` removes what is there.

* `lookup` — what a map shows after the updates, one after the other;
* `Latest` — a value was put at a key, and there was no other update of the key since;
* `latest_filterMap` — the same of a log that is taken from a list of calls;
* `lookup_filterMap` — what calls on a component leave is shown by the log of their updates;
* `lookup_eq_some_iff` — the two are the same;
* `lookup_eq_none_iff` — where nothing is removed, a key shows nothing if it was never put.
-/
import Mathlib.Tactic

namespace UpdateLog

variable {κ ν : Type*}

/-- `v` was put at `k`, and no update of `k` came after that. -/
def Latest (log : List (κ × Option ν)) (k : κ) (v : ν) : Prop :=
  ∃ before after, log = before ++ (k, some v) :: after ∧ ∀ e ∈ after, e.1 ≠ k

/-- Where the log is taken from a list of calls, some of which update the map. -/
theorem latest_filterMap {α : Type*} {update : α → Option (κ × Option ν)} {calls : List α}
    {k : κ} {v : ν} :
    Latest (calls.filterMap update) k v ↔
      ∃ before c after, calls = before ++ c :: after ∧ update c = some (k, some v) ∧
        ∀ d ∈ after, ∀ e, update d = some e → e.1 ≠ k := by
  constructor
  · rintro ⟨before, after, heq, hafter⟩
    obtain ⟨l, l', rfl, -, hl'⟩ := List.filterMap_eq_append_iff.mp heq
    obtain ⟨skipped, c, l'', rfl, hskipped, hc, rfl⟩ := List.filterMap_eq_cons_iff.mp hl'
    refine ⟨l ++ skipped, c, l'', by rw [List.append_assoc], hc, fun d hd e he => ?_⟩
    exact hafter e (List.mem_filterMap.mpr ⟨d, hd, he⟩)
  · rintro ⟨before, c, after, rfl, hc, hafter⟩
    refine ⟨before.filterMap update, after.filterMap update, ?_, fun e he => ?_⟩
    · rw [List.filterMap_append, List.filterMap_cons_some hc]
    · obtain ⟨d, hd, hde⟩ := List.mem_filterMap.mp he
      exact hafter d hd e hde

variable [DecidableEq κ]

/-- The map after the updates. -/
def lookup (log : List (κ × Option ν)) : κ → Option ν :=
  log.foldl (fun m e => Function.update m e.1 e.2) fun _ => none

@[simp] theorem lookup_nil (k : κ) : lookup ([] : List (κ × Option ν)) k = none := rfl

theorem lookup_concat (log : List (κ × Option ν)) (e : κ × Option ν) :
    lookup (log ++ [e]) = Function.update (lookup log) e.1 e.2 := by
  rw [lookup, List.foldl_append]
  rfl

/-- **A component that calls update** shows the log of their updates. -/
theorem lookup_filterMap {σ α : Type*} (view : σ → κ → Option ν) {apply : σ → α → σ}
    {update : α → Option (κ × Option ν)}
    (hstep : ∀ s c, view (apply s c) =
      (update c).elim (view s) fun e => Function.update (view s) e.1 e.2)
    {s : σ} (hs : view s = fun _ => none) (calls : List α) :
    view (calls.foldl apply s) = lookup (calls.filterMap update) := by
  induction calls using List.reverseRecOn with
  | nil => exact hs
  | append_singleton calls c ih =>
    rw [List.foldl_append, List.foldl_cons, List.foldl_nil, hstep, ih, List.filterMap_append]
    cases hc : update c with
    | none =>
      rw [List.filterMap_cons_none hc, List.filterMap_nil, List.append_nil, Option.elim_none]
    | some e =>
      rw [List.filterMap_cons_some hc, List.filterMap_nil, lookup_concat, Option.elim_some]

/-- Updates of other keys change nothing. -/
theorem lookup_append {before after : List (κ × Option ν)} {k : κ}
    (h : ∀ e ∈ after, e.1 ≠ k) : lookup (before ++ after) k = lookup before k := by
  induction after using List.reverseRecOn with
  | nil => rw [List.append_nil]
  | append_singleton after e ih =>
    have hne : k ≠ e.1 := (h e (List.mem_append_right after (List.mem_singleton_self e))).symm
    rw [← List.append_assoc, lookup_concat, Function.update_of_ne hne]
    exact ih fun e' he' => h e' (List.mem_append_left _ he')

/-- **A map shows the value that was put last.** -/
theorem lookup_eq_some_iff {log : List (κ × Option ν)} {k : κ} {v : ν} :
    lookup log k = some v ↔ Latest log k v := by
  constructor
  · intro h
    induction log using List.reverseRecOn with
    | nil => exact absurd h (by simp)
    | append_singleton log e ih =>
      rw [lookup_concat] at h
      by_cases hk : k = e.1
      · -- the last update is the one
        rw [hk, Function.update_self] at h
        refine ⟨log, [], ?_, by simp⟩
        rw [← h, hk]
      · rw [Function.update_of_ne hk] at h
        obtain ⟨before, after, rfl, hafter⟩ := ih h
        refine ⟨before, after ++ [e], by simp, fun e' he' => ?_⟩
        rcases List.mem_append.mp he' with he' | he'
        · exact hafter e' he'
        · rw [List.mem_singleton.mp he']
          exact Ne.symm hk
  · rintro ⟨before, after, rfl, hafter⟩
    rw [List.append_cons, lookup_append hafter, lookup_concat, Function.update_self]

/-- **Where nothing is removed, only keys that were never put show nothing.** -/
theorem lookup_eq_none_iff {log : List (κ × Option ν)} (hputs : ∀ e ∈ log, e.2 ≠ none) {k : κ} :
    lookup log k = none ↔ ∀ e ∈ log, e.1 ≠ k := by
  induction log using List.reverseRecOn with
  | nil => simp
  | append_singleton log e ih =>
    obtain ⟨hlog, he⟩ := List.forall_mem_append.mp hputs
    rw [lookup_concat, List.forall_mem_append, List.forall_mem_singleton, ← ih hlog]
    by_cases hk : e.1 = k
    · rw [← hk, Function.update_self]
      exact iff_of_false (he e (List.mem_singleton_self e)) fun h => h.2 rfl
    · rw [Function.update_of_ne (Ne.symm hk)]
      exact (and_iff_left hk).symm

end UpdateLog
