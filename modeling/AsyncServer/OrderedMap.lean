/-
Maps ordered by a comparison object, as `std::map<K, V, Compare>`.

Two keys are the same key for the map when neither is less than the other.  The
entries are kept in increasing order, and `assign` (`m[k] = v`) changes the value
of the entry that is there, under the spelling it was first given, or puts a new
one in its place.

* `assign_assign` — of two assignments to one key the last one counts;
* `fill_perm_of_distinct` — keys that are all different are all stored;
* `fill_perm_of_length` — a map with as many entries as were assigned has
  exactly these entries;
* `fill_of_perm` — the order in which different keys are assigned does not
  matter;
* `valueAt_assign`, `valueAt_erase` — where the keys are compared by what `f` makes of them,
  `assign` and `erase` are updates of the values at these.
-/
import Mathlib.Tactic

/-- A map with the comparison `less`. -/
structure OrderedMap (κ ν : Type*) (less : κ → κ → Prop) where
  entries : List (κ × ν)
  sorted : entries.Pairwise fun a b => less a.1 b.1

namespace OrderedMap

variable {κ ν : Type*} {less : κ → κ → Prop}

theorem eq_of_entries {m m' : OrderedMap κ ν less} (h : m.entries = m'.entries) : m = m' := by
  cases m
  cases m'
  cases h
  rfl

/-- The map without entries. -/
def empty : OrderedMap κ ν less := ⟨[], List.Pairwise.nil⟩

/-- The keys of the entries are all different. -/
def Distinct (less : κ → κ → Prop) (l : List (κ × ν)) : Prop :=
  l.Pairwise fun a b => less a.1 b.1 ∨ less b.1 a.1

theorem Distinct.of_perm {l l' : List (κ × ν)} (h : Distinct less l) (hp : l.Perm l') :
    Distinct less l' :=
  hp.pairwise h Or.symm

theorem distinct_entries (m : OrderedMap κ ν less) : Distinct less m.entries :=
  m.sorted.imp Or.inl

/-- The order of the entries is determined by their keys. -/
theorem eq_of_perm [IsStrictOrder κ less] {m m' : OrderedMap κ ν less}
    (h : m.entries.Perm m'.entries) : m = m' := by
  refine eq_of_entries (h.eq_of_pairwise (fun a b _ _ hab hba => ?_) m.sorted m'.sorted)
  exact absurd (IsTrans.trans _ _ _ hab hba) (Std.Irrefl.irrefl a.1)

variable [DecidableRel less]

/-- The value stored for a key. -/
def find (m : OrderedMap κ ν less) (k : κ) : Option ν :=
  (m.entries.find? fun e => ¬ less e.1 k ∧ ¬ less k e.1).map Prod.snd

theorem find_eq_none {m : OrderedMap κ ν less} {k : κ} :
    m.find k = none ↔ ∀ e ∈ m.entries, less e.1 k ∨ less k e.1 := by
  simp only [find, Option.map_eq_none_iff, List.find?_eq_none, decide_eq_true_eq]
  exact forall₂_congr fun _ _ => by tauto

/-- `assign` on a list of entries. -/
def assignEntry (less : κ → κ → Prop) [DecidableRel less] (k : κ) (v : ν) :
    List (κ × ν) → List (κ × ν)
  | [] => [(k, v)]
  | e :: es =>
    if less k e.1 then (k, v) :: e :: es
    else if less e.1 k then e :: assignEntry less k v es
    else (e.1, v) :: es

/-- The key of an entry after `assign` is the assigned one or was there. -/
theorem key_of_mem_assignEntry {k : κ} {v : ν} {x : κ × ν} : ∀ {l : List (κ × ν)},
    x ∈ assignEntry less k v l → x.1 = k ∨ ∃ e ∈ l, e.1 = x.1 := by
  intro l
  induction l with
  | nil =>
    intro hx
    rw [assignEntry, List.mem_singleton] at hx
    exact Or.inl (by rw [hx])
  | cons e es ih =>
    intro hx
    rw [assignEntry] at hx
    split_ifs at hx with hlt hgt
    · rcases List.mem_cons.mp hx with rfl | hx
      · exact Or.inl rfl
      · exact Or.inr ⟨x, hx, rfl⟩
    · rcases List.mem_cons.mp hx with rfl | hx
      · exact Or.inr ⟨x, List.mem_cons_self, rfl⟩
      · rcases ih hx with heq | ⟨e', he', heq⟩
        · exact Or.inl heq
        · exact Or.inr ⟨e', List.mem_cons_of_mem _ he', heq⟩
    · rcases List.mem_cons.mp hx with rfl | hx
      · exact Or.inr ⟨e, List.mem_cons_self, rfl⟩
      · exact Or.inr ⟨x, List.mem_cons_of_mem _ hx, rfl⟩

theorem sorted_assignEntry [IsTrans κ less] (k : κ) (v : ν) : ∀ {l : List (κ × ν)},
    l.Pairwise (fun a b => less a.1 b.1) →
      (assignEntry less k v l).Pairwise fun a b => less a.1 b.1 := by
  intro l
  induction l with
  | nil =>
    intro _
    exact List.pairwise_singleton _ _
  | cons e es ih =>
    intro h
    obtain ⟨hhead, htail⟩ := List.pairwise_cons.mp h
    rw [assignEntry]
    split_ifs with hlt hgt
    · refine List.pairwise_cons.mpr ⟨fun x hx => ?_, h⟩
      rcases List.mem_cons.mp hx with rfl | hx
      · exact hlt
      · exact IsTrans.trans _ _ _ hlt (hhead x hx)
    · refine List.pairwise_cons.mpr ⟨fun x hx => ?_, ih htail⟩
      rcases key_of_mem_assignEntry hx with heq | ⟨y, hy, heq⟩
      · rw [heq]
        exact hgt
      · rw [← heq]
        exact hhead y hy
    · exact List.pairwise_cons.mpr ⟨hhead, htail⟩

theorem assignEntry_assignEntry [Std.Irrefl less] (k : κ) (v v' : ν) : ∀ l : List (κ × ν),
    assignEntry less k v (assignEntry less k v' l) = assignEntry less k v l := by
  have hself : ∀ a : κ, ¬ less a a := Std.Irrefl.irrefl
  intro l
  induction l with
  | nil => simp [assignEntry, hself]
  | cons e es ih =>
    rw [assignEntry, assignEntry]
    split_ifs with hlt hgt
    · simp [assignEntry, hself]
    · rw [assignEntry, if_neg hlt, if_pos hgt, ih]
    · rw [assignEntry, if_neg hlt, if_neg hgt]

/-- `assign` replaces a value or adds an entry. -/
theorem assignEntry_cases (k : κ) (v : ν) : ∀ l : List (κ × ν),
    (assignEntry less k v l).length = l.length ∨ (assignEntry less k v l).Perm ((k, v) :: l) := by
  intro l
  induction l with
  | nil => exact Or.inr (List.Perm.refl _)
  | cons e es ih =>
    rw [assignEntry]
    split_ifs with hlt hgt
    · exact Or.inr (List.Perm.refl _)
    · refine ih.imp (fun hlen => ?_) fun hperm => ?_
      · rw [List.length_cons, List.length_cons, hlen]
      · exact (hperm.cons e).trans (List.Perm.swap _ _ _)
    · exact Or.inl rfl

theorem assignEntry_perm_of_fresh (k : κ) (v : ν) : ∀ {l : List (κ × ν)},
    (∀ e ∈ l, less k e.1 ∨ less e.1 k) → (assignEntry less k v l).Perm ((k, v) :: l) := by
  intro l
  induction l with
  | nil =>
    intro _
    exact List.Perm.refl _
  | cons e es ih =>
    intro hfresh
    rw [assignEntry]
    split_ifs with hlt hgt
    · exact List.Perm.refl _
    · have hperm := ih fun e' he' => hfresh e' (List.mem_cons_of_mem _ he')
      exact (hperm.cons e).trans (List.Perm.swap _ _ _)
    · exact absurd (hfresh e List.mem_cons_self) (not_or.mpr ⟨hlt, hgt⟩)

/-- `m.erase(k)`. -/
def erase (m : OrderedMap κ ν less) (k : κ) : OrderedMap κ ν less :=
  ⟨m.entries.filter fun e => less e.1 k ∨ less k e.1, m.sorted.filter _⟩

variable [IsStrictOrder κ less] {m : OrderedMap κ ν less}

/-- `m[k] = v`. -/
def assign (m : OrderedMap κ ν less) (k : κ) (v : ν) : OrderedMap κ ν less :=
  ⟨assignEntry less k v m.entries, sorted_assignEntry k v m.sorted⟩

/-- **Of two assignments to one key the last one counts.** -/
@[simp] theorem assign_assign (k : κ) (v v' : ν) : (m.assign k v').assign k v = m.assign k v :=
  eq_of_entries (assignEntry_assignEntry k v v' m.entries)

theorem entries_assign_cases (k : κ) (v : ν) :
    (m.assign k v).entries.length = m.entries.length ∨
      (m.assign k v).entries.Perm ((k, v) :: m.entries) :=
  assignEntry_cases k v m.entries

/-- Assign entries one after the other. -/
def fill (m : OrderedMap κ ν less) (l : List (κ × ν)) : OrderedMap κ ν less :=
  l.foldl (fun m e => m.assign e.1 e.2) m

theorem fill_cons (e : κ × ν) (l : List (κ × ν)) :
    m.fill (e :: l) = (m.assign e.1 e.2).fill l := rfl

theorem fill_append (l l' : List (κ × ν)) : m.fill (l ++ l') = (m.fill l).fill l' :=
  List.foldl_append

theorem length_fill_le : ∀ {m : OrderedMap κ ν less} {l : List (κ × ν)},
    (m.fill l).entries.length ≤ m.entries.length + l.length := by
  intro m l
  induction l generalizing m with
  | nil => exact le_rfl
  | cons e l ih =>
    have hassign : (m.assign e.1 e.2).entries.length ≤ m.entries.length + 1 := by
      rcases entries_assign_cases (m := m) e.1 e.2 with hlen | hperm
      · exact hlen.le.trans (Nat.le_succ _)
      · exact hperm.length_eq.le
    rw [fill_cons, List.length_cons]
    have := ih (m := m.assign e.1 e.2)
    omega

/-- **A map that has grown by as many entries as were assigned has exactly
these.** -/
theorem fill_perm_of_length {l : List (κ × ν)} : ∀ {m : OrderedMap κ ν less},
    m.entries.length + l.length ≤ (m.fill l).entries.length →
      (m.fill l).entries.Perm (l ++ m.entries) := by
  induction l with
  | nil =>
    intro m _
    exact List.Perm.refl _
  | cons e l ih =>
    intro m h
    rw [fill_cons, List.length_cons] at h
    have hle := length_fill_le (m := m.assign e.1 e.2) (l := l)
    rcases entries_assign_cases (m := m) e.1 e.2 with hlen | hperm
    · omega
    · have hgrown : (m.assign e.1 e.2).entries.length = m.entries.length + 1 := hperm.length_eq
      have hrest := ih (m := m.assign e.1 e.2) (by omega)
      exact hrest.trans ((hperm.append_left l).trans List.perm_middle)

/-- **Keys that are all different are all stored.** -/
theorem fill_perm_of_distinct {l : List (κ × ν)}
    (hl : l.Pairwise fun a b => less a.1 b.1 ∨ less b.1 a.1) :
    ∀ {m : OrderedMap κ ν less}, (∀ a ∈ l, ∀ e ∈ m.entries, less a.1 e.1 ∨ less e.1 a.1) →
      (m.fill l).entries.Perm (l ++ m.entries) := by
  induction l with
  | nil =>
    intro m _
    exact List.Perm.refl _
  | cons e l ih =>
    intro m hm
    obtain ⟨hhead, htail⟩ := List.pairwise_cons.mp hl
    have hperm : (m.assign e.1 e.2).entries.Perm (e :: m.entries) :=
      assignEntry_perm_of_fresh e.1 e.2 (hm e List.mem_cons_self)
    have hrest := ih htail (m := m.assign e.1 e.2) fun a ha x hx => by
      rcases List.mem_cons.mp (hperm.mem_iff.mp hx) with rfl | hx
      · exact (hhead a ha).symm
      · exact hm a (List.mem_cons_of_mem _ ha) x hx
    exact hrest.trans ((hperm.append_left l).trans List.perm_middle)

/-- **The order in which different keys are assigned does not matter.** -/
theorem fill_of_perm {l l' : List (κ × ν)} (h : Distinct less l) (hp : l.Perm l') :
    (empty : OrderedMap κ ν less).fill l = empty.fill l' := by
  have hfill := fill_perm_of_distinct (m := (empty : OrderedMap κ ν less)) h
    fun _ _ _ he => absurd he List.not_mem_nil
  have hfill' := fill_perm_of_distinct (m := (empty : OrderedMap κ ν less)) (h.of_perm hp)
    fun _ _ _ he => absurd he List.not_mem_nil
  exact eq_of_perm (hfill.trans ((hp.append_right _).trans hfill'.symm))

/-- A map is what its entries make of the empty one. -/
theorem fill_entries (m : OrderedMap κ ν less) : empty.fill m.entries = m := by
  have hfill := fill_perm_of_distinct (m := (empty : OrderedMap κ ν less)) (distinct_entries m)
    fun _ _ _ he => absurd he List.not_mem_nil
  exact eq_of_perm (hfill.trans (by simp [empty]))

/-! ### Keys compared by a function of them -/

section KeyFunction

variable {γ : Type*} [LinearOrder γ] [DecidableEq γ] {f : κ → γ}

/-- The value of the entry whose key is `c` under `f`. -/
def valueAt (f : κ → γ) (l : List (κ × ν)) (c : γ) : Option ν :=
  (l.find? fun e => f e.1 = c).map Prod.snd

omit [LinearOrder γ] in
theorem valueAt_cons (e : κ × ν) (l : List (κ × ν)) :
    valueAt f (e :: l) = Function.update (valueAt f l) (f e.1) (some e.2) := by
  funext c
  by_cases hc : f e.1 = c
  · subst hc
    rw [Function.update_self, valueAt, List.find?_cons_of_pos (by simp)]
    rfl
  · rw [Function.update_of_ne (Ne.symm hc), valueAt, List.find?_cons_of_neg (by simpa using hc)]
    rfl

omit [IsStrictOrder κ less] in
theorem valueAt_assignEntry (hf : ∀ a b, less a b ↔ f a < f b) (k : κ) (v : ν)
    (l : List (κ × ν)) :
    valueAt f (assignEntry less k v l) = Function.update (valueAt f l) (f k) (some v) := by
  induction l with
  | nil => exact valueAt_cons (k, v) []
  | cons e es ih =>
    rw [assignEntry]
    split_ifs with hlt hgt
    · exact valueAt_cons (k, v) (e :: es)
    · have hne : f e.1 ≠ f k := ((hf _ _).mp hgt).ne
      rw [valueAt_cons, valueAt_cons, ih, Function.update_comm hne.symm]
    · have heq : f e.1 = f k :=
        le_antisymm (not_lt.mp fun h => hlt ((hf _ _).mpr h))
          (not_lt.mp fun h => hgt ((hf _ _).mpr h))
      rw [valueAt_cons, valueAt_cons, heq, Function.update_idem]

/-- **`assign` updates the value at one key.** -/
theorem valueAt_assign (hf : ∀ a b, less a b ↔ f a < f b) (k : κ) (v : ν) :
    valueAt f (m.assign k v).entries = Function.update (valueAt f m.entries) (f k) (some v) :=
  valueAt_assignEntry hf k v m.entries

omit [LinearOrder γ] in
theorem valueAt_filter (c : γ) (l : List (κ × ν)) :
    valueAt f (l.filter fun e => f e.1 ≠ c) = Function.update (valueAt f l) c none := by
  induction l with
  | nil => exact (Function.update_eq_self_iff.mpr rfl).symm
  | cons e es ih =>
    by_cases hc : f e.1 = c
    · rw [List.filter_cons_of_neg (by simpa using hc), ih, valueAt_cons, hc, Function.update_idem]
    · rw [List.filter_cons_of_pos (by simpa using hc), valueAt_cons, valueAt_cons, ih,
        Function.update_comm hc]

omit [IsStrictOrder κ less] in
/-- **`erase` removes the value at one key.** -/
theorem valueAt_erase (hf : ∀ a b, less a b ↔ f a < f b) (k : κ) :
    valueAt f (m.erase k).entries = Function.update (valueAt f m.entries) (f k) none := by
  have hother : ∀ e : κ × ν, (less e.1 k ∨ less k e.1) ↔ f e.1 ≠ f k := by
    intro e
    rw [hf, hf]
    exact lt_or_lt_iff_ne
  rw [erase, ← valueAt_filter]
  simp only [hother]

omit [IsStrictOrder κ less] in
/-- `find` shows these values. -/
theorem find_eq_valueAt (hf : ∀ a b, less a b ↔ f a < f b) (k : κ) :
    m.find k = valueAt f m.entries (f k) := by
  have hsame : ∀ e : κ × ν, (¬ less e.1 k ∧ ¬ less k e.1) ↔ f e.1 = f k := by
    intro e
    rw [hf, hf, not_lt, not_lt]
    exact ⟨fun h => le_antisymm h.2 h.1, fun h => ⟨h.ge, h.le⟩⟩
  simp only [find, valueAt, hsame]

omit [DecidableRel less] [IsStrictOrder κ less] in
theorem valueAt_of_mem (hf : ∀ a b, less a b ↔ f a < f b) {l : List (κ × ν)} {k : κ} {v : ν}
    (hl : l.Pairwise fun a b => less a.1 b.1) (h : (k, v) ∈ l) :
    valueAt f l (f k) = some v := by
  induction l with
  | nil => exact absurd h List.not_mem_nil
  | cons e es ih =>
    obtain ⟨hhead, htail⟩ := List.pairwise_cons.mp hl
    rw [valueAt_cons]
    rcases List.mem_cons.mp h with rfl | h
    · exact Function.update_self _ _ _
    · have hne : f k ≠ f e.1 := ((hf _ _).mp (hhead _ h)).ne'
      rw [Function.update_of_ne hne]
      exact ih htail h

omit [DecidableRel less] [IsStrictOrder κ less] in
/-- Every entry is the one that its key shows. -/
theorem valueAt_eq_some_iff (hf : ∀ a b, less a b ↔ f a < f b) {c : γ} {v : ν} :
    valueAt f m.entries c = some v ↔ ∃ k, f k = c ∧ (k, v) ∈ m.entries := by
  constructor
  · intro h
    obtain ⟨e, he, rfl⟩ := Option.map_eq_some_iff.mp h
    have hkey := List.find?_some he
    exact ⟨e.1, of_decide_eq_true hkey, List.mem_of_find?_eq_some he⟩
  · rintro ⟨k, rfl, hmem⟩
    exact valueAt_of_mem hf m.sorted hmem

end KeyFunction

end OrderedMap
