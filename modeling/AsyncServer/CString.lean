/-
Byte strings as C and C++ see them.

* `cstr s` — what `c_str()` shows of a `std::string`: the bytes before its
  first NUL;
* `strlen` — the length of that;
* `strcasecmp`, `strncasecmp` — the comparison of two C strings, or of their
  first bytes, up to ASCII letter case, byte by byte as unsigned values;
* `strcasecmpLoop_spec` — it is the sign of what the loop over the bytes returns.
-/
import Mathlib.Tactic
import Mathlib.Data.List.Lex
import Mathlib.Data.List.TakeWhile

/-- The contents of a `std::string`, or of a piece of memory. -/
abbrev Bytes := List UInt8

namespace CString

/-- A statement about the bytes of a string is decided on the string, not on all bytes. -/
instance (priority := high) decidableForallMem {p : UInt8 → Prop} [DecidablePred p] (s : Bytes) :
    Decidable (∀ c ∈ s, p c) :=
  List.decidableBAll p s

/-- A string literal as bytes. -/
def bytes (s : String) : Bytes := s.toList.map fun c => UInt8.ofNat c.toNat

/-- The C string that starts a piece of memory: its bytes before the first
NUL. -/
def cstr (s : Bytes) : Bytes := s.takeWhile (· ≠ 0)

/-- `strlen`. -/
def strlen (s : Bytes) : ℕ := (cstr s).length

/-- `tolower` in the C locale, as the value of the unsigned byte. -/
def tolower (c : UInt8) : ℕ :=
  if 65 ≤ c.toNat ∧ c.toNat ≤ 90 then c.toNat + 32 else c.toNat

/-- What `strcasecmp` compares of a string. -/
def fold (s : Bytes) : List ℕ := (cstr s).map tolower

/-- `strcasecmp`: `.lt`, `.eq` and `.gt` stand for a negative, zero and positive
result. -/
def strcasecmp (s t : Bytes) : Ordering :=
  if fold s < fold t then .lt else if fold t < fold s then .gt else .eq

/-- `strncasecmp`: the same, of at most `n` bytes. -/
def strncasecmp (s t : Bytes) (n : ℕ) : Ordering :=
  if (fold s).take n < (fold t).take n then .lt
  else if (fold t).take n < (fold s).take n then .gt else .eq

/-- `strcasecmp` as its loop computes it: the difference of the first two bytes that differ,
in lower case.  The end of a list is the NUL behind it. -/
def strcasecmpLoop : Bytes → Bytes → ℤ
  | [], t => 0 - tolower (t.headD 0)
  | c :: s, t =>
    if tolower c ≠ tolower (t.headD 0) then tolower c - tolower (t.headD 0)
    else if c = 0 then 0
    else strcasecmpLoop s t.tail

theorem strcasecmp_eq_iff {s t : Bytes} : strcasecmp s t = .eq ↔ fold s = fold t := by
  rw [strcasecmp]
  split_ifs with hlt hgt
  · exact iff_of_false (by decide) hlt.ne
  · exact iff_of_false (by decide) hgt.ne'
  · exact iff_of_true rfl (le_antisymm (not_lt.mp hgt) (not_lt.mp hlt))

theorem strcasecmp_lt_iff {s t : Bytes} : strcasecmp s t = .lt ↔ fold s < fold t := by
  rw [strcasecmp]
  split_ifs with hlt hgt
  · exact iff_of_true rfl hlt
  · exact iff_of_false (by decide) hlt
  · exact iff_of_false (by decide) hlt

theorem cstr_append {s : Bytes} (hs : (0 : UInt8) ∉ s) (t : Bytes) :
    cstr (s ++ t) = s ++ cstr t :=
  List.takeWhile_append_of_pos fun _ hc => decide_eq_true fun h => hs (h ▸ hc)

theorem zero_notMem_cstr (s : Bytes) : (0 : UInt8) ∉ cstr s := by
  intro h
  exact absurd (List.mem_takeWhile_imp h) (by decide)

/-! ### The loop over the bytes -/

theorem tolower_eq_zero_iff {c : UInt8} : tolower c = 0 ↔ c = 0 := by
  rw [tolower, ← UInt8.toNat_inj]
  split_ifs with h
  · simp
    omega
  · simp

theorem fold_cons (c : UInt8) (s : Bytes) :
    fold (c :: s) = if c = 0 then [] else tolower c :: fold s := by
  unfold fold cstr
  split_ifs with h
  · rw [List.takeWhile_cons_of_neg (by simp [h]), List.map_nil]
  · rw [List.takeWhile_cons_of_pos (by simp [h]), List.map_cons]

/-- A string that is not at its end. -/
theorem fold_eq_headD (t : Bytes) :
    fold t = if t.headD 0 = 0 then [] else tolower (t.headD 0) :: fold t.tail := by
  cases t with
  | nil => rfl
  | cons c t => exact fold_cons c t

/-- **The sign of the loop's result** is the order of the strings in lower case. -/
theorem strcasecmpLoop_spec (s t : Bytes) :
    (strcasecmpLoop s t < 0 ↔ fold s < fold t) ∧ (strcasecmpLoop s t = 0 ↔ fold s = fold t) := by
  induction s generalizing t with
  | nil =>
    have hnil : fold [] = [] := rfl
    have hzero : tolower 0 = 0 := rfl
    rw [strcasecmpLoop, hnil, fold_eq_headD t]
    split_ifs with h
    · rw [h, hzero]
      simp
    · have hpos := Nat.pos_of_ne_zero (mt tolower_eq_zero_iff.mp h)
      exact ⟨iff_of_true (by omega) (List.nil_lt_cons _ _), iff_of_false (by omega) (by simp)⟩
  | cons c s ih =>
    rw [strcasecmpLoop, fold_cons c s, fold_eq_headD t]
    have hc : tolower c = 0 ↔ c = 0 := tolower_eq_zero_iff
    have hd : tolower (t.headD 0) = 0 ↔ t.headD 0 = 0 := tolower_eq_zero_iff
    by_cases heq : tolower c = tolower (t.headD 0)
    · rw [if_neg (not_not.mpr heq)]
      by_cases hnul : c = 0
      · -- both end here
        have hend : t.headD 0 = 0 := hd.mp (heq.symm.trans (hc.mpr hnul))
        rw [if_pos hnul, if_pos hnul, if_pos hend]
        simp
      · have hmore : t.headD 0 ≠ 0 := fun h => hnul (hc.mp (heq.trans (hd.mpr h)))
        rw [if_neg hnul, if_neg hnul, if_neg hmore, heq, List.cons_lt_cons_self,
          List.cons_inj_right]
        exact ih t.tail
    · rw [if_pos heq]
      have hne : ((tolower c : ℤ) - tolower (t.headD 0) = 0) ↔ False :=
        iff_of_false (by omega) id
      rw [hne]
      split_ifs with hnul hend hend
      · exact absurd ((hc.mpr hnul).trans (hd.mpr hend).symm) heq
      · have hpos := Nat.pos_of_ne_zero (mt hd.mp hend)
        rw [hc.mpr hnul]
        exact ⟨iff_of_true (by omega) (List.nil_lt_cons _ _), by simp⟩
      · have hpos := Nat.pos_of_ne_zero (mt hc.mp hnul)
        rw [hd.mpr hend]
        exact ⟨iff_of_false (by omega) (List.not_lt_nil _), by simp⟩
      · rw [List.cons_lt_cons_iff, List.cons.injEq]
        have hlt : (tolower c : ℤ) - tolower (t.headD 0) < 0 ↔
            tolower c < tolower (t.headD 0) := by omega
        refine ⟨hlt.trans ⟨.inl, fun h => ?_⟩, iff_of_false id fun h => heq h.1⟩
        exact h.resolve_right fun h => heq h.1

example : strcasecmp (bytes "Connection") (bytes "cONNECTION") = .eq := by decide

end CString
