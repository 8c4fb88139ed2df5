/-
The grammar of log patterns, and whether the scanner implements it.

The grammar is the relation `Reads` between a pattern and its items.  A pattern is a
sequence of literal runs without a percent sign and of directives; a directive is a name
of letters and perhaps an argument in braces.

* `readFrom` — the grammar as a function;
* `reads_iff` — every pattern has one reading, that of the function;
* `scan_eq` — the loops read as the function does where no two percent signs are
  adjacent, with no bound on the pattern;
* `readsPattern_iff` — of a pattern of 2^31 bytes or more the loops see the part that
  `int n` leaves, and the reading is right when the rest of it adds nothing.
-/
import AsyncServer.LogFormatter

namespace Server

open CString

namespace LogFormatter

open FormatItem (ofName ofElement ofName_eq_none)

/-- The reading of a pattern: its items, in order. -/
inductive Reads : Bytes → List FormatItem → Prop
  | nil : Reads [] []
  | literal {run rest : Bytes} {items : List FormatItem} (hne : run ≠ []) (hrun : percent ∉ run)
      (hend : ∀ c ∈ rest.head?, c = percent) (h : Reads rest items) :
      Reads (run ++ rest) (.string run :: items)
  | name {name rest : Bytes} {items : List FormatItem} (hname : ∀ c ∈ name, isalpha c = true)
      (hend : ∀ c ∈ rest.head?, isalpha c = false ∧ c ≠ openBrace) (h : Reads rest items) :
      Reads (percent :: (name ++ rest)) ((ofName name []).toList ++ items)
  | braces {name arg rest : Bytes} {items : List FormatItem}
      (hname : ∀ c ∈ name, isalpha c = true) (harg : closeBrace ∉ arg) (h : Reads rest items) :
      Reads (percent :: (name ++ openBrace :: (arg ++ closeBrace :: rest)))
        ((ofName name arg).toList ++ items)
  | unclosed {name swallowed : Bytes} (hname : ∀ c ∈ name, isalpha c = true)
      (hopen : closeBrace ∉ swallowed) :
      Reads (percent :: (name ++ openBrace :: swallowed)) (ofName name []).toList

/-- No two percent signs are adjacent. -/
def NoAdjacent (p : Bytes) : Prop := ¬ [percent, percent] <:+: p

instance : DecidablePred NoAdjacent := fun _ => inferInstanceAs (Decidable (¬ _))

/-- The reading, as a function.  With `cut`, a name that goes to the end of the pattern is
no name. -/
def readFrom (cut : Bool) : Bytes → List FormatItem
  | [] => []
  | c :: t =>
    if c = percent then (readItem cut t).toList ++ readFrom cut (readRest t)
    else .string (c :: t.takeWhile (· ≠ percent)) :: readFrom cut (t.dropWhile (· ≠ percent))
  termination_by t => t.length
  decreasing_by
    · exact Nat.lt_succ_of_le (readRest_suffix _).length_le
    · exact Nat.lt_succ_of_le (List.dropWhile_suffix _).length_le

variable {p t : Bytes} {cut : Bool}

/-- A pattern starts with a literal run, if it does not start with a directive. -/
theorem readFrom_literal (cut : Bool) (p : Bytes) :
    literal (p.takeWhile (· ≠ percent)) ++ readFrom cut (p.dropWhile (· ≠ percent)) =
      readFrom cut p := by
  cases p with
  | nil => rfl
  | cons c t =>
    by_cases hc : c = percent
    · rw [List.takeWhile_cons_of_neg (by simpa using hc),
        List.dropWhile_cons_of_neg (by simpa using hc)]
      rfl
    · rw [List.takeWhile_cons_of_pos (by simpa using hc),
        List.dropWhile_cons_of_pos (by simpa using hc), readFrom, if_neg hc]
      rfl

theorem NoAdjacent.of_suffix {u : Bytes} (h : NoAdjacent p) (hu : u <:+ p) : NoAdjacent u :=
  fun hadj => h (hadj.trans hu.isInfix)

/-- **The loops read as the grammar says.** -/
theorem scan_eq (cut : Bool) (normalStr : Bytes) (h : NoAdjacent t) :
    scan cut normalStr t =
      literal (normalStr ++ t.takeWhile (· ≠ percent)) ++
        readFrom cut (t.dropWhile (· ≠ percent)) := by
  induction normalStr, t using scan.induct with
  | case1 normalStr =>
    rw [scan, List.takeWhile_nil, List.dropWhile_nil, readFrom, List.append_nil, List.append_nil]
  | case2 normalStr c t hc ih =>
    rw [scan, if_pos hc, ih (h.of_suffix (List.suffix_cons c t)),
      List.takeWhile_cons_of_pos (by simpa using hc),
      List.dropWhile_cons_of_pos (by simpa using hc), List.append_assoc, List.singleton_append]
  | case3 normalStr c t hc hnext ih =>
    obtain ⟨u, rfl⟩ := List.head?_eq_some_iff.mp hnext
    rw [not_not.mp hc] at h
    exact absurd ⟨[], u, rfl⟩ h
  | case4 normalStr c t hc hnext ih =>
    have hrest : NoAdjacent (readRest t) :=
      h.of_suffix ((readRest_suffix t).trans (List.suffix_cons c t))
    rw [scan, if_neg hc, if_neg hnext, ih hrest, List.nil_append, readFrom_literal,
      List.takeWhile_cons_of_neg (by simpa using hc),
      List.dropWhile_cons_of_neg (by simpa using hc), readFrom, if_pos (not_not.mp hc),
      List.append_nil, List.append_assoc]

/-! ### The relation and the function -/

/-- What a directive without an argument reads. -/
theorem readItem_name {name rest : Bytes} (hname : ∀ c ∈ name, isalpha c = true)
    (hend : ∀ c ∈ rest.head?, isalpha c = false ∧ c ≠ openBrace) :
    readItem false (name ++ rest) = ofName name [] ∧ readRest (name ++ rest) = rest := by
  obtain ⟨htake, hdrop⟩ := span_run hname fun c hc => (hend c hc).1
  have harg : readArgument rest = ([], rest) := by
    cases rest with
    | nil => rfl
    | cons c rest => exact readArgument_none (hend c rfl).2 rest
  rw [readItem, readRest, htake, hdrop, harg]
  exact ⟨rfl, rfl⟩

/-- What a directive with a brace reads. -/
theorem readItem_brace {name t : Bytes} (hname : ∀ c ∈ name, isalpha c = true) :
    readItem false (name ++ openBrace :: t) = ofName name (readArgument (openBrace :: t)).1 ∧
      readRest (name ++ openBrace :: t) = (readArgument (openBrace :: t)).2 := by
  have hend : ∀ c ∈ (openBrace :: t).head?, isalpha c = false := by
    intro c hc
    rw [← Option.some_inj.mp hc, isalpha_openBrace]
  obtain ⟨htake, hdrop⟩ := span_run hname hend
  rw [readItem, readRest, htake, hdrop]
  exact ⟨rfl, rfl⟩

/-- A literal run and what follows it. -/
theorem span_literal {run rest : Bytes} (hrun : percent ∉ run)
    (hend : ∀ c ∈ rest.head?, c = percent) :
    (run ++ rest).takeWhile (· ≠ percent) = run ∧ (run ++ rest).dropWhile (· ≠ percent) = rest :=
  span_run (fun _ hc => decide_eq_true fun he => hrun (he ▸ hc))
    fun c hc => decide_eq_false (not_not.mpr (hend c hc))

theorem Reads.eq_readFrom {items : List FormatItem} (h : Reads p items) :
    items = readFrom false p := by
  induction h with
  | nil => rw [readFrom]
  | @literal run rest items hne hrun hend h ih =>
    obtain ⟨htake, hdrop⟩ := span_literal hrun hend
    rw [← readFrom_literal, htake, hdrop, ← ih, LogFormatter.literal,
      if_neg (by rwa [List.isEmpty_iff])]
    rfl
  | name hname hend h ih =>
    obtain ⟨hitem, hrest⟩ := readItem_name hname hend
    rw [readFrom, if_pos rfl, hitem, hrest, ← ih]
  | braces hname harg h ih =>
    obtain ⟨hitem, hrest⟩ := readItem_brace hname
    rw [readFrom, if_pos rfl, hitem, hrest, readArgument_closed harg, ← ih]
  | unclosed hname hopen =>
    obtain ⟨hitem, hrest⟩ := readItem_brace hname
    rw [readFrom, if_pos rfl, hitem, hrest, readArgument_unclosed hopen, readFrom, List.append_nil]

theorem reads_readFrom (p : Bytes) : Reads p (readFrom false p) := by
  induction p using readFrom.induct with
  | case1 =>
    rw [readFrom]
    exact .nil
  | case2 t ih =>
    obtain ⟨name, rest, hname, hrest⟩ : ∃ name rest, t.takeWhile isalpha = name ∧
        t.dropWhile isalpha = rest := ⟨_, _, rfl, rfl⟩
    have hletters : ∀ c ∈ name, isalpha c = true := fun c hc =>
      List.mem_takeWhile_imp (hname.symm ▸ hc)
    have ht : t = name ++ rest := by
      rw [← hname, ← hrest, List.takeWhile_append_dropWhile]
    rw [readFrom, if_pos rfl]
    by_cases hbrace : rest.head? = some openBrace
    · obtain ⟨u, rfl⟩ := List.head?_eq_some_iff.mp hbrace
      obtain ⟨hitem, hrest'⟩ := readItem_brace (t := u) hletters
      rw [ht, hrest'] at ih
      rw [ht, hitem, hrest']
      by_cases hclose : closeBrace ∈ u
      · obtain ⟨arg, v, rfl, harg⟩ := List.eq_append_cons_of_mem hclose
        rw [readArgument_closed harg] at ih ⊢
        exact .braces hletters harg ih
      · rw [readArgument_unclosed hclose, readFrom, List.append_nil]
        exact .unclosed hletters hclose
    · have hend : ∀ c ∈ rest.head?, isalpha c = false ∧ c ≠ openBrace := by
        intro c hc
        obtain ⟨u, rfl⟩ := List.head?_eq_some_iff.mp hc
        exact ⟨not_isalpha_of_dropWhile hrest, fun he => hbrace (he ▸ rfl)⟩
      obtain ⟨hitem, hrest'⟩ := readItem_name hletters hend
      rw [ht, hrest'] at ih
      rw [ht, hitem, hrest']
      exact .name hletters hend ih
  | case3 c t hc ih =>
    have hrun : percent ∉ c :: t.takeWhile (· ≠ percent) := by
      rw [List.mem_cons, not_or]
      refine ⟨Ne.symm hc, fun hmem => ?_⟩
      simpa using List.mem_takeWhile_imp hmem
    have hend : ∀ d ∈ (t.dropWhile (· ≠ percent)).head?, d = percent := by
      intro d hd
      have hnot := List.head?_dropWhile_not (fun c => decide (c ≠ percent)) t
      rw [Option.mem_def.mp hd] at hnot
      simpa using hnot
    have hsplit : c :: t = (c :: t.takeWhile (· ≠ percent)) ++ t.dropWhile (· ≠ percent) := by
      rw [List.cons_append, List.takeWhile_append_dropWhile]
    rw [readFrom, if_neg hc, hsplit]
    exact .literal (List.cons_ne_nil _ _) hrun hend ih

/-- **The grammar gives every pattern one reading.** -/
theorem reads_iff {items : List FormatItem} : Reads p items ↔ items = readFrom false p :=
  ⟨Reads.eq_readFrom, fun h => h ▸ reads_readFrom p⟩

/-! ### What the scanner reads -/

/-- A formatter that is made of a pattern, or given it, has the items of the reading. -/
def ReadsPattern (p : Bytes) : Prop :=
  ∃ f, create p = some f ∧ Reads p f.mItem ∧ ∀ g : LogFormatter, g.setPattern p = some f

theorem readsPattern_iff_items : ReadsPattern p ↔ Reads p (items p) := by
  rw [ReadsPattern, create_eq]
  constructor
  · rintro ⟨f, hf, h, -⟩
    rwa [← Option.some_inj.mp hf] at h
  · intro h
    exact ⟨_, rfl, h, fun g => setPattern_eq g p⟩

/-- The items of a pattern without adjacent percent signs. -/
theorem items_eq (h : NoAdjacent p) :
    items p = readFrom (decide ((sizeInt p).toNat < p.length)) (p.take (sizeInt p).toNat) := by
  have hpart : NoAdjacent (p.take (sizeInt p).toNat) := fun hadj =>
    h (hadj.trans (List.take_prefix _ p).isInfix)
  rw [items, scan_eq _ _ hpart, List.nil_append, readFrom_literal]

theorem sizeInt_toNat_lt (h : 2 ^ 31 ≤ p.length) : (sizeInt p).toNat < p.length := by
  rw [sizeInt, BitVec.toInt_eq_toNat_cond, BitVec.toNat_ofNat]
  split_ifs <;> omega

/-- **When the scanner implements the grammar**: for every pattern of less than 2^31 bytes,
and for a longer one if the part that the loops see reads as the whole. -/
theorem readsPattern_iff (h : NoAdjacent p) :
    ReadsPattern p ↔
      p.length < 2 ^ 31 ∨ Reads p (readFrom true (p.take (sizeInt p).toNat)) := by
  rw [readsPattern_iff_items, items_eq h]
  rcases lt_or_ge p.length (2 ^ 31) with hlt | hge
  · rw [sizeInt_of_lt hlt, Int.toNat_natCast, decide_eq_false (lt_irrefl _), List.take_length]
    exact iff_of_true (reads_readFrom p) (.inl hlt)
  · rw [decide_eq_true (sizeInt_toNat_lt hge)]
    exact (or_iff_right (not_lt.mpr hge)).symm

theorem readsPattern_default : ReadsPattern defaultPattern :=
  (readsPattern_iff (by decide)).mpr (.inl (by decide))

/-- `int n` is negative for a text of 2^31 bytes, and the text is lost. -/
theorem readsPattern_lost :
    NoAdjacent (List.replicate (2 ^ 31) 97) ∧ ¬ ReadsPattern (List.replicate (2 ^ 31) 97) := by
  have hsize : sizeInt (List.replicate (2 ^ 31) 97) = -2 ^ 31 := by
    rw [sizeInt, List.length_replicate]
    rfl
  have hread : ∀ n, readFrom false (List.replicate (n + 1) 97) ≠ [] := by
    intro n
    rw [List.replicate_succ, readFrom, if_neg (by decide)]
    exact List.cons_ne_nil _ _
  constructor
  · intro hadj
    have hmem : percent ∈ List.replicate (2 ^ 31) 97 := hadj.subset List.mem_cons_self
    exact absurd (List.eq_of_mem_replicate hmem) (by decide)
  · rw [readsPattern_iff_items, reads_iff, items, hsize, Int.toNat_of_nonpos (by norm_num),
      List.take_zero, scan]
    exact fun h => hread (2 ^ 31 - 1) h.symm

end LogFormatter

end Server
