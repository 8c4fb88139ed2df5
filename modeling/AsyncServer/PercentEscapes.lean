/-
Whether a text can be written into a pattern by doubling its percent signs.

The scanner takes `%%` for a percent sign, and then goes on at the second one.  That one
starts a directive if no third follows: it swallows the letters behind it and an argument
in braces, and a run of percent signs comes out one short of its doubled length.

* `output_scan_of_calm` — where no percent sign stands before a letter or an opening
  brace, the text printed is `collapse` of the pattern;
* `weight_scan` — elsewhere something is lost: the text has fewer letters and opening
  braces than the pattern, whatever the directives print of an empty event;
* `escapes_iff` — the texts that come out as they are.
-/
import AsyncServer.LogPattern

namespace Server

open CString

namespace LogFormatter

open FormatItem (map ofName ofName_eq_none)

/-- Every percent sign of the text doubled. -/
def esc : Bytes → Bytes
  | [] => []
  | c :: s => if c = percent then percent :: percent :: esc s else c :: esc s

/-- A byte that a directive takes, when it stands behind the percent sign. -/
def takes (c : UInt8) : Bool := isalpha c || decide (c = openBrace)

/-- No percent sign stands before a byte that a directive takes. -/
def Calm (t : Bytes) : Prop := ∀ d, [percent, d] <:+: t → takes d = false

/-- The letters and opening braces of a text. -/
def weight (t : Bytes) : ℕ := t.countP takes

/-- A percent sign stays if another one follows. -/
def collapse : Bytes → Bytes
  | [] => []
  | c :: t => if c = percent ∧ t.head? ≠ some percent then collapse t else c :: collapse t

variable {s t u : Bytes} {c d : UInt8}

theorem pair_infix_cons {a : UInt8} :
    [a, d] <:+: c :: t ↔ a = c ∧ t.head? = some d ∨ [a, d] <:+: t := by
  rw [List.infix_cons_iff, List.cons_prefix_cons]
  refine or_congr_left (and_congr_right fun _ => ?_)
  cases t with
  | nil => simp
  | cons e t => simp [List.cons_prefix_cons, eq_comm]

theorem calm_cons :
    Calm (c :: t) ↔ (c = percent → ∀ d ∈ t.head?, takes d = false) ∧ Calm t := by
  constructor
  · intro h
    exact ⟨fun hc d hd => h d (pair_infix_cons.mpr (.inl ⟨hc.symm, hd⟩)),
      fun d hd => h d (pair_infix_cons.mpr (.inr hd))⟩
  · rintro ⟨hhead, htail⟩ d hd
    rcases pair_infix_cons.mp hd with ⟨hc, hd⟩ | hd
    · exact hhead hc.symm d hd
    · exact htail d hd

theorem noAdjacent_cons :
    NoAdjacent (c :: t) ↔ (c = percent → t.head? ≠ some percent) ∧ NoAdjacent t := by
  rw [NoAdjacent, NoAdjacent, pair_infix_cons, not_or, not_and, eq_comm]

/-! ### Doubled percent signs -/

theorem esc_percent (s : Bytes) : esc (percent :: s) = percent :: percent :: esc s := if_pos rfl

theorem esc_cons (h : c ≠ percent) (s : Bytes) : esc (c :: s) = c :: esc s := if_neg h

theorem head?_esc (s : Bytes) : (esc s).head? = s.head? := by
  cases s with
  | nil => rfl
  | cons c s =>
    by_cases hc : c = percent
    · rw [hc, esc_percent]; rfl
    · rw [esc_cons hc]; rfl

theorem weight_cons (c : UInt8) (t : Bytes) :
    weight (c :: t) = weight t + if takes c then 1 else 0 := List.countP_cons

theorem weight_append (s t : Bytes) : weight (s ++ t) = weight s + weight t := List.countP_append

theorem takes_percent : takes percent = false := by decide

theorem weight_esc (s : Bytes) : weight (esc s) = weight s := by
  induction s with
  | nil => rfl
  | cons c s ih =>
    by_cases hc : c = percent
    · rw [hc, esc_percent, weight_cons, weight_cons, weight_cons, takes_percent, ih]
      rfl
    · rw [esc_cons hc, weight_cons, weight_cons, ih]

theorem length_esc_le (s : Bytes) : (esc s).length ≤ 2 * s.length := by
  induction s with
  | nil => exact le_rfl
  | cons c s ih =>
    by_cases hc : c = percent
    · rw [hc, esc_percent, List.length_cons, List.length_cons, List.length_cons]
      omega
    · rw [esc_cons hc, List.length_cons, List.length_cons]
      omega

theorem calm_esc : Calm (esc s) ↔ Calm s := by
  induction s with
  | nil => exact Iff.rfl
  | cons c s ih =>
    by_cases hc : c = percent
    · rw [hc, esc_percent, calm_cons, calm_cons, calm_cons, head?_esc, ih]
      refine and_iff_right fun _ d hd => ?_
      rw [← Option.some_inj.mp hd, takes_percent]
    · rw [esc_cons hc, calm_cons, calm_cons, head?_esc, ih]

/-- A doubled text falls apart at any byte that is no percent sign. -/
theorem esc_eq_append (hc : c ≠ percent) :
    ∀ {s a b : Bytes}, esc s = a ++ c :: b → ∃ x y, esc x = a ∧ esc y = b := by
  intro s
  induction s with
  | nil =>
    intro a b h
    exact absurd h.symm (List.append_ne_nil_of_right_ne_nil _ (List.cons_ne_nil _ _))
  | cons e s ih =>
    intro a b h
    by_cases he : e = percent
    · rw [he, esc_percent] at h
      rcases a with _ | ⟨a₁, _ | ⟨a₂, a⟩⟩
      · exact absurd (List.cons.inj h).1.symm hc
      · exact absurd (List.cons.inj (List.cons.inj h).2).1.symm hc
      · obtain ⟨h₁, h⟩ := List.cons.inj h
        obtain ⟨h₂, h⟩ := List.cons.inj h
        obtain ⟨x, y, hx, hy⟩ := ih h
        exact ⟨percent :: x, y, by rw [esc_percent, hx, ← h₁, ← h₂], hy⟩
    · rw [esc_cons he] at h
      rcases a with _ | ⟨a₁, a⟩
      · exact ⟨[], s, rfl, (List.cons.inj h).2⟩
      · obtain ⟨h₁, h⟩ := List.cons.inj h
        obtain ⟨x, y, hx, hy⟩ := ih h
        exact ⟨e :: x, y, by rw [esc_cons he, hx, h₁], hy⟩

/-! ### Runs of percent signs -/

theorem collapse_cons (h : c ≠ percent) (t : Bytes) : collapse (c :: t) = c :: collapse t :=
  if_neg fun hc => h hc.1

theorem collapse_single (h : t.head? ≠ some percent) : collapse (percent :: t) = collapse t :=
  if_pos ⟨rfl, h⟩

theorem collapse_run (h : t.head? = some percent) :
    collapse (percent :: t) = percent :: collapse t := if_neg fun hc => hc.2 h

theorem length_collapse_le (t : Bytes) : (collapse t).length ≤ t.length := by
  induction t with
  | nil => exact le_rfl
  | cons c t ih =>
    rw [collapse]
    split_ifs
    · exact ih.trans (Nat.le_succ _)
    · exact Nat.succ_le_succ ih

/-- Doubling keeps the end of a C string. -/
theorem cstr_esc (s : Bytes) : cstr (esc s) = esc (cstr s) := by
  induction s with
  | nil => rfl
  | cons c s ih =>
    rw [cstr] at ih
    by_cases hc : c = percent
    · subst hc
      rw [esc_percent, cstr, cstr, List.takeWhile_cons_of_pos (by decide),
        List.takeWhile_cons_of_pos (by decide), List.takeWhile_cons_of_pos (by decide), ih,
        esc_percent]
      rfl
    · rw [esc_cons hc, cstr, cstr]
      by_cases h0 : c = 0
      · rw [List.takeWhile_cons_of_neg (by simpa using h0),
          List.takeWhile_cons_of_neg (by simpa using h0)]
        rfl
      · rw [List.takeWhile_cons_of_pos (by simpa using h0),
          List.takeWhile_cons_of_pos (by simpa using h0), ih, esc_cons hc]
        rfl

/-- Runs of percent signs come out longer than they were. -/
theorem length_collapse_esc (s : Bytes) :
    s.length ≤ (collapse (esc s)).length ∧
      ((collapse (esc s)).length = s.length → NoAdjacent s) := by
  induction s with
  | nil => exact ⟨le_rfl, fun _ => of_decide_eq_true rfl⟩
  | cons c s ih =>
    by_cases hc : c = percent
    · subst hc
      rw [esc_percent, collapse_run rfl, List.length_cons, List.length_cons]
      by_cases hnext : s.head? = some percent
      · rw [collapse_run ((head?_esc s).trans hnext), List.length_cons]
        exact ⟨by omega, fun h => by omega⟩
      · rw [collapse_single (by rwa [head?_esc]), noAdjacent_cons]
        exact ⟨by omega, fun h => ⟨fun _ => hnext, ih.2 (by omega)⟩⟩
    · rw [esc_cons hc, collapse_cons hc, List.length_cons, List.length_cons, noAdjacent_cons]
      exact ⟨by omega, fun h => ⟨fun he => absurd he hc, ih.2 (by omega)⟩⟩

theorem collapse_esc (h : NoAdjacent s) : collapse (esc s) = s := by
  induction s with
  | nil => rfl
  | cons c s ih =>
    obtain ⟨hnext, htail⟩ := noAdjacent_cons.mp h
    by_cases hc : c = percent
    · subst hc
      rw [esc_percent, collapse_run rfl, collapse_single (by rw [head?_esc]; exact hnext rfl),
        ih htail]
    · rw [esc_cons hc, collapse_cons hc, ih htail]

/-! ### What the items print -/

section Output

variable {strftime : Bytes → ℤ → Bytes} {level : LogLevel} {event : LogEvent}

/-- The text of a list of items. -/
def output (strftime : Bytes → ℤ → Bytes) (level : LogLevel) (event : LogEvent)
    (items : List FormatItem) : Option Bytes :=
  (items.mapM (FormatItem.format strftime level event)).map List.flatten

theorem output_cons (item : FormatItem) (items : List FormatItem) :
    output strftime level event (item :: items) =
      (item.format strftime level event).bind fun x =>
        (output strftime level event items).map (x ++ ·) := by
  rw [output, output, List.mapM_cons]
  cases item.format strftime level event with
  | none => rfl
  | some x =>
    cases items.mapM (FormatItem.format strftime level event) <;> rfl

theorem output_singleton (item : FormatItem) :
    output strftime level event [item] = item.format strftime level event := by
  rw [output_cons]
  cases item.format strftime level event with
  | none => rfl
  | some x => exact congrArg some (List.append_nil x)

theorem output_append (a b : List FormatItem) :
    output strftime level event (a ++ b) =
      (output strftime level event a).bind fun x =>
        (output strftime level event b).map (x ++ ·) := by
  induction a with
  | nil =>
    rw [List.nil_append]
    cases output strftime level event b <;> rfl
  | cons item a ih =>
    rw [List.cons_append, output_cons, output_cons, ih]
    cases item.format strftime level event with
    | none => rfl
    | some x =>
      cases output strftime level event a with
      | none => rfl
      | some y =>
        cases output strftime level event b with
        | none => rfl
        | some z => exact congrArg some (List.append_assoc x y z).symm

theorem output_literal (normalStr : Bytes) :
    output strftime level event (literal normalStr) = some normalStr := by
  rw [literal]
  split_ifs with h
  · rw [List.isEmpty_iff.mp h]
    rfl
  · exact congrArg some (List.append_nil normalStr)

/-- The text with and without the level. -/
theorem length_output_level {items : List FormatItem} {a b : Bytes}
    (ha : output strftime .debug event items = some a)
    (hb : output strftime .info event items = some b) :
    a.length = b.length + items.count .level := by
  induction items generalizing a b with
  | nil =>
    rw [← Option.some_inj.mp ha, ← Option.some_inj.mp hb]
    rfl
  | cons item items ih =>
    rw [output_cons, Option.bind_eq_some_iff] at ha hb
    obtain ⟨x, hx, ha⟩ := ha
    obtain ⟨y, hy, hb⟩ := hb
    rw [Option.map_eq_some_iff] at ha hb
    obtain ⟨a, ha, rfl⟩ := ha
    obtain ⟨b, hb, rfl⟩ := hb
    have hrest := ih ha hb
    rw [List.length_append, List.length_append, List.count_cons]
    by_cases hitem : item = .level
    · subst hitem
      rw [← Option.some_inj.mp hx, ← Option.some_inj.mp hy]
      simp [LogLevel.toBytes, bytes]
      omega
    · have hsame : x = y := by
        cases item with
        | level => exact absurd rfl hitem
        | _ => exact Option.some_inj.mp (hx.symm.trans hy)
      rw [if_neg (by simpa using hitem), hsame]
      omega

/-! ### A text without directives -/

/-- Behind a percent sign of a calm text there is no directive. -/
theorem readItem_calm (cut : Bool) (h : ∀ d ∈ t.head?, takes d = false) :
    readItem cut t = none ∧ readRest t = t := by
  have hnone : ofName [] (readArgument t).1 = none :=
    ofName_eq_none (fun c hc => absurd hc.symm (List.cons_ne_nil _ _)) _
  rw [readItem, readRest]
  cases t with
  | nil => exact ⟨by rw [List.takeWhile_nil, List.dropWhile_nil, hnone, ite_self], rfl⟩
  | cons d t =>
    have hd : isalpha d = false ∧ d ≠ openBrace := by
      simpa [takes] using h d rfl
    rw [List.takeWhile_cons_of_neg (by rw [hd.1]; exact Bool.false_ne_true),
      List.dropWhile_cons_of_neg (by rw [hd.1]; exact Bool.false_ne_true), hnone, ite_self,
      readArgument_none hd.2]
    exact ⟨rfl, rfl⟩

/-- **What is printed for a calm pattern.** -/
theorem output_scan_of_calm (cut : Bool) (normalStr : Bytes) (h : Calm t) :
    output strftime level event (scan cut normalStr t) = some (normalStr ++ collapse t) := by
  induction normalStr, t using scan.induct with
  | case1 normalStr =>
    rw [scan, output_literal, collapse, List.append_nil]
  | case2 normalStr c t hc ih =>
    rw [scan, if_pos hc, ih (calm_cons.mp h).2, collapse_cons hc, List.append_assoc,
      List.singleton_append]
  | case3 normalStr c t hc hnext ih =>
    rw [scan, if_neg hc, if_pos hnext, ih (calm_cons.mp h).2, not_not.mp hc, collapse_run hnext,
      List.append_assoc, List.singleton_append]
  | case4 normalStr c t hc hnext ih =>
    obtain ⟨hhead, htail⟩ := calm_cons.mp h
    obtain ⟨hitem, hrest⟩ := readItem_calm cut (hhead (not_not.mp hc))
    rw [hrest] at ih
    rw [scan, if_neg hc, if_neg hnext, hitem, hrest, Option.toList_none, List.append_nil,
      output_append, output_literal, ih htail, not_not.mp hc, collapse_single hnext]
    rfl

/-! ### A text with directives -/

theorem weight_readArgument (t : Bytes) :
    weight (readArgument t).1 + weight (readArgument t).2 ≤ weight t ∧
      (t.head? = some openBrace →
        weight (readArgument t).1 + weight (readArgument t).2 < weight t) := by
  cases t with
  | nil => exact ⟨le_rfl, fun h => absurd h (Option.some_ne_none _).symm⟩
  | cons c t =>
    by_cases hc : c = openBrace
    · subst hc
      have htakes : weight (openBrace :: t) = weight t + 1 := weight_cons _ _
      rw [htakes]
      suffices h : weight (readArgument (openBrace :: t)).1 +
          weight (readArgument (openBrace :: t)).2 ≤ weight t from ⟨by omega, fun _ => by omega⟩
      by_cases hclose : closeBrace ∈ t
      · obtain ⟨arg, v, rfl, harg⟩ := List.eq_append_cons_of_mem hclose
        rw [readArgument_closed harg, weight_append, weight_cons]
        exact Nat.add_le_add_left (Nat.le_add_right _ _) _
      · rw [readArgument_unclosed hclose]
        exact Nat.zero_le _
    · rw [readArgument_none hc]
      refine ⟨(Nat.zero_add _).le, fun h => absurd (Option.some_inj.mp h) hc⟩

/-- The argument of a directive in a doubled text is a doubled text. -/
theorem readArgument_esc (h : t <:+: esc s) : ∃ u, (readArgument t).1 = esc u := by
  cases t with
  | nil => exact ⟨[], rfl⟩
  | cons c t =>
    by_cases hc : c = openBrace
    · subst hc
      by_cases hclose : closeBrace ∈ t
      · obtain ⟨arg, v, rfl, harg⟩ := List.eq_append_cons_of_mem hclose
        obtain ⟨a, b, hab⟩ := h
        obtain ⟨x, y, -, hy⟩ := esc_eq_append (c := openBrace) (by decide)
          (s := s) (a := a) (b := arg ++ closeBrace :: (v ++ b)) (by rw [← hab]; simp)
        obtain ⟨u, w, hu, -⟩ := esc_eq_append (c := closeBrace) (by decide) hy
        exact ⟨u, by rw [readArgument_closed harg, hu]⟩
      · exact ⟨[], by rw [readArgument_unclosed hclose]; rfl⟩
    · exact ⟨[], by rw [readArgument_none hc]; rfl⟩

/-- An event with nothing in it. -/
def emptyEvent : LogEvent := ⟨[], [], 0, 0⟩

/-- The format of a time item without an argument. -/
def defaultTime : Bytes := bytes "%Y-%m-%d %H:%M:%S"

/-- What the formats in question stand for: `%%` for a percent sign, other bytes for
themselves, and the default format for a date and a time in digits. -/
structure Formats (strftime : Bytes → ℤ → Bytes) : Prop where
  doubled : ∀ u time, (0 : UInt8) ∉ u → strftime (esc u) time = u
  numeric : ∀ time, ∀ c ∈ strftime defaultTime time, takes c = false

/-- An item prints no more letters and braces of the empty event than its argument has. -/
theorem weight_item (hf : Formats strftime) {name arg x : Bytes}
    {item : FormatItem} (harg : arg = esc u) (hitem : ofName name arg = some item)
    (hlevel : item ≠ .level) (hx : item.format strftime level emptyEvent = some x) :
    weight x ≤ weight arg := by
  obtain ⟨e, he, rfl⟩ := Option.map_eq_some_iff.mp hitem
  have hmem := List.mem_of_find?_eq_some he
  simp only [map, List.mem_cons, List.not_mem_nil, or_false] at hmem
  rcases hmem with rfl | rfl | rfl | hmem
  · rw [← Option.some_inj.mp hx]
    exact Nat.zero_le _
  · exact absurd rfl hlevel
  · -- the time, in the default format or in the one of the argument
    obtain ⟨-, hx⟩ := Option.ite_none_right_eq_some.mp hx
    rw [← Option.some_inj.mp hx]
    split_ifs with hempty
    · refine le_of_eq_of_le (List.countP_eq_zero.mpr fun c hc => ?_) (Nat.zero_le _)
      exact Bool.eq_false_iff.mp (hf.numeric _ c hc)
    · rw [harg, cstr_esc, hf.doubled _ _ (zero_notMem_cstr u), weight_esc]
      exact (List.takeWhile_sublist _).countP_le
  · -- no other item prints a letter of the empty event
    rcases hmem with rfl | rfl | rfl | rfl <;> rw [← Option.some_inj.mp hx] <;> exact Nat.zero_le _

/-- What the item of a directive prints, against what the directive takes. -/
theorem weight_readItem (hf : Formats strftime) {cut : Bool} {x : Bytes}
    (ht : t <:+: esc s) (hlevel : .level ∉ (readItem cut t).toList)
    (hx : output strftime level emptyEvent (readItem cut t).toList = some x) :
    weight x + weight (readRest t) ≤ weight t ∧
      ((∃ d ∈ t.head?, takes d = true) → weight x + weight (readRest t) < weight t) := by
  obtain ⟨name, w, hname, hw⟩ : ∃ name w, t.takeWhile isalpha = name ∧
      t.dropWhile isalpha = w := ⟨_, _, rfl, rfl⟩
  have hsplit : name ++ w = t := by
    rw [← hname, ← hw, List.takeWhile_append_dropWhile]
  have hprint : weight x ≤ weight (readArgument w).1 := by
    obtain ⟨u, hu⟩ := readArgument_esc ((List.dropWhile_suffix isalpha).isInfix.trans ht)
    cases hitem : readItem cut t with
    | none =>
      rw [hitem] at hx
      rw [← Option.some_inj.mp hx]
      exact Nat.zero_le _
    | some item =>
      rw [hitem, Option.toList_some, output_singleton] at hx
      rw [hitem, Option.toList_some, List.mem_singleton] at hlevel
      rw [readItem, hname, hw, Option.ite_none_left_eq_some] at hitem
      exact weight_item hf (hw ▸ hu) hitem.2 (Ne.symm hlevel) hx
  have harg := weight_readArgument w
  have hletters : weight name = name.length := by
    refine List.countP_eq_length.mpr fun c hc => ?_
    have halpha : isalpha c = true := List.mem_takeWhile_imp (hname.symm ▸ hc)
    rw [takes, halpha, Bool.true_or]
  rw [readRest, hw, ← hsplit, weight_append, hletters]
  refine ⟨by omega, ?_⟩
  rintro ⟨d, hd, htakes⟩
  cases name with
  | cons c name => rw [List.length_cons]; omega
  | nil =>
    have hbrace : w.head? = some openBrace := by
      rw [List.nil_append] at hd
      obtain ⟨v, rfl⟩ := List.head?_eq_some_iff.mp hd
      have hopen : d = openBrace := by
        simpa [takes, not_isalpha_of_dropWhile hw] using htakes
      rw [hopen]
      rfl
    have := harg.2 hbrace
    omega

/-- **A text loses letters or braces in every directive**, whatever is printed for it. -/
theorem weight_scan (hf : Formats strftime) (cut : Bool) (normalStr : Bytes) {o : Bytes}
    (ht : t <:+: esc s) (hlevel : .level ∉ scan cut normalStr t)
    (ho : output strftime level emptyEvent (scan cut normalStr t) = some o) :
    weight o ≤ weight normalStr + weight t ∧
      (¬ Calm t → weight o < weight normalStr + weight t) := by
  induction normalStr, t using scan.induct generalizing o with
  | case1 normalStr =>
    rw [scan, output_literal, Option.some_inj] at ho
    rw [← ho]
    exact ⟨Nat.le_add_right _ _, fun h => absurd (fun d hd => by simp at hd) h⟩
  | case2 normalStr c t hc ih =>
    rw [scan, if_pos hc] at ho hlevel
    obtain ⟨hle, hlt⟩ := ih ((List.suffix_cons c t).isInfix.trans ht) hlevel ho
    rw [weight_append] at hle hlt
    have hcons := weight_append [c] t
    rw [calm_cons, not_and_or, ← List.singleton_append, hcons]
    refine ⟨by omega, fun h => ?_⟩
    have := hlt (h.resolve_left fun h => h fun he => absurd he hc)
    omega
  | case3 normalStr c t hc hnext ih =>
    rw [scan, if_neg hc, if_pos hnext] at ho hlevel
    obtain ⟨hle, hlt⟩ := ih ((List.suffix_cons c t).isInfix.trans ht) hlevel ho
    rw [weight_append] at hle hlt
    have hcons := weight_append [c] t
    rw [calm_cons, not_and_or, ← List.singleton_append, hcons, not_not.mp hc]
    refine ⟨by omega, fun h => ?_⟩
    have := hlt (h.resolve_left fun h => h fun _ d hd => ?_)
    · omega
    · rw [← Option.some_inj.mp (hnext.symm.trans hd), takes_percent]
  | case4 normalStr c t hc hnext ih =>
    rw [scan, if_neg hc, if_neg hnext] at ho hlevel
    rw [output_append, output_append, output_literal, Option.bind_some,
      Option.bind_eq_some_iff] at ho
    obtain ⟨a, ha, ho⟩ := ho
    obtain ⟨x, hx, rfl⟩ := Option.map_eq_some_iff.mp ha
    obtain ⟨y, hy, rfl⟩ := Option.map_eq_some_iff.mp ho
    have ht' : t <:+: esc s := (List.suffix_cons c t).isInfix.trans ht
    rw [List.mem_append, List.mem_append, not_or, not_or] at hlevel
    obtain ⟨hle, hlt⟩ := ih ((readRest_suffix t).isInfix.trans ht') hlevel.2 hy
    obtain ⟨hitem, hdir⟩ := weight_readItem hf ht' hlevel.1.2 hx
    rw [weight_append, weight_append, weight_cons, not_not.mp hc, takes_percent]
    rw [show weight [] = 0 from rfl] at hle hlt
    refine ⟨by omega, fun h => ?_⟩
    by_cases hhead : ∃ d ∈ t.head?, takes d = true
    · have := hdir hhead
      omega
    · -- no directive here, so there is one further on
      have hnone : ∀ d ∈ t.head?, takes d = false := fun d hd =>
        Bool.eq_false_iff.mpr fun htakes => hhead ⟨d, hd, htakes⟩
      have hcalm : ¬ Calm t := fun ht => h (calm_cons.mpr ⟨fun _ => hnone, ht⟩)
      rw [(readItem_calm cut hnone).2] at hlt hitem
      have := hlt hcalm
      omega

/-- What the loops see of a long doubled text is less than the text. -/
theorem sizeInt_esc_lt (h : 2 ^ 31 ≤ (esc s).length) : (sizeInt (esc s)).toNat < s.length := by
  have hlen := length_esc_le s
  rw [sizeInt, BitVec.toInt_eq_toNat_cond, BitVec.toNat_ofNat]
  split_ifs <;> omega

/-- What a formatter prints that is made of a pattern. -/
theorem create_format (p : Bytes) :
    ((create p).bind fun f => f.format strftime level event) =
      output strftime level event (items p) := by
  rw [create_eq, Option.bind_some]
  rfl

/-- **When a doubled text comes out as it was**: a percent sign of it stands at the end, or
before a byte that is no percent sign, no letter and no opening brace. -/
theorem escapes_iff (hf : Formats strftime) (s : Bytes) :
    (∀ level event, ((create (esc s)).bind fun f => f.format strftime level event) = some s) ↔
      (esc s).length < 2 ^ 31 ∧
        ∀ d, [percent, d] <:+: s → d ≠ percent ∧ isalpha d = false ∧ d ≠ openBrace := by
  simp only [create_format]
  have hcond : (∀ d, [percent, d] <:+: s → d ≠ percent ∧ isalpha d = false ∧ d ≠ openBrace) ↔
      NoAdjacent s ∧ Calm s := by
    constructor
    · intro h
      refine ⟨fun hadj => (h percent hadj).1 rfl, fun d hd => ?_⟩
      obtain ⟨-, halpha, hbrace⟩ := h d hd
      rw [takes, halpha, decide_eq_false hbrace]
      rfl
    · rintro ⟨hadj, hcalm⟩ d hd
      refine ⟨fun he => hadj (he ▸ hd), ?_⟩
      simpa [takes] using hcalm d hd
  rw [hcond]
  constructor
  · intro h
    have hlevel : .level ∉ items (esc s) := by
      have hlen := length_output_level (h .debug emptyEvent) (h .info emptyEvent)
      exact List.count_eq_zero.mp (by omega)
    have hout := h .debug emptyEvent
    rw [items] at hout hlevel
    have hseen := List.take_prefix (sizeInt (esc s)).toNat (esc s)
    by_cases hcalm : Calm ((esc s).take (sizeInt (esc s)).toNat)
    · rw [output_scan_of_calm _ _ hcalm, List.nil_append, Option.some_inj] at hout
      have hlt : (esc s).length < 2 ^ 31 := by
        by_contra hge
        have hle := length_collapse_le ((esc s).take (sizeInt (esc s)).toNat)
        have hcut := sizeInt_esc_lt (not_lt.mp hge)
        rw [hout, List.length_take] at hle
        omega
      rw [sizeInt_of_lt hlt, Int.toNat_natCast, List.take_length] at hcalm hout
      exact ⟨hlt, (length_collapse_esc s).2 (congrArg List.length hout), calm_esc.mp hcalm⟩
    · -- something is lost, and nothing makes up for it
      have hlost := (weight_scan hf _ _ hseen.isInfix hlevel hout).2 hcalm
      have hle : weight ((esc s).take (sizeInt (esc s)).toNat) ≤ weight (esc s) :=
        hseen.sublist.countP_le
      rw [show weight [] = 0 from rfl, Nat.zero_add] at hlost
      rw [weight_esc] at hle
      exact absurd hlost (not_lt.mpr hle)
  · rintro ⟨hlt, hadj, hcalm⟩ level event
    have hsize := sizeInt_of_lt hlt
    rw [items, hsize, Int.toNat_natCast, List.take_length,
      output_scan_of_calm _ _ (calm_esc.mpr hcalm), collapse_esc hadj]
    rfl

end Output

/-- A conversion at the time 0, in UTC. -/
def epochConversion (c : UInt8) : Bytes :=
  if c = percent then [percent]
  else if [c] = bytes "Y" then bytes "1970"
  else if [c] = bytes "m" ∨ [c] = bytes "d" then bytes "01"
  else if [c] = bytes "H" ∨ [c] = bytes "M" ∨ [c] = bytes "S" then bytes "00"
  else []

/-- `strftime` at the time 0, for the conversions of the default format. -/
def epochText : Bytes → Bytes
  | [] => []
  | [c] => [c]
  | c :: d :: t =>
    if c = percent then epochConversion d ++ epochText t else c :: epochText (d :: t)

theorem epochText_esc (s : Bytes) : epochText (esc s) = s := by
  induction s with
  | nil => rfl
  | cons c s ih =>
    by_cases hc : c = percent
    · subst hc
      rw [esc_percent, epochText, if_pos rfl, ih]
      rfl
    · rw [esc_cons hc]
      cases hs : esc s with
      | nil => rw [← ih, hs]; rfl
      | cons d t => rw [epochText, if_neg hc, ← hs, ih]

theorem formats_epochText : Formats fun fmt _ => epochText fmt :=
  ⟨fun u _ _ => epochText_esc u, fun _ => by decide⟩

theorem escapes_load :
    (∀ level event, ((create (esc (bytes "load: 90% {max}"))).bind fun f =>
        f.format (fun fmt _ => epochText fmt) level event) = some (bytes "load: 90% {max}")) ↔
      (esc (bytes "load: 90% {max}")).length < 2 ^ 31 ∧
        ∀ d, [percent, d] <:+: bytes "load: 90% {max}" →
          d ≠ percent ∧ isalpha d = false ∧ d ≠ openBrace :=
  escapes_iff formats_epochText _

/-- `%%m` prints a percent sign and the message. -/
theorem escape_directive :
    esc (bytes "%m") = bytes "%%m" ∧
      ((create (bytes "%%m")).bind fun f =>
          f.format (fun fmt _ => epochText fmt) .info ⟨[], bytes "hello", 0, 0⟩) =
        some (bytes "%hello") ∧
      ¬ ∀ level event, ((create (esc (bytes "%m"))).bind fun f =>
        f.format (fun fmt _ => epochText fmt) level event) = some (bytes "%m") := by
  have hrun : ((create (bytes "%%m")).bind fun f =>
      f.format (fun fmt _ => epochText fmt) .info ⟨[], bytes "hello", 0, 0⟩) =
        some (bytes "%hello") := by
    decide
  refine ⟨rfl, hrun, fun h => ?_⟩
  have hsame := (h .info ⟨[], bytes "hello", 0, 0⟩).symm.trans hrun
  exact absurd hsame (by decide)

end LogFormatter

end Server
