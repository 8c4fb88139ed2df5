/-
The formatter of the log (logger.h, logger.cpp).

`init` goes over the pattern with an index: what is not part of a directive is
collected in `normalStr`, and behind a percent sign an inner loop reads a name and an
argument in braces.  The items that `format` prints are made from the list `vec` of the
two.

* `init` — the two loops, with the indices, the flush and the five exits of the source;
* `scan` — what they make of the part of the pattern that is left;
* `init_eq` — the one is the other, and the loops end.

`int n` is `(int)mPattern.size()`.  For a pattern of 2^31 bytes or more that is another
number, and the loops see a part of the pattern only.  `strftime` is that of the C
library, a parameter of `format`; its result in a buffer of 64 bytes is indeterminate
when the text does not fit (`none`).
-/
import AsyncServer.CString
import AsyncServer.WhileLoop

namespace Server

open CString WhileLoop

/-- `LogLevel::Level`. -/
inductive LogLevel where
  | debug
  | info
  | warning
  | error
  | fatal
  deriving DecidableEq

/-- `LogLevel::ToString`. -/
def LogLevel.toBytes : LogLevel → Bytes
  | .debug => bytes "DEBUG"
  | .info => bytes "INFO"
  | .warning => bytes "WARNING"
  | .error => bytes "ERROR"
  | .fatal => bytes "FATAL"

/-- `LogEvent`; `ss` is what has been written into the stream. -/
structure LogEvent where
  mFileName : Bytes
  ss : Bytes
  mLineNum : ℤ
  mTime : ℤ

/-! ### Items -/

/-- The classes derived from `FormatItem`. -/
inductive FormatItem where
  | message
  | level
  | fileName
  | line
  | time (mFormat : Bytes)
  | newLine
  | tab
  | string (mString : Bytes)
  deriving DecidableEq

namespace FormatItem

/-- The constructor of `TimeFormatItem`. -/
def mkTime (str : Bytes) : FormatItem :=
  .time (if str.isEmpty then bytes "%Y-%m-%d %H:%M:%S" else str)

/-- `map` of `init`. -/
def map : List (Bytes × (Bytes → FormatItem)) :=
  [(bytes "m", fun _ => .message), (bytes "p", fun _ => .level), (bytes "d", mkTime),
    (bytes "f", fun _ => .fileName), (bytes "l", fun _ => .line), (bytes "n", fun _ => .newLine),
    (bytes "T", fun _ => .tab)]

/-- The item of a directive, if its name is in `map`. -/
def ofName (name arg : Bytes) : Option FormatItem :=
  (map.find? fun e => e.1 = name).map fun e => e.2 arg

/-- The item that `init` pushes for an element of `vec`. -/
def ofElement : Bytes × Bytes × Bool → Option FormatItem
  | (str, _, false) => some (.string str)
  | (name, arg, true) => ofName name arg

/-- `format` of each class; `strftime fmt time` is the text that `fmt` stands for at the
local time `time`. -/
def format (strftime : Bytes → ℤ → Bytes) (level : LogLevel) (event : LogEvent) :
    FormatItem → Option Bytes
  | .message => some event.ss
  | .level => some level.toBytes
  | .fileName => some (cstr event.mFileName)
  | .line => some (bytes (toString event.mLineNum))
  | .time mFormat =>
    -- `char buf[64]`
    if (strftime (cstr mFormat) event.mTime).length < 64 then
      some (strftime (cstr mFormat) event.mTime)
    else none
  | .newLine => some (bytes "\n")
  | .tab => some (bytes "\t")
  | .string mString => some mString

end FormatItem

/-! ### The loops of `init` -/

/-- `isalpha` in the C locale. -/
def isalpha (c : UInt8) : Bool :=
  (65 ≤ c.toNat && c.toNat ≤ 90) || (97 ≤ c.toNat && c.toNat ≤ 122)

def percent : UInt8 := 37
def openBrace : UInt8 := 123
def closeBrace : UInt8 := 125

/-- `s[i]`. -/
def charAt (s : Bytes) (i : ℕ) : UInt8 := s[i]?.getD 0

/-- `s.substr(pos, len)`. -/
def substr (s : Bytes) (pos len : ℕ) : Bytes := (s.drop pos).take len

/-- The variables of the inner loop; `broke` is set by its `break`s. -/
structure DirectiveLoop where
  state : ℕ
  idx : ℕ
  fmtBegin : ℕ
  str : Bytes
  timeFmt : Bytes
  broke : Bool

/-- `idx < n`, unless there was a `break`. -/
def directiveCond (n : ℤ) (s : DirectiveLoop) : Bool := !s.broke && decide ((s.idx : ℤ) < n)

/-- The body of the inner loop, for the percent sign at `i`. -/
def directiveBody (mPattern : Bytes) (n : ℤ) (i : ℕ) (s : DirectiveLoop) : DirectiveLoop :=
  let c := charAt mPattern s.idx
  if s.state = 0 ∧ isalpha c = false ∧ c ≠ openBrace then
    { s with str := substr mPattern (i + 1) (s.idx - (i + 1)), broke := true }
  else if s.state = 0 ∧ c = openBrace then
    { s with
      str := substr mPattern (i + 1) (s.idx - (i + 1))
      fmtBegin := s.idx + 1
      idx := s.idx + 1
      state := 1 }
  else if s.state = 1 ∧ c = closeBrace then
    { s with
      timeFmt := substr mPattern s.fmtBegin (s.idx - s.fmtBegin)
      idx := s.idx + 1
      broke := true }
  else
    { s with
      idx := s.idx + 1
      str := if ((s.idx + 1 : ℕ) : ℤ) = n ∧ s.str.isEmpty then mPattern.drop (i + 1) else s.str }

/-- The variables of the outer loop. -/
structure ScanLoop where
  i : ℕ
  normalStr : Bytes
  vec : List (Bytes × Bytes × Bool)

/-- `if(!normalStr.empty())`, the element for it. -/
def flush (normalStr : Bytes) : List (Bytes × Bytes × Bool) :=
  if normalStr.isEmpty then [] else [(normalStr, [], false)]

/-- `i < n`. -/
def scanCond (n : ℤ) (s : ScanLoop) : Bool := decide ((s.i : ℤ) < n)

/-- The body of the outer loop, with its `i++`. -/
def scanBody (mPattern : Bytes) (n : ℤ) (s : ScanLoop) : Option ScanLoop :=
  if charAt mPattern s.i ≠ percent then
    some { s with normalStr := s.normalStr ++ [charAt mPattern s.i], i := s.i + 1 }
  else if ((s.i + 1 : ℕ) : ℤ) < n ∧ charAt mPattern (s.i + 1) = percent then
    -- the second percent sign is looked at again
    some { s with normalStr := s.normalStr ++ [percent], i := s.i + 1 }
  else
    (whileLoop (directiveCond n) (directiveBody mPattern n s.i) (n.toNat + 1)
      ⟨0, s.i + 1, 0, [], [], false⟩).map fun r =>
        { i := r.idx - 1 + 1
          normalStr := []
          vec := s.vec ++ flush s.normalStr ++ [(r.str, r.timeFmt, true)] }

/-- `LogFormatter`. -/
structure LogFormatter where
  mItem : List FormatItem
  mPattern : Bytes

/-- The names in `map` are single letters. -/
theorem FormatItem.map_names : ∀ e ∈ map, ∃ c, e.1 = [c] ∧ isalpha c = true := by
  simp [map, bytes, isalpha]

theorem FormatItem.ofName_eq_none {name : Bytes} (h : ∀ c, name = [c] → isalpha c = false)
    (arg : Bytes) : ofName name arg = none := by
  rw [ofName, Option.map_eq_none_iff, List.find?_eq_none]
  intro e he hname
  obtain ⟨c, hc, halpha⟩ := map_names e he
  exact Bool.false_ne_true ((h c (of_decide_eq_true hname ▸ hc)).symm.trans halpha)

namespace LogFormatter

open FormatItem (ofName ofElement ofName_eq_none)

/-- `(int)mPattern.size()`. -/
def sizeInt (mPattern : Bytes) : ℤ := (BitVec.ofNat 32 mPattern.length).toInt

/-- `init`. -/
def init (f : LogFormatter) : Option LogFormatter :=
  (whileLoopM (scanCond (sizeInt f.mPattern)) (scanBody f.mPattern (sizeInt f.mPattern))
      ((sizeInt f.mPattern).toNat + 1) ⟨0, [], []⟩).map fun s =>
    { f with mItem := f.mItem ++ (s.vec ++ flush s.normalStr).filterMap FormatItem.ofElement }

/-- The constructor. -/
def create (pattern : Bytes) : Option LogFormatter := init ⟨[], pattern⟩

def setPattern (f : LogFormatter) (pattern : Bytes) : Option LogFormatter :=
  init { f with mPattern := pattern, mItem := [] }

/-- The pattern that an appender starts with. -/
def defaultPattern : Bytes := bytes "%p    %d{%Y-%m-%d %H:%M:%S}     %f:%l    [%m]%n"

/-- `LogFormatter::format`. -/
def format (strftime : Bytes → ℤ → Bytes) (f : LogFormatter) (level : LogLevel)
    (event : LogEvent) : Option Bytes :=
  (f.mItem.mapM (FormatItem.format strftime level event)).map List.flatten

/-! ### What the loops make of the rest of the pattern -/

/-- What follows a name: the argument, and what is left behind it.  A brace that is not
closed takes the rest. -/
def readArgument : Bytes → Bytes × Bytes
  | [] => ([], [])
  | c :: t =>
    if c = openBrace then
      if closeBrace ∈ t then
        (t.takeWhile (· ≠ closeBrace), (t.dropWhile (· ≠ closeBrace)).tail)
      else ([], [])
    else ([], c :: t)

/-- The item of the directive behind a percent sign.  Where the loops see a part of the
pattern only (`cut`), a name that goes to its end is not the name that is looked up. -/
def readItem (cut : Bool) (t : Bytes) : Option FormatItem :=
  if cut && (t.dropWhile isalpha).isEmpty then none
  else ofName (t.takeWhile isalpha) (readArgument (t.dropWhile isalpha)).1

/-- What is left behind a directive. -/
def readRest (t : Bytes) : Bytes := (readArgument (t.dropWhile isalpha)).2

/-- What `takeWhile` and `dropWhile` make of a run and what follows it. -/
theorem span_run {q : UInt8 → Bool} {run rest : Bytes} (hrun : ∀ c ∈ run, q c = true)
    (hend : ∀ c ∈ rest.head?, q c = false) :
    (run ++ rest).takeWhile q = run ∧ (run ++ rest).dropWhile q = rest := by
  rw [List.takeWhile_append_of_pos hrun, List.dropWhile_append_of_pos hrun]
  cases rest with
  | nil => exact ⟨List.append_nil run, rfl⟩
  | cons c rest =>
    have hc : ¬ q c = true := Bool.eq_false_iff.mp (hend c rfl)
    rw [List.takeWhile_cons_of_neg hc, List.dropWhile_cons_of_neg hc]
    exact ⟨List.append_nil run, rfl⟩

theorem readArgument_none {c : UInt8} (h : c ≠ openBrace) (t : Bytes) :
    readArgument (c :: t) = ([], c :: t) := if_neg h

theorem readArgument_unclosed {t : Bytes} (h : closeBrace ∉ t) :
    readArgument (openBrace :: t) = ([], []) := by
  rw [readArgument, if_pos rfl, if_neg h]

theorem readArgument_closed {arg : Bytes} (h : closeBrace ∉ arg) (t : Bytes) :
    readArgument (openBrace :: (arg ++ closeBrace :: t)) = (arg, t) := by
  have hspan : (arg ++ closeBrace :: t).takeWhile (· ≠ closeBrace) = arg ∧
      (arg ++ closeBrace :: t).dropWhile (· ≠ closeBrace) = closeBrace :: t :=
    span_run (fun c hc => decide_eq_true fun he => h (he ▸ hc)) (by simp)
  rw [readArgument, if_pos rfl, if_pos (List.mem_append_right _ List.mem_cons_self), hspan.1,
    hspan.2]
  rfl

theorem readArgument_suffix (t : Bytes) : (readArgument t).2 <:+ t := by
  cases t with
  | nil => exact List.suffix_rfl
  | cons c t =>
    have hclosed : (t.dropWhile (· ≠ closeBrace)).tail <:+ t :=
      (List.tail_suffix _).trans (List.dropWhile_suffix _)
    rw [readArgument]
    split_ifs
    · exact hclosed.trans (List.suffix_cons c t)
    · exact List.nil_suffix
    · exact List.suffix_rfl

theorem readRest_suffix (t : Bytes) : readRest t <:+ t :=
  (readArgument_suffix _).trans (List.dropWhile_suffix _)

/-- The item for a text that is printed as it is. -/
def literal (normalStr : Bytes) : List FormatItem :=
  if normalStr.isEmpty then [] else [.string normalStr]

/-- The items of the rest of the pattern, when `normalStr` has been collected. -/
def scan (cut : Bool) (normalStr : Bytes) : Bytes → List FormatItem
  | [] => literal normalStr
  | c :: t =>
    if c ≠ percent then scan cut (normalStr ++ [c]) t
    else if t.head? = some percent then scan cut (normalStr ++ [percent]) t
    else literal normalStr ++ (readItem cut t).toList ++ scan cut [] (readRest t)
  termination_by t => t.length
  decreasing_by
    · exact Nat.lt_succ_self _
    · exact Nat.lt_succ_self _
    · exact Nat.lt_succ_of_le (readRest_suffix _).length_le

theorem filterMap_singleton (e : Bytes × Bytes × Bool) :
    [e].filterMap ofElement = (ofElement e).toList := by
  cases h : ofElement e with
  | none => rw [List.filterMap_cons_none h, List.filterMap_nil]; rfl
  | some item => rw [List.filterMap_cons_some h, List.filterMap_nil]; rfl

theorem filterMap_flush (normalStr : Bytes) :
    (flush normalStr).filterMap ofElement = literal normalStr := by
  rw [flush, literal]
  split_ifs <;> rfl

/-! ### The inner loop -/

variable {p t u v : Bytes} {m i j : ℕ}

/-- The head of what is left of the part of the pattern that the loops see. -/
theorem drop_cons {c : UInt8} (h : (p.take m).drop j = c :: t) :
    j < m ∧ charAt p j = c ∧ (p.take m).drop (j + 1) = t := by
  have hlt : j < (p.take m).length := by
    by_contra hge
    rw [List.drop_eq_nil_of_le (not_lt.mp hge)] at h
    exact List.cons_ne_nil _ _ h.symm
  rw [List.drop_eq_getElem_cons hlt] at h
  injection h with hc ht
  have hj : j < m := lt_of_lt_of_le hlt (List.length_take_le _ _)
  refine ⟨hj, ?_, ht⟩
  rw [List.getElem_take] at hc
  rw [charAt, ← hc, List.getElem?_eq_getElem, Option.getD_some]

/-- Nothing is left behind the end of that part. -/
theorem drop_eq_nil_iff (hm : m ≤ p.length) : (p.take m).drop j = [] ↔ m ≤ j := by
  rw [List.drop_eq_nil_iff, List.length_take_of_le hm]

theorem drop_append (h : (p.take m).drop j = u ++ v) : (p.take m).drop (j + u.length) = v := by
  rw [← List.drop_drop, h, List.drop_left]

theorem drop_eq_append (hm : m ≤ p.length) (h : (p.take m).drop j = t) (hj : j ≤ m) :
    p.drop j = t ++ p.drop m := by
  conv_lhs => rw [← List.take_append_drop m p]
  rw [List.drop_append_of_le_length (by rw [List.length_take]; omega), h]

/-- `substr` of the bytes that the loop has gone over. -/
theorem substr_eq (hm : m ≤ p.length) (h : (p.take m).drop j = u ++ v) (hj : j ≤ m) :
    substr p j (j + u.length - j) = u := by
  rw [substr, drop_eq_append hm h hj, Nat.add_sub_cancel_left, List.append_assoc, List.take_left]

/-- The bytes that the inner loop goes over without a change of its state. -/
def passes (state : ℕ) (c : UInt8) : Bool :=
  if state = 0 then isalpha c else decide (c ≠ closeBrace)

theorem passes_of_notMem (h : closeBrace ∉ u) : ∀ c ∈ u, passes 1 c = true := by
  intro c hc
  rw [passes, if_neg one_ne_zero, decide_eq_true_eq]
  exact fun he => h (he ▸ hc)

theorem isalpha_openBrace : isalpha openBrace = false := by decide

theorem directiveBody_pass {s : DirectiveLoop} {n : ℤ} (h : passes s.state (charAt p s.idx)) :
    directiveBody p n i s =
      { s with
        idx := s.idx + 1
        str := if ((s.idx + 1 : ℕ) : ℤ) = n ∧ s.str.isEmpty then p.drop (i + 1) else s.str } := by
  rw [directiveBody]
  rw [passes] at h
  by_cases h0 : s.state = 0
  · rw [if_pos h0] at h
    have hbrace : charAt p s.idx ≠ openBrace := by
      intro hc
      rw [hc, isalpha_openBrace] at h
      exact Bool.false_ne_true h
    rw [if_neg fun hc => Bool.false_ne_true (hc.2.1.symm.trans h), if_neg fun hc => hbrace hc.2,
      if_neg fun hc => absurd (h0.symm.trans hc.1) zero_ne_one]
  · rw [if_neg h0, decide_eq_true_eq] at h
    rw [if_neg fun hc => h0 hc.1, if_neg fun hc => h0 hc.1, if_neg fun hc => h hc.2]

/-- The loop over bytes that pass.  At the end of the pattern, and only there, an empty
`str` becomes the rest of it. -/
theorem directive_pass {state b : ℕ} {fmt : Bytes} (hm : m ≤ p.length) :
    ∀ {u : Bytes} {j : ℕ} {str : Bytes}, (p.take m).drop j = u ++ v →
      (∀ c ∈ u, passes state c = true) → ∀ k,
      whileLoop (directiveCond m) (directiveBody p m i) (u.length + k)
          ⟨state, j, b, str, fmt, false⟩ =
        whileLoop (directiveCond m) (directiveBody p m i) k
          ⟨state, j + u.length, b,
            if v = [] ∧ u ≠ [] ∧ str.isEmpty then p.drop (i + 1) else str, fmt, false⟩ := by
  intro u
  induction u with
  | nil =>
    intro j str _ _ k
    rw [if_neg fun h => h.2.1 rfl, List.length_nil, Nat.zero_add, Nat.add_zero]
  | cons c u ih =>
    intro j str h hu k
    obtain ⟨hj, hc, hdrop⟩ := drop_cons (List.cons_append ▸ h)
    have hcond : directiveCond m ⟨state, j, b, str, fmt, false⟩ = true := by
      rw [directiveCond, Bool.not_false, Bool.true_and, decide_eq_true_eq]
      exact_mod_cast hj
    have hpass : passes state (charAt p j) = true := hc ▸ hu c List.mem_cons_self
    -- the last byte of the pattern is the one with nothing behind it
    have hend : ((j + 1 : ℕ) : ℤ) = (m : ℤ) ↔ u ++ v = [] := by
      rw [← hdrop, List.drop_eq_nil_iff, List.length_take_of_le hm]
      omega
    rw [List.length_cons, show u.length + 1 + k = (u.length + k) + 1 by omega,
      whileLoop_step hcond, directiveBody_pass hpass,
      ih hdrop fun d hd => hu d (List.mem_cons_of_mem _ hd)]
    congr 2
    · omega
    · simp only [hend, List.append_eq_nil_iff]
      cases u with
      | nil => simp
      | cons d u => simp

/-- The byte at which a name ends. -/
theorem not_isalpha_of_dropWhile {c : UInt8} (h : t.dropWhile isalpha = c :: u) :
    isalpha c = false := by
  have hhead := List.head_dropWhile_not isalpha (l := t) (h ▸ List.cons_ne_nil c u)
  simpa [h] using hhead

theorem directiveCond_of_lt (s : DirectiveLoop) (hb : s.broke = false) (h : s.idx < m) :
    directiveCond m s = true := by
  rw [directiveCond, hb, Bool.not_false, Bool.true_and, decide_eq_true_eq]
  exact_mod_cast h

theorem directiveCond_of_end (s : DirectiveLoop) (h : s.broke = true ∨ m ≤ s.idx) :
    directiveCond m s = false := by
  rw [directiveCond, Bool.and_eq_false_iff, Bool.not_eq_false', decide_eq_false_iff_not]
  exact h.imp_right fun hm => by omega

/-- The loop behind an opening brace ends at the first closing one. -/
theorem closed_run {arg : Bytes} {b k : ℕ} (str : Bytes) (hm : m ≤ p.length)
    (h : (p.take m).drop j = arg ++ closeBrace :: v) (harg : closeBrace ∉ arg)
    (hk : arg.length + 2 ≤ k) :
    whileLoop (directiveCond m) (directiveBody p m i) k ⟨1, j, b, str, [], false⟩ =
      some ⟨1, j + arg.length + 1, b, str, substr p b (j + arg.length - b), true⟩ := by
  obtain ⟨hlt, hchar, -⟩ := drop_cons (drop_append h)
  rw [show k = arg.length + (k - arg.length - 2 + 2) by omega,
    directive_pass hm h (passes_of_notMem harg), if_neg fun hv => List.cons_ne_nil _ _ hv.1,
    whileLoop_step (directiveCond_of_lt _ rfl hlt), directiveBody,
    if_neg fun hs => absurd hs.1 one_ne_zero, if_neg fun hs => absurd hs.1 one_ne_zero,
    if_pos ⟨rfl, hchar⟩, whileLoop_exit (directiveCond_of_end _ (.inl rfl))]

/-- Where there is none, it takes the rest of the pattern. -/
theorem unclosed_run {b k : ℕ} (str : Bytes) (hm : m ≤ p.length) (hj : j ≤ m)
    (h : (p.take m).drop j = u) (hopen : closeBrace ∉ u) (hk : u.length + 1 ≤ k) :
    whileLoop (directiveCond m) (directiveBody p m i) k ⟨1, j, b, str, [], false⟩ =
      some ⟨1, m, b, if u ≠ [] ∧ str.isEmpty then p.drop (i + 1) else str, [], false⟩ := by
  have hend : j + u.length = m := by
    rw [← h, List.length_drop, List.length_take_of_le hm]
    omega
  have hrest : (p.take m).drop j = u ++ [] := h.trans (List.append_nil u).symm
  rw [show k = u.length + (k - u.length - 1 + 1) by omega,
    directive_pass hm hrest (passes_of_notMem hopen), hend,
    whileLoop_exit (directiveCond_of_end _ (.inr (le_refl m)))]
  simp only [true_and]

/-- The part of a directive behind its name. -/
theorem argument_run (str : Bytes) {c : UInt8} {name : Bytes} (hm : m ≤ p.length) (hij : i + 1 ≤ j)
    (hname : substr p (i + 1) (j - (i + 1)) = name) (h : (p.take m).drop j = c :: u)
    (hc : isalpha c = false) {k : ℕ} (hk : u.length + 2 ≤ k) :
    ∃ r, whileLoop (directiveCond m) (directiveBody p m i) k ⟨0, j, 0, str, [], false⟩ = some r ∧
      j ≤ r.idx ∧ r.idx ≤ m ∧ (p.take m).drop r.idx = (readArgument (c :: u)).2 ∧
      ofElement (r.str, r.timeFmt, true) = ofName name (readArgument (c :: u)).1 := by
  obtain ⟨hj, hchar, hdrop⟩ := drop_cons h
  obtain ⟨k, rfl⟩ : ∃ k', k = k' + 2 := ⟨k - 2, by omega⟩
  rw [whileLoop_step (directiveCond_of_lt _ rfl hj), directiveBody]
  by_cases hbrace : c = openBrace
  · rw [if_neg fun hb => hb.2.2 (hchar.trans hbrace), if_pos ⟨rfl, hchar.trans hbrace⟩, hbrace]
    dsimp only
    rw [hname]
    by_cases hclose : closeBrace ∈ u
    · obtain ⟨arg, v, hsplit, harg⟩ := List.eq_append_cons_of_mem hclose
      have hargs := hdrop.trans hsplit
      have hlen : arg.length + (v.length + 1) = u.length := by
        rw [hsplit, List.length_append, List.length_cons]
      obtain ⟨hlt, -, hrest⟩ := drop_cons (drop_append hargs)
      rw [hsplit, readArgument_closed harg, closed_run name hm hargs harg (by omega)]
      exact ⟨_, rfl, by dsimp only; omega, hlt, hrest,
        congrArg (ofName name) (substr_eq hm hargs hj)⟩
    · rw [readArgument_unclosed hclose, unclosed_run name hm hj hdrop hclose (by omega)]
      refine ⟨_, rfl, hj.le, le_rfl, (drop_eq_nil_iff hm).mpr le_rfl, ?_⟩
      split_ifs with hs
      · -- `str` starts with the brace, and the name is empty
        have hempty : name = [] := List.isEmpty_iff.mp hs.2
        have hpos : i + 1 = j := by
          have hnil := congrArg List.length (hname.trans hempty)
          rw [substr, List.length_take, List.length_drop, List.length_nil] at hnil
          omega
        rw [FormatItem.ofElement, hpos, drop_eq_append hm h hj.le, hempty,
          ofName_eq_none fun d hd => ?_, ofName_eq_none fun d hd => ?_]
        · exact absurd hd (List.cons_ne_nil _ _).symm
        · rw [← (List.cons_eq_cons.mp hd).1, hc]
      · rfl
  · -- the directive has no argument
    rw [if_pos ⟨rfl, hchar ▸ hc, fun hb => hbrace (hchar.symm.trans hb)⟩, readArgument_none hbrace,
      whileLoop_exit (directiveCond_of_end _ (.inl rfl))]
    exact ⟨_, rfl, le_rfl, hj.le, h, congrArg (ofName · []) hname⟩

/-- **The inner loop reads one directive**: it ends behind it, with the name and the
argument of its item. -/
theorem directive_run (hm : m ≤ p.length) (hi : i + 1 ≤ m) (h : (p.take m).drop (i + 1) = t) :
    ∃ r, whileLoop (directiveCond m) (directiveBody p m i) (m + 1) ⟨0, i + 1, 0, [], [], false⟩ =
        some r ∧ i + 1 ≤ r.idx ∧ r.idx ≤ m ∧ (p.take m).drop r.idx = readRest t ∧
      ofElement (r.str, r.timeFmt, true) = readItem (decide (m < p.length)) t := by
  obtain ⟨name, w, hsplit⟩ : ∃ name w, t.takeWhile isalpha = name ∧ t.dropWhile isalpha = w :=
    ⟨_, _, rfl, rfl⟩
  have ht : name ++ w = t := by
    rw [← hsplit.1, ← hsplit.2, List.takeWhile_append_dropWhile]
  have hlen : name.length + w.length = m - (i + 1) := by
    rw [← List.length_append, ht, ← h, List.length_drop, List.length_take_of_le hm]
  have hpass : ∀ c ∈ name, passes 0 c = true := fun c hc =>
    List.mem_takeWhile_imp (hsplit.1.symm ▸ hc)
  rw [readRest, readItem, hsplit.1, hsplit.2,
    show m + 1 = name.length + (m + 1 - name.length) by omega,
    directive_pass hm (h.trans ht.symm) hpass]
  cases w with
  | nil =>
    rw [List.length_nil] at hlen
    have hpat := drop_eq_append hm (h.trans ht.symm) hi
    rw [show m + 1 - name.length = (m - name.length) + 1 by omega,
      whileLoop_exit (directiveCond_of_end _ (.inr (by dsimp only; omega)))]
    refine ⟨_, rfl, Nat.le_add_right _ _, by dsimp only; omega, ?_, ?_⟩
    · exact (drop_eq_nil_iff hm).mpr (by dsimp only; omega)
    · rw [List.append_nil] at hpat
      by_cases hcut : m < p.length
      · -- `substr(i + 1)` goes beyond what the loops see, and is no name
        have hrest : (p.drop m).length = p.length - m := List.length_drop
        rw [decide_eq_true hcut]
        refine ofName_eq_none (fun d hd => ?_) _
        split_ifs at hd with hname
        have hpos := List.length_pos_iff.mpr hname.2.1
        have hone := congrArg List.length hd
        rw [hpat, List.length_append, hrest, List.length_singleton] at hone
        omega
      · rw [decide_eq_false hcut, Bool.false_and, if_neg Bool.false_ne_true]
        rw [List.drop_eq_nil_of_le (not_lt.mp hcut), List.append_nil] at hpat
        refine congrArg (ofName · []) ?_
        by_cases hname : name = []
        · rw [if_neg fun hc => hc.2.1 hname, hname]
        · rw [if_pos ⟨rfl, hname, rfl⟩, hpat]
  | cons c u =>
    obtain ⟨r, hr, hle, hle', hrest, hitem⟩ := argument_run (j := i + 1 + name.length) []
      hm (by omega) (substr_eq hm (h.trans ht.symm) hi) (drop_append (h.trans ht.symm))
      (not_isalpha_of_dropWhile hsplit.2) (k := m + 1 - name.length)
      (by rw [List.length_cons] at hlen; omega)
    rw [if_neg fun hc => List.cons_ne_nil _ _ hc.1, hr]
    refine ⟨r, rfl, by omega, hle', hrest, ?_⟩
    rw [hitem, List.isEmpty_cons, Bool.and_false]
    rfl

/-! ### The outer loop -/

theorem scanCond_of_lt {s : ScanLoop} (h : s.i < m) : scanCond m s = true :=
  decide_eq_true (by exact_mod_cast h)

theorem scanCond_of_end {s : ScanLoop} (h : m ≤ s.i) : scanCond m s = false :=
  decide_eq_false (by omega)

/-- **The outer loop**, from any byte of the pattern: what it adds to `vec` gives the items
of `scan`. -/
theorem scan_run (hm : m ≤ p.length) (normalStr : Bytes) :
    ∀ {i k : ℕ} (vec : List (Bytes × Bytes × Bool)), i ≤ m → (p.take m).drop i = t → m - i < k →
      ∃ s, whileLoopM (scanCond m) (scanBody p m) k ⟨i, normalStr, vec⟩ = some s ∧
        (s.vec ++ flush s.normalStr).filterMap ofElement =
          vec.filterMap ofElement ++ scan (decide (m < p.length)) normalStr t := by
  induction normalStr, t using scan.induct with
  | case1 normalStr =>
    intro i k vec hi ht hk
    have hend := (drop_eq_nil_iff hm).mp ht
    obtain ⟨k, rfl⟩ : ∃ k', k = k' + 1 := ⟨k - 1, by omega⟩
    refine ⟨_, whileLoopM_exit (scanCond_of_end hend) k, ?_⟩
    rw [List.filterMap_append, filterMap_flush, scan]
  | case2 normalStr c t hc ih =>
    intro i k vec hi ht hk
    obtain ⟨hlt, hchar, hdrop⟩ := drop_cons ht
    obtain ⟨k, rfl⟩ : ∃ k', k = k' + 1 := ⟨k - 1, by omega⟩
    have hbody : scanBody p m ⟨i, normalStr, vec⟩ = some ⟨i + 1, normalStr ++ [c], vec⟩ := by
      rw [scanBody, hchar, if_pos hc]
    rw [whileLoopM_step (scanCond_of_lt hlt) hbody, scan, if_pos hc]
    exact ih vec (by omega) hdrop (by omega)
  | case3 normalStr c t hc hnext ih =>
    intro i k vec hi ht hk
    obtain ⟨hlt, hchar, hdrop⟩ := drop_cons ht
    obtain ⟨k, rfl⟩ : ∃ k', k = k' + 1 := ⟨k - 1, by omega⟩
    obtain ⟨u, rfl⟩ : ∃ u, t = percent :: u := List.head?_eq_some_iff.mp hnext
    obtain ⟨hlt', hchar', -⟩ := drop_cons hdrop
    have hbody : scanBody p m ⟨i, normalStr, vec⟩ = some ⟨i + 1, normalStr ++ [percent], vec⟩ := by
      rw [scanBody, hchar, if_neg hc, if_pos ⟨by exact_mod_cast hlt', hchar'⟩]
    rw [whileLoopM_step (scanCond_of_lt hlt) hbody, scan, if_neg hc,
      if_pos hnext]
    exact ih vec (by omega) hdrop (by omega)
  | case4 normalStr c t hc hnext ih =>
    intro i k vec hi ht hk
    obtain ⟨hlt, hchar, hdrop⟩ := drop_cons ht
    obtain ⟨k, rfl⟩ : ∃ k', k = k' + 1 := ⟨k - 1, by omega⟩
    obtain ⟨r, hr, hle, hle', hrest, hitem⟩ := directive_run hm hlt hdrop
    have hno : ¬(((i + 1 : ℕ) : ℤ) < m ∧ charAt p (i + 1) = percent) := by
      rintro ⟨hlt', hchar'⟩
      cases t with
      | nil => exact absurd ((drop_eq_nil_iff hm).mp hdrop) (by omega)
      | cons d u => exact hnext (congrArg some ((drop_cons hdrop).2.1.symm.trans hchar'))
    have hbody : scanBody p m ⟨i, normalStr, vec⟩ =
        some ⟨r.idx, [], vec ++ flush normalStr ++ [(r.str, r.timeFmt, true)]⟩ := by
      rw [scanBody, hchar, if_neg hc, if_neg hno, Int.toNat_natCast, hr, Option.map_some,
        Nat.sub_add_cancel (by omega)]
    rw [whileLoopM_step (scanCond_of_lt hlt) hbody, scan, if_neg hc,
      if_neg hnext]
    obtain ⟨s, hs, hitems⟩ := ih (vec ++ flush normalStr ++ [(r.str, r.timeFmt, true)]) hle' hrest
      (by omega : m - r.idx < k)
    refine ⟨s, hs, ?_⟩
    rw [hitems, List.filterMap_append, List.filterMap_append, filterMap_flush, filterMap_singleton,
      hitem, List.append_assoc, List.append_assoc, List.append_assoc]

/-- The bytes that the loops see are bytes of the pattern. -/
theorem sizeInt_le (p : Bytes) : (sizeInt p).toNat ≤ p.length := by
  have hmod := Nat.mod_le p.length (2 ^ 32)
  rw [sizeInt, BitVec.toInt_eq_toNat_cond, BitVec.toNat_ofNat]
  split_ifs <;> omega

theorem sizeInt_of_lt (h : p.length < 2 ^ 31) : sizeInt p = p.length := by
  rw [sizeInt, BitVec.toInt_eq_toNat_cond, BitVec.toNat_ofNat,
    Nat.mod_eq_of_lt (h.trans (by norm_num)), if_pos (by omega)]

/-- The items that the loops make of a pattern. -/
def items (p : Bytes) : List FormatItem :=
  scan (decide ((sizeInt p).toNat < p.length)) [] (p.take (sizeInt p).toNat)

/-- **`init` ends, with the items of `scan`** behind those that the formatter has. -/
theorem init_eq (f : LogFormatter) :
    f.init = some { f with mItem := f.mItem ++ items f.mPattern } := by
  rw [init]
  rcases lt_or_ge (sizeInt f.mPattern) 0 with hneg | hpos
  · -- the loop does not run
    have hcond : scanCond (sizeInt f.mPattern) ⟨0, [], []⟩ = false :=
      decide_eq_false (not_lt.mpr hneg.le)
    rw [whileLoopM_exit hcond, items, Int.toNat_of_nonpos hneg.le, List.take_zero, scan]
    rfl
  · obtain ⟨s, hs, hitems⟩ := scan_run (sizeInt_le f.mPattern) [] [] (Nat.zero_le _) rfl
      (Nat.lt_succ_of_le (Nat.sub_le _ 0))
    rw [Int.toNat_of_nonneg hpos] at hs
    rw [hs, Option.map_some, hitems]
    rfl

theorem create_eq (p : Bytes) : create p = some ⟨items p, p⟩ := init_eq _

theorem setPattern_eq (f : LogFormatter) (p : Bytes) : f.setPattern p = some ⟨items p, p⟩ :=
  init_eq _

end LogFormatter

end Server
