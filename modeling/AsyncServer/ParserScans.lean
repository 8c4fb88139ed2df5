/-
The scans over names and values.

Where a name or a value is of no interest, the inner loops of `http_parser_execute` scan
for its end.  `nameLoop` and `valueLoop` are the same loops without the scans.

* `headerFieldLoop_eq`, `headerValueLoop_eq` — the scans pass what the loops would pass;
  a scan over `max_header_size` bytes of a value leaves one byte unseen, and then the
  header is too long;
* `turn_eq_plainTurn` — so they make no difference to a pass that goes on.
-/
import AsyncServer.ParserCases

namespace Server

open CString Transition

namespace ParserLib

variable {P P' : Parser} {ch : UInt8} {bs rest : Bytes}

/-! ### The loop over a name -/

/-- The loop of `s_header_field` byte by byte. -/
def nameLoop : Parser → Bytes → Inner
  | P, [] => ⟨P, 0, .buffer⟩
  | P, ch :: rest =>
    if token ch = 0 then ⟨P, 0, .at ch⟩
    else match headerFieldChar P ch with
      | none => ⟨P, 0, .abort⟩
      | some P' => (nameLoop P' rest).further

theorem headerFieldChar_general (h : P.headerState = .general) :
    headerFieldChar P ch = some P := by
  simp only [headerFieldChar, h]

theorem mem_take_takeWhile {α : Type*} {p : α → Bool} {l : List α} {n : ℕ} {x : α}
    (h : x ∈ l.take ((l.take n).takeWhile p).length) : p x = true := by
  have hpre : (l.take n).takeWhile p <+: l :=
    (List.takeWhile_prefix p).trans (List.take_prefix n l)
  rw [← List.prefix_iff_eq_take.mp hpre] at h
  exact List.mem_takeWhile_imp h

/-- **The scan over a name of no interest skips bytes that the loop would pass.** -/
theorem headerFieldLoop_eq (k : ℕ) (P : Parser) (bs : Bytes)
    (h : k = 0 ∨ P.headerState = .general ∧ ∀ c ∈ bs.take k, token c ≠ 0) :
    headerFieldLoop k P bs = nameLoop P bs := by
  induction bs generalizing P k with
  | nil => cases k <;> rfl
  | cons ch rest ih =>
    cases k with
    | zero =>
      rw [headerFieldLoop, nameLoop]
      by_cases htoken : token ch = 0
      · rw [if_pos htoken, if_pos htoken]
      rw [if_neg htoken, if_neg htoken]
      by_cases hg : P.headerState = .general
      · rw [headerFieldChar_general hg]
        simp only [if_pos hg]
        rw [ih _ P (.inr ⟨hg, fun c hc => ?_⟩)]
        simpa using mem_take_takeWhile hc
      · simp only [if_neg hg]
        cases headerFieldChar P ch with
        | none => rfl
        | some P' => exact congrArg Inner.further (ih 0 P' (.inl rfl))
    | succ k =>
      obtain ⟨hg, htokens⟩ := h.resolve_left (Nat.succ_ne_zero k)
      rw [headerFieldLoop, nameLoop, if_neg (htokens ch (by simp)), headerFieldChar_general hg]
      dsimp only
      rw [ih k P (.inr ⟨hg, fun c hc => htokens c (by simp [hc])⟩)]

/-- With another count of bytes. -/
def Parser.reading (P : Parser) (n : ℕ) : Parser := { P with nread := n }

@[simp] theorem headerState_reading (n : ℕ) : (P.reading n).headerState = P.headerState := rfl

@[simp] theorem nread_reading (n : ℕ) : (P.reading n).nread = n := rfl

theorem matching_reading (s : Bytes) (c : UInt8) (full other : HeaderState) (n : ℕ) :
    matching (P.reading n) s c full other = (matching P s c full other).reading n := by
  unfold matching Parser.reading
  dsimp only
  split_ifs <;> rfl

/-- A loop counts nothing, and sees nothing of the count. -/
theorem headerFieldChar_reading (P : Parser) (ch : UInt8) (n : ℕ) :
    headerFieldChar (P.reading n) ch = (headerFieldChar P ch).map (·.reading n) := by
  cases hs : P.headerState <;>
    simp only [headerFieldChar, headerState_reading, hs, matching_reading, Option.map_some,
      Option.map_none]
  case matchingTransferEncoding | CON | connection | contentLength | transferEncoding | upgrade =>
    split_ifs <;> rfl
  all_goals rfl

theorem nameLoop_reading (P : Parser) (bs : Bytes) (n : ℕ) :
    nameLoop (P.reading n) bs =
      { nameLoop P bs with parser := (nameLoop P bs).parser.reading n } := by
  induction bs generalizing P with
  | nil => rfl
  | cons ch rest ih =>
    rw [nameLoop, nameLoop, headerFieldChar_reading]
    split_ifs
    · rfl
    · cases headerFieldChar P ch with
      | none => rfl
      | some P' =>
        simp only [Option.map_some, ih]
        rfl

theorem nread_headerFieldChar (h : headerFieldChar P ch = some P') : P'.nread = P.nread := by
  obtain ⟨i, s, u, rfl⟩ := headerFieldChar_frame h
  rfl

theorem nread_nameLoop (P : Parser) (bs : Bytes) : (nameLoop P bs).parser.nread = P.nread := by
  induction bs generalizing P with
  | nil => rfl
  | cons ch rest ih =>
    rw [nameLoop]
    split_ifs
    · rfl
    · cases h : headerFieldChar P ch with
      | none => rfl
      | some P' => exact (ih P').trans (nread_headerFieldChar h)

/-- The loop stops inside the buffer, or at its end. -/
theorem moved_nameLoop (P : Parser) (bs : Bytes) :
    (nameLoop P bs).moved ≤ bs.length ∧
      ((nameLoop P bs).ending = .buffer → (nameLoop P bs).moved = bs.length) := by
  induction bs generalizing P with
  | nil => exact ⟨le_rfl, fun _ => rfl⟩
  | cons ch rest ih =>
    rw [nameLoop]
    split_ifs
    · exact ⟨Nat.zero_le _, fun h => absurd h (by simp)⟩
    · cases headerFieldChar P ch with
      | none => exact ⟨Nat.zero_le _, fun h => absurd h (by simp)⟩
      | some P' =>
        obtain ⟨hle, hend⟩ := ih P'
        exact ⟨Nat.succ_le_succ hle, fun h => congrArg Nat.succ (hend h)⟩

/-! ### The loop over a value -/

/-- The loop of `s_header_value` byte by byte. -/
def valueLoop : Parser → Bytes → Inner
  | P, [] => ⟨P, 0, .buffer⟩
  | P, ch :: rest =>
    if ch = CR ∨ ch = LF then ⟨P, 0, .at ch⟩
    else if !valueByte P ch then ⟨P, 0, .error .invalidHeaderToken⟩
    else if P.headerState = .connection ∨ P.headerState = .transferEncoding then ⟨P, 0, .abort⟩
    else
      match (headerValueChar P ch).2 with
      | some e => ⟨(headerValueChar P ch).1, 0, .error e⟩
      | none => (valueLoop (headerValueChar P ch).1 rest).further

theorem nread_headerValueChar (P : Parser) (ch : UInt8) :
    (headerValueChar P ch).1.nread = P.nread := by
  obtain ⟨i, h, f, l, hP, -⟩ := headerValueChar_frame P ch
  rw [hP]

theorem contentLengthChar_reading (n : ℕ) :
    contentLengthChar (P.reading n) ch =
      ((contentLengthChar P ch).1.reading n, (contentLengthChar P ch).2) := by
  unfold contentLengthChar Parser.reading
  dsimp only
  split_ifs <;> rfl

theorem tokenStart_reading (c : UInt8) (found any : HeaderState) (n : ℕ) :
    tokenStart (P.reading n) c found any = (tokenStart P c found any).reading n := by
  unfold tokenStart Parser.reading
  split_ifs <;> rfl

theorem addFlag_reading (n : ℕ) : addFlag (P.reading n) = (addFlag P).reading n := by
  cases hs : P.headerState <;> simp only [addFlag, headerState_reading, hs] <;> rfl

theorem headerValueChar_reading (P : Parser) (ch : UInt8) (n : ℕ) :
    headerValueChar (P.reading n) ch =
      ((headerValueChar P ch).1.reading n, (headerValueChar P ch).2) := by
  cases hs : P.headerState <;>
    simp only [headerValueChar, headerState_reading, hs, matching_reading, tokenStart_reading,
      contentLengthChar_reading, addFlag_reading, tokenChar]
  case general | C | CO | CON | matchingConnection | matchingProxyConnection |
      matchingContentLength | matchingTransferEncoding | matchingUpgrade | connection |
      transferEncoding | upgrade => rfl
  all_goals split_ifs <;> rfl

theorem valueLoop_reading (P : Parser) (bs : Bytes) (n : ℕ) :
    valueLoop (P.reading n) bs =
      { valueLoop P bs with parser := (valueLoop P bs).parser.reading n } := by
  induction bs generalizing P with
  | nil => rfl
  | cons ch rest ih =>
    rw [valueLoop, valueLoop, headerValueChar_reading, headerState_reading]
    show (if _ then _ else if !valueByte P ch then _ else _) = _
    split_ifs
    · rfl
    · rfl
    · rfl
    · dsimp only
      split
      · rfl
      · rw [ih]
        rfl

theorem headerValueChar_general (h : P.headerState = .general) :
    headerValueChar P ch = (P, none) := by
  simp only [headerValueChar, h]
  rw [← h]

/-- The bytes over which a value of no interest is scanned. -/
def PlainByte (P : Parser) (c : UInt8) : Prop := c ≠ CR ∧ c ≠ LF ∧ valueByte P c = true

theorem valueLoop_general (h : P.headerState = .general) (hch : PlainByte P ch) :
    valueLoop P (ch :: rest) = (valueLoop P rest).further := by
  have hne : ¬ (P.headerState = .connection ∨ P.headerState = .transferEncoding) := by
    rw [h]
    decide
  rw [valueLoop, if_neg (not_or.mpr ⟨hch.1, hch.2.1⟩), if_neg (by simp [hch.2.2]), if_neg hne,
    headerValueChar_general h]

/-- Behind `n` bytes. -/
def Inner.later (n : ℕ) (r : Inner) : Inner := { r with moved := n + r.moved }

theorem Inner.further_later (n : ℕ) (r : Inner) : (r.later n).further = r.later (n + 1) := by
  unfold Inner.later Inner.further
  simp only [Inner.mk.injEq, and_true, true_and]
  omega

theorem valueLoop_scan (h : P.headerState = .general) {n : ℕ} {bs : Bytes}
    (hn : n ≤ bs.length) (hbs : ∀ c ∈ bs.take n, PlainByte P c) :
    valueLoop P bs = (valueLoop P (bs.drop n)).later n := by
  induction n generalizing bs with
  | zero => simp [Inner.later]
  | succ n ih =>
    obtain ⟨c, rest, rfl⟩ := List.exists_cons_of_ne_nil
      (List.ne_nil_of_length_pos (Nat.lt_of_lt_of_le n.succ_pos hn))
    rw [valueLoop_general h (hbs c (by simp)), ih (by simpa using hn)
      fun c hc => hbs c (by simp [hc]), List.drop_succ_cons, Inner.further_later]

/-- More bytes than a header may have, or an error. -/
def Inner.Long (r : Inner) : Prop :=
  match r.ending with
  | .buffer => maxHeaderSize < r.moved
  | .at _ => maxHeaderSize ≤ r.moved
  | .error _ | .abort => True

theorem Inner.Long.further {r : Inner} (h : r.Long) : r.further.Long := by
  unfold Inner.Long Inner.further at *
  cases hr : r.ending <;> simp only [hr] at h ⊢ <;> omega

theorem Inner.long_of {r : Inner} {n : ℕ} (h : maxHeaderSize ≤ r.moved)
    (hn : maxHeaderSize < n) (hend : r.ending = .buffer → r.moved = n) : r.Long := by
  unfold Inner.Long
  cases hr : r.ending <;> simp only
  · rw [hend hr]
    exact hn
  · exact h

theorem moved_valueLoop (P : Parser) (bs : Bytes) :
    (valueLoop P bs).moved ≤ bs.length ∧
      ((valueLoop P bs).ending = .buffer → (valueLoop P bs).moved = bs.length) := by
  induction bs generalizing P with
  | nil => exact ⟨le_rfl, fun _ => rfl⟩
  | cons ch rest ih =>
    rw [valueLoop]
    split_ifs
    · exact ⟨Nat.zero_le _, fun h => absurd h (by simp)⟩
    · exact ⟨Nat.zero_le _, fun h => absurd h (by simp)⟩
    · exact ⟨Nat.zero_le _, fun h => absurd h (by simp)⟩
    · split
      · exact ⟨Nat.zero_le _, fun h => absurd h (by simp)⟩
      · obtain ⟨hle, hend⟩ := ih (headerValueChar P ch).1
        exact ⟨Nat.succ_le_succ hle, fun h => congrArg Nat.succ (hend h)⟩

/-- Bytes that are passed over are moved over. -/
theorem moved_headerValueLoop (k : ℕ) (P : Parser) (bs : Bytes) (h : k ≤ bs.length) :
    k ≤ (headerValueLoop k P bs).moved ∧ (headerValueLoop k P bs).moved ≤ bs.length ∧
      ((headerValueLoop k P bs).ending = .buffer →
        (headerValueLoop k P bs).moved = bs.length) := by
  induction bs generalizing k P with
  | nil =>
    cases k with
    | zero => exact ⟨le_rfl, le_rfl, fun _ => rfl⟩
    | succ k => exact absurd h (by simp)
  | cons ch rest ih =>
    have hskip : ∀ {n : ℕ} {P : Parser}, n ≤ rest.length →
        n + 1 ≤ (headerValueLoop n P rest).further.moved ∧
          (headerValueLoop n P rest).further.moved ≤ rest.length + 1 ∧
          ((headerValueLoop n P rest).further.ending = .buffer →
            (headerValueLoop n P rest).further.moved = rest.length + 1) := by
      intro n P hn
      obtain ⟨hle, hlen, hend⟩ := ih n P hn
      exact ⟨Nat.succ_le_succ hle, Nat.succ_le_succ hlen, fun h => congrArg Nat.succ (hend h)⟩
    cases k with
    | succ k => exact hskip (by simpa using h)
    | zero =>
      have hpass : ∀ {n : ℕ} {P : Parser}, n ≤ rest.length →
          0 ≤ (headerValueLoop n P rest).further.moved ∧
            (headerValueLoop n P rest).further.moved ≤ rest.length + 1 ∧
            ((headerValueLoop n P rest).further.ending = .buffer →
              (headerValueLoop n P rest).further.moved = rest.length + 1) :=
        fun hn => ⟨Nat.zero_le _, (hskip hn).2⟩
      have hn : valueScan P (ch :: rest) ≤ rest.length + 1 := by
        refine (List.takeWhile_prefix _).length_le.trans ?_
        simp
      rw [headerValueLoop]
      split_ifs
      · exact ⟨le_rfl, Nat.zero_le _, fun h => absurd h (by simp)⟩
      · exact ⟨le_rfl, Nat.zero_le _, fun h => absurd h (by simp)⟩
      · dsimp only
        split
        · exact hpass (by omega)
        · rename_i c hc
          have := (List.getElem?_eq_some_iff.mp hc).1
          rw [List.length_cons] at this
          split_ifs
          · exact hpass (by omega)
          · exact hpass (by omega)
          · exact ⟨Nat.zero_le _, hn, fun h => absurd h (by simp)⟩
      · exact ⟨le_rfl, Nat.zero_le _, fun h => absurd h (by simp)⟩
      · split
        · exact ⟨le_rfl, Nat.zero_le _, fun h => absurd h (by simp)⟩
        · exact hpass (Nat.zero_le _)

theorem nread_headerValueLoop (k : ℕ) (P : Parser) (bs : Bytes) :
    (headerValueLoop k P bs).parser.nread = P.nread := by
  induction bs generalizing k P with
  | nil => cases k <;> rfl
  | cons ch rest ih =>
    cases k with
    | succ k => exact ih k P
    | zero =>
      rw [headerValueLoop]
      split_ifs
      · rfl
      · rfl
      · dsimp only
        split
        · exact ih _ P
        · split_ifs
          exacts [ih _ P, ih _ P, rfl]
      · rfl
      · split
        · exact nread_headerValueChar P ch
        · exact (ih 0 _).trans (nread_headerValueChar P ch)

theorem not_getElem?_length_takeWhile {α : Type*} {p : α → Bool} {l : List α} {x : α}
    (h : l[(l.takeWhile p).length]? = some x) : p x = false := by
  induction l with
  | nil => exact absurd h (by simp)
  | cons y l ih =>
    cases hy : p y with
    | true =>
      rw [List.takeWhile_cons_of_pos hy] at h
      exact ih (by simpa using h)
    | false =>
      rw [List.takeWhile_cons_of_neg (by simp [hy])] at h
      obtain rfl : y = x := by simpa using h
      exact hy

/-- What the scan has found good, and what it has stopped at. -/
theorem valueScan_spec (P : Parser) (bs : Bytes) :
    (∀ c ∈ bs.take (valueScan P bs), PlainByte P c) ∧
      ∀ c, bs[valueScan P bs]? = some c → valueScan P bs ≠ maxHeaderSize → ¬ PlainByte P c := by
  let p : UInt8 → Bool := fun c => c ≠ CR && c ≠ LF && valueByte P c
  have hp : ∀ c, p c = true ↔ PlainByte P c := by
    intro c
    simp [p, PlainByte, and_assoc]
  refine ⟨fun c hc => (hp c).mp (mem_take_takeWhile hc), fun c hc hne hplain => ?_⟩
  -- it has stopped inside of what it was to scan
  have hle : valueScan P bs ≤ min bs.length maxHeaderSize :=
    (List.takeWhile_prefix p).length_le.trans (List.length_take_le _ _)
  have hlt : valueScan P bs < bs.length := (List.getElem?_eq_some_iff.mp hc).1
  have hget : (bs.take (min bs.length maxHeaderSize))[valueScan P bs]? = some c := by
    rw [List.getElem?_take_of_lt (by omega), hc]
  exact absurd ((hp c).mpr hplain) (by simp [not_getElem?_length_takeWhile (p := p) hget])

/-- **The scan over a value of no interest** finds what the loop would find, but where it
gives up the value is too long. -/
theorem headerValueLoop_eq (k : ℕ) (P : Parser) (bs : Bytes)
    (h : k = 0 ∨ P.headerState = .general ∧ ∀ c ∈ bs.take k, PlainByte P c) :
    headerValueLoop k P bs = valueLoop P bs ∨
      (headerValueLoop k P bs).Long ∧ (valueLoop P bs).Long := by
  have hfurther : ∀ {r r' : Inner}, r = r' ∨ r.Long ∧ r'.Long →
      r.further = r'.further ∨ r.further.Long ∧ r'.further.Long := by
    rintro r r' (rfl | ⟨hl, hl'⟩)
    exacts [.inl rfl, .inr ⟨hl.further, hl'.further⟩]
  induction bs generalizing P k with
  | nil => exact .inl (by cases k <;> rfl)
  | cons ch rest ih =>
    cases k with
    | succ k =>
      obtain ⟨hg, hplain⟩ := h.resolve_left (Nat.succ_ne_zero k)
      rw [headerValueLoop, valueLoop_general hg (hplain ch (by simp))]
      exact hfurther (ih k P (.inr ⟨hg, fun c hc => hplain c (by simp [hc])⟩))
    | zero =>
      rw [headerValueLoop]
      by_cases hend : ch = CR ∨ ch = LF
      · rw [valueLoop, if_pos hend, if_pos hend]
        exact .inl rfl
      by_cases hbyte : valueByte P ch = true
      swap
      · rw [valueLoop, if_neg hend, if_neg hend, if_pos (by simpa using hbyte),
          if_pos (by simpa using hbyte)]
        exact .inl rfl
      rw [if_neg hend, if_neg (by simpa using hbyte)]
      by_cases hg : P.headerState = .general
      swap
      · rw [valueLoop, if_neg hend, if_neg hg,
          if_neg (show ¬ (!valueByte P ch) = true by simpa using hbyte)]
        split_ifs
        · exact .inl rfl
        · cases (headerValueChar P ch).2 with
          | some e => exact .inl rfl
          | none => exact hfurther (ih 0 _ (.inl rfl))
      -- the value is of no interest
      have hch : PlainByte P ch := ⟨fun h => hend (.inl h), fun h => hend (.inr h), hbyte⟩
      obtain ⟨hgood, hstop⟩ := valueScan_spec P (ch :: rest)
      rw [if_pos hg, valueLoop_general hg hch]
      generalize valueScan P (ch :: rest) = n at hgood hstop
      dsimp only
      have hskip : headerValueLoop (n - 1) P rest = valueLoop P rest ∨
          (headerValueLoop (n - 1) P rest).Long ∧ (valueLoop P rest).Long := by
        refine ih _ P (.inr ⟨hg, fun c hc => hgood c ?_⟩)
        cases n with
        | zero => exact absurd hc (by simp)
        | succ n => exact List.mem_cons_of_mem _ (by simpa using hc)
      split
      · exact hfurther hskip
      · rename_i c hc
        obtain ⟨hlt, -⟩ := List.getElem?_eq_some_iff.mp hc
        have hlen : n < rest.length + 1 := hlt
        split_ifs with hmax hline
        · -- a byte that has not been looked at is behind a value that is too long
          refine .inr ⟨?_, ?_⟩
          · obtain ⟨hmoved, -, hbuf⟩ := moved_headerValueLoop n P rest (by omega)
            exact Inner.long_of (n := rest.length + 1) (by show _ ≤ _ + 1; omega) (by omega)
              fun h => congrArg Nat.succ (hbuf h)
          · rw [← valueLoop_general hg hch, valueLoop_scan hg hlt.le hgood]
            refine Inner.long_of (n := rest.length + 1) (by show _ ≤ n + _; omega) (by omega) ?_
            intro h
            show n + _ = _
            rw [(moved_valueLoop P _).2 h, List.length_drop, List.length_cons]
            omega
        · exact hfurther hskip
        · -- the scan ends with an error, and so does the loop
          left
          rw [← valueLoop_general hg hch, valueLoop_scan hg hlt.le hgood,
            List.drop_eq_getElem_cons hlt]
          have hc' : (ch :: rest)[n] = c := (List.getElem?_eq_some_iff.mp hc).2
          have hbad : ¬ valueByte P c = true := fun hb =>
            hstop c hc hmax ⟨fun h => hline (.inl h), fun h => hline (.inr h), hb⟩
          rw [hc', valueLoop, if_neg hline, if_pos (by simpa using hbad)]
          rfl

theorem verdict_doing (as : List Action) (t : Case) : (t.doing as).verdict = t.verdict := rfl

theorem verdict_counted_of_lt {n : ℕ} {f : Parser → Case}
    (h : maxHeaderSize < (P.countHeaderSize n).nread) : (counted P n f).verdict = .stop := by
  unfold counted
  rw [if_pos h]

/-- The bytes of an inner loop make the header too long, or there is an error. -/
def Inner.Over (r : Inner) : Prop :=
  match r.ending with
  | .buffer => maxHeaderSize < r.parser.nread + (r.moved - 1)
  | .at _ => maxHeaderSize < r.parser.nread + r.moved
  | .error _ | .abort => True

theorem Inner.Long.over {r : Inner} (h : r.Long) (hpos : 1 ≤ r.parser.nread) : r.Over := by
  unfold Inner.Long at h
  unfold Inner.Over
  cases hr : r.ending <;> simp only [hr] at h ⊢ <;> omega

theorem lt_nread_countHeaderSize {n : ℕ} (h : maxHeaderSize < P.nread + n)
    (hle : P.nread ≤ maxHeaderSize) (hn : n < 2 ^ 31) :
    maxHeaderSize < (P.countHeaderSize n).nread := by
  rw [nread_countHeaderSize]
  simp only [maxHeaderSize] at *
  omega

theorem verdict_headerFieldEnd {r : Inner} (h : r.Over) (hle : r.parser.nread ≤ maxHeaderSize)
    (hlt : r.moved < 2 ^ 31) : (headerFieldEnd r).last.verdict ≠ .next := by
  unfold Inner.Over at h
  cases hr : r.ending with
  | buffer =>
    simp only [hr] at h
    simp only [headerFieldEnd, hr]
    rw [verdict_counted_of_lt (lt_nread_countHeaderSize h hle (by omega))]
    decide
  | «at» c =>
    simp only [hr] at h
    simp only [headerFieldEnd, hr]
    rw [verdict_counted_of_lt (lt_nread_countHeaderSize h hle hlt)]
    decide
  | error e => simp [headerFieldEnd, hr, fail]
  | abort => simp [headerFieldEnd, hr, abort]

theorem verdict_headerValueEnd {r : Inner} {old : HeaderState} (h : r.Over)
    (hle : r.parser.nread ≤ maxHeaderSize) (hlt : r.moved < 2 ^ 31) :
    (headerValueEnd old r).last.verdict ≠ .next := by
  unfold Inner.Over at h
  cases hr : r.ending with
  | buffer =>
    simp only [hr] at h
    simp only [headerValueEnd, hr]
    rw [verdict_counted_of_lt (lt_nread_countHeaderSize h hle (by omega))]
    decide
  | «at» c =>
    simp only [hr] at h
    simp only [headerValueEnd, hr]
    have hover : maxHeaderSize <
        ((r.parser.enter .headerAlmostDone).countHeaderSize r.moved).nread :=
      lt_nread_countHeaderSize h hle hlt
    by_cases hc : c = CR
    · rw [if_pos hc, verdict_doing, verdict_counted_of_lt hover]
      decide
    · rw [if_neg hc, if_pos hover]
      simp
  | error e => simp [headerValueEnd, hr, fail]
  | abort => simp [headerValueEnd, hr, abort]

/-! ### A pass, with the inner loops byte by byte -/

/-- `turn` without the scans. -/
def plainTurn (P : Parser) (ch : UInt8) (rest : Bytes) : Turn :=
  match P.state with
  | .headerField => headerFieldEnd (nameLoop P (ch :: rest))
  | .headerValue => headerValueEnd P.headerState (valueLoop P (ch :: rest))
  | _ => turn P ch rest

theorem nread_valueLoop (P : Parser) (bs : Bytes) : (valueLoop P bs).parser.nread = P.nread := by
  induction bs generalizing P with
  | nil => rfl
  | cons ch rest ih =>
    rw [valueLoop]
    split_ifs
    · rfl
    · rfl
    · rfl
    · split
      · exact nread_headerValueChar P ch
      · exact (ih _).trans (nread_headerValueChar P ch)

/-- **The scans make no difference to a pass that goes on.** -/
theorem turn_eq_plainTurn (hpos : P.state = .headerValue → 1 ≤ P.nread)
    (hle : P.nread ≤ maxHeaderSize) (hlt : rest.length + 1 < 2 ^ 31)
    (h : (turn P ch rest).last.verdict = .next ∨ (plainTurn P ch rest).last.verdict = .next) :
    turn P ch rest = plainTurn P ch rest := by
  cases hs : P.state
  case headerField =>
    simp only [turn, plainTurn, hs, headerField, headerFieldLoop_eq 0 P (ch :: rest) (.inl rfl)]
  case headerValue =>
    simp only [turn, plainTurn, hs, headerValue] at h ⊢
    rcases headerValueLoop_eq 0 P (ch :: rest) (.inl rfl) with heq | ⟨hl, hl'⟩
    · rw [heq]
    · have hn := nread_headerValueLoop 0 P (ch :: rest)
      have hn' := nread_valueLoop P (ch :: rest)
      have hm := (moved_headerValueLoop 0 P (ch :: rest) (Nat.zero_le _)).2.1
      have hm' := (moved_valueLoop P (ch :: rest)).1
      refine absurd h (not_or.mpr ⟨verdict_headerValueEnd (hl.over ?_) ?_ (hm.trans_lt hlt),
        verdict_headerValueEnd (hl'.over ?_) ?_ (hm'.trans_lt hlt)⟩)
      exacts [hn ▸ hpos hs, hn ▸ hle, hn' ▸ hpos hs, hn' ▸ hle]
  all_goals simp only [plainTurn, hs]

end ParserLib

end Server
