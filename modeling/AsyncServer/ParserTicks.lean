/-
The parser byte by byte.

The inner loops of `http_parser_execute` take all that the buffer has of a name, a value
or a body.  They do what they would do a byte at a time, the count of the header included.

* `peels` — a pass is one at its first byte alone and then one at the next byte;
* `loop_cons` — a buffer is parsed by its first byte and then by its rest;
* `loop_eq_run` — so a call goes through a buffer as its bytes do one by one.
-/
import AsyncServer.ParserScans

namespace Server

open CString Transition

namespace ParserLib

variable {P P' : Parser} {ch : UInt8} {bs rest : Bytes}

/-! ### A pass at its first byte -/

/-- The struct when the next byte is looked at. -/
def Parser.next (P : Parser) : Parser :=
  if P.state.parsingHeader then P.countHeaderSize 1 else P

/-- One byte further. -/
def Turn.further (t : Turn) : Turn := { t with advance := t.advance + 1 }

/-- Two passes of which one goes on are the same. -/
def Turn.Agree (t t' : Turn) : Prop :=
  t.last.verdict = .next ∨ t'.last.verdict = .next → t = t'

theorem countHeaderSize_succ (n : ℕ) :
    P.countHeaderSize (n + 1) = (P.reading (P.nread + 1)).countHeaderSize n := by
  have hcount : (P.nread + (n + 1) % 2 ^ 32) % 2 ^ 32 =
      (P.nread + 1 + n % 2 ^ 32) % 2 ^ 32 := by omega
  unfold Parser.countHeaderSize Parser.reading
  dsimp only
  rw [hcount]

theorem counted_succ (n : ℕ) (f : Parser → Case) :
    counted P (n + 1) f = counted (P.reading (P.nread + 1)) n f := by
  unfold counted
  rw [countHeaderSize_succ]

/-- What a loop leaves, with a byte more counted before it. -/
def Inner.nextRead (r : Inner) : Inner :=
  { r with parser := r.parser.reading (r.parser.nread + 1) }

theorem headerFieldEnd_further {r : Inner} (hpos : r.ending = .buffer → 1 ≤ r.moved) :
    (headerFieldEnd r.further).Agree (headerFieldEnd r.nextRead).further := by
  intro hv
  cases hr : r.ending with
  | buffer =>
    obtain ⟨m, hm⟩ : ∃ m, r.moved = m + 1 := ⟨r.moved - 1, by have := hpos hr; omega⟩
    simp only [headerFieldEnd, Inner.further, Inner.nextRead, hr, Turn.further, hm,
      Nat.add_sub_cancel, counted_succ]
  | «at» c =>
    simp only [headerFieldEnd, Inner.further, Inner.nextRead, hr, Turn.further, counted_succ]
  | error e => simp [headerFieldEnd, Inner.further, Inner.nextRead, hr, Turn.further, fail] at hv
  | abort => simp [headerFieldEnd, Inner.further, Inner.nextRead, hr, Turn.further, abort] at hv

theorem headerValueEnd_further {r : Inner} (old old' : HeaderState)
    (hpos : r.ending = .buffer → 1 ≤ r.moved) :
    (headerValueEnd old r.further).Agree (headerValueEnd old' r.nextRead).further := by
  intro hv
  cases hr : r.ending with
  | buffer =>
    obtain ⟨m, hm⟩ : ∃ m, r.moved = m + 1 := ⟨r.moved - 1, by have := hpos hr; omega⟩
    simp only [headerValueEnd, Inner.further, Inner.nextRead, hr, Turn.further, hm,
      Nat.add_sub_cancel, counted_succ]
  | «at» c =>
    have hcount : (r.parser.enter .headerAlmostDone).countHeaderSize (r.moved + 1) =
        ((r.parser.reading (r.parser.nread + 1)).enter .headerAlmostDone).countHeaderSize
          r.moved := countHeaderSize_succ _
    simp only [headerValueEnd, Inner.further, Inner.nextRead, hr, Turn.further, counted,
      hcount] at hv ⊢
    by_cases hc : c = CR
    · rw [if_pos hc, if_pos hc]
    · rw [if_neg hc, if_neg hc] at hv ⊢
      -- the struct of an error is not the same
      by_cases hmax : maxHeaderSize < (((r.parser.reading (r.parser.nread + 1)).enter
          .headerAlmostDone).countHeaderSize r.moved).nread
      · rw [if_pos hmax, if_pos hmax] at hv
        exact absurd hv (by simp)
      · rw [if_neg hmax, if_neg hmax]
  | error e => simp [headerValueEnd, Inner.further, Inner.nextRead, hr, Turn.further, fail] at hv
  | abort => simp [headerValueEnd, Inner.further, Inner.nextRead, hr, Turn.further, abort] at hv

theorem Inner.over_of_full {r : Inner} (h : r.parser.nread = maxHeaderSize)
    (hpos : r.ending = .buffer → 1 ≤ r.moved) : r.further.Over := by
  unfold Inner.Over Inner.further
  cases hr : r.ending <;> simp only [h]
  · have := hpos hr
    omega
  · omega

/-- How a pass at `ch` with more behind it goes: as at `ch` alone, or as at `ch` alone and
then further. -/
inductive Peels (P : Parser) (ch : UInt8) : Prop
  | alone (h : ∀ rest, plainTurn P ch rest = turn P ch []) (h0 : (turn P ch []).advance = 0)
  | further (P' : Parser) (before : List Action) (hbefore : before = [] ∨ before = [.mark .body])
      (hone : turn P ch [] = ⟨before, 0, brk P'⟩)
      (hmore : ∀ c rest, P'.next.httpErrno = .ok →
        (plainTurn P ch (c :: rest)).Agree (plainTurn P'.next c rest).further ∧
          (plainTurn P'.next c rest).before = before)
      (hfull : ∀ c rest, rest.length + 2 < 2 ^ 31 → P'.next.httpErrno ≠ .ok →
        (plainTurn P ch (c :: rest)).last.verdict ≠ .next)

theorem counted_zero {f : Parser → Case} (h : P.nread ≤ maxHeaderSize) :
    counted P 0 f = f P := by
  have hP : (P.nread + 0 % 2 ^ 32) % 2 ^ 32 = P.nread := by
    simp only [maxHeaderSize] at h
    omega
  unfold counted
  dsimp only
  rw [countHeaderSize_eq (by rw [hP]; exact h), hP, if_neg (not_lt.mpr h)]

theorem countHeaderSize_one (h : P.nread + 1 ≤ maxHeaderSize) :
    P.countHeaderSize 1 = P.reading (P.nread + 1) := by
  rw [countHeaderSize_eq] <;> simp only [maxHeaderSize] at h ⊢
  · congr 1
    omega
  · omega

theorem errno_countHeaderSize_one (h : P.nread ≤ maxHeaderSize)
    (hover : ¬ P.nread + 1 ≤ maxHeaderSize) :
    (P.countHeaderSize 1).httpErrno = .headerOverflow := by
  unfold Parser.countHeaderSize
  dsimp only
  rw [if_pos (by simp only [maxHeaderSize] at *; omega)]
  rfl

/-- What the two inner loops have in common: the loop, and what is done behind it. -/
structure InnerLoop (s : State) (L : Parser → Bytes → Inner)
    (finish : HeaderState → Inner → Turn) : Prop where
  parsing : s.parsingHeader = true
  plain : ∀ P c rest, P.state = s → plainTurn P c rest = finish P.headerState (L P (c :: rest))
  nil : ∀ P, L P [] = ⟨P, 0, .buffer⟩
  reading : ∀ P bs n, L (P.reading n) bs = { L P bs with parser := (L P bs).parser.reading n }
  nread : ∀ P bs, (L P bs).parser.nread = P.nread
  moved : ∀ P bs, (L P bs).moved ≤ bs.length ∧
    ((L P bs).ending = .buffer → (L P bs).moved = bs.length)
  further : ∀ {r : Inner} (old old' : HeaderState), (r.ending = .buffer → 1 ≤ r.moved) →
    (finish old r.further).Agree (finish old' r.nextRead).further
  tooLong : ∀ {r : Inner} {old : HeaderState}, r.Over → r.parser.nread ≤ maxHeaderSize →
    r.moved < 2 ^ 31 → (finish old r).last.verdict ≠ .next
  before : ∀ old r, (finish old r).before = []
  buffer : ∀ old P, finish old ⟨P, 1, .buffer⟩ = ⟨[], 0, counted P 0 brk⟩

/-- A loop that goes on behind its first byte. -/
theorem InnerLoop.peels {s : State} {L : Parser → Bytes → Inner}
    {finish : HeaderState → Inner → Turn} (hl : InnerLoop s L finish) (P' : Parser)
    (hs : P.state = s)
    (hone : turn P ch [] = finish P.headerState (L P [ch])) (he : P'.httpErrno = .ok)
    (hn : P'.nread ≤ maxHeaderSize) (hs' : P'.state = s)
    (hloop : ∀ rest, L P (ch :: rest) = (L P' rest).further) : Peels P ch := by
  have hnext : P'.next = P'.countHeaderSize 1 := by
    rw [Parser.next, hs', if_pos hl.parsing]
  have hpos : ∀ c rest, (L P' (c :: rest)).ending = .buffer → 1 ≤ (L P' (c :: rest)).moved := by
    intro c rest h
    rw [(hl.moved P' _).2 h]
    simp
  refine .further P' [] (.inl rfl) ?_ (fun c rest hok => ?_) (fun c rest hlt hok => ?_)
  · rw [hone, hloop, hl.nil]
    show finish _ ⟨P', 1, .buffer⟩ = _
    rw [hl.buffer, counted_zero hn]
  · have hle : P'.nread + 1 ≤ maxHeaderSize := by
      by_contra hle
      rw [hnext, errno_countHeaderSize_one hn hle] at hok
      exact absurd hok (by decide)
    have hread : P'.next = P'.reading (P'.nread + 1) := by rw [hnext, countHeaderSize_one hle]
    have hplain : plainTurn P'.next c rest =
        finish P'.headerState (L P' (c :: rest)).nextRead := by
      rw [hread, hl.plain (P'.reading (P'.nread + 1)) c rest hs', hl.reading, Inner.nextRead,
        hl.nread]
      rfl
    rw [hl.plain P ch (c :: rest) hs, hloop, hplain]
    exact ⟨hl.further _ _ (hpos c rest), hl.before _ _⟩
  · have hfull : P'.nread = maxHeaderSize := by
      by_contra hne
      refine hok ?_
      rw [hnext, countHeaderSize_one (by omega)]
      exact he
    have hnread : (L P' (c :: rest)).further.parser.nread = maxHeaderSize := by
      show (L P' (c :: rest)).parser.nread = _
      rw [hl.nread, hfull]
    rw [hl.plain P ch (c :: rest) hs, hloop]
    refine hl.tooLong (Inner.over_of_full hnread (hpos c rest)) hnread.le ?_
    have := (hl.moved P' (c :: rest)).1
    show _ + 1 < _
    simp only [List.length_cons] at this
    omega

/-- A loop that ends at its first byte. -/
theorem InnerLoop.peels_of_ends {s : State} {L : Parser → Bytes → Inner}
    {finish : HeaderState → Inner → Turn} (hl : InnerLoop s L finish) (hs : P.state = s)
    (hone : turn P ch [] = finish P.headerState (L P [ch])) {Q : Parser} {e : LoopEnd}
    (hloop : ∀ rest, L P (ch :: rest) = ⟨Q, 0, e⟩)
    (hadvance : (finish P.headerState ⟨Q, 0, e⟩).advance = 0) : Peels P ch := by
  refine .alone (fun rest => ?_) ?_
  · rw [hl.plain P ch rest hs, hone, hloop, hloop]
  · rw [hone, hloop]
    exact hadvance

theorem innerLoop_name : InnerLoop .headerField nameLoop fun _ => headerFieldEnd where
  parsing := rfl
  plain P c rest h := by simp only [plainTurn, h]
  nil _ := rfl
  reading := nameLoop_reading
  nread := nread_nameLoop
  moved := moved_nameLoop
  further _ _ := headerFieldEnd_further
  tooLong := verdict_headerFieldEnd
  before _ r := by
    unfold headerFieldEnd
    split <;> rfl
  buffer _ _ := rfl

theorem innerLoop_value : InnerLoop .headerValue valueLoop headerValueEnd where
  parsing := rfl
  plain P c rest h := by simp only [plainTurn, h]
  nil _ := rfl
  reading := valueLoop_reading
  nread := nread_valueLoop
  moved := moved_valueLoop
  further := headerValueEnd_further
  tooLong := verdict_headerValueEnd
  before _ r := by
    unfold headerValueEnd
    split <;> rfl
  buffer _ _ := rfl

theorem peels_headerField (hs : P.state = .headerField) (he : P.httpErrno = .ok)
    (hn : P.nread ≤ maxHeaderSize) : Peels P ch := by
  have hone : turn P ch [] = headerFieldEnd (nameLoop P [ch]) := by
    simp only [turn, hs, headerField, headerFieldLoop_eq 0 P [ch] (.inl rfl)]
  by_cases htoken : token ch = 0
  · exact innerLoop_name.peels_of_ends (e := .at ch) hs hone
      (fun rest => by rw [nameLoop, if_pos htoken]) rfl
  cases hchar : headerFieldChar P ch with
  | none =>
    exact innerLoop_name.peels_of_ends (e := .abort) hs hone
      (fun rest => by rw [nameLoop, if_neg htoken, hchar]) rfl
  | some P' =>
    obtain ⟨i, s, u, hP'⟩ := headerFieldChar_frame hchar
    refine innerLoop_name.peels P' hs hone ?_ ?_ ?_
      (fun rest => by rw [nameLoop, if_neg htoken, hchar]) <;> rw [hP']
    exacts [he, hn, hs]

/-- At the end of the buffer there is nothing to scan. -/
theorem headerValueLoop_singleton : headerValueLoop 0 P [ch] = valueLoop P [ch] := by
  rw [headerValueLoop]
  by_cases hend : ch = CR ∨ ch = LF
  · rw [valueLoop, if_pos hend, if_pos hend]
  by_cases hbyte : valueByte P ch = true
  swap
  · rw [valueLoop, if_neg hend, if_neg hend, if_pos (by simpa using hbyte),
      if_pos (by simpa using hbyte)]
  rw [if_neg hend, if_neg (by simpa using hbyte)]
  by_cases hg : P.headerState = .general
  · have hscan : valueScan P [ch] = 1 := by
      have hmin : min 1 maxHeaderSize = 1 := by decide
      simp [valueScan, hmin, not_or.mp hend, hbyte]
    rw [if_pos hg, hscan,
      valueLoop_general hg ⟨fun h => hend (.inl h), fun h => hend (.inr h), hbyte⟩]
    rfl
  · rw [valueLoop, if_neg hend, if_neg hg,
      if_neg (show ¬ (!valueByte P ch) = true by simpa using hbyte)]
    rfl

theorem peels_headerValue (hs : P.state = .headerValue) (he : P.httpErrno = .ok)
    (hn : P.nread ≤ maxHeaderSize) : Peels P ch := by
  have hone : turn P ch [] = headerValueEnd P.headerState (valueLoop P [ch]) := by
    simp only [turn, hs, headerValue, headerValueLoop_singleton]
  by_cases hend : ch = CR ∨ ch = LF
  · refine innerLoop_value.peels_of_ends (e := .at ch) hs hone
      (fun rest => by rw [valueLoop, if_pos hend]) rfl
  by_cases hbyte : valueByte P ch = true
  swap
  · exact innerLoop_value.peels_of_ends (e := .error .invalidHeaderToken) hs hone
      (fun rest => by rw [valueLoop, if_neg hend, if_pos (by simpa using hbyte)]) rfl
  by_cases hab : P.headerState = .connection ∨ P.headerState = .transferEncoding
  · exact innerLoop_value.peels_of_ends (e := .abort) hs hone
      (fun rest => by rw [valueLoop, if_neg hend, if_neg (by simpa using hbyte), if_pos hab]) rfl
  have hsteps : ¬ (!valueByte P ch) = true := by simpa using hbyte
  cases hchar : (headerValueChar P ch).2 with
  | some e =>
    exact innerLoop_value.peels_of_ends (e := .error e) hs hone
      (fun rest => by rw [valueLoop, if_neg hend, if_neg hsteps, if_neg hab, hchar]) rfl
  | none =>
    obtain ⟨i, h, f, l, hP, -⟩ := headerValueChar_frame P ch
    refine innerLoop_value.peels (headerValueChar P ch).1 hs hone ?_ ?_ ?_
      (fun rest => by rw [valueLoop, if_neg hend, if_neg hsteps, if_neg hab, hchar]) <;> rw [hP]
    exacts [he, hn, hs]

/-- The bytes of a body that are in the buffer; `ends` is done at its last one. -/
def bodyTurn (ends : Parser → Case) (P : Parser) (rest : Bytes) : Turn :=
  ⟨[.mark .body], min P.contentLength (rest.length + 1) - 1,
    if P.contentLength - min P.contentLength (rest.length + 1) = 0 then
      ends (passed P (min P.contentLength (rest.length + 1)))
    else brk (passed P (min P.contentLength (rest.length + 1)))⟩

theorem passed_passed (m n : ℕ) : passed (passed P m) n = passed P (m + n) := by
  simp only [passed, Nat.sub_sub]

/-- More than one byte of a body. -/
theorem bodyTurn_cons {ends : Parser → Case} {c : UInt8} (h : 1 < P.contentLength) :
    bodyTurn ends P (c :: rest) = (bodyTurn ends (passed P 1) rest).further := by
  have hmin : min P.contentLength ((c :: rest).length + 1) =
      1 + min (passed P 1).contentLength (rest.length + 1) := by
    simp only [passed, List.length_cons]
    omega
  have hlen : (passed P 1).contentLength = P.contentLength - 1 := rfl
  simp only [bodyTurn, Turn.further, hmin, passed_passed]
  congr 1
  · omega
  · rw [Nat.sub_add_eq, hlen]

theorem peels_body (ends : Parser → Case) (he : P.httpErrno = .ok)
    (hpos : P.contentLength ≠ 0) (hmax : P.contentLength < ullongMax)
    (hcode : P.state.parsingHeader = false)
    (hturn : ∀ Q c rest, Q.state = P.state → Q.flags = P.flags → Q.contentLength ≠ 0 →
      Q.contentLength ≠ ullongMax → turn Q c rest = bodyTurn ends Q rest)
    (hplain : ∀ Q c rest, Q.state = P.state → plainTurn Q c rest = turn Q c rest) :
    Peels P ch := by
  have hP : ∀ rest, turn P ch rest = bodyTurn ends P rest :=
    fun rest => hturn P ch rest rfl rfl hpos hmax.ne
  by_cases hlast : P.contentLength = 1
  · have hmin : ∀ rest : Bytes, min P.contentLength (rest.length + 1) = 1 := fun rest => by omega
    refine .alone (fun rest => ?_) ?_
    · rw [hplain P ch rest rfl, hP, hP]
      simp only [bodyTurn, hmin]
    · rw [hP]
      simp only [bodyTurn, hmin]
  · have hnext : (passed P 1).next = passed P 1 := by
      rw [Parser.next, if_neg (by show ¬ P.state.parsingHeader = true; simp [hcode])]
    have hlen : (passed P 1).contentLength = P.contentLength - 1 := rfl
    refine .further (passed P 1) [.mark .body] (.inr rfl) ?_ (fun c rest _ => ?_)
      (fun c rest _ hok => ?_)
    · have hmin : min P.contentLength (([] : Bytes).length + 1) = 1 := by
        simp only [List.length_nil]
        omega
      rw [hP]
      simp only [bodyTurn, hmin]
      rw [if_neg (by omega)]
    · rw [hnext, hplain P ch _ rfl, hplain (passed P 1) c rest rfl, hP,
        hturn (passed P 1) c rest rfl rfl (by omega) (by omega),
        bodyTurn_cons (show 1 < P.contentLength by omega)]
      exact ⟨fun _ => rfl, rfl⟩
    · rw [hnext] at hok
      exact absurd he hok

theorem peels_bodyIdentityEof (hs : P.state = .bodyIdentityEof) (he : P.httpErrno = .ok) :
    Peels P ch := by
  have hturn : ∀ c rest, plainTurn P c rest = ⟨[.mark .body], rest.length, brk P⟩ :=
    fun c rest => by simp only [plainTurn, hs, turn, bodyIdentityEof]
  have hnext : P.next = P := by rw [Parser.next, if_neg (by rw [hs]; decide)]
  refine .further P [.mark .body] (.inr rfl) ?_ (fun c rest _ => ?_) (fun c rest _ hok => ?_)
  · simp only [turn, hs, bodyIdentityEof, List.length_nil]
  · rw [hnext, hturn, hturn]
    exact ⟨fun _ => rfl, rfl⟩
  · rw [hnext] at hok
    exact absurd he hok

/-- **Every pass can be made at its first byte alone first.** -/
theorem peels (he : P.httpErrno = .ok) (hn : P.nread ≤ maxHeaderSize)
    (hl : P.contentLength ≤ ullongMax) : Peels P ch := by
  cases hs : P.state
  case headerField => exact peels_headerField hs he hn
  case headerValue => exact peels_headerValue hs he hn
  case bodyIdentityEof => exact peels_bodyIdentityEof hs he
  case bodyIdentity =>
    by_cases hbad : P.contentLength = 0 ∨ P.contentLength = ullongMax
    · refine .alone (fun rest => ?_) ?_ <;>
        simp only [plainTurn, turn, hs, bodyIdentity, if_pos hbad]
    refine peels_body (fun P => (messageDone (P.enter .messageDone)).doing
      [.dataThrough .body .messageDone]) he ?_ ?_ (by rw [hs]; rfl) ?_ ?_
    · omega
    · omega
    · intro Q c rest hQ _ hpos hmax
      rw [hs] at hQ
      simp only [turn, hQ, bodyIdentity, if_neg (not_or.mpr ⟨hpos, hmax⟩), bodyTurn]
    · intro Q c rest hQ
      rw [hs] at hQ
      simp only [plainTurn, hQ]
  case chunkData =>
    by_cases hbad : (!P.flags.chunked) = true ∨ P.contentLength = 0 ∨ P.contentLength = ullongMax
    · refine .alone (fun rest => ?_) ?_ <;>
        simp only [plainTurn, turn, hs, chunkData, if_pos hbad]
    obtain ⟨hchunked, hpos, hmax⟩ : ¬ (!P.flags.chunked) = true ∧ P.contentLength ≠ 0 ∧
        P.contentLength ≠ ullongMax := by
      simpa only [not_or] using hbad
    refine peels_body (fun P => brk (P.enter .chunkDataAlmostDone)) he hpos
      (lt_of_le_of_ne hl hmax) (by rw [hs]; rfl) ?_ ?_
    · intro Q c rest hQ hflags hpos hmax
      rw [hs] at hQ
      have hgood : ¬ ((!Q.flags.chunked) = true ∨ Q.contentLength = 0 ∨
          Q.contentLength = ullongMax) := by
        rw [hflags]
        exact not_or.mpr ⟨hchunked, not_or.mpr ⟨hpos, hmax⟩⟩
      simp only [turn, hQ, chunkData, if_neg hgood, bodyTurn, apply_ite brk]
    · intro Q c rest hQ
      rw [hs] at hQ
      simp only [plainTurn, hQ]
  all_goals
    refine .alone (fun rest => ?_) ?_ <;> simp only [plainTurn, turn, hs]

/-! ### A buffer at its first byte -/

variable {S : Settings} {R R₁ : Run} {p : ℕ}

/-- A parser that has not failed, with its counters in range. -/
structure Parser.Sound (P : Parser) : Prop where
  errno : P.httpErrno = .ok
  nread : P.nread ≤ maxHeaderSize
  length : P.contentLength ≤ ullongMax

theorem Parser.Sound.of_le (h : P.Sound) (hle : P.Le P') : P'.Sound :=
  ⟨hle.errno.trans h.errno, hle.nread.trans h.nread, hle.length h.length⟩

/-! #### What a byte keeps -/

theorem countHeaderSize_zero (h : P.nread ≤ maxHeaderSize) : P.countHeaderSize 0 = P := by
  have hP : (P.nread + 0 % 2 ^ 32) % 2 ^ 32 = P.nread := by
    simp only [maxHeaderSize] at h
    omega
  rw [countHeaderSize_eq (by rw [hP]; exact h), hP]

theorem keeps_headerField (hs : P.state = .headerField) (hn : P.nread ≤ maxHeaderSize) :
    Keeps (some .headerField) P (turn P ch []).last := by
  simp only [turn, hs, headerField, headerFieldLoop_eq 0 P [ch] (.inl rfl), nameLoop]
  by_cases htoken : token ch = 0
  · rw [if_pos htoken]
    simp only [headerFieldEnd]
    rw [counted_zero hn]
    exact .ite (.doing (.brk ⟨rfl, le_rfl, id⟩ rfl) (.data .nil)) .fail
  rw [if_neg htoken]
  cases hchar : headerFieldChar P ch with
  | none => exact .abort
  | some P' =>
    obtain ⟨i, s, u, hP'⟩ := headerFieldChar_frame hchar
    have hn' : P'.nread ≤ maxHeaderSize := by rw [hP']; exact hn
    show Keeps _ P (counted P' 0 brk)
    rw [counted_zero hn', hP']
    exact .brk ⟨rfl, le_rfl, id⟩ (by rw [hs]; rfl)

theorem keeps_headerValue (hs : P.state = .headerValue) (hn : P.nread ≤ maxHeaderSize) :
    Keeps (some .headerValue) P (turn P ch []).last := by
  simp only [turn, hs, headerValue, headerValueLoop_singleton, valueLoop]
  by_cases hend : ch = CR ∨ ch = LF
  · rw [if_pos hend]
    simp only [headerValueEnd]
    by_cases hc : ch = CR
    · rw [if_pos hc, counted_zero (P := P.enter .headerAlmostDone) hn]
      exact .doing (.brk ⟨rfl, le_rfl, id⟩ rfl) (.data .nil)
    · rw [if_neg hc, countHeaderSize_zero (P := P.enter .headerAlmostDone) hn,
        if_neg (not_lt.mpr (show (P.enter .headerAlmostDone).nread ≤ _ from hn))]
      exact .doing (.mono .headerAlmostDone ⟨rfl, le_rfl, id⟩) (.data .nil)
  rw [if_neg hend]
  by_cases hbyte : valueByte P ch = true
  swap
  · rw [if_pos (by simpa using hbyte)]
    exact .fail
  rw [if_neg (by simpa using hbyte)]
  by_cases hab : P.headerState = .connection ∨ P.headerState = .transferEncoding
  · rw [if_pos hab]
    exact .abort
  rw [if_neg hab]
  obtain ⟨i, h, f, l, hP, hl⟩ := headerValueChar_frame P ch
  cases hchar : (headerValueChar P ch).2 with
  | some e => exact .fail
  | none =>
    show Keeps _ P (counted (headerValueChar P ch).1 0 brk)
    rw [hP, counted_zero (by exact hn)]
    exact .brk ⟨rfl, le_rfl, hl⟩ (by rw [hs]; rfl)

theorem le_passed (n : ℕ) : P.Le (passed P n) :=
  ⟨rfl, le_rfl, fun h => (Nat.sub_le _ _).trans h⟩

/-- The bounds are kept by every byte that is passed. -/
theorem le_turn (hn : P.nread ≤ maxHeaderSize) (hv : (turn P ch []).last.verdict = .next) :
    P.Le (turn P ch []).last.parser := by
  cases hs : P.state
  case headerField => exact (keeps_headerField hs hn).le hv
  case headerValue => exact (keeps_headerValue hs hn).le hv
  case bodyIdentityEof =>
    simp only [turn, hs, bodyIdentityEof]
    exact ⟨rfl, le_rfl, id⟩
  case bodyIdentity =>
    simp only [turn, hs, bodyIdentity] at hv ⊢
    split_ifs at hv ⊢
    · exact absurd hv (by simp [abort])
    · have hle := (Keeps.messageDone (P := (passed P _).enter .messageDone)).le hv
      exact (le_passed _).trans ⟨hle.errno, hle.nread, hle.length⟩
    · exact le_passed _
  case chunkData =>
    simp only [turn, hs, chunkData] at hv ⊢
    split_ifs at hv ⊢
    · exact absurd hv (by simp [abort])
    · exact ⟨rfl, le_rfl, fun h => (Nat.sub_le _ _).trans h⟩
    · exact le_passed _
  case chunkDataAlmostDone =>
    simp only [turn, hs, switch, chunkDataAlmostDone] at hv ⊢
    split_ifs at hv ⊢
    · exact absurd hv (by simp [abort])
    · exact (Keeps.expect (o := none) rfl).le hv
    · exact (Keeps.expect (o := none) rfl).le hv
  all_goals
    simp only [turn, hs] at hv ⊢
    exact (Keeps.switch (by rw [hs]; decide)).le hv

theorem counted_eq_next : R.counted = R.parser.next := rfl

/-- The struct of a pass that has been entered. -/
theorem Parser.Sound.next (h : P.Sound) (hok : P.next.httpErrno = .ok) :
    P.next.Sound ∧ P.next.state = P.state ∧
      (P.state.parsingHeader = true → P.next.nread = P.nread + 1) := by
  unfold Parser.next at hok ⊢
  split_ifs at hok ⊢ with hs
  · by_cases hle : P.nread + 1 ≤ maxHeaderSize
    · rw [countHeaderSize_one hle]
      exact ⟨⟨h.errno, hle, h.length⟩, rfl, fun _ => rfl⟩
    · rw [errno_countHeaderSize_one h.nread hle] at hok
      exact absurd hok (by decide)
  · exact ⟨h, rfl, fun hp => absurd hp hs⟩

/-- At the end of the buffer. -/
theorem loop_nil (skip : ℕ) : loop S skip R p [] =
    if R.marked ≤ 1 ∧ R.parser.httpErrno = .ok then (R.flush S).finish p .next
    else R.finish p .abort := by
  cases skip <;> rfl

theorem loop_of_next (hok : R.counted.httpErrno = .ok)
    (hv : (turn R.counted ch rest).last.verdict = .next) :
    loop S 0 R p (ch :: rest) =
      loop S (turn R.counted ch rest).advance
        (R.took S (turn R.counted ch rest) ch rest) (p + 1) rest := by
  rw [loop]
  dsimp only
  rw [if_neg (not_not.mpr hok)]
  simp only [hv]

theorem verdict_loop_of_ne
    (h : ¬ (R.counted.httpErrno = .ok ∧ (turn R.counted ch rest).last.verdict = .next)) :
    (loop S 0 R p (ch :: rest)).verdict ≠ .next := by
  rw [loop]
  dsimp only
  by_cases hok : R.counted.httpErrno = .ok
  · rw [if_neg (not_not.mpr hok)]
    have hv : (turn R.counted ch rest).last.verdict ≠ .next := fun hv => h ⟨hok, hv⟩
    cases hcase : (turn R.counted ch rest).last.verdict with
    | next => exact absurd hcase hv
    | leave => simp [Run.finish]
    | stop => simp [Run.finish]
    | abort => simp [Run.finish]
  · rw [if_pos hok]
    simp [Run.finish]

theorem step_eq_some : R.step S ch = some R₁ ↔
    R.counted.httpErrno = .ok ∧ (turn R.counted ch []).last.verdict = .next ∧
      R.took S (turn R.counted ch []) ch [] = R₁ := by
  unfold Run.step
  split_ifs with hok hv
  · simp [hok]
  · simp [not_not.mp hok, hv]
  · simp [hv]

/-- The marks of a pass that has moved on nowhere. -/
theorem took_of_advance_zero {t : Turn} (h : t.advance = 0) :
    R.took S t ch rest = R.took S t ch [] := by
  unfold Run.took
  rw [h]
  rfl

theorem pass_nil : R.pass [] = R := by
  simp [Run.pass]

theorem pass_pass (as bs : Bytes) : (R.pass as).pass bs = R.pass (as ++ bs) := by
  simp [Run.pass, Function.comp_def]

/-- The same marks, set once. -/
theorem took_further (P' : Parser) {t : Turn} {c : UInt8}
    (h : t.before = [] ∨ t.before = [.mark .body]) :
    R.took S t.further ch (c :: rest) =
      (R.took S ⟨t.before, 0, brk P'⟩ ch []).took S t c rest := by
  -- the marks that are set first are there already at the second byte
  have hbefore : ∀ (R : Run) (Q : Parser), Run.acts S c t.before
      { (Run.acts S ch t.before R).pass [ch] with parser := Q } =
        (Run.acts S ch t.before { R with parser := Q }).pass [ch] := by
    rcases h with h | h <;> rw [h]
    · exact fun R Q => rfl
    · intro R Q
      simp only [Run.acts, List.foldl_cons, List.foldl_nil, Run.act, Run.pass, Run.mk.injEq,
        true_and, and_true]
      funext d
      by_cases hd : d = .body
      · subst hd
        simp
      · simp [Function.update_of_ne hd]
  have hone : R.took S ⟨t.before, 0, brk P'⟩ ch [] =
      (Run.acts S ch t.before { R with parser := P' }).pass [ch] := by
    show ((Run.acts S ch t.before { R with parser := P' }).pass []).pass [ch] = _
    rw [pass_nil]
  rw [hone]
  unfold Run.took
  dsimp only
  rw [hbefore { R with parser := P' } t.last.parser, pass_pass]
  rfl

theorem parser_callback (d : Datum) (s : State) (through : Bytes) :
    (R.callback S d s through).parser = R.parser := by
  unfold Run.callback
  split <;> rfl

theorem parser_acts (as : List Action) : (Run.acts S ch as R).parser = R.parser := by
  induction as generalizing R with
  | nil => rfl
  | cons a as ih =>
    refine (ih (R := Run.act S ch R a)).trans ?_
    cases a with
    | data d s => exact parser_callback d s []
    | dataThrough d s => exact parser_callback d s [ch]
    | _ => rfl

theorem parser_took (t : Turn) : (R.took S t ch rest).parser = t.last.parser := by
  unfold Run.took
  exact (parser_acts t.last.actions).trans (parser_acts t.before)

/-- **A buffer is parsed by its first byte and then by its rest**, where the passes at both
go on and their scans make no difference. -/
theorem loop_cons (hR : R.parser.Sound) (hstep : R.step S ch = some R₁)
    (hagree : (turn R.counted ch rest).Agree (plainTurn R.counted ch rest))
    (hrest : ∀ c cs, rest = c :: cs → R₁.counted.httpErrno = .ok →
      (turn R₁.counted c cs).Agree (plainTurn R₁.counted c cs))
    (h : (turn R.counted ch rest).last.verdict = .next ∧ rest.length + 1 < 2 ^ 31 ∨
      ∀ c cs, rest = c :: cs →
        R₁.counted.httpErrno = .ok ∧ (turn R₁.counted c cs).last.verdict = .next) :
    loop S 0 R p (ch :: rest) = loop S 0 R₁ (p + 1) rest := by
  obtain ⟨hok, hone, rfl⟩ := step_eq_some.mp hstep
  obtain ⟨hsound, -, -⟩ := hR.next hok
  have hpeels : Peels R.counted ch := peels hok hsound.nread hsound.length
  rcases hpeels with ⟨halone, hzero⟩ |
    ⟨P', before, hbefore, hturn, hmore, hfull⟩
  · -- the pass does not look behind its byte
    have hplain : plainTurn R.counted ch rest = turn R.counted ch [] := halone rest
    have hsame := hagree (.inr (by rw [hplain]; exact hone))
    rw [hplain] at hsame
    rw [loop_of_next hok (by rw [hsame]; exact hone), hsame, hzero, took_of_advance_zero hzero]
  · cases rest with
    | nil =>
      rw [loop_of_next hok hone]
      rfl
    | cons c rest =>
      have hnext : (R.took S (turn R.counted ch []) ch []).counted = P'.next := by
        rw [counted_eq_next, parser_took, hturn]
        rfl
      have hok' : P'.next.httpErrno = .ok := by
        rcases h with ⟨hv, hlt⟩ | hv
        · by_contra hne
          refine hfull c rest (by simpa using hlt) hne ?_
          rw [← hagree (.inl hv)]
          exact hv
        · rw [← hnext]
          exact (hv c rest rfl).1
      have hagree' := hrest c rest rfl (by rw [hnext]; exact hok')
      rw [hnext] at hagree'
      obtain ⟨hboth, hbefore'⟩ := hmore c rest hok'
      have hv : (plainTurn P'.next c rest).last.verdict = .next := by
        rcases h with ⟨hv, -⟩ | hv
        · have heq := hagree (.inl hv)
          rw [heq] at hv
          rw [hboth (.inl hv)] at hv
          exact hv
        · have hv := (hv c rest rfl).2
          rw [hnext] at hv
          rw [hagree' (.inl hv)] at hv
          exact hv
      have hsame : turn P'.next c rest = plainTurn P'.next c rest := hagree' (.inr hv)
      have htwo : turn R.counted ch (c :: rest) = (turn P'.next c rest).further := by
        rw [hsame, ← hboth (.inr hv)]
        exact hagree (.inr (by rw [hboth (.inr hv)]; exact hv))
      have hv' : (turn P'.next c rest).last.verdict = .next := by rw [hsame]; exact hv
      have hbefore'' : (turn P'.next c rest).before = before := by
        rw [hsame]
        exact hbefore'
      rw [loop_of_next hok (by rw [htwo]; exact hv'), htwo,
        loop_of_next (by rw [hnext]; exact hok') (by rw [hnext]; exact hv'), hnext, hturn,
        took_further P' (by rw [hbefore'']; exact hbefore), hbefore'']
      rfl

theorem Parser.Sound.step (h : R.parser.Sound) (hstep : R.step S ch = some R₁) :
    R₁.parser.Sound := by
  obtain ⟨hok, hv, rfl⟩ := step_eq_some.mp hstep
  obtain ⟨hsound, -, -⟩ := h.next hok
  rw [parser_took]
  exact hsound.of_le (le_turn hsound.nread hv)

theorem Parser.Sound.run (h : R.parser.Sound) (hrun : run (Run.step S) bs R = some R₁) :
    R₁.parser.Sound := by
  induction bs generalizing R with
  | nil =>
    obtain rfl := Option.some_inj.mp hrun
    exact h
  | cons ch rest ih =>
    obtain ⟨R', hstep, hrest⟩ := run_cons_eq_some.mp hrun
    exact ih (h.step hstep) hrest

/-- A byte at which a value goes on or ends. -/
theorem valueLoop_of_step (hR : R.parser.Sound) (hs : R.parser.state = .headerValue)
    (hstep : R.step S ch = some R₁) :
    (∀ rest, valueLoop R.counted (ch :: rest) = ⟨R.counted, 0, .at ch⟩) ∨
      R₁.parser.state = .headerValue ∧ R₁.parser.nread = R.counted.nread ∧
        ∀ rest, valueLoop R.counted (ch :: rest) = (valueLoop R₁.parser rest).further := by
  obtain ⟨hok, hv, rfl⟩ := step_eq_some.mp hstep
  obtain ⟨hsound, hstate, -⟩ := hR.next hok
  have hs' : R.counted.state = .headerValue := hstate.trans hs
  have hturn : turn R.counted ch [] = headerValueEnd R.counted.headerState
      (valueLoop R.counted [ch]) := by
    simp only [turn, hs', headerValue, headerValueLoop_singleton]
  rw [hturn] at hv
  rw [parser_took, hturn]
  by_cases hend : ch = CR ∨ ch = LF
  · exact .inl fun rest => by rw [valueLoop, if_pos hend]
  by_cases hbyte : (!valueByte R.counted ch) = true
  · rw [valueLoop, if_neg hend, if_pos hbyte] at hv
    exact absurd hv (by simp [headerValueEnd, fail])
  by_cases hab : R.counted.headerState = .connection ∨ R.counted.headerState = .transferEncoding
  · rw [valueLoop, if_neg hend, if_neg hbyte, if_pos hab] at hv
    exact absurd hv (by simp [headerValueEnd, abort])
  cases hchar : (headerValueChar R.counted ch).2 with
  | some e =>
    rw [valueLoop, if_neg hend, if_neg hbyte, if_neg hab, hchar] at hv
    exact absurd hv (by simp [headerValueEnd, fail])
  | none =>
    have hloop : ∀ rest, valueLoop R.counted (ch :: rest) =
        (valueLoop (headerValueChar R.counted ch).1 rest).further := fun rest => by
      rw [valueLoop, if_neg hend, if_neg hbyte, if_neg hab, hchar]
    have hn := nread_headerValueChar R.counted ch
    obtain ⟨i, h, f, l, hP, -⟩ := headerValueChar_frame R.counted ch
    have hparser : (headerValueEnd R.counted.headerState
        (valueLoop R.counted [ch])).last.parser = (headerValueChar R.counted ch).1 := by
      rw [hloop]
      show (counted (headerValueChar R.counted ch).1 0 brk).parser = _
      rw [counted_zero (by rw [hn]; exact hsound.nread)]
      rfl
    rw [hparser]
    exact .inr ⟨by rw [hP]; exact hs', hn, hloop⟩

/-- A value that is passed byte by byte is not too long. -/
theorem not_over_of_run {R' : Run} (hR : R.parser.Sound) (hs : R.parser.state = .headerValue)
    (hrun : run (Run.step S) (ch :: rest) R = some R') :
    ¬ (valueLoop R.counted (ch :: rest)).Over := by
  induction rest generalizing R ch with
  | nil =>
    obtain ⟨R₁, hstep, -⟩ := run_cons_eq_some.mp hrun
    have hle := (hR.next (step_eq_some.mp hstep).1).1.nread
    rcases valueLoop_of_step hR hs hstep with hat | ⟨-, hn, hloop⟩
    · rw [hat]
      exact not_lt.mpr hle
    · rw [hloop]
      show ¬ maxHeaderSize < R₁.parser.nread + (0 + 1 - 1)
      rw [hn]
      exact not_lt.mpr hle
  | cons c rest ih =>
    obtain ⟨R₁, hstep, hrest⟩ := run_cons_eq_some.mp hrun
    have hle := (hR.next (step_eq_some.mp hstep).1).1.nread
    rcases valueLoop_of_step hR hs hstep with hat | ⟨hs₁, hn, hloop⟩
    · rw [hat]
      exact not_lt.mpr hle
    · -- the count that the next byte begins with is one more
      have hR₁ := hR.step hstep
      obtain ⟨R₂, hstep₁, -⟩ := run_cons_eq_some.mp hrest
      have hok₁ := (step_eq_some.mp hstep₁).1
      have hover := ih hR₁ hs₁ hrest
      have hroom : R₁.parser.nread + 1 ≤ maxHeaderSize := by
        have := (hR₁.next hok₁).1.nread
        rw [(hR₁.next hok₁).2.2 (by rw [hs₁]; rfl)] at this
        exact this
      have hnext : R₁.counted = R₁.parser.reading (R₁.parser.nread + 1) := by
        rw [counted_eq_next, Parser.next, if_pos (by rw [hs₁]; rfl), countHeaderSize_one hroom]
      have hmoved := (moved_valueLoop R₁.parser (c :: rest)).2
      rw [hnext, valueLoop_reading] at hover
      rw [hloop]
      unfold Inner.Over Inner.further at *
      have hn' := nread_valueLoop R₁.parser (c :: rest)
      cases hend : (valueLoop R₁.parser (c :: rest)).ending <;>
        simp only [hend, nread_reading] at hover ⊢
      · have := hmoved hend
        simp only [List.length_cons] at this
        omega
      · omega
      · exact hover
      · exact hover

/-- The scans make no difference to what is passed byte by byte. -/
theorem turn_eq_plainTurn_of_run {R' : Run} (hR : R.parser.Sound)
    (hrun : run (Run.step S) (ch :: rest) R = some R') :
    turn R.counted ch rest = plainTurn R.counted ch rest := by
  obtain ⟨R₁, hstep, -⟩ := run_cons_eq_some.mp hrun
  obtain ⟨hok, -, -⟩ := step_eq_some.mp hstep
  obtain ⟨hsound, hstate, hread⟩ := hR.next hok
  cases hs : R.counted.state
  case headerField =>
    simp only [turn, plainTurn, hs, headerField, headerFieldLoop_eq 0 _ (ch :: rest) (.inl rfl)]
  case headerValue =>
    have hs' : R.parser.state = .headerValue := by
      rw [← hstate, ← counted_eq_next]
      exact hs
    have hpos : 1 ≤ R.counted.nread := by
      rw [counted_eq_next, hread (by rw [hs']; rfl)]
      omega
    simp only [turn, plainTurn, hs, headerValue]
    rcases headerValueLoop_eq 0 R.counted (ch :: rest) (.inl rfl) with heq | ⟨-, hlong⟩
    · rw [heq]
    · refine absurd (hlong.over ?_) (not_over_of_run hR hs' hrun)
      rw [nread_valueLoop]
      exact hpos
  all_goals simp only [plainTurn, hs]

/-- The same, for a buffer that is not too long. -/
theorem agree_plainTurn (hR : R.parser.Sound) (hok : R.counted.httpErrno = .ok)
    (hlt : rest.length + 1 < 2 ^ 31) :
    (turn R.counted ch rest).Agree (plainTurn R.counted ch rest) := by
  obtain ⟨hsound, hstate, hread⟩ := hR.next hok
  intro hv
  exact turn_eq_plainTurn (fun hs => by
    rw [counted_eq_next, hread (by rw [← hstate, ← counted_eq_next, hs]; rfl)]
    omega) hsound.nread hlt hv

/-- A byte that is not passed alone is not passed with others behind it. -/
theorem verdict_loop_of_step_none (hR : R.parser.Sound) (hlt : rest.length + 1 < 2 ^ 31)
    (hstep : R.step S ch = none) :
    (loop S 0 R p (ch :: rest)).verdict ≠ .next := by
  refine verdict_loop_of_ne fun ⟨hok, hv⟩ => ?_
  obtain ⟨hsound, -, -⟩ := hR.next hok
  have hplain : turn R.counted ch rest = plainTurn R.counted ch rest :=
    agree_plainTurn hR hok hlt (.inl hv)
  have hone : (turn R.counted ch []).last.verdict = .next := by
    have hpeels : Peels R.counted ch := peels hok hsound.nread hsound.length
    rcases hpeels with ⟨halone, -⟩ |
      ⟨P', before, -, hturn, -, -⟩
    · rw [hplain, halone] at hv
      exact hv
    · rw [hturn]
      rfl
  exact absurd (step_eq_some.mpr ⟨hok, hone, rfl⟩) (by rw [hstep]; simp)

/-- **A call goes through a buffer as its bytes do one by one**, and then makes the
callback for the mark that is left. -/
theorem loop_of_run {R' : Run} (hR : R.parser.Sound)
    (hrun : run (Run.step S) bs R = some R') (hmarked : R'.marked ≤ 1) :
    loop S 0 R p bs = (R'.flush S).finish (p + bs.length) .next := by
  induction bs generalizing R p with
  | nil =>
    obtain rfl := Option.some_inj.mp hrun
    rw [loop_nil, if_pos ⟨hmarked, hR.errno⟩, List.length_nil, Nat.add_zero]
  | cons ch rest ih =>
    obtain ⟨R₁, hstep, hrest⟩ := run_cons_eq_some.mp hrun
    have hnext : ∀ c cs, rest = c :: cs → R₁.counted.httpErrno = .ok ∧
        turn R₁.counted c cs = plainTurn R₁.counted c cs ∧
          (turn R₁.counted c cs).last.verdict = .next := by
      rintro c cs rfl
      have hend := ih (hR.step hstep) hrest (p := p + 1)
      have hnot : ¬ ¬ (R₁.counted.httpErrno = .ok ∧ (turn R₁.counted c cs).last.verdict = .next) :=
        mt (verdict_loop_of_ne (S := S) (p := p + 1)) (not_not.mpr (by rw [hend]; rfl))
      obtain ⟨hok, hv⟩ := not_not.mp hnot
      exact ⟨hok, turn_eq_plainTurn_of_run (hR.step hstep) hrest, hv⟩
    rw [loop_cons hR hstep (fun _ => turn_eq_plainTurn_of_run hR hrun)
      (fun c cs h _ _ => (hnext c cs h).2.1)
      (.inr fun c cs h => ⟨(hnext c cs h).1, (hnext c cs h).2.2⟩),
      ih (hR.step hstep) hrest, List.length_cons, add_right_comm, add_assoc]

/-- A buffer whose bytes are not passed one by one is not parsed to its end. -/
theorem verdict_loop_of_run_none (hR : R.parser.Sound) (hlt : bs.length < 2 ^ 31)
    (hrun : run (Run.step S) bs R = none) :
    (loop S 0 R p bs).verdict ≠ .next := by
  induction bs generalizing R p with
  | nil => exact absurd hrun (by simp)
  | cons ch rest ih =>
    have hrest : rest.length + 1 < 2 ^ 31 := hlt
    rw [run_cons] at hrun
    cases hstep : R.step S ch with
    | none => exact verdict_loop_of_step_none hR hrest hstep
    | some R₁ =>
      rw [hstep] at hrun
      intro hv
      have hturn : (turn R.counted ch rest).last.verdict = .next := by
        by_contra hne
        exact verdict_loop_of_ne (fun h => hne h.2) hv
      have hok := (step_eq_some.mp hstep).1
      rw [loop_cons hR hstep (agree_plainTurn hR hok hrest)
        (fun c cs h hok => agree_plainTurn (hR.step hstep) hok (by rw [h] at hrest; simpa using
          (Nat.lt_of_succ_lt hrest)))
        (.inl ⟨hturn, hrest⟩)] at hv
      exact ih (hR.step hstep) (by omega) hrun hv

end ParserLib

end Server
