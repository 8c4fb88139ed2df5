/-
What the parser makes of a byte string.

`Reads S P bs P' out` — from the struct `P` the bytes `bs` are parsed to their end,
leave the struct `P'`, and report the stream `out`, up to the cuts of its data.

* `Reads.append`, `Reads.cons` — byte strings one after the other;
* `tick_switch`, `tick_name`, `tick_value` — single bytes of a header.
-/
import AsyncServer.ParserBlocks

namespace Server

open CString Pieces

namespace ParserLib

/-- From `P` the bytes are parsed to their end, leave `P'` and report `out`. -/
def Reads (S : Settings) (P : Parser) (bs : Bytes) (P' : Parser) (out : Stream) : Prop :=
  ∃ o, ticks S P bs = some (P', o) ∧ join o = join out

variable {S : Settings} {P P' P'' Q : Parser} {ch : UInt8} {bs bs' : Bytes}
variable {out out' o : Stream}

namespace Reads

theorem nil : Reads S P [] P [] := ⟨[], rfl, rfl⟩

theorem append (h : Reads S P bs P' out) (h' : Reads S P' bs' P'' out') :
    Reads S P (bs ++ bs') P'' (out ++ out') := by
  obtain ⟨o, ho, hjoin⟩ := h
  obtain ⟨o', ho', hjoin'⟩ := h'
  refine ⟨o ++ o', ?_, ?_⟩
  · rw [ticks_append, ho, Option.bind_some, ho', Option.map_some]
  · rw [join_append_congr hjoin, join_append_congr_right hjoin']

theorem one (h : tick S P ch = some (P', o)) : Reads S P [ch] P' o := by
  refine ⟨o, ?_, rfl⟩
  rw [ticks, h]
  simp [ticks]

theorem cons (h : tick S P ch = some (P', o)) (h' : Reads S P' bs P'' out) :
    Reads S P (ch :: bs) P'' (o ++ out) := (one h).append h'

/-- Where the data of the report are cut does not matter. -/
theorem congr (h : Reads S P bs P' out) (hjoin : join out = join out') :
    Reads S P bs P' out' := by
  obtain ⟨o, ho, heq⟩ := h
  exact ⟨o, ho, heq.trans hjoin⟩

end Reads

/-! ### Single bytes of a header -/

/-- A struct in the part of a message of which the bytes are counted, with room for one
more. -/
structure Parser.Counting (P : Parser) : Prop where
  errno : P.httpErrno = .ok
  parsing : P.state.parsingHeader = true
  room : P.nread < maxHeaderSize

theorem Parser.Counting.next (h : P.Counting) : P.next = P.reading (P.nread + 1) := by
  rw [Parser.next, if_pos h.parsing, countHeaderSize_one h.room]

/-- A state whose case looks at one byte. -/
def State.single (s : State) : Bool :=
  s ≠ .headerField && s ≠ .headerValue && s ≠ .bodyIdentity && s ≠ .bodyIdentityEof &&
    s ≠ .chunkData

theorem turn_of_single (h : P.state.single = true) :
    turn P ch [] = ⟨[], 0, switch P ch⟩ := by
  cases hs : P.state <;> rw [hs] at h <;>
    first | exact absurd h (by decide) | simp only [turn, hs]

/-- What a case shows in the stream. -/
def Case.shows (S : Settings) (o : Option Datum) (ch : UInt8) (t : Case) : Stream :=
  t.actions.flatMap (Action.shows S ch) ++
    openPiece S (t.actions.foldl Action.opens o) [ch]

/-- A case that only runs the callback of a datum. -/
theorem shows_of_data {t : Case} {d : Datum} {s : State} {c : UInt8} {o : Option Datum}
    (h : t.actions = [.data d s]) : t.shows S o c = cut S d := by
  simp [Case.shows, h, Action.shows, Action.adds, Action.opens, openPiece]

/-- A byte, where the pass is known. -/
theorem tick_of_turn {t : Case} (h : P.Counting)
    (ht : turn (P.reading (P.nread + 1)) ch [] = ⟨[], 0, t⟩) (hv : t.verdict = .next) :
    tick S P ch = some (t.parser, t.shows S P.state.openDatum ch) := by
  rw [← h.next] at ht
  refine tick_eq_some.mpr ⟨?_, ?_, ?_⟩
  · rw [h.next]
    exact h.errno
  · rw [ht]
    exact hv
  · rw [ht]
    rfl

/-- A byte, where the switch is known. -/
theorem tick_switch {t : Case} (h : P.Counting) (hs : P.state.single = true)
    (ht : switch (P.reading (P.nread + 1)) ch = t) (hv : t.verdict = .next) :
    tick S P ch = some (t.parser, t.shows S P.state.openDatum ch) :=
  tick_of_turn h (by rw [turn_of_single (P := P.reading (P.nread + 1)) hs, ht]) hv

/-- What a byte that is parsed says of the switch. -/
theorem Parser.Sound.of_tick (h : P.Sound) (hp : P.state.parsingHeader = true)
    (hs : P.state.single = true) {r : Parser × Stream} (htick : tick S P ch = some r) :
    P.Counting ∧ (switch (P.reading (P.nread + 1)) ch).verdict = .next ∧
      r = ((switch (P.reading (P.nread + 1)) ch).parser,
        (switch (P.reading (P.nread + 1)) ch).shows S P.state.openDatum ch) := by
  have hok := (tick_eq_some.mp htick).1
  have hroom : P.nread < maxHeaderSize := by
    have := (h.next hok).1.nread
    rw [(h.next hok).2.2 hp] at this
    exact this
  have hcount : P.Counting := ⟨h.errno, hp, hroom⟩
  have hturn : turn (P.reading (P.nread + 1)) ch [] =
      ⟨[], 0, switch (P.reading (P.nread + 1)) ch⟩ := turn_of_single hs
  have hv : (switch (P.reading (P.nread + 1)) ch).verdict = .next := by
    have := (tick_eq_some.mp htick).2.1
    rw [hcount.next, hturn] at this
    exact this
  rw [tick_of_turn hcount hturn hv] at htick
  exact ⟨hcount, hv, (Option.some_inj.mp htick).symm⟩

/-- A byte after which nothing is done, and no datum is open. -/
theorem tick_brk (h : P.Counting) (hs : P.state.single = true) (ho : P.state.openDatum = none)
    (ht : switch (P.reading (P.nread + 1)) ch = brk P') :
    tick S P ch = some (P', []) := by
  rw [tick_switch h hs ht rfl, ho]
  rfl

theorem Parser.Counting.counted_zero (h : P.Counting) (f : Parser → Case) :
    counted (P.reading (P.nread + 1)) 0 f = f (P.reading (P.nread + 1)) :=
  ParserLib.counted_zero h.room

theorem turn_name (hs : P.state = .headerField) :
    turn P ch [] = headerFieldEnd (nameLoop P [ch]) := by
  simp only [turn, hs, headerField, headerFieldLoop_eq 0 _ _ (.inl rfl)]

theorem turn_value (hs : P.state = .headerValue) :
    turn P ch [] = headerValueEnd P.headerState (valueLoop P [ch]) := by
  simp only [turn, hs, headerValue, headerValueLoop_singleton]

/-- A byte of a name. -/
theorem tick_name (h : P.Counting) (hs : P.state = .headerField) (hch : token ch ≠ 0)
    (hQ : headerFieldChar P ch = some Q) :
    tick S P ch = some (Q.reading (P.nread + 1), piece S .headerField [ch]) := by
  have hchar : headerFieldChar (P.reading (P.nread + 1)) ch =
      some (Q.reading (P.nread + 1)) := by
    rw [headerFieldChar_reading, hQ]
    rfl
  have hturn : turn (P.reading (P.nread + 1)) ch [] = ⟨[], 0, brk (Q.reading (P.nread + 1))⟩ := by
    rw [turn_name (P := P.reading (P.nread + 1)) hs, nameLoop, if_neg hch, hchar]
    show (⟨[], 0, counted (Q.reading (P.nread + 1)) 0 brk⟩ : Turn) = _
    rw [ParserLib.counted_zero (show P.nread + 1 ≤ maxHeaderSize from h.room)]
  rw [tick_of_turn h hturn rfl, hs]
  rfl

/-- The colon behind a name. -/
theorem tick_colon (h : P.Counting) (hs : P.state = .headerField) :
    tick S P (byte ':') =
      some ((P.reading (P.nread + 1)).enter .headerValueDiscardWs, cut S .headerField) := by
  have hturn : turn (P.reading (P.nread + 1)) (byte ':') [] = ⟨[], 0,
      (brk ((P.reading (P.nread + 1)).enter .headerValueDiscardWs)).doing
        [.data .headerField .headerValueDiscardWs]⟩ := by
    rw [turn_name (P := P.reading (P.nread + 1)) hs, nameLoop, if_pos (by decide)]
    simp only [headerFieldEnd]
    rw [h.counted_zero, if_pos trivial]
  rw [tick_of_turn h hturn rfl, shows_of_data rfl]
  rfl

/-- A byte of a value. -/
theorem tick_value (h : P.Counting) (hs : P.state = .headerValue) (hch : PlainByte P ch)
    (hstate : P.headerState ≠ .connection ∧ P.headerState ≠ .transferEncoding)
    (hQ : headerValueChar P ch = (Q, none)) :
    tick S P ch = some (Q.reading (P.nread + 1), piece S .headerValue [ch]) := by
  have hchar : headerValueChar (P.reading (P.nread + 1)) ch =
      (Q.reading (P.nread + 1), none) := by
    rw [headerValueChar_reading, hQ]
  have hbyte : ¬ (!valueByte (P.reading (P.nread + 1)) ch) = true := by
    rw [show valueByte (P.reading (P.nread + 1)) ch = true from hch.2.2]
    decide
  have hturn : turn (P.reading (P.nread + 1)) ch [] = ⟨[], 0, brk (Q.reading (P.nread + 1))⟩ := by
    rw [turn_value (P := P.reading (P.nread + 1)) hs, valueLoop,
      if_neg (not_or.mpr ⟨hch.1, hch.2.1⟩), if_neg hbyte,
      headerState_reading, if_neg (not_or.mpr hstate), hchar]
    show (⟨[], 0, counted (Q.reading (P.nread + 1)) 0 brk⟩ : Turn) = _
    rw [ParserLib.counted_zero (show P.nread + 1 ≤ maxHeaderSize from h.room)]
  rw [tick_of_turn h hturn rfl, hs]
  rfl

/-- The carriage return behind a value. -/
theorem tick_value_end (h : P.Counting) (hs : P.state = .headerValue) :
    tick S P CR =
      some ((P.reading (P.nread + 1)).enter .headerAlmostDone, cut S .headerValue) := by
  have hturn : turn (P.reading (P.nread + 1)) CR [] = ⟨[], 0,
      (brk ((P.reading (P.nread + 1)).enter .headerAlmostDone)).doing
        [.data .headerValue .headerAlmostDone]⟩ := by
    rw [turn_value (P := P.reading (P.nread + 1)) hs, valueLoop, if_pos (.inl rfl)]
    simp only [headerValueEnd, if_true]
    rw [ParserLib.counted_zero (P := (P.reading (P.nread + 1)).enter .headerAlmostDone) h.room]
  rw [tick_of_turn h hturn rfl, shows_of_data rfl]
  rfl

end ParserLib

end Server
