/-
The header lines of a message.

`lineFold` is what a header line does to the struct, by its name and its value.

* `reads_line` — a line of the grammar is read as it stands, without the blanks before its
  value; its end is seen at the next byte only, which must not be a blank;
* `reads_headerBlock` — so are all lines of a message.
-/
import AsyncServer.ParserNames
import AsyncServer.RequestGrammar

namespace Server

open CString Pieces

namespace ParserLib

variable {S : Settings} {P P' Q : Parser} {ch : UInt8} {rest : Bytes} {out : Stream}

/-! ### The machines on the bytes of a line -/

/-- Bytes of a datum that are reported one by one. -/
def pieces (S : Settings) (d : Datum) (cs : Bytes) : Stream :=
  cs.flatMap fun c => piece S d [c]

theorem join_pieces {d : Datum} {x : Bytes} (cs : Bytes) (xs ys : Stream) :
    join (xs ++ (piece S d x ++ (pieces S d cs ++ ys))) =
      join (xs ++ (piece S d (x ++ cs) ++ ys)) := by
  induction cs generalizing x with
  | nil => simp [pieces]
  | cons c cs ih =>
    have hone : pieces S d (c :: cs) = piece S d [c] ++ pieces S d cs := rfl
    rw [hone, List.append_assoc, join_piece_piece, ih, List.append_assoc, List.singleton_append]

theorem join_marked {d : Datum} {c : UInt8} {cs : Bytes} :
    join ((piece S d [] ++ piece S d [c]) ++ pieces S d cs) =
      join (piece S d (c :: cs)) := by
  have hjoin := join_pieces (S := S) (d := d) (x := [c]) cs [] []
  have hmark := join_piece_piece (S := S) (d := d) (x := []) (y := [c]) []
    (pieces S d cs)
  simp only [List.nil_append, List.append_nil, List.singleton_append] at hjoin hmark
  rw [List.append_assoc, hmark, hjoin]

/-- A case that only sets a mark. -/
theorem shows_of_mark {t : Case} {d : Datum} {c : UInt8} {o : Option Datum}
    (h : t.actions = [.mark d]) :
    t.shows S o c = piece S d [] ++ piece S d [c] := by
  simp [Case.shows, h, Action.shows, Action.adds, Action.opens, openPiece]

/-- A datum, and its end. -/
def whole (S : Settings) (d : Datum) (x : Bytes) : Stream :=
  piece S d x ++ cut S d

theorem join_whole {d : Datum} {c : UInt8} {cs : Bytes} :
    join ((piece S d [] ++ piece S d [c]) ++ (pieces S d cs ++ cut S d)) =
      join (whole S d (c :: cs)) := by
  rw [← List.append_assoc, join_append_congr join_marked]
  rfl

theorem nameFold_reading {cs : Bytes} (h : nameFold P cs = some Q) (n : ℕ) :
    nameFold (P.reading n) cs = some (Q.reading n) := by
  induction cs generalizing P with
  | nil =>
    obtain rfl := Option.some_inj.mp h
    rfl
  | cons c cs ih =>
    obtain ⟨Q₁, hQ₁, hrest⟩ := Option.bind_eq_some_iff.mp h
    refine Option.bind_eq_some_iff.mpr ⟨Q₁.reading n, ?_, ih hrest⟩
    rw [headerFieldChar_reading, hQ₁]
    rfl

theorem valueStep_reading (n : ℕ) :
    valueStep (P.reading n) ch = (valueStep P ch).map (·.reading n) := by
  unfold valueStep
  rw [headerState_reading, headerValueChar_reading]
  split_ifs <;> rfl

theorem valueFold_reading {cs : Bytes} (h : valueFold P cs = some Q) (n : ℕ) :
    valueFold (P.reading n) cs = some (Q.reading n) := by
  induction cs generalizing P with
  | nil =>
    obtain rfl := Option.some_inj.mp h
    rfl
  | cons c cs ih =>
    obtain ⟨Q₁, hQ₁, hrest⟩ := Option.bind_eq_some_iff.mp h
    refine Option.bind_eq_some_iff.mpr ⟨Q₁.reading n, ?_, ih hrest⟩
    rw [valueStep_reading, hQ₁]
    rfl

@[simp] theorem reading_reading (m n : ℕ) : (P.reading m).reading n = P.reading n := rfl

/-- **The bytes of a name.** -/
theorem reads_nameFold {cs : Bytes} (hs : P.state = .headerField) (he : P.httpErrno = .ok)
    (hroom : P.nread + cs.length ≤ maxHeaderSize) (hcs : ∀ c ∈ cs, token c ≠ 0)
    (h : nameFold P cs = some Q) :
    Reads S P cs (Q.reading (P.nread + cs.length)) (pieces S .headerField cs) := by
  induction cs generalizing P Q with
  | nil =>
    obtain rfl := Option.some_inj.mp h
    exact Reads.nil
  | cons c cs ih =>
    obtain ⟨Q₁, hQ₁, hrest⟩ := Option.bind_eq_some_iff.mp h
    rw [List.length_cons] at hroom ⊢
    have hcount : P.Counting := ⟨he, by rw [hs]; rfl, by omega⟩
    obtain ⟨i, s, u, hframe⟩ := headerFieldChar_frame hQ₁
    have hnext := ih (P := Q₁.reading (P.nread + 1)) (by rw [hframe]; exact hs)
      (by rw [hframe]; exact he) (by rw [nread_reading]; omega) (fun c hc => hcs c (by simp [hc]))
      (nameFold_reading hrest _)
    rw [nread_reading, reading_reading, add_assoc, add_comm 1] at hnext
    exact Reads.cons (tick_name hcount hs (hcs c (by simp)) hQ₁) hnext

/-- **The bytes of a value.** -/
theorem reads_valueFold {cs : Bytes} (hs : P.state = .headerValue) (he : P.httpErrno = .ok)
    (hroom : P.nread + cs.length ≤ maxHeaderSize) (hcs : ∀ c ∈ cs, PlainByte P c)
    (h : valueFold P cs = some Q) :
    Reads S P cs (Q.reading (P.nread + cs.length)) (pieces S .headerValue cs) := by
  induction cs generalizing P Q with
  | nil =>
    obtain rfl := Option.some_inj.mp h
    exact Reads.nil
  | cons c cs ih =>
    obtain ⟨Q₁, hQ₁, hrest⟩ := Option.bind_eq_some_iff.mp h
    rw [List.length_cons] at hroom ⊢
    have hcount : P.Counting := ⟨he, by rw [hs]; rfl, by omega⟩
    unfold valueStep at hQ₁
    split_ifs at hQ₁ with hstate hchar
    obtain rfl := Option.some_inj.mp hQ₁
    obtain ⟨i, s, f, l, hframe, -⟩ := headerValueChar_frame P c
    have hnext := ih (P := (headerValueChar P c).1.reading (P.nread + 1))
      (by rw [hframe]; exact hs) (by rw [hframe]; exact he) (by rw [nread_reading]; omega)
      (fun c' hc' => by
        have := hcs c' (by simp [hc'])
        rw [hframe]
        exact this)
      (valueFold_reading hrest _)
    rw [nread_reading, reading_reading, add_assoc, add_comm 1] at hnext
    exact Reads.cons (tick_value hcount hs (hcs c (by simp)) (not_or.mp hstate)
      (Prod.ext rfl hchar)) hnext

/-! ### Lines -/

/-- What a header line does to the struct, by its name and its value without the blanks
before it; the count apart. -/
def lineFold (P : Parser) (h : Bytes × Bytes) : Option Parser :=
  match h.1 with
  | [] => none
  | c :: cs =>
    (nameFold { P.enter .headerField with
      index := 0, headerState := firstHeaderState (token c) } cs).bind fun P =>
      match h.2 with
      | [] =>
        if P.headerState = .contentLength then none
        else some ((addFlag P).enter .headerFieldStart)
      | v :: vs =>
        if (headerValueStart P v).verdict = .next then
          (valueFold (headerValueStart P v).parser vs).map fun P =>
            (addFlag P).enter .headerFieldStart
        else none

theorem addFlag_enter (s : State) : addFlag (P.enter s) = (addFlag P).enter s := by
  unfold addFlag Parser.enter
  dsimp only
  split <;> rfl

theorem headerValueStart_reading (n : ℕ) :
    headerValueStart (P.reading n) ch =
      { headerValueStart P ch with parser := (headerValueStart P ch).parser.reading n } := by
  cases hs : P.headerState <;> simp only [headerValueStart, Parser.enter, headerState_reading, hs]
  case contentLength =>
    show Case.doing _ (if _ then _ else if P.flags.contentlength = true then _ else _) = _
    split_ifs <;> rfl
  all_goals rfl

theorem actions_headerValueStart : (headerValueStart P ch).actions = [.mark .headerValue] := by
  have hdoing : ∀ {t : Case}, t.actions = [] → (t.doing [.mark .headerValue]).actions =
      [.mark .headerValue] := by
    intro t ht
    show [Action.mark .headerValue] ++ t.actions = _
    rw [ht, List.append_nil]
  unfold headerValueStart
  refine hdoing ?_
  dsimp only
  split
  case h_4 => split_ifs <;> rfl
  all_goals rfl

theorem headerValueStart_frame (hv : (headerValueStart P ch).verdict = .next) :
    ∃ i h f l, (headerValueStart P ch).parser = { P.enter .headerValue with
      index := i, headerState := h, flags := f, contentLength := l } := by
  cases hs : P.headerState <;> simp only [headerValueStart, Parser.enter, hs] at hv ⊢
  case contentLength =>
    split_ifs at hv ⊢
    · exact absurd hv (by simp [fail, Case.doing])
    · exact absurd hv (by simp [fail, Case.doing])
    · exact ⟨_, _, _, _, rfl⟩
  all_goals exact ⟨_, _, _, _, rfl⟩

theorem valueFold_frame {cs : Bytes} (h : valueFold P cs = some Q) :
    ∃ i s f l, Q = { P with index := i, headerState := s, flags := f, contentLength := l } := by
  induction cs generalizing P with
  | nil =>
    obtain rfl := Option.some_inj.mp h
    exact ⟨_, _, _, _, rfl⟩
  | cons c cs ih =>
    obtain ⟨Q₁, hchar, hrest⟩ := Option.bind_eq_some_iff.mp h
    unfold valueStep at hchar
    split_ifs at hchar
    obtain rfl := Option.some_inj.mp hchar
    obtain ⟨i₁, s₁, f₁, l₁, hQ₁, -⟩ := headerValueChar_frame P c
    obtain ⟨i, s, f, l, hQ⟩ := ih hrest
    exact ⟨i, s, f, l, by rw [hQ, hQ₁]⟩

/-- The blanks before a value. -/
theorem reads_blanks {ws : Bytes} (hs : P.state = .headerValueDiscardWs) (he : P.httpErrno = .ok)
    (hroom : P.nread + ws.length ≤ maxHeaderSize) (hws : ∀ c ∈ ws, c = 32 ∨ c = 9) :
    Reads S P ws (P.reading (P.nread + ws.length)) [] := by
  induction ws generalizing P with
  | nil => exact Reads.nil
  | cons c ws ih =>
    rw [List.length_cons] at hroom ⊢
    have hcount : P.Counting := ⟨he, by rw [hs]; rfl, by omega⟩
    have hswitch : switch (P.reading (P.nread + 1)) c = brk (P.reading (P.nread + 1)) := by
      have hstate : (P.reading (P.nread + 1)).state = .headerValueDiscardWs := hs
      simp only [switch, hstate, headerValueDiscardWs]
      rw [if_pos (show c = byte ' ' ∨ c = 9 from hws c (by simp))]
    have hnext := ih (P := P.reading (P.nread + 1)) hs he (by rw [nread_reading]; omega)
      fun c hc => hws c (by simp [hc])
    rw [nread_reading, reading_reading, add_assoc, add_comm 1] at hnext
    exact Reads.cons (tick_brk hcount (by rw [hs]; rfl) (by rw [hs]; rfl) hswitch) hnext

/-- A name and its colon. -/
theorem reads_name {c : UInt8} {cs : Bytes} (hs : P.state = .headerFieldStart)
    (he : P.httpErrno = .ok) (hroom : P.nread + (cs.length + 2) ≤ maxHeaderSize)
    (hcs : ∀ d ∈ c :: cs, token d ≠ 0)
    (h : nameFold { P.enter .headerField with
      index := 0, headerState := firstHeaderState (token c) } cs = some Q) :
    Reads S P (c :: cs ++ [byte ':'])
      ((Q.reading (P.nread + (cs.length + 2))).enter .headerValueDiscardWs)
      (whole S .headerField (c :: cs)) := by
  have htoken := hcs c (by simp)
  have hcr : c ≠ CR := by
    rintro rfl
    exact htoken (by decide)
  have hlf : c ≠ LF := by
    rintro rfl
    exact htoken (by decide)
  set P₁ : Parser := { P.enter .headerField with
    index := 0, headerState := firstHeaderState (token c) } with hP₁
  have hcount : P.Counting := ⟨he, by rw [hs]; rfl, by omega⟩
  have hswitch : switch (P.reading (P.nread + 1)) c =
      (brk (P₁.reading (P.nread + 1))).doing [.mark .headerField] := by
    have hstate : (P.reading (P.nread + 1)).state = .headerFieldStart := hs
    simp only [switch, hstate, headerFieldStart]
    rw [if_neg hcr, if_neg hlf, if_neg htoken]
    rfl
  have hfirst := tick_switch (S := S) hcount (by rw [hs]; rfl) hswitch rfl
  obtain ⟨i, s, u, hQ⟩ := nameFold_frame h
  have hfold := reads_nameFold (S := S) (P := P₁.reading (P.nread + 1)) rfl he
    (by rw [nread_reading]; omega) (fun d hd => hcs d (by simp [hd])) (nameFold_reading h _)
  rw [nread_reading, reading_reading] at hfold
  have hcolon := tick_colon (S := S) (P := Q.reading (P.nread + 1 + cs.length))
    ⟨by rw [hQ]; exact he, by rw [hQ]; rfl, by rw [nread_reading]; omega⟩ (by rw [hQ]; rfl)
  have hall := (Reads.cons hfirst hfold).append (Reads.one hcolon)
  rw [nread_reading, reading_reading,
    show P.nread + 1 + cs.length + 1 = P.nread + (cs.length + 2) by
    omega] at hall
  refine hall.congr ?_
  rw [shows_of_mark (d := .headerField) rfl, List.append_assoc]
  exact join_whole

/-- A value that is not empty, and its line end. -/
theorem reads_value {v : UInt8} {vs : Bytes} (hs : P.state = .headerValueDiscardWs)
    (he : P.httpErrno = .ok) (hroom : P.nread + (vs.length + 3) ≤ maxHeaderSize)
    (hv : v ≠ 32 ∧ v ≠ 9) (hvs : ∀ c ∈ v :: vs, PlainByte P c)
    (hstart : (headerValueStart P v).verdict = .next)
    (h : valueFold (headerValueStart P v).parser vs = some Q) :
    Reads S P (v :: vs ++ [CR, LF])
      ((Q.reading (P.nread + (vs.length + 3))).enter .headerValueLws)
      (whole S .headerValue (v :: vs)) := by
  obtain ⟨hcr, hlf, -⟩ := hvs v (by simp)
  have hcount : P.Counting := ⟨he, by rw [hs]; rfl, by omega⟩
  have hswitch : switch (P.reading (P.nread + 1)) v =
      { headerValueStart P v with
        parser := (headerValueStart P v).parser.reading (P.nread + 1) } := by
    have hstate : (P.reading (P.nread + 1)).state = .headerValueDiscardWs := hs
    simp only [switch, hstate, headerValueDiscardWs]
    rw [if_neg (show ¬ (v = byte ' ' ∨ v = 9) from not_or.mpr hv), if_neg hcr, if_neg hlf,
      headerValueStart_reading]
  have hfirst := tick_switch (S := S) hcount (by rw [hs]; rfl) hswitch hstart
  rw [shows_of_mark (t := { headerValueStart P v with
    parser := (headerValueStart P v).parser.reading (P.nread + 1) }) (d := .headerValue)
    actions_headerValueStart] at hfirst
  obtain ⟨i, hS, f, l, hP₁⟩ := headerValueStart_frame hstart
  obtain ⟨i', hS', f', l', hQ⟩ := valueFold_frame h
  rw [hP₁] at hQ
  have hfold := reads_valueFold (S := S)
    (P := (headerValueStart P v).parser.reading (P.nread + 1)) (by rw [hP₁]; rfl)
    (by rw [hP₁]; exact he) (by rw [nread_reading]; omega)
    (fun c hc => by
      have := hvs c (by simp [hc])
      rw [hP₁]
      exact this)
    (valueFold_reading h _)
  rw [nread_reading, reading_reading] at hfold
  have hcrTick := tick_value_end (S := S) (P := Q.reading (P.nread + 1 + vs.length))
    ⟨by rw [hQ]; exact he, by rw [hQ]; rfl, by rw [nread_reading]; omega⟩ (by rw [hQ]; rfl)
  rw [nread_reading, reading_reading] at hcrTick
  have hlfTick : tick S ((Q.reading (P.nread + 1 + vs.length + 1)).enter .headerAlmostDone) LF =
      some ((Q.reading (P.nread + 1 + vs.length + 1 + 1)).enter .headerValueLws, []) := tick_brk
    ⟨by rw [hQ]; exact he, rfl, by show P.nread + 1 + vs.length + 1 < _; omega⟩ rfl rfl rfl
  have hall := (Reads.cons hfirst hfold).append (Reads.cons hcrTick (Reads.one hlfTick))
  rw [show P.nread + 1 + vs.length + 1 + 1 = P.nread + (vs.length + 3) by omega] at hall
  refine hall.congr ?_
  rw [List.append_nil, List.append_assoc]
  exact join_whole

/-! #### Line ends -/

theorem addFlag_frame (P : Parser) : ∃ f, addFlag P = { P with flags := f } := by
  unfold addFlag
  split <;> exact ⟨_, rfl⟩

/-- Behind a value, a byte that is not a blank begins a line. -/
theorem tick_headerValueLws (hs : P.state = .headerValueLws) (he : P.httpErrno = .ok)
    (hroom : P.nread < maxHeaderSize) (hch : ch ≠ 32 ∧ ch ≠ 9) :
    tick S P ch = tick S ((addFlag P).enter .headerFieldStart) ch := by
  obtain ⟨f, hf⟩ := addFlag_frame P
  have hnext : P.next = P.reading (P.nread + 1) :=
    Parser.Counting.next ⟨he, by rw [hs]; rfl, hroom⟩
  have hnext' : ((addFlag P).enter .headerFieldStart).next =
      ((addFlag P).reading (P.nread + 1)).enter .headerFieldStart := by
    rw [hf]
    exact Parser.Counting.next (P := { P with flags := f, state := .headerFieldStart })
      ⟨he, rfl, hroom⟩
  have hturn : turn P.next ch [] = turn ((addFlag P).enter .headerFieldStart).next ch [] := by
    have hstate : (P.reading (P.nread + 1)).state = .headerValueLws := hs
    rw [hnext, hnext']
    simp only [turn, hstate, Parser.enter, switch, headerValueLws]
    rw [if_neg (show ¬ (ch = byte ' ' ∨ ch = 9) from not_or.mpr hch), addFlag_reading]
  have herrno : ((addFlag P).enter .headerFieldStart).next.httpErrno = P.next.httpErrno := by
    rw [hnext, hnext', hf]
    rfl
  unfold tick
  dsimp only
  rw [herrno, ← hturn, hs]
  rfl

/-- Behind an empty value, such a byte first reports it. -/
theorem tick_headerValueDiscardLws (hs : P.state = .headerValueDiscardLws)
    (he : P.httpErrno = .ok) (hroom : P.nread < maxHeaderSize) (hch : ch ≠ 32 ∧ ch ≠ 9)
    (hlength : P.headerState ≠ .contentLength) :
    tick S P ch = (tick S ((addFlag P).enter .headerFieldStart) ch).map fun r =>
      (r.1, whole S .headerValue [] ++ r.2) := by
  obtain ⟨f, hf⟩ := addFlag_frame P
  have hnext : P.next = P.reading (P.nread + 1) :=
    Parser.Counting.next ⟨he, by rw [hs]; rfl, hroom⟩
  have hnext' : ((addFlag P).enter .headerFieldStart).next =
      ((addFlag P).reading (P.nread + 1)).enter .headerFieldStart := by
    rw [hf]
    exact Parser.Counting.next (P := { P with flags := f, state := .headerFieldStart })
      ⟨he, rfl, hroom⟩
  set t := headerFieldStart (((addFlag P).reading (P.nread + 1)).enter .headerFieldStart) ch with ht
  have hturn : turn P.next ch [] = ⟨[], 0,
      t.doing [.mark .headerValue, .data .headerValue .headerFieldStart]⟩ := by
    have hstate : (P.reading (P.nread + 1)).state = .headerValueDiscardLws := hs
    rw [hnext]
    simp only [turn, hstate, switch, headerValueDiscardLws]
    rw [if_neg (show ¬ (ch = byte ' ' ∨ ch = 9) from not_or.mpr hch), headerState_reading,
      if_neg hlength, addFlag_reading]
  have hturn' : turn ((addFlag P).enter .headerFieldStart).next ch [] = ⟨[], 0, t⟩ := by
    rw [hnext']
    rfl
  have herrno : ((addFlag P).enter .headerFieldStart).next.httpErrno = P.next.httpErrno := by
    rw [hnext, hnext', hf]
    rfl
  unfold tick
  dsimp only
  rw [herrno, hturn, hturn', hs, verdict_doing]
  by_cases hgo : P.next.httpErrno = .ok ∧ t.verdict = .next
  · rw [if_pos hgo, if_pos hgo, Option.map_some]
    simp [Turn.shows, Case.doing, Action.shows, Action.adds, Action.opens, State.openDatum,
      Parser.enter, whole]
  · rw [if_neg hgo, if_neg hgo]
    rfl

theorem Reads.of_tick_eq (htick : tick S P ch = tick S Q ch)
    (h : Reads S Q (ch :: rest) P' out) : Reads S P (ch :: rest) P' out := by
  obtain ⟨o, ho, hjoin⟩ := h
  exact ⟨o, by rw [ticks, htick]; exact ho, hjoin⟩

theorem Reads.of_tick_map {x : Stream}
    (htick : tick S P ch = (tick S Q ch).map fun r => (r.1, x ++ r.2))
    (h : Reads S Q (ch :: rest) P' out) : Reads S P (ch :: rest) P' (x ++ out) := by
  obtain ⟨o, ho, hjoin⟩ := h
  rw [ticks] at ho
  obtain ⟨r, hr, hrest⟩ := Option.bind_eq_some_iff.mp ho
  obtain ⟨r', hr', heq⟩ := Option.map_eq_some_iff.mp hrest
  obtain ⟨rfl, rfl⟩ := Prod.mk.inj heq
  refine ⟨x ++ (r.2 ++ r'.2), ?_, join_append_congr_right hjoin⟩
  rw [ticks, htick, hr]
  simp [hr']

set_option maxRecDepth 8000 in
theorem token_table : ∀ n < 256, IsTokenChar (UInt8.ofNat n) → token (UInt8.ofNat n) ≠ 0 ∧
    (token (UInt8.ofNat n)).toNat = tolower (UInt8.ofNat n) := by decide

/-- The table of tokens has the bytes of names, in lower case. -/
theorem token_of_isTokenChar {c : UInt8} (h : IsTokenChar c) :
    token c ≠ 0 ∧ (token c).toNat = tolower c := by
  have := token_table c.toNat c.toNat_lt
  rw [UInt8.ofNat_toNat] at this
  exact this h

theorem isHeaderChar_of_isFieldText {text : Bytes} (h : IsFieldText text) {c : UInt8}
    (hc : c ∈ text) : c ≠ CR ∧ c ≠ LF ∧ isHeaderChar c = true := by
  obtain ⟨hlow, hdel⟩ := h c hc
  refine ⟨?_, ?_, ?_⟩
  · rintro rfl
    exact absurd hlow (by decide)
  · rintro rfl
    exact absurd hlow (by decide)
  · have : 31 < c ∨ c = 9 := hlow.imp (fun h => UInt8.lt_of_lt_of_le (by decide) h) id
    unfold isHeaderChar
    rcases this with h31 | h9
    · simp [h31, hdel]
    · simp [h9]

/-- What the headers of a line leave alone. -/
theorem lineFold_frame {h : Bytes × Bytes} (hfold : lineFold P h = some Q) :
    ∃ i s u f l, Q = { P.enter .headerFieldStart with
      index := i, headerState := s, usesTransferEncoding := u, flags := f,
      contentLength := l } := by
  obtain ⟨name, value⟩ := h
  cases name with
  | nil => exact absurd hfold (by simp [lineFold])
  | cons c cs =>
    obtain ⟨Qn, hname, hrest⟩ := Option.bind_eq_some_iff.mp hfold
    obtain ⟨i, s, u, hQn⟩ := nameFold_frame hname
    cases value with
    | nil =>
      simp only at hrest
      split_ifs at hrest
      obtain rfl := Option.some_inj.mp hrest
      obtain ⟨f, hf⟩ := addFlag_frame Qn
      exact ⟨i, s, u, f, P.contentLength, by rw [hf, hQn]; rfl⟩
    | cons v vs =>
      simp only at hrest
      split_ifs at hrest with hstart
      obtain ⟨Qv, hvalue, rfl⟩ := Option.map_eq_some_iff.mp hrest
      obtain ⟨f, hf⟩ := addFlag_frame Qv
      obtain ⟨i', s', f', l', hP₁⟩ := headerValueStart_frame hstart
      obtain ⟨i'', s'', f'', l'', hQv⟩ := valueFold_frame hvalue
      exact ⟨i'', s'', u, f, l'', by rw [hf, hQv, hP₁, hQn]; rfl⟩

/-- The line end behind blanks only. -/
theorem reads_empty_value (hs : P.state = .headerValueDiscardWs) (he : P.httpErrno = .ok)
    (hroom : P.nread + 2 ≤ maxHeaderSize) :
    Reads S P [CR, LF] ((P.reading (P.nread + 2)).enter .headerValueDiscardLws) [] := by
  have hcr : tick S P CR =
      some ((P.reading (P.nread + 1)).enter .headerValueDiscardWsAlmostDone, []) := tick_brk
    ⟨he, by rw [hs]; rfl, by omega⟩ (by rw [hs]; rfl) (by rw [hs]; rfl) (by
      have hstate : (P.reading (P.nread + 1)).state = .headerValueDiscardWs := hs
      simp only [switch, hstate]
      rfl)
  have hlf : tick S ((P.reading (P.nread + 1)).enter .headerValueDiscardWsAlmostDone) LF =
      some ((P.reading (P.nread + 1 + 1)).enter .headerValueDiscardLws, []) := tick_brk
    ⟨he, rfl, by show P.nread + 1 < _; omega⟩ rfl rfl rfl
  exact Reads.cons hcr (Reads.one hlf)

/-- **A header line**, as it is read in front of a byte that is not a blank. -/
theorem reads_line {h : Bytes × Bytes} (hs : P.state = .headerFieldStart)
    (he : P.httpErrno = .ok) (hroom : P.nread + (headerLine h).length < maxHeaderSize)
    (hname : IsToken h.1) (htext : IsFieldText h.2) (hfold : lineFold P (lineHeader h) = some Q)
    (hch : ch ≠ 32 ∧ ch ≠ 9)
    (hrest : Reads S (Q.reading (P.nread + (headerLine h).length)) (ch :: rest) P' out) :
    Reads S P (headerLine h ++ ch :: rest) P'
      (whole S .headerField h.1 ++
        (whole S .headerValue (lineHeader h).2 ++ out)) := by
  obtain ⟨name, text⟩ := h
  cases name with
  | nil => exact absurd rfl hname.1
  | cons c cs =>
    obtain ⟨Qn, hQn, hvalue⟩ := Option.bind_eq_some_iff.mp hfold
    obtain ⟨i, s, u, hframe⟩ := nameFold_frame hQn
    -- the blanks, and what is behind them
    set ws := text.takeWhile (fun c => c = 32 || c = 9) with hws
    set value := text.dropWhile (fun c => c = 32 || c = 9) with hval
    have htextEq : text = ws ++ value := (List.takeWhile_append_dropWhile).symm
    have hwsBlank : ∀ d ∈ ws, d = 32 ∨ d = 9 := by
      intro d hd
      simpa using List.mem_takeWhile_imp hd
    have hline : headerLine (c :: cs, text) =
        (c :: cs ++ [byte ':']) ++ (ws ++ (value ++ [CR, LF])) := by
      show (c :: cs) ++ bytes ":" ++ text ++ crlf = _
      rw [htextEq]
      simp only [List.append_assoc]
      rfl
    have hlen : (headerLine (c :: cs, text)).length =
        cs.length + 2 + ws.length + value.length + 2 := by
      rw [hline]
      simp only [List.length_append, List.length_cons, List.length_nil]
      omega
    rw [hlen] at hroom hrest
    rw [hline, List.append_assoc (c :: cs ++ [byte ':']), List.append_assoc ws]
    have hreadName := reads_name (S := S) hs he (by omega)
      (fun d hd => (token_of_isTokenChar (hname.2 d hd)).1) hQn
    have hreadBlanks := reads_blanks (S := S)
      (P := (Qn.reading (P.nread + (cs.length + 2))).enter .headerValueDiscardWs) rfl
      (by rw [hframe]; exact he)
      (by show P.nread + (cs.length + 2) + ws.length ≤ _; omega) hwsBlank
    refine hreadName.append ?_
    rw [← List.nil_append (whole S .headerValue _ ++ out)]
    refine hreadBlanks.append ?_
    show Reads S ((Qn.reading (P.nread + (cs.length + 2) + ws.length)).enter
      .headerValueDiscardWs) _ P' (whole S .headerValue value ++ out)
    have hlineHeader : (lineHeader (c :: cs, text)).2 = value := rfl
    rw [hlineHeader] at hvalue
    cases hv : value with
    | nil =>
      rw [hv] at hvalue hrest
      simp only at hvalue
      split_ifs at hvalue with hlength
      obtain rfl := Option.some_inj.mp hvalue
      have hend := reads_empty_value (S := S)
        (P := (Qn.reading (P.nread + (cs.length + 2) + ws.length)).enter .headerValueDiscardWs) rfl
        (by rw [hframe]; exact he) (by show P.nread + (cs.length + 2) + ws.length + 2 ≤ _; omega)
      rw [← List.nil_append (whole S .headerValue [] ++ out)]
      refine hend.append (Reads.of_tick_map (tick_headerValueDiscardLws rfl ?_ ?_ hch hlength) ?_)
      · rw [hframe]
        exact he
      · show P.nread + (cs.length + 2) + ws.length + 2 < _
        simp only [hv, List.length_nil] at hroom
        omega
      · simp only [addFlag_enter, addFlag_reading]
        have hcount : P.nread + (cs.length + 2 + ws.length + ([] : Bytes).length + 2) =
            P.nread + (cs.length + 2) + ws.length + 2 := by
          simp only [List.length_nil]
          omega
        rw [hcount] at hrest
        exact hrest
    | cons v vs =>
      rw [hv] at hvalue hrest hroom
      simp only at hvalue
      split_ifs at hvalue with hstart
      obtain ⟨Qv, hQv, rfl⟩ := Option.map_eq_some_iff.mp hvalue
      -- the machine does not see where it is, nor the count
      set Pv := (Qn.reading (P.nread + (cs.length + 2) + ws.length)).enter .headerValueDiscardWs
        with hPv
      have hPstart : headerValueStart Pv v = { headerValueStart Qn v with
          parser := (headerValueStart Qn v).parser.reading
            (P.nread + (cs.length + 2) + ws.length) } :=
        headerValueStart_reading (P := Qn) (P.nread + (cs.length + 2) + ws.length)
      have hblank : v ≠ 32 ∧ v ≠ 9 := by
        have hne : text.dropWhile (fun c => c = 32 || c = 9) ≠ [] := by rw [← hval, hv]; simp
        have hhead := List.head_dropWhile_not (fun c : UInt8 => c = 32 || c = 9) hne
        have hv' : (text.dropWhile fun c => c = 32 || c = 9).head hne = v := by
          simp only [← hval, hv, List.head_cons]
        rw [hv'] at hhead
        simpa using hhead
      have hplain : ∀ d ∈ v :: vs, PlainByte Pv d := by
        intro d hd
        have hmem : d ∈ text := by
          rw [htextEq, hv]
          exact List.mem_append_right _ hd
        obtain ⟨hcr, hlf, hok⟩ := isHeaderChar_of_isFieldText htext hmem
        exact ⟨hcr, hlf, by simp [valueByte, hok]⟩
      have hread := reads_value (S := S) (P := Pv)
        (Q := Qv.reading (P.nread + (cs.length + 2) + ws.length)) rfl
        (by rw [hPv, hframe]; exact he)
        (by
          show P.nread + (cs.length + 2) + ws.length + (vs.length + 3) ≤ _
          simp only [List.length_cons] at hroom
          omega) hblank hplain (by rw [hPstart]; exact hstart)
        (by rw [hPstart]; exact valueFold_reading hQv _)
      obtain ⟨i', s', f', l', hP₁⟩ := headerValueStart_frame hstart
      obtain ⟨i'', s'', f'', l'', hframe'⟩ := valueFold_frame hQv
      rw [show (v :: vs) ++ [CR, LF] ++ ch :: rest = (v :: vs ++ [CR, LF]) ++ ch :: rest from rfl]
      refine hread.append (Reads.of_tick_eq (tick_headerValueLws rfl ?_ ?_ hch) ?_)
      · rw [hframe', hP₁, hframe]
        exact he
      · show P.nread + (cs.length + 2) + ws.length + (vs.length + 3) < _
        simp only [List.length_cons] at hroom
        omega
      · simp only [addFlag_enter, addFlag_reading]
        have hcount : P.nread + (cs.length + 2 + ws.length + (v :: vs).length + 2) =
            P.nread + (cs.length + 2) + ws.length + (vs.length + 3) := by
          simp only [List.length_cons]
          omega
        rw [hcount] at hrest
        exact hrest

theorem lineFold_reading {h : Bytes × Bytes} (hfold : lineFold P h = some Q) (n : ℕ) :
    lineFold (P.reading n) h = some (Q.reading n) := by
  obtain ⟨name, value⟩ := h
  cases name with
  | nil => exact absurd hfold (by simp [lineFold])
  | cons c cs =>
    obtain ⟨Qn, hname, hrest⟩ := Option.bind_eq_some_iff.mp hfold
    refine Option.bind_eq_some_iff.mpr ⟨Qn.reading n, nameFold_reading hname n, ?_⟩
    cases value with
    | nil =>
      simp only [headerState_reading, addFlag_reading] at hrest ⊢
      split_ifs at hrest ⊢
      obtain rfl := Option.some_inj.mp hrest
      rfl
    | cons v vs =>
      simp only [headerValueStart_reading] at hrest ⊢
      split_ifs at hrest ⊢
      obtain ⟨Qv, hvalue, rfl⟩ := Option.map_eq_some_iff.mp hrest
      rw [valueFold_reading hvalue n, Option.map_some, addFlag_reading]
      rfl

/-- What several lines do to the struct. -/
def blockFold (P : Parser) (lines : List (Bytes × Bytes)) : Option Parser :=
  lines.foldlM (fun P h => lineFold P (lineHeader h)) P

theorem blockFold_reading {lines : List (Bytes × Bytes)} (h : blockFold P lines = some Q) (n : ℕ) :
    blockFold (P.reading n) lines = some (Q.reading n) := by
  induction lines generalizing P with
  | nil =>
    obtain rfl := Option.some_inj.mp h
    rfl
  | cons l lines ih =>
    obtain ⟨Q₁, hline, hrest⟩ := Option.bind_eq_some_iff.mp h
    exact Option.bind_eq_some_iff.mpr ⟨_, lineFold_reading hline n, ih hrest⟩

/-- What is reported of a line. -/
def lineStream (S : Settings) (h : Bytes × Bytes) : Stream :=
  whole S .headerField h.1 ++ whole S .headerValue (lineHeader h).2

/-- **The header lines**, in front of a byte that is not a blank. -/
theorem reads_headerBlock {lines : List (Bytes × Bytes)} (hs : P.state = .headerFieldStart)
    (he : P.httpErrno = .ok) (hroom : P.nread + (headerBlock lines).length < maxHeaderSize)
    (hlines : ∀ h ∈ lines, IsToken h.1 ∧ IsFieldText h.2) (hfold : blockFold P lines = some Q)
    (hch : ch ≠ 32 ∧ ch ≠ 9)
    (hrest : Reads S (Q.reading (P.nread + (headerBlock lines).length)) (ch :: rest) P'
      out) :
    Reads S P (headerBlock lines ++ ch :: rest) P'
      (lines.flatMap (lineStream S) ++ out) := by
  induction lines generalizing P Q with
  | nil =>
    obtain rfl := Option.some_inj.mp hfold
    exact hrest
  | cons h lines ih =>
    obtain ⟨Q₁, hline, hfold⟩ := Option.bind_eq_some_iff.mp hfold
    obtain ⟨⟨hname, htext⟩, hlines⟩ := List.forall_mem_cons.mp hlines
    rw [headerBlock_cons, List.length_append] at hroom
    rw [headerBlock_cons, List.length_append, ← add_assoc] at hrest
    obtain ⟨i, s, u, f, l, hframe⟩ := lineFold_frame hline
    have hblock := ih (P := Q₁.reading (P.nread + (headerLine h).length))
      (Q := Q.reading (P.nread + (headerLine h).length)) (by rw [hframe]; rfl)
      (by rw [hframe]; exact he) (by rw [nread_reading]; omega) hlines ?_ hrest
    · -- the next line begins with its name
      obtain ⟨c, bs, hbs, hc⟩ : ∃ c bs, headerBlock lines ++ ch :: rest = c :: bs ∧
          (c ≠ 32 ∧ c ≠ 9) := by
        cases lines with
        | nil => exact ⟨ch, rest, rfl, hch⟩
        | cons h' lines =>
          obtain ⟨⟨hne, htokens⟩, -⟩ := hlines h' (by simp)
          obtain ⟨c, cs, hcs⟩ := List.exists_cons_of_ne_nil hne
          have hc := htokens c (by rw [hcs]; simp)
          refine ⟨c, _, by rw [headerBlock_cons, headerLine, hcs]; rfl, ?_, ?_⟩
          all_goals
            rintro rfl
            exact absurd hc (by decide)
      rw [hbs] at hblock
      rw [headerBlock_cons, List.append_assoc, hbs, List.flatMap_cons, List.append_assoc,
        lineStream,
        List.append_assoc]
      exact reads_line hs he (by omega) hname htext hline hc hblock
    · exact blockFold_reading hfold _

end ParserLib

end Server
