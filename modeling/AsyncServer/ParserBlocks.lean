/-
The parser over blocks.

A connection cuts its bytes into blocks where it likes, and `http_parser_execute` cuts
the data for the callbacks where the blocks end.  Up to these cuts (`Pieces.join`) the
callbacks depend on the bytes alone.

* `tick` — what one byte does to the struct, and what it adds to the stream of data and
  milestones;
* `feed_eq` — blocks are parsed as their bytes are, one by one;
* `feed_blocks` — two ways to cut the same bytes are both parsed to the end or neither,
  with the same struct and the same stream.

The state that `on_headers_complete` sees is not part of the stream: it does depend on
where the blocks were cut.
-/
import AsyncServer.ParserTicks
import AsyncServer.Pieces

namespace Server

open CString Transition Pieces

namespace ParserLib

/-! ### The stream -/

/-- The callbacks without data, and the ends of data. -/
inductive Milestone
  | notify (n : Notice)
  | headersComplete (method : HttpMethod) (httpMajor httpMinor statusCode : ℕ)
  /-- The callback of a datum has been run up to here. -/
  | cut (d : Datum)
  deriving DecidableEq

/-- What a parser reports, as a stream. -/
abbrev Stream := List (Item Datum UInt8 Milestone)

/-- A callback in the stream. -/
def Event.item : Event → Item Datum UInt8 Milestone
  | .data d buf => .data d buf
  | .notify n => .mark (.notify n)
  | .headersComplete method major minor status _ =>
    .mark (.headersComplete method major minor status)

/-- The stream of some callbacks. -/
def stream (es : List Event) : Stream := es.map Event.item

variable (S : Settings)

/-- A piece of a datum, if its callback is registered. -/
def piece (d : Datum) (buf : Bytes) : Stream := if S.data d then [.data d buf] else []

/-- A piece of the datum that is open. -/
def openPiece (o : Option Datum) (buf : Bytes) : Stream :=
  match o with
  | none => []
  | some d => piece S d buf

/-- The datum that is open behind an action. -/
def Action.opens (o : Option Datum) : Action → Option Datum
  | .mark d => some d
  | .data _ _ | .dataThrough _ _ => none
  | .notify _ _ | .headersComplete _ _ _ _ => o

/-- What an action adds to the stream, at the byte `ch`. -/
def Action.adds (ch : UInt8) : Action → Stream
  | .mark d => piece S d []
  | .data _ _ => []
  | .dataThrough d _ => piece S d [ch]
  | .notify n _ => if S.notify n then [.mark (.notify n)] else []
  | .headersComplete method major minor status =>
    if S.headersComplete then [.mark (.headersComplete method major minor status)] else []

/-- The end of a datum, if its callback is registered. -/
def cut (d : Datum) : Stream := if S.data d then [.mark (.cut d)] else []

/-- An action with the end of its datum. -/
def Action.shows (ch : UInt8) (a : Action) : Stream :=
  a.adds S ch ++ match a with
    | .data d _ | .dataThrough d _ => cut S d
    | _ => []

/-- The actions of a pass, and how it adds its byte. -/
def Turn.adds (o : Option Datum) (ch : UInt8) (t : Turn) : Stream :=
  (t.before ++ t.last.actions).flatMap (Action.adds S ch) ++
    openPiece S ((t.before ++ t.last.actions).foldl Action.opens o) [ch]

/-- The same with the ends of data. -/
def Turn.shows (o : Option Datum) (ch : UInt8) (t : Turn) : Stream :=
  (t.before ++ t.last.actions).flatMap (Action.shows S ch) ++
    openPiece S ((t.before ++ t.last.actions).foldl Action.opens o) [ch]

/-- **One byte**: the struct behind it, and what it adds to the stream. -/
def tick (P : Parser) (ch : UInt8) : Option (Parser × Stream) :=
  let t := turn P.next ch []
  if P.next.httpErrno = .ok ∧ t.last.verdict = .next then
    some (t.last.parser, t.shows S P.state.openDatum ch)
  else none

/-- Several bytes. -/
def ticks : Parser → Bytes → Option (Parser × Stream)
  | P, [] => some (P, [])
  | P, ch :: rest =>
    (tick S P ch).bind fun r => (ticks r.1 rest).map fun r' => (r'.1, r.2 ++ r'.2)

variable {S} {P P' P'' : Parser} {ch : UInt8} {bs bs' rest : Bytes} {R R₁ : Run}
variable {o o' : Option Datum} {x : Bytes} {out out' : Stream}

/-- A stream without the ends of its data. -/
def erase (xs : Stream) : Stream :=
  xs.filter fun
    | .mark (.cut _) => false
    | _ => true

@[simp] theorem erase_append (xs ys : Stream) : erase (xs ++ ys) = erase xs ++ erase ys :=
  List.filter_append xs ys

@[simp] theorem erase_cut (d : Datum) : erase (cut S d) = [] := by
  unfold cut
  split_ifs <;> rfl

@[simp] theorem erase_piece (d : Datum) (x : Bytes) :
    erase (piece S d x) = piece S d x := by
  unfold piece
  split_ifs <;> rfl

@[simp] theorem erase_openPiece (o : Option Datum) (x : Bytes) :
    erase (openPiece S o x) = openPiece S o x := by
  cases o with
  | none => rfl
  | some d => exact erase_piece d x

theorem erase_shows (a : Action) : erase (a.shows S ch) = a.adds S ch := by
  cases a with
  | mark d => simp [Action.shows, Action.adds]
  | data d s => exact erase_cut d
  | dataThrough d s => simp [Action.shows, Action.adds]
  | notify n s =>
    simp only [Action.shows, Action.adds, List.append_nil]
    split_ifs <;> rfl
  | headersComplete m i j k =>
    simp only [Action.shows, Action.adds, List.append_nil]
    split_ifs <;> rfl

/-- The ends of data are all that the stream of a pass has more. -/
theorem Turn.erase_shows (t : Turn) : erase (t.shows S o ch) = t.adds S o ch := by
  have hactions : ∀ as : List Action, erase (as.flatMap (Action.shows S ch)) =
      as.flatMap (Action.adds S ch) := by
    intro as
    induction as with
    | nil => rfl
    | cons a as ih =>
      rw [List.flatMap_cons, erase_append, ParserLib.erase_shows, ih, List.flatMap_cons]
  rw [Turn.shows, erase_append, hactions, erase_openPiece]
  rfl

theorem ticks_append :
    ticks S P (bs ++ bs') = (ticks S P bs).bind fun r =>
      (ticks S r.1 bs').map fun r' => (r'.1, r.2 ++ r'.2) := by
  induction bs generalizing P with
  | nil => simp [ticks]
  | cons ch rest ih =>
    simp only [List.cons_append, ticks]
    cases tick S P ch with
    | none => rfl
    | some r =>
      simp only [Option.bind_some, ih]
      cases ticks S r.1 rest with
      | none => rfl
      | some r' => simp [Function.comp_def]

/-! ### Runs with at most one mark -/

/-- The only mark is that of `o`, with the bytes `x` behind it. -/
def Run.Holds (R : Run) (o : Option Datum) (x : Bytes) : Prop :=
  ∀ d, R.marks d = if o = some d then some x else none

/-- The stream of a run, if it stopped here. -/
def Run.stream (S : Settings) (R : Run) : Stream :=
  ParserLib.stream (R.flush S).events

theorem Run.Holds.marked_le (h : R.Holds o x) : R.marked ≤ 1 := by
  have hcount : R.marked = Run.leftover.countP fun d => decide (o = some d) := by
    refine List.countP_congr fun d _ => ?_
    rw [h d]
    by_cases hd : o = some d <;> simp [hd]
  rw [hcount]
  cases o with
  | none => exact Nat.zero_le _
  | some d => cases d <;> decide

theorem stream_append (es es' : List Event) : stream (es ++ es') = stream es ++ stream es' :=
  List.map_append

theorem callback_of_none {d : Datum} {s : State} (h : R.marks d = none) :
    R.callback S d s x = R := by
  unfold Run.callback
  rw [h]

theorem callback_of_some {d : Datum} {s : State} {buf : Bytes} (h : R.marks d = some buf) :
    R.callback S d s x =
      { R with
        stored := if S.data d then s else R.stored
        marks := Function.update R.marks d none
        events := R.events ++ if S.data d then [.data d (buf ++ x)] else [] } := by
  unfold Run.callback
  rw [h]

theorem Run.Holds.flush (h : R.Holds o x) :
    R.stream S = ParserLib.stream R.events ++ openPiece S o x := by
  have hnone : ∀ {R : Run} {ds : List Datum}, (∀ d ∈ ds, R.marks d = none) →
      ds.foldl (fun R d => R.callback S d R.parser.state []) R = R := by
    intro R ds hds
    induction ds with
    | nil => rfl
    | cons d ds ih =>
      rw [List.foldl_cons, callback_of_none (hds d (by simp))]
      exact ih fun d hd => hds d (by simp [hd])
  unfold Run.stream Run.flush
  cases o with
  | none =>
    rw [hnone fun d _ => by rw [h d, if_neg (by simp)]]
    exact (List.append_nil _).symm
  | some d =>
    -- the mark is in one place of the list, and those around it have none
    obtain ⟨pre, post, hsplit, hpre, hpost⟩ : ∃ pre post, Run.leftover = pre ++ d :: post ∧
        d ∉ pre ∧ d ∉ post := by
      cases d
      · exact ⟨[.headerField, .headerValue], [.body, .status], rfl, by decide, by decide⟩
      · exact ⟨[.headerField, .headerValue, .url, .body], [], rfl, by decide, by decide⟩
      · exact ⟨[], [.headerValue, .url, .body, .status], rfl, by decide, by decide⟩
      · exact ⟨[.headerField], [.url, .body, .status], rfl, by decide, by decide⟩
      · exact ⟨[.headerField, .headerValue, .url], [.status], rfl, by decide, by decide⟩
    have hd : R.marks d = some x := by rw [h d, if_pos rfl]
    have hother : ∀ d', d' ≠ d → R.marks d' = none := by
      intro d' hne
      rw [h d', if_neg fun heq => hne (Option.some_inj.mp heq).symm]
    rw [hsplit, List.foldl_append, List.foldl_cons,
      hnone fun d' hd' => hother d' fun heq => hpre (heq ▸ hd'), callback_of_some hd, hnone]
    · simp only [List.append_nil, stream_append, openPiece, piece]
      split_ifs <;> rfl
    · intro d' hd'
      have hne : d' ≠ d := fun heq => hpost (heq ▸ hd')
      simp only [Function.update_of_ne hne]
      exact hother d' hne

/-- An action that can follow with this datum open. -/
def Action.Fits (o : Option Datum) : Action → Prop
  | .mark d | .data d _ => o = none ∨ o = some d
  | .dataThrough d _ => o = some d
  | .notify _ _ | .headersComplete _ _ _ _ => o = none

/-- The same, for one after the other. -/
def FitActions : Option Datum → List Action → Prop
  | _, [] => True
  | o, a :: as => a.Fits o ∧ FitActions (a.opens o) as

theorem fitActions_append {as bs : List Action} :
    FitActions o (as ++ bs) ↔ FitActions o as ∧ FitActions (as.foldl Action.opens o) bs := by
  induction as generalizing o with
  | nil => simp [FitActions]
  | cons a as ih => rw [List.cons_append, FitActions, ih, FitActions, List.foldl_cons, and_assoc]

theorem Opens.fitActions {as : List Action} (h : Opens o as o') :
    FitActions o as ∧ as.foldl Action.opens o = o' := by
  induction h with
  | nil => exact ⟨trivial, rfl⟩
  | mark _ ih => exact ⟨⟨.inl rfl, ih.1⟩, ih.2⟩
  | data _ ih => exact ⟨⟨.inr rfl, ih.1⟩, ih.2⟩
  | notify _ ih => exact ⟨⟨rfl, ih.1⟩, ih.2⟩
  | headersComplete _ ih => exact ⟨⟨rfl, ih.1⟩, ih.2⟩

theorem join_piece_piece {d : Datum} {x y : Bytes} (xs ys : Stream) :
    join (xs ++ (piece S d x ++ (piece S d y ++ ys))) =
      join (xs ++ (piece S d (x ++ y) ++ ys)) := by
  unfold piece
  split_ifs
  · exact join_data_data
  · rfl

theorem Run.Holds.pass (h : R.Holds o x) (bs : Bytes) :
    (R.pass bs).Holds o (x ++ bs) ∧
      join ((R.pass bs).stream S) = join (R.stream S ++ openPiece S o bs) := by
  have hpass : (R.pass bs).Holds o (x ++ bs) := by
    intro d
    show (R.marks d).map _ = _
    rw [h d]
    split_ifs <;> rfl
  refine ⟨hpass, ?_⟩
  rw [hpass.flush, h.flush]
  cases o with
  | none => simp [openPiece]; rfl
  | some d =>
    have := join_piece_piece (S := S) (d := d) (x := x) (y := bs)
      (ParserLib.stream R.events) []
    show join (ParserLib.stream R.events ++ piece S d (x ++ bs)) = _
    simpa [openPiece] using this.symm

theorem Run.Holds.callback {d : Datum} (h : R.Holds (some d) x) (s : State) (through : Bytes) :
    (R.callback S d s through).Holds none [] ∧
      (R.callback S d s through).stream S =
        ParserLib.stream R.events ++ piece S d (x ++ through) := by
  have hd : R.marks d = some x := by rw [h d, if_pos rfl]
  have hheld : (R.callback S d s through).Holds none [] := by
    intro d'
    rw [callback_of_some hd]
    by_cases hne : d' = d
    · subst hne
      simp
    · simp [Function.update_of_ne hne, h d', Ne.symm hne]
  refine ⟨hheld, ?_⟩
  rw [hheld.flush, callback_of_some hd]
  simp only [openPiece, List.append_nil, stream_append, piece]
  split_ifs <;> rfl

theorem Run.Holds.act (h : R.Holds o x) (ch : UInt8) {a : Action} (ha : a.Fits o) :
    (∃ y, (R.act S ch a).Holds (a.opens o) y) ∧
      join ((R.act S ch a).stream S) =
        join (R.stream S ++ a.adds S ch) := by
  cases a with
  | mark d =>
    have hx : (if o = some d then x else []) = (R.marks d).getD [] := by
      rw [h d]
      split_ifs <;> rfl
    have hheld : (R.act S ch (.mark d)).Holds (some d) (if o = some d then x else []) := by
      intro d'
      show Function.update _ _ _ _ = _
      by_cases hd : d' = d
      · subst hd
        rw [Function.update_self, if_pos rfl, hx]
      · rw [Function.update_of_ne hd, h d', if_neg fun heq => hd (Option.some_inj.mp heq).symm]
        rcases ha with rfl | rfl
        · simp
        · rw [if_neg fun heq => hd (Option.some_inj.mp heq).symm]
    refine ⟨⟨_, hheld⟩, ?_⟩
    rw [hheld.flush, h.flush]
    rcases ha with rfl | rfl
    · simp [openPiece, Action.adds]; rfl
    · rw [if_pos rfl]
      have := join_piece_piece (S := S) (d := d) (x := x) (y := [])
        (ParserLib.stream R.events) []
      show join (ParserLib.stream R.events ++ piece S d x) = _
      simpa [openPiece, Action.adds] using this.symm
  | data d s =>
    rcases ha with rfl | rfl
    · have hnone : R.act S ch (.data d s) = R :=
        callback_of_none (by rw [h d, if_neg (by simp)])
      rw [hnone]
      exact ⟨⟨x, h⟩, by simp [Action.adds]⟩
    · obtain ⟨hheld, hstream⟩ := h.callback (S := S) s []
      refine ⟨⟨[], hheld⟩, ?_⟩
      show join ((R.callback S d s []).stream S) = _
      rw [hstream, h.flush]
      simp [openPiece, Action.adds]
  | dataThrough d s =>
    obtain rfl := ha
    obtain ⟨hheld, hstream⟩ := h.callback (S := S) s [ch]
    refine ⟨⟨[], hheld⟩, ?_⟩
    show join ((R.callback S d s [ch]).stream S) = _
    rw [hstream, h.flush]
    have := join_piece_piece (S := S) (d := d) (x := x) (y := [ch])
      (ParserLib.stream R.events) []
    simpa [openPiece, Action.adds] using this.symm
  | notify n s =>
    obtain rfl := ha
    have hheld : (R.act S ch (.notify n s)).Holds none x := h
    refine ⟨⟨x, hheld⟩, ?_⟩
    rw [hheld.flush, h.flush]
    show join (ParserLib.stream (R.events ++ _) ++ _) = _
    rw [stream_append]
    simp only [openPiece, Action.adds, List.append_nil]
    split_ifs <;> rfl
  | headersComplete m i j k =>
    obtain rfl := ha
    have hheld : (R.act S ch (.headersComplete m i j k)).Holds none x := h
    refine ⟨⟨x, hheld⟩, ?_⟩
    rw [hheld.flush, h.flush]
    show join (ParserLib.stream (R.events ++ _) ++ _) = _
    rw [stream_append]
    simp only [openPiece, Action.adds, List.append_nil]
    split_ifs <;> rfl

theorem Run.Holds.acts (h : R.Holds o x) (ch : UInt8) {as : List Action}
    (has : FitActions o as) :
    (∃ y, (R.acts S ch as).Holds (as.foldl Action.opens o) y) ∧
      join ((R.acts S ch as).stream S) =
        join (R.stream S ++ as.flatMap (Action.adds S ch)) := by
  induction as generalizing R o x with
  | nil => exact ⟨⟨x, h⟩, by simp [Run.acts]⟩
  | cons a as ih =>
    obtain ⟨⟨y, hy⟩, hadds⟩ := h.act (S := S) ch has.1
    obtain ⟨hheld, hstream⟩ := ih hy has.2
    refine ⟨hheld, ?_⟩
    show join ((Run.acts S ch as (R.act S ch a)).stream S) = _
    rw [hstream, join_append_congr hadds, List.flatMap_cons, List.append_assoc]

/-- A pass at a byte that moves on nowhere. -/
theorem Run.Holds.took (h : R.Holds o x) {t : Turn} (ht : t.advance = 0)
    (has : FitActions o (t.before ++ t.last.actions)) :
    (∃ y, (R.took S t ch []).Holds
        ((t.before ++ t.last.actions).foldl Action.opens o) y) ∧
      join ((R.took S t ch []).stream S) =
        join (R.stream S ++ t.adds S o ch) := by
  have htook : R.took S t ch [] =
      (Run.acts S ch (t.before ++ t.last.actions)
        { R with parser := t.last.parser }).pass [ch] := by
    unfold Run.took
    rw [ht]
    show (Run.acts S ch t.last.actions (Run.pass [] (Run.acts S ch t.before
      { R with parser := t.last.parser }))).pass [ch] = _
    rw [pass_nil]
    simp only [Run.acts, List.foldl_append]
  have hR : Run.Holds { R with parser := t.last.parser } o x := h
  obtain ⟨⟨y, hy⟩, hadds⟩ := hR.acts (S := S) ch has
  obtain ⟨hheld, hpass⟩ := hy.pass (S := S) [ch]
  rw [htook]
  refine ⟨⟨_, hheld⟩, ?_⟩
  rw [hpass, join_append_congr hadds, Turn.adds, List.append_assoc, hR.flush, h.flush]

/-- The states in which a body is being read. -/
def State.inBody : State → Bool
  | .bodyIdentity | .bodyIdentityEof | .chunkData | .chunkDataAlmostDone => true
  | _ => false

/-- A datum that can be open in a state: the one that a buffer continues, or a body of
which there were bytes in this buffer. -/
def State.Reads (s : State) (o : Option Datum) : Prop :=
  o = s.openDatum ∨ o = some .body ∧ s.inBody = true

theorem advance_turn (h : P.Sound) : (turn P ch []).advance = 0 := by
  have hpeels : Peels P ch := peels h.errno h.nread h.length
  rcases hpeels with ⟨-, hzero⟩ | ⟨P', before, -, hturn, -, -⟩
  · exact hzero
  · rw [hturn]

theorem before_turn (h : P.state.inBody = false) : (turn P ch rest).before = [] := by
  cases hs : P.state <;> simp only [turn, hs]
  case headerField => exact innerLoop_name.before .general _
  case headerValue => exact innerLoop_value.before _ _
  all_goals exact absurd h (by rw [hs]; decide)

theorem openDatum_newMessage : P.newMessage.openDatum = none := by
  unfold Parser.newMessage Parser.startState
  split_ifs <;> rfl

theorem headerFieldLoop_frame (skip : ℕ) (P : Parser) (bs : Bytes) :
    (headerFieldLoop skip P bs).parser.state = P.state ∧
      (headerFieldLoop skip P bs).parser.httpErrno = P.httpErrno := by
  induction bs generalizing skip P with
  | nil => cases skip <;> exact ⟨rfl, rfl⟩
  | cons c bs ih =>
    cases skip with
    | succ skip => exact ih skip P
    | zero =>
      rw [headerFieldLoop]
      by_cases htoken : token c = 0
      · rw [if_pos htoken]
        exact ⟨rfl, rfl⟩
      · rw [if_neg htoken]
        cases hchar : headerFieldChar P c with
        | none => exact ⟨rfl, rfl⟩
        | some P' =>
          obtain ⟨i, h, u, rfl⟩ := headerFieldChar_frame hchar
          exact ih _ _

theorem headerValueLoop_frame (skip : ℕ) (P : Parser) (bs : Bytes) :
    (headerValueLoop skip P bs).parser.state = P.state ∧
      (headerValueLoop skip P bs).parser.httpErrno = P.httpErrno := by
  induction bs generalizing skip P with
  | nil => cases skip <;> exact ⟨rfl, rfl⟩
  | cons c bs ih =>
    cases skip with
    | succ skip => exact ih skip P
    | zero =>
      obtain ⟨i, h, f, l, hP, -⟩ := headerValueChar_frame P c
      rw [headerValueLoop]
      split_ifs
      · exact ⟨rfl, rfl⟩
      · exact ⟨rfl, rfl⟩
      · dsimp only
        split
        · exact ih _ P
        · split_ifs
          exacts [ih _ P, ih _ P, ⟨rfl, rfl⟩]
      · exact ⟨rfl, rfl⟩
      · rw [hP]
        split
        · exact ⟨rfl, rfl⟩
        · exact ih 0 _

/-- A case that goes on sets no errno, and leaves the mark that belongs to its state. -/
structure Goes (o : Option Datum) (P : Parser) (t : Case) : Prop where
  errno : t.verdict = .next → t.parser.httpErrno = P.httpErrno
  opens : t.verdict = .next → Opens o t.actions t.parser.state.openDatum

theorem Keeps.goes (h : Keeps o P t) : Goes o P t := ⟨fun hv => (h.le hv).errno, h.opens⟩

theorem Goes.of_errno (h : Goes o P' t) (he : P'.httpErrno = P.httpErrno) : Goes o P t :=
  ⟨fun hv => (h.errno hv).trans he, h.opens⟩

theorem Goes.doing {as : List Action} {o' : Option Datum} (h : Goes o' P t) (has : Opens o as o') :
    Goes o P (t.doing as) :=
  ⟨h.errno, fun hv => has.append (h.opens hv)⟩

theorem Goes.counted {n : ℕ} {f : Parser → Case}
    (hf : ∀ P', P'.state = P.state → Goes o P' (f P')) : Goes o P (counted P n f) := by
  unfold ParserLib.counted
  dsimp only
  split_ifs with hlarge
  · exact ⟨fun hv => absurd hv (by simp), fun hv => absurd hv (by simp)⟩
  · rw [nread_countHeaderSize] at hlarge
    rw [countHeaderSize_eq (not_lt.mp hlarge)]
    exact (hf { P with nread := (P.nread + n % 2 ^ 32) % 2 ^ 32 } rfl).of_errno rfl

theorem goes_headerFieldEnd {r : Inner} (hs : r.parser.state = .headerField) :
    Goes (some .headerField) r.parser (headerFieldEnd r).last := by
  unfold headerFieldEnd
  split
  · refine .counted fun P' hP' => (Keeps.brk ⟨rfl, le_rfl, id⟩ ?_).goes
    rw [hP', hs]
    rfl
  · dsimp only
    refine .counted fun P' _ => Keeps.goes ?_
    exact .ite (.doing (.brk ⟨rfl, le_rfl, id⟩ rfl) (.data .nil)) .fail
  · exact Keeps.fail.goes
  · exact Keeps.abort.goes

theorem goes_headerValueEnd {r : Inner} (old : HeaderState) (hs : r.parser.state = .headerValue) :
    Goes (some .headerValue) r.parser (headerValueEnd old r).last := by
  unfold headerValueEnd
  split
  · refine .counted fun P' hP' => (Keeps.brk ⟨rfl, le_rfl, id⟩ ?_).goes
    rw [hP', hs]
    rfl
  · dsimp only
    split_ifs with hcr hlarge
    · refine .doing (.of_errno (.counted fun P' hP' => ?_) rfl) (.data .nil)
      exact (Keeps.brk ⟨rfl, le_rfl, id⟩ (by rw [hP']; rfl)).goes
    · exact ⟨fun hv => absurd hv (by simp), fun hv => absurd hv (by simp)⟩
    · rw [nread_countHeaderSize] at hlarge
      rw [countHeaderSize_eq (not_lt.mp hlarge)]
      exact .doing (Keeps.headerAlmostDone.goes.of_errno rfl) (.data .nil)
  · exact Keeps.fail.goes
  · exact Keeps.abort.goes

/-- The actions of a pass fit what is open, and leave open what belongs to the new state; and a
pass that goes on sets no errno. -/
theorem reads_turn (ho : P.state.Reads o) (hv : (turn P ch rest).last.verdict = .next)
    {as : List Action} (has : as = (turn P ch rest).before ++ (turn P ch rest).last.actions) :
    FitActions o as ∧ as.foldl Action.opens o = as.foldl Action.opens P.state.openDatum ∧
      (turn P ch rest).last.parser.state.Reads (as.foldl Action.opens o) ∧
        (turn P ch rest).last.parser.httpErrno = P.httpErrno := by
  by_cases hbody : P.state.inBody = true
  · have hopen : P.state.openDatum = none := by
      cases hs : P.state <;> rw [hs] at hbody <;> first | rfl | exact absurd hbody (by decide)
    have ho' : o = none ∨ o = some .body := ho.imp (fun h => h.trans hopen) And.left
    rw [hopen]
    cases hs : P.state <;> rw [hs] at hbody
    case bodyIdentityEof =>
      simp only [turn, hs, bodyIdentityEof] at has ⊢
      subst has
      exact ⟨⟨ho', trivial⟩, rfl, .inr ⟨rfl, by show P.state.inBody = true; rw [hs]; rfl⟩, rfl⟩
    case bodyIdentity =>
      simp only [turn, hs, bodyIdentity] at hv has ⊢
      split_ifs at hv has ⊢
      · exact absurd hv (by simp [abort])
      · simp only [Case.doing, messageDone] at hv has ⊢
        split_ifs at hv has ⊢
        · subst has
          exact ⟨⟨ho', rfl, rfl, trivial⟩, rfl, .inl openDatum_newMessage.symm, rfl⟩
      · subst has
        exact ⟨⟨ho', trivial⟩, rfl, .inr ⟨rfl, by show P.state.inBody = true; rw [hs]; rfl⟩, rfl⟩
    case chunkData =>
      simp only [turn, hs, chunkData] at hv has ⊢
      split_ifs at hv has ⊢
      · exact absurd hv (by simp [abort])
      · subst has
        exact ⟨⟨ho', trivial⟩, rfl, .inr ⟨rfl, rfl⟩, rfl⟩
      · subst has
        exact ⟨⟨ho', trivial⟩, rfl, .inr ⟨rfl, by show P.state.inBody = true; rw [hs]; rfl⟩, rfl⟩
    case chunkDataAlmostDone =>
      simp only [turn, hs, switch, chunkDataAlmostDone] at hv has ⊢
      split_ifs at hv has ⊢ with hchunked hcr
      · exact absurd hv (by simp [abort])
      · subst has
        simp only [expect, hcr, decide_true, if_true]
        exact ⟨⟨ho', trivial⟩, rfl, .inl rfl, rfl⟩
      · exact absurd hv (by simp [expect, hcr, fail, Case.doing])
    all_goals exact absurd hbody (by decide)
  · have hgoes : Goes P.state.openDatum P (turn P ch rest).last := by
      cases hs : P.state
      case headerField =>
        obtain ⟨hstate, herrno⟩ := headerFieldLoop_frame 0 P (ch :: rest)
        simp only [turn, hs, headerField]
        exact (goes_headerFieldEnd (hstate.trans hs)).of_errno herrno
      case headerValue =>
        obtain ⟨hstate, herrno⟩ := headerValueLoop_frame 0 P (ch :: rest)
        simp only [turn, hs, headerValue]
        exact (goes_headerValueEnd _ (hstate.trans hs)).of_errno herrno
      case bodyIdentity | bodyIdentityEof | chunkData | chunkDataAlmostDone =>
        exact absurd (by rw [hs]; rfl) hbody
      all_goals
        simp only [turn, hs]
        have hkeeps : Keeps P.state.openDatum P (switch P ch) := .switch (by rw [hs]; decide)
        rw [hs] at hkeeps
        exact hkeeps.goes
    obtain rfl : o = P.state.openDatum := ho.resolve_right fun h => hbody h.2
    rw [before_turn (Bool.eq_false_iff.mpr hbody), List.nil_append] at has
    subst has
    obtain ⟨hfit, hopens⟩ := (hgoes.opens hv).fitActions
    exact ⟨hfit, rfl, .inl hopens, hgoes.errno hv⟩

/-! ### Bytes and blocks -/

/-- A run with one mark at most, which belongs to its state. -/
structure Run.Fit (R : Run) (o : Option Datum) : Prop where
  holds : ∃ x, R.Holds o x
  reads : R.parser.state.Reads o

/-- **A pass leaves one mark at most**, wherever it has moved to. -/
theorem Run.Fit.took (h : R.Fit o) (hs : P.state = R.parser.state)
    (hv : (turn P ch rest).last.verdict = .next) :
    ∃ o', (R.took S (turn P ch rest) ch rest).Fit o' := by
  obtain ⟨x, hx⟩ := h.holds
  obtain ⟨hfit, -, hreads, -⟩ := reads_turn (by rw [hs]; exact h.reads) hv rfl
  obtain ⟨hbefore, hlast⟩ := fitActions_append.mp hfit
  have hR : Run.Holds { R with parser := (turn P ch rest).last.parser } o x := hx
  obtain ⟨⟨y, hy⟩, -⟩ := hR.acts (S := S) ch hbefore
  obtain ⟨hmoved, -⟩ := hy.pass (S := S) ((ch :: rest).take (turn P ch rest).advance)
  obtain ⟨⟨z, hz⟩, -⟩ := hmoved.acts (S := S) ((ch :: rest).getD (turn P ch rest).advance 0) hlast
  refine ⟨_, ⟨_, (hz.pass (S := S) [(ch :: rest).getD (turn P ch rest).advance 0]).1⟩, ?_⟩
  rw [← List.foldl_append, parser_took]
  exact hreads

theorem tick_eq_some {r : Parser × Stream} : tick S P ch = some r ↔
    P.next.httpErrno = .ok ∧ (turn P.next ch []).last.verdict = .next ∧
      ((turn P.next ch []).last.parser,
        (turn P.next ch []).shows S P.state.openDatum ch) = r := by
  unfold tick
  dsimp only
  split_ifs with h
  · simp [h]
  · simp only [false_iff]
    exact fun hr => h ⟨hr.1, hr.2.1⟩

/-- **A byte does to every run what it does to the struct and the stream.** -/
theorem Run.Fit.step (h : R.Fit o) (hR : R.parser.Sound) (ch : UInt8) :
    (∀ r, tick S R.parser ch = some r → ∃ R₁ o₁, R.step S ch = some R₁ ∧
      R₁.parser = r.1 ∧ R₁.Fit o₁ ∧
        join (R₁.stream S) = join (R.stream S ++ erase r.2)) ∧
    (tick S R.parser ch = none → R.step S ch = none) := by
  constructor
  · intro r htick
    obtain ⟨hok, hv, rfl⟩ := tick_eq_some.mp htick
    obtain ⟨hsound, hstate, -⟩ := hR.next hok
    obtain ⟨x, hx⟩ := h.holds
    have hreads : R.parser.next.state.Reads o := by
      rw [hstate]
      exact h.reads
    obtain ⟨hfit, hopens, hreads', -⟩ := reads_turn hreads hv rfl
    obtain ⟨hheld, hstream⟩ := hx.took (S := S) (advance_turn hsound) hfit
    refine ⟨_, _, step_eq_some.mpr ⟨hok, hv, rfl⟩, parser_took _, ⟨hheld, ?_⟩, ?_⟩
    · rw [parser_took]
      exact hreads'
    · rw [Turn.erase_shows]
      refine hstream.trans ?_
      unfold Turn.adds
      rw [hopens, hstate]
  · intro htick
    by_contra hne
    obtain ⟨R₁, hR₁⟩ := Option.ne_none_iff_exists'.mp hne
    obtain ⟨hok, hv, -⟩ := step_eq_some.mp hR₁
    rw [tick_eq_some.mpr ⟨hok, hv, rfl⟩] at htick
    exact absurd htick (by simp)

/-- The same for several bytes. -/
theorem Run.Fit.run (h : R.Fit o) (hR : R.parser.Sound) (bs : Bytes) :
    (∀ r, ticks S R.parser bs = some r → ∃ R₁ o₁,
      Transition.run (Run.step S) bs R = some R₁ ∧ R₁.parser = r.1 ∧ R₁.Fit o₁ ∧
        join (R₁.stream S) = join (R.stream S ++ erase r.2)) ∧
    (ticks S R.parser bs = none → Transition.run (Run.step S) bs R = none) := by
  induction bs generalizing R o with
  | nil =>
    refine ⟨fun r hr => ?_, fun h => absurd h (by simp [ticks])⟩
    obtain rfl := Option.some_inj.mp hr
    exact ⟨R, o, rfl, rfl, h, by rw [show erase [] = [] from rfl, List.append_nil]⟩
  | cons ch rest ih =>
    obtain ⟨hsome, hnone⟩ := h.step (S := S) hR ch
    rw [ticks, run_cons]
    cases htick : tick S R.parser ch with
    | none =>
      rw [hnone htick]
      exact ⟨fun r hr => absurd hr (by simp), fun _ => rfl⟩
    | some r =>
      obtain ⟨R₁, o₁, hR₁, hparser, hfit, hstream⟩ := hsome r htick
      obtain ⟨hsome₁, hnone₁⟩ := ih hfit (hR.step hR₁)
      rw [hR₁, Option.bind_some, Option.bind_some, ← hparser]
      constructor
      · intro r' hr'
        obtain ⟨r₁, hr₁, rfl⟩ := Option.map_eq_some_iff.mp hr'
        obtain ⟨R₂, o₂, hR₂, hparser₂, hfit₂, hstream₂⟩ := hsome₁ r₁ hr₁
        refine ⟨R₂, o₂, hR₂, hparser₂, hfit₂, ?_⟩
        rw [hstream₂, join_append_congr hstream, erase_append, List.append_assoc]
      · intro hr'
        exact hnone₁ (Option.map_eq_none_iff.mp hr')

theorem start_holds : P.start.Holds P.state.openDatum [] := fun _ => rfl

theorem start_fit : P.start.Fit P.state.openDatum := ⟨⟨[], start_holds⟩, .inl rfl⟩

/-- What a buffer adds before its bytes do: an empty piece of the datum that it continues. -/
def opening (S : Settings) (P : Parser) : Stream :=
  openPiece S P.state.openDatum []

theorem stream_start : P.start.stream S = opening S P := by
  rw [start_holds.flush]
  rfl

theorem parser_flush : (R.flush S).parser = R.parser := by
  unfold Run.flush
  generalize Run.leftover = ds
  induction ds generalizing R with
  | nil => rfl
  | cons d ds ih => exact ih.trans (parser_callback d _ [])

/-- Some callbacks end with a piece of the datum that a struct continues. -/
def EndsOpen (S : Settings) (P : Parser) (es : List Event) : Prop :=
  ∃ zs x, stream es = zs ++ openPiece S P.state.openDatum x

/-- So a further piece of it may be empty. -/
theorem EndsOpen.join {es : List Event} (h : EndsOpen S P es) (out : Stream) :
    join (stream es ++ (opening S P ++ out)) = join (stream es ++ out) := by
  obtain ⟨zs, x, hes⟩ := h
  rw [hes, opening]
  cases P.state.openDatum with
  | none => simp [openPiece]
  | some d =>
    have := join_piece_piece (S := S) (d := d) (x := x) (y := []) zs out
    simpa [openPiece] using this

theorem opening_opening :
    join (opening S P ++ opening S P) = join (opening S P) := by
  unfold opening
  cases P.state.openDatum with
  | none => rfl
  | some d =>
    have := join_piece_piece (S := S) (d := d) (x := []) (y := []) [] []
    simpa [openPiece] using this

theorem httpParserExecute_eq_loop (hP : P.Sound) (hne : bs ≠ []) :
    httpParserExecute S P bs = loop S 0 P.start 0 bs := by
  unfold httpParserExecute
  rw [if_neg (not_not.mpr hP.errno), if_neg (by simpa using hne)]

/-- **A call, in terms of its bytes.** -/
theorem httpParserExecute_eq {r : Parser × Stream} (hP : P.Sound) (hne : bs ≠ [])
    (hr : ticks S P bs = some r) :
    ∃ es, httpParserExecute S P bs = ⟨r.1, es, bs.length, .next⟩ ∧ r.1.Sound ∧
      EndsOpen S r.1 es ∧ join (stream es) = join (opening S P ++ erase r.2) := by
  obtain ⟨R₁, o₁, hR₁, hparser, ⟨⟨x, hx⟩, hreads⟩, hstream⟩ :=
    (start_fit.run (S := S) hP bs).1 r hr
  refine ⟨(R₁.flush S).events, ?_, ?_, ?_, ?_⟩
  · rw [httpParserExecute_eq_loop hP hne, loop_of_run (R := P.start) hP hR₁ hx.marked_le,
      Run.finish, parser_flush, hparser, zero_add]
  · rw [← hparser]
    exact Parser.Sound.run hP hR₁
  · -- a body is not continued
    rw [← hparser]
    rcases hreads with rfl | ⟨-, hbody⟩
    · exact ⟨_, x, hx.flush⟩
    · have hnone : R₁.parser.state.openDatum = none := by
        cases hs : R₁.parser.state <;> rw [hs] at hbody <;>
          first | rfl | exact absurd hbody (by decide)
      exact ⟨stream (R₁.flush S).events, [], by simp [hnone, openPiece]⟩
  · rw [← stream_start]
    exact hstream

/-- A call that does not get to the end of its bytes. -/
theorem verdict_httpParserExecute (hP : P.Sound) (hne : bs ≠ []) (hlt : bs.length < 2 ^ 31)
    (hr : ticks S P bs = none) : (httpParserExecute S P bs).verdict ≠ .next := by
  rw [httpParserExecute_eq_loop hP hne]
  exact verdict_loop_of_run_none (R := P.start) hP hlt
    ((start_fit.run (S := S) hP bs).2 hr)

/-! ### Several blocks -/

/-- Give the parser blocks one after the other; `none` when one has not been parsed to its
end. -/
def feed (S : Settings) : Parser → List Bytes → Option (Parser × List Event)
  | P, [] => some (P, [])
  | P, b :: bs =>
    if (httpParserExecute S P b).verdict = .next then
      (feed S (httpParserExecute S P b).parser bs).map fun r =>
        (r.1, (httpParserExecute S P b).events ++ r.2)
    else none

/-- A block that is not empty, and whose length is an `int`. -/
def Block (b : Bytes) : Prop := b ≠ [] ∧ b.length < 2 ^ 31

/-- **Blocks are parsed as their bytes are, one by one.** -/
theorem feed_eq {bs : List Bytes} {r : Parser × Stream} (hP : P.Sound) (hbs : ∀ b ∈ bs, b ≠ [])
    (hr : ticks S P bs.flatten = some r) : ∃ es, feed S P bs = some (r.1, es) ∧
      r.1.Sound ∧
        join (opening S P ++ stream es) = join (opening S P ++ erase r.2) := by
  induction bs generalizing P r with
  | nil =>
    obtain rfl := Option.some_inj.mp hr
    exact ⟨[], rfl, hP, rfl⟩
  | cons b bs ih =>
    obtain ⟨hb, hbs⟩ := List.forall_mem_cons.mp hbs
    rw [List.flatten_cons, ticks_append] at hr
    obtain ⟨r₁, hticks, hmap⟩ := Option.bind_eq_some_iff.mp hr
    obtain ⟨r₂, hr₂, rfl⟩ := Option.map_eq_some_iff.mp hmap
    obtain ⟨es, hexec, hsound, hends, hstream⟩ := httpParserExecute_eq hP hb hticks
    obtain ⟨es₁, hfeed, hsound₁, hstream₁⟩ := ih hsound hbs hr₂
    refine ⟨es ++ es₁, ?_, hsound₁, ?_⟩
    · rw [feed, hexec, if_pos rfl]
      show (feed S r₁.1 bs).map _ = _
      rw [hfeed]
      rfl
    · -- the block's own stream begins with the opening, and ends as that of the rest begins
      have hopening : join (opening S P ++ stream es) = join (stream es) := by
        rw [join_append_congr_right hstream, ← List.append_assoc,
          join_append_congr opening_opening, hstream]
      rw [stream_append, ← List.append_assoc, join_append_congr hopening, ← hends.join,
        join_append_congr_right hstream₁, hends.join, join_append_congr hstream, erase_append,
        List.append_assoc]

/-- Blocks that are not parsed to their end. -/
theorem feed_eq_none {bs : List Bytes} (hP : P.Sound) (hbs : ∀ b ∈ bs, Block b)
    (hr : ticks S P bs.flatten = none) : feed S P bs = none := by
  induction bs generalizing P with
  | nil => exact absurd hr (by simp [ticks])
  | cons b bs ih =>
    obtain ⟨hb, hbs⟩ := List.forall_mem_cons.mp hbs
    rw [List.flatten_cons, ticks_append] at hr
    rw [feed]
    cases hticks : ticks S P b with
    | none => rw [if_neg (verdict_httpParserExecute hP hb.1 hb.2 hticks)]
    | some r =>
      obtain ⟨es, hexec, hsound, -, -⟩ := httpParserExecute_eq hP hb.1 hticks
      rw [hticks] at hr
      rw [hexec, if_pos rfl]
      show (feed S r.1 bs).map _ = _
      rw [ih hsound hbs (Option.map_eq_none_iff.mp hr)]
      rfl

theorem sound_init (t : ParserType) : (httpParserInit t).Sound :=
  ⟨rfl, Nat.zero_le _, Nat.zero_le _⟩

theorem opening_init (t : ParserType) : opening S (httpParserInit t) = [] := by
  cases t <;> rfl

/-- **Where the blocks are cut makes no difference** to the struct and to the stream, nor to
whether they are parsed to their end. -/
theorem feed_blocks (t : ParserType) (bs bs' : List Bytes) (hbs : ∀ b ∈ bs, Block b)
    (hbs' : ∀ b ∈ bs', Block b) (h : bs.flatten = bs'.flatten) :
    (feed S (httpParserInit t) bs).map (fun r => (r.1, join (stream r.2))) =
      (feed S (httpParserInit t) bs').map fun r => (r.1, join (stream r.2)) := by
  have hfeed : ∀ {bs : List Bytes}, (∀ b ∈ bs, Block b) →
      (feed S (httpParserInit t) bs).map (fun r => (r.1, join (stream r.2))) =
        (ticks S (httpParserInit t) bs.flatten).map fun r => (r.1, join (erase r.2)) := by
    intro bs hbs
    cases hticks : ticks S (httpParserInit t) bs.flatten with
    | none =>
      rw [feed_eq_none (sound_init t) hbs hticks]
      rfl
    | some r =>
      obtain ⟨es, hr, -, hstream⟩ := feed_eq (sound_init t) (fun b hb => (hbs b hb).1) hticks
      rw [opening_init, List.nil_append, List.nil_append] at hstream
      rw [hr, Option.map_some, Option.map_some, hstream]
  rw [hfeed hbs, hfeed hbs', h]

/-- The beginning of a request, in one block and in three. -/
theorem feed_getRoot :
    (feed ⟨fun _ => true, fun _ => true, true⟩ (httpParserInit .request)
      [bytes "GET / HTTP/1.1\r\nHo"]).map (fun r => (r.1, join (stream r.2))) =
    (feed ⟨fun _ => true, fun _ => true, true⟩ (httpParserInit .request)
      [bytes "GE", bytes "T / HTT", bytes "P/1.1\r\nHo"]).map fun r =>
        (r.1, join (stream r.2)) :=
  feed_blocks .request _ _ (by unfold Block; decide) (by unfold Block; decide) (by decide)

end ParserLib

end Server
