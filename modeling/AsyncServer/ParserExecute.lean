/-
`http_parser_execute`.

A mark is kept as the bytes from it up to `p`, so that `MARK` starts an empty string
and a callback is given what has been gathered.  `stored` is `parser->state`, which the
macros write before a callback and which is else behind `CURRENT_STATE()`; only
`on_headers_complete` is called without that.

* `loop`, `httpParserExecute` — the loop over the buffer, and the whole call;
* `Run.step` — one byte, with nothing behind it;
* `requestParser` — the parser as `HttpRequestParser` sets it up.
-/
import AsyncServer.ParserSwitch
import AsyncServer.HttpParser
import AsyncServer.Transition

namespace Server

namespace ParserLib

/-- A call of a callback. -/
inductive Event
  | data (d : Datum) (buf : Bytes)
  | notify (n : Notice)
  | headersComplete (method : HttpMethod) (httpMajor httpMinor statusCode : ℕ) (state : State)
  deriving DecidableEq

/-- The callbacks that are registered in `http_parser_settings`. -/
structure Settings where
  data : Datum → Bool
  notify : Notice → Bool
  headersComplete : Bool

/-- The struct and the locals of a running `http_parser_execute`, and the callbacks made. -/
structure Run where
  parser : Parser
  stored : State
  marks : Datum → Option Bytes
  events : List Event

namespace Run

variable (settings : Settings)

/-- Run the callback of a datum, if it has a mark. -/
def callback (R : Run) (d : Datum) (current : State) (through : Bytes) : Run :=
  match R.marks d with
  | none => R
  | some buf =>
    { R with
      stored := if settings.data d then current else R.stored
      marks := Function.update R.marks d none
      events := R.events ++ if settings.data d then [.data d (buf ++ through)] else [] }

/-- A mark or a callback, at the byte `ch`. -/
def act (ch : UInt8) (R : Run) : Action → Run
  | .mark d => { R with marks := Function.update R.marks d (some ((R.marks d).getD [])) }
  | .data d current => R.callback settings d current []
  | .dataThrough d current => R.callback settings d current [ch]
  | .notify n current =>
    { R with
      stored := if settings.notify n then current else R.stored
      events := R.events ++ if settings.notify n then [.notify n] else [] }
  | .headersComplete method major minor status =>
    { R with
      events := R.events ++
        if settings.headersComplete then [.headersComplete method major minor status R.stored]
        else [] }

/-- Several of them. -/
def acts (ch : UInt8) (as : List Action) (R : Run) : Run := as.foldl (act settings ch) R

/-- Move `p` over some bytes. -/
def pass (bs : Bytes) (R : Run) : Run :=
  { R with marks := fun d => (R.marks d).map (· ++ bs) }

/-- The marks and callbacks of a pass through the loop at the byte `ch`, and its bytes. -/
def took (t : Turn) (ch : UInt8) (rest : Bytes) (R : Run) : Run :=
  let R := acts settings ch t.before { R with parser := t.last.parser }
  let R := R.pass ((ch :: rest).take t.advance)
  let c := (ch :: rest).getD t.advance 0
  (acts settings c t.last.actions R).pass [c]

/-- The struct when the body of the loop is entered. -/
def counted (R : Run) : Parser :=
  if R.parser.state.parsingHeader then R.parser.countHeaderSize 1 else R.parser

/-- The order in which the leftover marks are looked at. -/
def leftover : List Datum := [.headerField, .headerValue, .url, .body, .status]

/-- How many marks are left over. -/
def marked (R : Run) : ℕ := leftover.countP fun d => (R.marks d).isSome

/-- The callbacks for the leftover marks. -/
def flush (R : Run) : Run :=
  leftover.foldl (fun R d => R.callback settings d R.parser.state []) R

end Run

/-- What `http_parser_execute` has done: the struct, the callbacks made, the bytes
consumed, and how it has ended. -/
structure Result where
  parser : Parser
  events : List Event
  consumed : ℕ
  verdict : Verdict

/-- `RETURN`. -/
def Run.finish (R : Run) (consumed : ℕ) (v : Verdict) : Result :=
  ⟨R.parser, R.events, consumed, v⟩

/-- The loop, with bytes to be passed over at first; `p` is the index of the next one. -/
def loop (settings : Settings) : ℕ → Run → ℕ → Bytes → Result
  | _, R, p, [] =>
    -- the `assert`s that there is at most one mark, and no errno at its callback
    if R.marked ≤ 1 ∧ R.parser.httpErrno = .ok then (R.flush settings).finish p .next
    else R.finish p .abort
  | skip + 1, R, p, _ :: rest => loop settings skip R (p + 1) rest
  | 0, R, p, ch :: rest =>
    let P := R.counted
    -- so that the callbacks of the pass find no errno: a case that sets one ends with it
    if P.httpErrno ≠ .ok then { R with parser := P }.finish p .stop
    else
      let t := turn P ch rest
      let R' := R.took settings t ch rest
      match t.last.verdict with
      | .next => loop settings t.advance R' (p + 1) rest
      | .leave => R'.finish (p + t.advance + 1) .leave
      | v => R'.finish (p + t.advance) v

/-- The datum that is continued by a buffer. -/
def State.openDatum : State → Option Datum
  | .headerField => some .headerField
  | .headerValue => some .headerValue
  | .reqPath | .reqSchema | .reqSchemaSlash | .reqSchemaSlashSlash | .reqServerStart
  | .reqServer | .reqServerWithAt | .reqQueryStringStart | .reqQueryString
  | .reqFragmentStart | .reqFragment => some .url
  | .resStatus => some .status
  | _ => none

/-- The beginning of `http_parser_execute`. -/
def Parser.start (P : Parser) : Run where
  parser := P
  stored := P.state
  marks d := if P.state.openDatum = some d then some [] else none
  events := []

/-- `http_parser_execute` at the end of the connection, `len == 0`. -/
def httpParserEof (settings : Settings) (P : Parser) : Result :=
  match P.state with
  | .bodyIdentityEof =>
    ⟨P, if settings.notify .messageComplete then [.notify .messageComplete] else [], 0, .next⟩
  | .dead | .startReqOrRes | .startRes | .startReq => ⟨P, [], 0, .next⟩
  | _ => ⟨P.setErrno .invalidEofState, [], 1, .stop⟩

/-- `http_parser_execute`. -/
def httpParserExecute (settings : Settings) (P : Parser) (data : Bytes) : Result :=
  if P.httpErrno ≠ .ok then ⟨P, [], 0, .stop⟩
  else if data.length = 0 then httpParserEof settings P
  else loop settings 0 P.start 0 data

/-! ### The parser of the server -/

/-- The callbacks registered by `HttpRequestParser`. -/
def requestSettings : Settings where
  data d := d ≠ .status
  notify n := n = .messageComplete
  headersComplete := true

/-- A callback as the request parser sees it. -/
def Event.toRequest : Event → Option ParserEvent
  | .data .url buf => some (.url buf)
  | .data .headerField buf => some (.headerField buf)
  | .data .headerValue buf => some (.headerValue buf)
  | .data .body buf => some (.body buf)
  | .data .status _ => none
  | .notify .messageComplete => some .messageComplete
  | .notify _ => none
  | .headersComplete method major minor _ _ => some (.headersComplete method major minor)

/-- The parser behind `HttpRequestParser`. -/
def requestParser : HttpParser Parser where
  init := httpParserInit .request
  execute P buf :=
    let r := httpParserExecute requestSettings P buf
    (r.parser, r.events.filterMap Event.toRequest, r.consumed)

/-! ### One byte at a time -/

/-- One byte, with nothing behind it in the buffer; `none` if the loop is left there. -/
def Run.step (settings : Settings) (R : Run) (ch : UInt8) : Option Run :=
  if R.counted.httpErrno ≠ .ok then none
  else if (turn R.counted ch []).last.verdict = .next then
    some (R.took settings (turn R.counted ch []) ch [])
  else none

end ParserLib

end Server
