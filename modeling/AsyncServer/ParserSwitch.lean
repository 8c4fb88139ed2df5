/-
The `switch` of `http_parser_execute`.

`turn P ch rest` is one pass through the body of the loop, at the byte `ch` with
`rest` behind it in the buffer: how far the case itself moves `p`, what becomes of the
struct, which marks are set and which callbacks are run (`Action`), and how the pass
ends.  A case that says `REEXECUTE` calls that of its new state.

* `headerFieldLoop`, `headerValueLoop` — the inner loops over names and values, with
  their scans over what they do not look at;
* `switch`, `turn` — the switch, for the cases of one byte and for all of them.

The callbacks of this repository return 0 and do not pause the parser; what
`http_parser_execute` does with another answer is left out.
-/
import AsyncServer.ParserLib

namespace Server

open CString

namespace ParserLib

/-- The data with a mark and a callback of their own. -/
inductive Datum
  | url | status | headerField | headerValue | body
  deriving DecidableEq

/-- The callbacks without data, `on_headers_complete` apart. -/
inductive Notice
  | messageBegin | messageComplete | chunkHeader | chunkComplete
  deriving DecidableEq

/-- A use of the macros for marks and callbacks, with `CURRENT_STATE()` where a callback
is run. -/
inductive Action
  /-- `MARK`. -/
  | mark (d : Datum)
  /-- `CALLBACK_DATA`, `CALLBACK_DATA_NOADVANCE`: up to `p`. -/
  | data (d : Datum) (current : State)
  /-- `CALLBACK_DATA_` with the byte at `p`. -/
  | dataThrough (d : Datum) (current : State)
  /-- `CALLBACK_NOTIFY`, `CALLBACK_NOTIFY_NOADVANCE`. -/
  | notify (n : Notice) (current : State)
  /-- The call of `on_headers_complete`, with what is read of the struct there. -/
  | headersComplete (method : HttpMethod) (httpMajor httpMinor statusCode : ℕ)
  deriving DecidableEq

/-- How a pass through the loop ends. -/
inductive Verdict
  /-- `break`. -/
  | next
  /-- `RETURN((p - data) + 1)`. -/
  | leave
  /-- `RETURN(p - data)`, with an errno. -/
  | stop
  /-- An `assert` has failed. -/
  | abort
  deriving DecidableEq

/-- What a case does at a byte. -/
structure Case where
  parser : Parser
  actions : List Action
  verdict : Verdict
  deriving DecidableEq

/-- A pass through the loop: `before` is done at the first byte, and `last` at the one
`advance` bytes behind it. -/
structure Turn where
  before : List Action
  advance : ℕ
  last : Case
  deriving DecidableEq

/-- `break`. -/
def brk (P : Parser) : Case := ⟨P, [], .next⟩

/-- `SET_ERRNO(e); goto error`. -/
def fail (P : Parser) (e : Errno) : Case := ⟨P.setErrno e, [], .stop⟩

/-- A failed `assert`. -/
def abort (P : Parser) : Case := ⟨P, [], .abort⟩

/-- Do this first. -/
def Case.doing (as : List Action) (t : Case) : Case := { t with actions := as ++ t.actions }

/-- `STRICT_CHECK`, and other tests of a single byte. -/
def expect (ok : Bool) (e : Errno) (P : Parser) (s : State) : Case :=
  if ok then brk (P.enter s) else fail P e

/-! ### The ends of messages -/

/-- `UPDATE_STATE(NEW_MESSAGE()); CALLBACK_NOTIFY(message_complete)`. -/
def completeMessage (P : Parser) : Case :=
  (brk (P.enter P.newMessage)).doing [.notify .messageComplete P.newMessage]

/-- The case `s_message_done`. -/
def messageDone (P : Parser) : Case :=
  if P.upgrade then { completeMessage P with verdict := .leave } else completeMessage P

/-- There is a body. -/
def hasBody (P : Parser) : Bool :=
  P.flags.chunked || (0 < P.contentLength && P.contentLength ≠ ullongMax)

/-- The case `s_headers_done`. -/
def headersDone (P : Parser) (ch : UInt8) : Case :=
  if ch ≠ LF then fail P .strict
  else
    let P := { P with nread := 0 }
    -- the rest of the connection is in another protocol
    if P.upgrade && (P.method = .connect || P.flags.skipbody || !hasBody P) then
      { completeMessage P with verdict := .leave }
    else if P.flags.skipbody then completeMessage P
    else if P.flags.chunked then brk (P.enter .chunkSizeStart)
    else if P.usesTransferEncoding then
      if P.type = .request && !P.lenientHttpHeaders then fail P .invalidTransferEncoding
      else brk (P.enter .bodyIdentityEof)
    else if P.contentLength = 0 then completeMessage P
    else if P.contentLength ≠ ullongMax then brk (P.enter .bodyIdentity)
    else if !P.httpMessageNeedsEof then completeMessage P
    else brk (P.enter .bodyIdentityEof)

/-- Transfer encoding and content length do not go together. -/
def lengthConflict (P : Parser) : Bool :=
  P.usesTransferEncoding && P.flags.contentlength &&
    (if P.flags.chunked then !P.allowChunkedLength else !P.lenientHttpHeaders)

/-- The case `s_headers_almost_done`. -/
def headersAlmostDone (P : Parser) (ch : UInt8) : Case :=
  if ch ≠ LF then fail P .strict
  else if P.flags.trailing then
    (messageDone (P.enter .messageDone)).doing [.notify .chunkComplete .messageDone]
  else if lengthConflict P then fail P .unexpectedContentLength
  else
    let P := P.enter .headersDone
    let P := { P with
      upgrade :=
        if P.flags.upgrade && P.flags.connectionUpgrade then
          P.type = .request || P.statusCode = 101
        else P.method = .connect }
    (headersDone P ch).doing [.headersComplete P.method P.httpMajor P.httpMinor P.statusCode]

/-! ### Header lines -/

/-- The state of a name with this first byte. -/
def firstHeaderState (c : UInt8) : HeaderState :=
  if c = byte 'c' then .C
  else if c = byte 'p' then .matchingProxyConnection
  else if c = byte 't' then .matchingTransferEncoding
  else if c = byte 'u' then .matchingUpgrade
  else .general

/-- The case `s_header_field_start`. -/
def headerFieldStart (P : Parser) (ch : UInt8) : Case :=
  if ch = CR then brk (P.enter .headersAlmostDone)
  else if ch = LF then headersAlmostDone (P.enter .headersAlmostDone) ch
  else if token ch = 0 then fail P .invalidHeaderToken
  else
    (brk { P.enter .headerField with index := 0, headerState := firstHeaderState (token ch) }).doing
      [.mark .headerField]

/-- Match the next byte of a name or a token against a string: `full` when it is its
last one, `other` when it is another byte. -/
def matching (P : Parser) (s : Bytes) (c : UInt8) (full other : HeaderState) : Parser :=
  let P := { P with index := P.index + 1 }
  if s.length < P.index ∨ c ≠ charAt s P.index then { P with headerState := other }
  else if P.index = s.length - 1 then { P with headerState := full }
  else P

/-- The first bytes of the names that begin with `con`. -/
def follows (P : Parser) (found : Bool) (s : HeaderState) : Parser :=
  { P with index := P.index + 1, headerState := if found then s else .general }

/-- The switch over `header_state` in `s_header_field`; `none` for its default. -/
def headerFieldChar (P : Parser) (ch : UInt8) : Option Parser :=
  let c := token ch
  match P.headerState with
  | .general => some P
  | .C => some (follows P (c = byte 'o') .CO)
  | .CO => some (follows P (c = byte 'n') .CON)
  | .CON =>
    some (if c = byte 'n' then follows P true .matchingConnection
      else follows P (c = byte 't') .matchingContentLength)
  | .matchingConnection => some (matching P (bytes "connection") c .connection .general)
  | .matchingProxyConnection =>
    some (matching P (bytes "proxy-connection") c .connection .general)
  | .matchingContentLength => some (matching P (bytes "content-length") c .contentLength .general)
  | .matchingTransferEncoding =>
    let P' := matching P (bytes "transfer-encoding") c .transferEncoding .general
    some (if P'.headerState = .transferEncoding then { P' with usesTransferEncoding := true }
      else P')
  | .matchingUpgrade => some (matching P (bytes "upgrade") c .upgrade .general)
  | .connection | .contentLength | .transferEncoding | .upgrade =>
    some (if ch ≠ byte ' ' then { P with headerState := .general } else P)
  | _ => none

/-- How far the scan for the end of a name of no interest moves `p`, from the byte before
`rest`. -/
def fieldScan (rest : Bytes) : ℕ :=
  ((rest.take (min (rest.length + 1) maxHeaderSize - 1)).takeWhile fun c => token c ≠ 0).length

/-- Why an inner loop is left. -/
inductive LoopEnd
  /-- `p` is at the end of the buffer. -/
  | buffer
  /-- At a byte. -/
  | at (ch : UInt8)
  /-- `goto error`. -/
  | error (e : Errno)
  | abort
  deriving DecidableEq

/-- What an inner loop leaves: the struct, how far it has moved `p`, and why it was left. -/
structure Inner where
  parser : Parser
  moved : ℕ
  ending : LoopEnd
  deriving DecidableEq

/-- The same, seen from the byte before. -/
def Inner.further (r : Inner) : Inner := { r with moved := r.moved + 1 }

/-- The loop of `s_header_field` from `p` on, with bytes to be passed over at first. -/
def headerFieldLoop : ℕ → Parser → Bytes → Inner
  | _, P, [] => ⟨P, 0, .buffer⟩
  | skip + 1, P, _ :: rest => (headerFieldLoop skip P rest).further
  | 0, P, ch :: rest =>
    if token ch = 0 then ⟨P, 0, .at ch⟩
    else match headerFieldChar P ch with
      | none => ⟨P, 0, .abort⟩
      | some P' =>
        let skip := if P.headerState = .general then fieldScan rest else 0
        (headerFieldLoop skip P' rest).further

/-- Count the bytes of an inner loop; an overflow is an error. -/
def counted (P : Parser) (n : ℕ) (f : Parser → Case) : Case :=
  let P' := P.countHeaderSize n
  if maxHeaderSize < P'.nread then ⟨P', [], .stop⟩ else f P'

/-- The case `s_header_field` behind its loop. -/
def headerFieldEnd (r : Inner) : Turn :=
  match r.ending with
  | .buffer => ⟨[], r.moved - 1, counted r.parser (r.moved - 1) brk⟩
  | .at c =>
    ⟨[], r.moved, counted r.parser r.moved fun P =>
      if c = byte ':' then
        (brk (P.enter .headerValueDiscardWs)).doing [.data .headerField .headerValueDiscardWs]
      else fail P .invalidHeaderToken⟩
  | .error e => ⟨[], r.moved, fail r.parser e⟩
  | .abort => ⟨[], r.moved, abort r.parser⟩

/-- The case `s_header_field`. -/
def headerField (P : Parser) (ch : UInt8) (rest : Bytes) : Turn :=
  headerFieldEnd (headerFieldLoop 0 P (ch :: rest))

/-- The case `s_header_value_start`. -/
def headerValueStart (P : Parser) (ch : UInt8) : Case :=
  let P := { P.enter .headerValue with index := 0 }
  let c := lower ch
  (match P.headerState with
    | .upgrade =>
      brk { P with flags := { P.flags with upgrade := true }, headerState := .general }
    | .transferEncoding =>
      brk { P with
        headerState :=
          if c = byte 'c' then .matchingTransferEncodingChunked
          else .matchingTransferEncodingToken }
    | .matchingTransferEncodingTokenStart => brk P
    | .contentLength =>
      if !isNum ch then fail P .invalidContentLength
      else if P.flags.contentlength then fail P .unexpectedContentLength
      else
        brk { P with
          flags := { P.flags with contentlength := true }
          contentLength := digitVal ch
          headerState := .contentLengthNum }
    | .contentLengthWs => brk P
    | .connection =>
      brk { P with
        headerState :=
          if c = byte 'k' then .matchingConnectionKeepAlive
          else if c = byte 'c' then .matchingConnectionClose
          else if c = byte 'u' then .matchingConnectionUpgrade
          else .matchingConnectionToken }
    | .matchingConnectionTokenStart => brk P
    | _ => brk { P with headerState := .general }).doing [.mark .headerValue]

/-- The case `s_header_value_discard_ws`. -/
def headerValueDiscardWs (P : Parser) (ch : UInt8) : Case :=
  if ch = byte ' ' ∨ ch = 9 then brk P
  else if ch = CR then brk (P.enter .headerValueDiscardWsAlmostDone)
  else if ch = LF then brk (P.enter .headerValueDiscardLws)
  else headerValueStart P ch

/-- A digit more of the content length; the test is for a bound on the length so far. -/
def contentLengthChar (P : Parser) (ch : UInt8) : Parser × Option Errno :=
  let P := { P with headerState := .contentLengthNum }
  if ch = byte ' ' then ({ P with headerState := .contentLengthWs }, none)
  else if !isNum ch then (P, some .invalidContentLength)
  else if (ullongMax - 10) / 10 < P.contentLength then (P, some .invalidContentLength)
  else ({ P with contentLength := (P.contentLength * 10 + digitVal ch) % 2 ^ 64 }, none)

/-- The next token of a list of tokens. -/
def tokenStart (P : Parser) (c : UInt8) (found : HeaderState) (any : HeaderState) : Parser :=
  if token c ≠ 0 then { P with headerState := if found = .general then any else found }
  else if c = byte ' ' ∨ c = 9 then P
  else { P with headerState := .general }

/-- A comma ends a token of no interest. -/
def tokenChar (P : Parser) (ch : UInt8) (start : HeaderState) : Parser :=
  if ch = byte ',' then { P with headerState := start, index := 0 } else P

/-- What the end of a token or of a value adds to the flags. -/
def addFlag (P : Parser) : Parser :=
  match P.headerState with
  | .connectionKeepAlive => { P with flags := { P.flags with connectionKeepAlive := true } }
  | .connectionClose => { P with flags := { P.flags with connectionClose := true } }
  | .transferEncodingChunked => { P with flags := { P.flags with chunked := true } }
  | .connectionUpgrade => { P with flags := { P.flags with connectionUpgrade := true } }
  | _ => P

/-- The switch over `h_state` in `s_header_value`, its first case apart; `h_state` is kept
in `headerState`. -/
def headerValueChar (P : Parser) (ch : UInt8) : Parser × Option Errno :=
  let c := lower ch
  match P.headerState with
  | .contentLength => if ch = byte ' ' then (P, none) else contentLengthChar P ch
  | .contentLengthNum => contentLengthChar P ch
  | .contentLengthWs => if ch = byte ' ' then (P, none) else (P, some .invalidContentLength)
  | .matchingTransferEncodingTokenStart =>
    (tokenStart P c (if c = byte 'c' then .matchingTransferEncodingChunked else .general)
      .matchingTransferEncodingToken, none)
  | .matchingTransferEncodingChunked =>
    (matching P (bytes "chunked") c .transferEncodingChunked .matchingTransferEncodingToken, none)
  | .matchingTransferEncodingToken =>
    (tokenChar P ch .matchingTransferEncodingTokenStart, none)
  | .matchingConnectionTokenStart =>
    (tokenStart P c
      (if c = byte 'k' then .matchingConnectionKeepAlive
        else if c = byte 'c' then .matchingConnectionClose
        else if c = byte 'u' then .matchingConnectionUpgrade
        else .general) .matchingConnectionToken, none)
  | .matchingConnectionKeepAlive =>
    (matching P (bytes "keep-alive") c .connectionKeepAlive .matchingConnectionToken, none)
  | .matchingConnectionClose =>
    (matching P (bytes "close") c .connectionClose .matchingConnectionToken, none)
  | .matchingConnectionUpgrade =>
    (matching P (bytes "upgrade") c .connectionUpgrade .matchingConnectionToken, none)
  | .matchingConnectionToken => (tokenChar P ch .matchingConnectionTokenStart, none)
  | .transferEncodingChunked =>
    (if ch ≠ byte ' ' then { P with headerState := .matchingTransferEncodingToken } else P, none)
  | .connectionKeepAlive | .connectionClose | .connectionUpgrade =>
    (if ch = byte ',' then
      { addFlag P with headerState := .matchingConnectionTokenStart, index := 0 }
    else if ch ≠ byte ' ' then { P with headerState := .matchingConnectionToken } else P, none)
  | _ => ({ P with headerState := .general }, none)

/-- A byte that a value may have. -/
def valueByte (P : Parser) (c : UInt8) : Bool := P.lenientHttpHeaders || isHeaderChar c

/-- The scan over a value of no interest, from `p` on: how many bytes it finds good. -/
def valueScan (P : Parser) (bs : Bytes) : ℕ :=
  ((bs.take (min bs.length maxHeaderSize)).takeWhile fun c =>
    c ≠ CR && c ≠ LF && valueByte P c).length

/-- The loop of `s_header_value` from `p` on, with bytes to be passed over at first. -/
def headerValueLoop : ℕ → Parser → Bytes → Inner
  | _, P, [] => ⟨P, 0, .buffer⟩
  | skip + 1, P, _ :: rest => (headerValueLoop skip P rest).further
  | 0, P, ch :: rest =>
    if ch = CR ∨ ch = LF then ⟨P, 0, .at ch⟩
    else if !valueByte P ch then ⟨P, 0, .error .invalidHeaderToken⟩
    else if P.headerState = .general then
      let n := valueScan P (ch :: rest)
      match (ch :: rest)[n]? with
      -- the end of the buffer
      | none => (headerValueLoop (n - 1) P rest).further
      | some c =>
        -- `max_header_size` bytes have been scanned, and the next one is passed over
        if n = maxHeaderSize then (headerValueLoop n P rest).further
        else if c = CR ∨ c = LF then (headerValueLoop (n - 1) P rest).further
        else ⟨P, n, .error .invalidHeaderToken⟩
    else if P.headerState = .connection ∨ P.headerState = .transferEncoding then ⟨P, 0, .abort⟩
    else
      match (headerValueChar P ch).2 with
      | some e => ⟨(headerValueChar P ch).1, 0, .error e⟩
      | none => (headerValueLoop 0 (headerValueChar P ch).1 rest).further

/-- The case `s_header_almost_done`. -/
def headerAlmostDone (P : Parser) (ch : UInt8) : Case :=
  expect (ch = LF) .lfExpected P .headerValueLws

/-- The case `s_header_value` behind its loop.  On a byte that no value may have, and when
the size is exceeded at a line feed, `header_state` is what it was before the loop. -/
def headerValueEnd (old : HeaderState) (r : Inner) : Turn :=
  match r.ending with
  | .buffer => ⟨[], r.moved - 1, counted r.parser (r.moved - 1) brk⟩
  | .at c =>
    ⟨[], r.moved,
      if c = CR then
        (counted (r.parser.enter .headerAlmostDone) r.moved brk).doing
          [.data .headerValue .headerAlmostDone]
      else
        let P := (r.parser.enter .headerAlmostDone).countHeaderSize r.moved
        if maxHeaderSize < P.nread then ⟨{ P with headerState := old }, [], .stop⟩
        else (headerAlmostDone P LF).doing [.data .headerValue .headerAlmostDone]⟩
  | .error e =>
    ⟨[], r.moved,
      fail (if e = .invalidHeaderToken then { r.parser with headerState := old } else r.parser) e⟩
  | .abort => ⟨[], r.moved, abort r.parser⟩

/-- The case `s_header_value`. -/
def headerValue (P : Parser) (ch : UInt8) (rest : Bytes) : Turn :=
  headerValueEnd P.headerState (headerValueLoop 0 P (ch :: rest))

/-- The case `s_header_value_lws`. -/
def headerValueLws (P : Parser) (ch : UInt8) : Case :=
  if ch = byte ' ' ∨ ch = 9 then
    let P :=
      if P.headerState = .contentLengthNum then { P with headerState := .contentLengthWs } else P
    headerValueStart (P.enter .headerValueStart) ch
  else headerFieldStart ((addFlag P).enter .headerFieldStart) ch

/-- The case `s_header_value_discard_lws`. -/
def headerValueDiscardLws (P : Parser) (ch : UInt8) : Case :=
  if ch = byte ' ' ∨ ch = 9 then brk (P.enter .headerValueDiscardWs)
  else if P.headerState = .contentLength then fail P .invalidContentLength
  else
    -- the value was empty
    (headerFieldStart ((addFlag P).enter .headerFieldStart) ch).doing
      [.mark .headerValue, .data .headerValue .headerFieldStart]

/-! ### The first line -/

/-- The beginning of a message. -/
def beginMessage (P : Parser) : Parser :=
  { P with flags := .zero, usesTransferEncoding := false, contentLength := ullongMax }

/-- The first method with a letter. -/
def firstMethod (ch : UInt8) : Option HttpMethod :=
  [(byte 'A', HttpMethod.acl), (byte 'B', .bind), (byte 'C', .connect), (byte 'D', .delete),
   (byte 'G', .get), (byte 'H', .head), (byte 'L', .lock), (byte 'M', .mkcol),
   (byte 'N', .notify), (byte 'O', .options), (byte 'P', .post), (byte 'R', .report),
   (byte 'S', .subscribe), (byte 'T', .trace), (byte 'U', .unlock)].lookup ch

/-- The case `s_start_req`. -/
def startReq (P : Parser) (ch : UInt8) : Case :=
  if ch = CR ∨ ch = LF then brk P
  else if !isAlpha ch then fail (beginMessage P) .invalidMethod
  else
    let P := { beginMessage P with method := .delete, index := 1 }
    match firstMethod ch with
    | none => fail P .invalidMethod
    | some m =>
      (brk ({ P with method := m }.enter .reqMethod)).doing [.notify .messageBegin .reqMethod]

/-- The methods to which the parser turns when a byte is not that of the present one. -/
def methodTurns : List ((HttpMethod × ℕ × UInt8) × HttpMethod) :=
  [((.post, 1, byte 'U'), .put), ((.post, 1, byte 'A'), .patch),
   ((.post, 1, byte 'R'), .propfind), ((.put, 2, byte 'R'), .purge),
   ((.connect, 1, byte 'H'), .checkout), ((.connect, 2, byte 'P'), .copy),
   ((.mkcol, 1, byte 'O'), .move), ((.mkcol, 1, byte 'E'), .merge),
   ((.mkcol, 1, byte '-'), .msearch), ((.mkcol, 2, byte 'A'), .mkactivity),
   ((.mkcol, 3, byte 'A'), .mkcalendar), ((.subscribe, 1, byte 'E'), .search),
   ((.subscribe, 1, byte 'O'), .source), ((.report, 2, byte 'B'), .rebind),
   ((.propfind, 4, byte 'P'), .proppatch), ((.lock, 1, byte 'I'), .link),
   ((.unlock, 2, byte 'S'), .unsubscribe), ((.unlock, 2, byte 'B'), .unbind),
   ((.unlock, 3, byte 'I'), .unlink)]

/-- The case `s_req_method`. -/
def reqMethod (P : Parser) (ch : UInt8) : Case :=
  let P' := { P with index := P.index + 1 }
  if ch = 0 then fail P .invalidMethod
  else if ch = byte ' ' ∧ charAt (methodStrings P.method) P.index = 0 then
    brk (P'.enter .reqSpacesBeforeUrl)
  else if ch = charAt (methodStrings P.method) P.index then brk P'
  else if (byte 'A' ≤ ch ∧ ch ≤ byte 'Z') ∨ ch = byte '-' then
    match methodTurns.lookup (P.method, P.index, ch) with
    | none => fail P .invalidMethod
    | some m => brk { P' with method := m }
  else fail P .invalidMethod

/-- `UPDATE_STATE(parse_url_char(CURRENT_STATE(), ch))` and the test of the new state. -/
def urlChar (P : Parser) (ch : UInt8) : Case :=
  let P := P.enter (parseUrlChar P.state ch)
  if P.state = .dead then fail P .invalidUrl else brk P

/-- The case `s_req_spaces_before_url`. -/
def reqSpacesBeforeUrl (P : Parser) (ch : UInt8) : Case :=
  if ch = byte ' ' then brk P
  else
    (urlChar (if P.method = .connect then P.enter .reqServerStart else P) ch).doing [.mark .url]

/-- The cases from `s_req_schema` to `s_req_server_start`. -/
def reqSchema (P : Parser) (ch : UInt8) : Case :=
  if ch = byte ' ' ∨ ch = CR ∨ ch = LF then fail P .invalidUrl else urlChar P ch

/-- The cases from `s_req_server` to `s_req_fragment`. -/
def reqUrl (P : Parser) (ch : UInt8) : Case :=
  if ch = byte ' ' then (brk (P.enter .reqHttpStart)).doing [.data .url .reqHttpStart]
  else if ch = CR ∨ ch = LF then
    let s := if ch = CR then State.reqLineAlmostDone else .headerFieldStart
    (brk { P.enter s with httpMajor := 0, httpMinor := 9 }).doing [.data .url s]
  else urlChar P ch

/-- The case `s_req_http_start`. -/
def reqHttpStart (P : Parser) (ch : UInt8) : Case :=
  if ch = byte ' ' then brk P
  else if ch = byte 'H' then brk (P.enter .reqHttpH)
  else if ch = byte 'I' ∧ P.method = .source then brk (P.enter .reqHttpI)
  else fail P .invalidConstant

/-- The cases `s_req_http_major` and `s_res_http_major`. -/
def httpMajor (P : Parser) (ch : UInt8) (s : State) : Case :=
  if !isNum ch then fail P .invalidVersion else brk { P.enter s with httpMajor := digitVal ch }

/-- The cases `s_req_http_minor` and `s_res_http_minor`. -/
def httpMinor (P : Parser) (ch : UInt8) (s : State) : Case :=
  if !isNum ch then fail P .invalidVersion else brk { P.enter s with httpMinor := digitVal ch }

/-- The case `s_req_http_end`. -/
def reqHttpEnd (P : Parser) (ch : UInt8) : Case :=
  if ch = CR then brk (P.enter .reqLineAlmostDone)
  else if ch = LF then brk (P.enter .headerFieldStart)
  else fail P .invalidVersion

/-- The case `s_start_res`. -/
def startRes (P : Parser) (ch : UInt8) : Case :=
  if ch = CR ∨ ch = LF then brk P
  else if ch = byte 'H' then
    (brk ((beginMessage P).enter .resH)).doing [.notify .messageBegin .resH]
  else fail (beginMessage P) .invalidConstant

/-- The case `s_start_req_or_res`. -/
def startReqOrRes (P : Parser) (ch : UInt8) : Case :=
  if ch = CR ∨ ch = LF then brk P
  else if ch = byte 'H' then
    (brk ((beginMessage P).enter .resOrRespH)).doing [.notify .messageBegin .resOrRespH]
  else startReq ({ beginMessage P with type := .request }.enter .startReq) ch

/-- The case `s_res_or_resp_H`. -/
def resOrRespH (P : Parser) (ch : UInt8) : Case :=
  if ch = byte 'T' then brk ({ P with type := .response }.enter .resHT)
  else if ch ≠ byte 'E' then fail P .invalidConstant
  else brk ({ P with type := .request, method := .head, index := 2 }.enter .reqMethod)

/-- The case `s_res_first_status_code`. -/
def resFirstStatusCode (P : Parser) (ch : UInt8) : Case :=
  if !isNum ch then if ch = byte ' ' then brk P else fail P .invalidStatus
  else brk ({ P with statusCode := digitVal ch }.enter .resStatusCode)

/-- The case `s_res_status`. -/
def resStatus (P : Parser) (ch : UInt8) : Case :=
  if ch = CR then
    (brk (P.enter .resLineAlmostDone)).doing [.data .status .resLineAlmostDone]
  else if ch = LF then
    (brk (P.enter .headerFieldStart)).doing [.data .status .headerFieldStart]
  else brk P

/-- The case `s_res_status_start`. -/
def resStatusStart (P : Parser) (ch : UInt8) : Case :=
  let P := { P.enter .resStatus with index := 0 }
  (if ch = CR ∨ ch = LF then resStatus P ch else brk P).doing [.mark .status]

/-- The case `s_res_status_code`. -/
def resStatusCode (P : Parser) (ch : UInt8) : Case :=
  if !isNum ch then
    if ch = byte ' ' then brk (P.enter .resStatusStart)
    else if ch = CR ∨ ch = LF then resStatusStart (P.enter .resStatusStart) ch
    else fail P .invalidStatus
  else
    let P := { P with statusCode := (P.statusCode * 10 + digitVal ch) % 2 ^ 16 }
    if 999 < P.statusCode then fail P .invalidStatus else brk P

/-! ### Bodies -/

/-- `content_length` when `n` bytes of the body have been passed. -/
def passed (P : Parser) (n : ℕ) : Parser := { P with contentLength := P.contentLength - n }

/-- The case `s_body_identity`. -/
def bodyIdentity (P : Parser) (rest : Bytes) : Turn :=
  let n := min P.contentLength (rest.length + 1)
  if P.contentLength = 0 ∨ P.contentLength = ullongMax then ⟨[], 0, abort P⟩
  else
    ⟨[.mark .body], n - 1,
      if P.contentLength - n = 0 then
        (messageDone ((passed P n).enter .messageDone)).doing [.dataThrough .body .messageDone]
      else brk (passed P n)⟩

/-- The case `s_body_identity_eof`. -/
def bodyIdentityEof (P : Parser) (rest : Bytes) : Turn := ⟨[.mark .body], rest.length, brk P⟩

/-- The case `s_chunk_size_start`. -/
def chunkSizeStart (P : Parser) (ch : UInt8) : Case :=
  if P.nread ≠ 1 ∨ !P.flags.chunked then abort P
  else match unhexVal ch with
    | none => fail P .invalidChunkSize
    | some v => brk ({ P with contentLength := v }.enter .chunkSize)

/-- The case `s_chunk_size`. -/
def chunkSize (P : Parser) (ch : UInt8) : Case :=
  if !P.flags.chunked then abort P
  else if ch = CR then brk (P.enter .chunkSizeAlmostDone)
  else match unhexVal ch with
    | none =>
      if ch = byte ';' ∨ ch = byte ' ' then brk (P.enter .chunkParameters)
      else fail P .invalidChunkSize
    | some v =>
      if (ullongMax - 16) / 16 < P.contentLength then fail P .invalidContentLength
      else brk { P with contentLength := (P.contentLength * 16 + v) % 2 ^ 64 }

/-- The case `s_chunk_parameters`. -/
def chunkParameters (P : Parser) (ch : UInt8) : Case :=
  if !P.flags.chunked then abort P
  else if ch = CR then brk (P.enter .chunkSizeAlmostDone)
  else brk P

/-- The case `s_chunk_size_almost_done`. -/
def chunkSizeAlmostDone (P : Parser) (ch : UInt8) : Case :=
  if !P.flags.chunked then abort P
  else if ch ≠ LF then fail P .strict
  else
    let P := { P with nread := 0 }
    let P :=
      if P.contentLength = 0 then
        { P with flags := { P.flags with trailing := true } }.enter .headerFieldStart
      else P.enter .chunkData
    (brk P).doing [.notify .chunkHeader P.state]

/-- The case `s_chunk_data`. -/
def chunkData (P : Parser) (rest : Bytes) : Turn :=
  let n := min P.contentLength (rest.length + 1)
  if !P.flags.chunked ∨ P.contentLength = 0 ∨ P.contentLength = ullongMax then
    ⟨[], 0, abort P⟩
  else
    ⟨[.mark .body], n - 1,
      brk (if P.contentLength - n = 0 then (passed P n).enter .chunkDataAlmostDone
        else passed P n)⟩

/-- The case `s_chunk_data_almost_done`. -/
def chunkDataAlmostDone (P : Parser) (ch : UInt8) : Case :=
  if !P.flags.chunked ∨ P.contentLength ≠ 0 then abort P
  else (expect (ch = CR) .strict P .chunkDataDone).doing
    (if ch = CR then [.data .body .chunkDataDone] else [])

/-- The case `s_chunk_data_done`. -/
def chunkDataDone (P : Parser) (ch : UInt8) : Case :=
  if !P.flags.chunked then abort P
  else if ch ≠ LF then fail P .strict
  else
    (brk ({ P with nread := 0 }.enter .chunkSizeStart)).doing
      [.notify .chunkComplete .chunkSizeStart]

/-- The switch, the cases with a loop or a jump apart. -/
def switch (P : Parser) (ch : UInt8) : Case :=
  match P.state with
  | .dead => if ch = CR ∨ ch = LF then brk P else fail P .closedConnection
  | .startReqOrRes => startReqOrRes P ch
  | .resOrRespH => resOrRespH P ch
  | .startRes => startRes P ch
  | .resH => expect (ch = byte 'T') .strict P .resHT
  | .resHT => expect (ch = byte 'T') .strict P .resHTT
  | .resHTT => expect (ch = byte 'P') .strict P .resHTTP
  | .resHTTP => expect (ch = byte '/') .strict P .resHttpMajor
  | .resHttpMajor => httpMajor P ch .resHttpDot
  | .resHttpDot => expect (ch = byte '.') .invalidVersion P .resHttpMinor
  | .resHttpMinor => httpMinor P ch .resHttpEnd
  | .resHttpEnd => expect (ch = byte ' ') .invalidVersion P .resFirstStatusCode
  | .resFirstStatusCode => resFirstStatusCode P ch
  | .resStatusCode => resStatusCode P ch
  | .resStatusStart => resStatusStart P ch
  | .resStatus => resStatus P ch
  | .resLineAlmostDone => expect (ch = LF) .strict P .headerFieldStart
  | .startReq => startReq P ch
  | .reqMethod => reqMethod P ch
  | .reqSpacesBeforeUrl => reqSpacesBeforeUrl P ch
  | .reqSchema | .reqSchemaSlash | .reqSchemaSlashSlash | .reqServerStart => reqSchema P ch
  | .reqServer | .reqServerWithAt | .reqPath | .reqQueryStringStart | .reqQueryString
  | .reqFragmentStart | .reqFragment => reqUrl P ch
  | .reqHttpStart => reqHttpStart P ch
  | .reqHttpH => expect (ch = byte 'T') .strict P .reqHttpHT
  | .reqHttpHT => expect (ch = byte 'T') .strict P .reqHttpHTT
  | .reqHttpHTT => expect (ch = byte 'P') .strict P .reqHttpHTTP
  | .reqHttpI => expect (ch = byte 'C') .strict P .reqHttpIC
  | .reqHttpIC => expect (ch = byte 'E') .strict P .reqHttpHTTP
  | .reqHttpHTTP => expect (ch = byte '/') .strict P .reqHttpMajor
  | .reqHttpMajor => httpMajor P ch .reqHttpDot
  | .reqHttpDot => expect (ch = byte '.') .invalidVersion P .reqHttpMinor
  | .reqHttpMinor => httpMinor P ch .reqHttpEnd
  | .reqHttpEnd => reqHttpEnd P ch
  | .reqLineAlmostDone => expect (ch = LF) .lfExpected P .headerFieldStart
  | .headerFieldStart => headerFieldStart P ch
  | .headerValueDiscardWs => headerValueDiscardWs P ch
  | .headerValueDiscardWsAlmostDone => expect (ch = LF) .strict P .headerValueDiscardLws
  | .headerValueDiscardLws => headerValueDiscardLws P ch
  | .headerValueStart => headerValueStart P ch
  | .headerValueLws => headerValueLws P ch
  | .headerAlmostDone => headerAlmostDone P ch
  | .headersAlmostDone => headersAlmostDone P ch
  | .headersDone => headersDone P ch
  | .chunkSizeStart => chunkSizeStart P ch
  | .chunkSize => chunkSize P ch
  | .chunkParameters => chunkParameters P ch
  | .chunkSizeAlmostDone => chunkSizeAlmostDone P ch
  | .chunkDataAlmostDone => chunkDataAlmostDone P ch
  | .chunkDataDone => chunkDataDone P ch
  | .messageDone => messageDone P
  | .headerField | .headerValue | .chunkData | .bodyIdentity | .bodyIdentityEof => abort P

/-- **A pass through the loop**, at the byte `ch` with `rest` behind it in the buffer. -/
def turn (P : Parser) (ch : UInt8) (rest : Bytes) : Turn :=
  match P.state with
  | .headerField => headerField P ch rest
  | .headerValue => headerValue P ch rest
  | .bodyIdentity => bodyIdentity P rest
  | .bodyIdentityEof => bodyIdentityEof P rest
  | .chunkData => chunkData P rest
  | _ => ⟨[], 0, switch P ch⟩

end ParserLib

end Server
