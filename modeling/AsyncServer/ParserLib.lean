/-
The vendored `http_parser`: its tables of bytes and its data.

`http_parser.cpp` is built with `HTTP_PARSER_STRICT`, its default, and nothing in
the repository calls `http_parser_set_max_header_size`.

* `token`, `unhexVal`, `isUrlChar`, `isHeaderChar` — the tables and the macros over
  them;
* `State`, `HeaderState`, `Parser` — the two enumerations of places in the grammar,
  and `struct http_parser`;
* `parseUrlChar`, `httpMessageNeedsEof`, `httpShouldKeepAlive` — the functions
  without a loop.

`%` is written where a field of the struct is computed in its own width; the other
counters stay small (`Parser.Sane`).
-/
import AsyncServer.HttpMessage

namespace Server

open CString

namespace ParserLib

/-! ### Bytes -/

/-- A character literal as a byte. -/
@[simp] def byte (c : Char) : UInt8 := UInt8.ofNat c.toNat

def CR : UInt8 := 13

def LF : UInt8 := 10

/-- `tokens`: the lower case of the bytes that names are made of, 0 for others, and for all
from 128 on. -/
def tokens : List UInt8 :=
  [0, 0, 0, 0, 0, 0, 0, 0,
   0, 0, 0, 0, 0, 0, 0, 0,
   0, 0, 0, 0, 0, 0, 0, 0,
   0, 0, 0, 0, 0, 0, 0, 0,
   32, 33, 0, 35, 36, 37, 38, 39,
   0, 0, 42, 43, 0, 45, 46, 0,
   48, 49, 50, 51, 52, 53, 54, 55,
   56, 57, 0, 0, 0, 0, 0, 0,
   0, 97, 98, 99, 100, 101, 102, 103,
   104, 105, 106, 107, 108, 109, 110, 111,
   112, 113, 114, 115, 116, 117, 118, 119,
   120, 121, 122, 0, 0, 0, 94, 95,
   96, 97, 98, 99, 100, 101, 102, 103,
   104, 105, 106, 107, 108, 109, 110, 111,
   112, 113, 114, 115, 116, 117, 118, 119,
   120, 121, 122, 0, 124, 0, 126, 0]

/-- `TOKEN`, which is `STRICT_TOKEN`. -/
def token (c : UInt8) : UInt8 := if c = byte ' ' then 0 else tokens.getD c.toNat 0

/-- `unhex`: 128 entries are given, and the array has zeros behind them. -/
def unhex : List ℤ :=
  [-1, -1, -1, -1, -1, -1, -1, -1, -1, -1, -1, -1, -1, -1, -1, -1,
   -1, -1, -1, -1, -1, -1, -1, -1, -1, -1, -1, -1, -1, -1, -1, -1,
   -1, -1, -1, -1, -1, -1, -1, -1, -1, -1, -1, -1, -1, -1, -1, -1,
   0, 1, 2, 3, 4, 5, 6, 7, 8, 9, -1, -1, -1, -1, -1, -1,
   -1, 10, 11, 12, 13, 14, 15, -1, -1, -1, -1, -1, -1, -1, -1, -1,
   -1, -1, -1, -1, -1, -1, -1, -1, -1, -1, -1, -1, -1, -1, -1, -1,
   -1, 10, 11, 12, 13, 14, 15, -1, -1, -1, -1, -1, -1, -1, -1, -1,
   -1, -1, -1, -1, -1, -1, -1, -1, -1, -1, -1, -1, -1, -1, -1, -1]

/-- The value of a hexadecimal digit as `unhex` has it, `none` for its -1. -/
def unhexVal (c : UInt8) : Option ℕ :=
  if unhex.getD c.toNat 0 = -1 then none else some (unhex.getD c.toNat 0).toNat

/-- `normal_url_char`, one byte for eight characters, and zero from 128 on. -/
def normalUrlChar : List UInt8 :=
  [0, 0, 0, 0, 246, 255, 255, 127, 255, 255, 255, 255, 255, 255, 255, 127]

/-- `IS_URL_CHAR`. -/
def isUrlChar (c : UInt8) : Bool :=
  (normalUrlChar.getD (c.toNat / 8) 0).toNat.testBit (c.toNat % 8)

/-- `LOWER`. -/
def lower (c : UInt8) : UInt8 := c ||| 32

/-- `IS_ALPHA`. -/
def isAlpha (c : UInt8) : Bool := byte 'a' ≤ lower c && lower c ≤ byte 'z'

/-- `IS_NUM`. -/
def isNum (c : UInt8) : Bool := byte '0' ≤ c && c ≤ byte '9'

/-- `IS_MARK`. -/
def isMark (c : UInt8) : Bool := c ∈ bytes "-_.!~*'()"

/-- `IS_USERINFO_CHAR`. -/
def isUserinfoChar (c : UInt8) : Bool := isAlpha c || isNum c || isMark c || c ∈ bytes "%;:&=+$,"

/-- `IS_HEADER_CHAR`. -/
def isHeaderChar (c : UInt8) : Bool := c = CR || c = LF || c = 9 || (31 < c && c ≠ 127)

/-- The value of a digit, `ch - '0'`. -/
def digitVal (c : UInt8) : ℕ := c.toNat - 48

/-! ### The data -/

/-- `enum http_parser_type`. -/
inductive ParserType
  | request | response | both
  deriving DecidableEq

/-- The bits of `flags`. -/
structure Flags where
  chunked : Bool
  connectionKeepAlive : Bool
  connectionClose : Bool
  connectionUpgrade : Bool
  trailing : Bool
  upgrade : Bool
  skipbody : Bool
  contentlength : Bool
  deriving DecidableEq

/-- `flags = 0`. -/
def Flags.zero : Flags := ⟨false, false, false, false, false, false, false, false⟩

/-- `enum state`. -/
inductive State
  | dead
  | startReqOrRes | resOrRespH | startRes | resH | resHT | resHTT | resHTTP | resHttpMajor
  | resHttpDot | resHttpMinor | resHttpEnd | resFirstStatusCode | resStatusCode | resStatusStart
  | resStatus | resLineAlmostDone
  | startReq
  | reqMethod | reqSpacesBeforeUrl | reqSchema | reqSchemaSlash | reqSchemaSlashSlash
  | reqServerStart | reqServer | reqServerWithAt | reqPath | reqQueryStringStart
  | reqQueryString | reqFragmentStart | reqFragment | reqHttpStart | reqHttpH | reqHttpHT
  | reqHttpHTT | reqHttpHTTP | reqHttpI | reqHttpIC | reqHttpMajor | reqHttpDot | reqHttpMinor
  | reqHttpEnd | reqLineAlmostDone
  | headerFieldStart | headerField | headerValueDiscardWs | headerValueDiscardWsAlmostDone
  | headerValueDiscardLws | headerValueStart | headerValue | headerValueLws
  | headerAlmostDone
  | chunkSizeStart | chunkSize | chunkParameters | chunkSizeAlmostDone
  | headersAlmostDone | headersDone
  | chunkData | chunkDataAlmostDone | chunkDataDone
  | bodyIdentity | bodyIdentityEof
  | messageDone
  deriving DecidableEq

/-- The number of a state; the first one is 1. -/
def State.code (s : State) : ℕ := s.ctorIdx + 1

/-- `PARSING_HEADER`. -/
def State.parsingHeader (s : State) : Bool := s.code ≤ State.headersDone.code

/-- `enum header_states`. -/
inductive HeaderState
  | general | C | CO | CON
  | matchingConnection | matchingProxyConnection | matchingContentLength
  | matchingTransferEncoding | matchingUpgrade
  | connection | contentLength | contentLengthNum | contentLengthWs | transferEncoding | upgrade
  | matchingTransferEncodingTokenStart | matchingTransferEncodingChunked
  | matchingTransferEncodingToken
  | matchingConnectionTokenStart | matchingConnectionKeepAlive | matchingConnectionClose
  | matchingConnectionUpgrade | matchingConnectionToken
  | transferEncodingChunked | connectionKeepAlive | connectionClose | connectionUpgrade
  deriving DecidableEq

/-- `enum http_errno`, the values that `http_parser_execute` sets itself. -/
inductive Errno
  | ok | invalidEofState | headerOverflow | closedConnection | invalidVersion | invalidStatus
  | invalidMethod | invalidUrl | lfExpected | invalidHeaderToken | invalidContentLength
  | unexpectedContentLength | invalidChunkSize | invalidConstant | strict
  | invalidTransferEncoding
  deriving DecidableEq

/-- `struct http_parser`. -/
structure Parser where
  type : ParserType
  flags : Flags
  state : State
  headerState : HeaderState
  index : ℕ
  usesTransferEncoding : Bool
  allowChunkedLength : Bool
  lenientHttpHeaders : Bool
  nread : ℕ
  contentLength : ℕ
  httpMajor : ℕ
  httpMinor : ℕ
  statusCode : ℕ
  method : HttpMethod
  httpErrno : Errno
  upgrade : Bool
  deriving DecidableEq

/-- `max_header_size`. -/
def maxHeaderSize : ℕ := 80 * 1024

/-- `ULLONG_MAX`. -/
def ullongMax : ℕ := 2 ^ 64 - 1

/-- `http_parser_init`. -/
def httpParserInit (t : ParserType) : Parser where
  type := t
  flags := .zero
  state := match t with
    | .request => .startReq
    | .response => .startRes
    | .both => .startReqOrRes
  headerState := .general
  index := 0
  usesTransferEncoding := false
  allowChunkedLength := false
  lenientHttpHeaders := false
  nread := 0
  contentLength := 0
  httpMajor := 0
  httpMinor := 0
  statusCode := 0
  method := .delete
  httpErrno := .ok
  upgrade := false

/-- `method_strings`; a C string, with a NUL behind it. -/
def methodStrings (method : HttpMethod) : Bytes :=
  bytes (((httpMethodMap.lookup method).map Prod.snd).getD "")

/-- The byte of a C string at an index, which may be that of its NUL. -/
def charAt (s : Bytes) (i : ℕ) : UInt8 := s.getD i 0

namespace Parser

/-- `UPDATE_STATE`. -/
def enter (P : Parser) (s : State) : Parser := { P with state := s }

/-- `SET_ERRNO`. -/
def setErrno (P : Parser) (e : Errno) : Parser := { P with httpErrno := e }

/-- `COUNT_HEADER_SIZE`. -/
def countHeaderSize (P : Parser) (v : ℕ) : Parser :=
  let P' := { P with nread := (P.nread + v % 2 ^ 32) % 2 ^ 32 }
  if maxHeaderSize < P'.nread then P'.setErrno .headerOverflow else P'

/-- `start_state`. -/
def startState (P : Parser) : State :=
  if P.type = .request then .startReq else .startRes

/-- `http_message_needs_eof`. -/
def httpMessageNeedsEof (P : Parser) : Bool :=
  if P.type = .request then false
  else if P.statusCode / 100 = 1 || P.statusCode = 204 || P.statusCode = 304 ||
    P.flags.skipbody then false
  else if P.usesTransferEncoding && !P.flags.chunked then true
  else if P.flags.chunked || P.contentLength ≠ ullongMax then false
  else true

/-- `http_should_keep_alive`. -/
def httpShouldKeepAlive (P : Parser) : Bool :=
  if 0 < P.httpMajor ∧ 0 < P.httpMinor then
    if P.flags.connectionClose then false else !P.httpMessageNeedsEof
  else if !P.flags.connectionKeepAlive then false
  else !P.httpMessageNeedsEof

/-- `NEW_MESSAGE`. -/
def newMessage (P : Parser) : State := if P.httpShouldKeepAlive then P.startState else .dead

end Parser

/-- `parse_url_char`. -/
def parseUrlChar (s : State) (ch : UInt8) : State :=
  if ch = byte ' ' || ch = CR || ch = LF then .dead
  -- a tab or a form feed, in strict mode
  else if ch = 9 || ch = 12 then .dead
  else match s with
    | .reqSpacesBeforeUrl =>
      if ch = byte '/' || ch = byte '*' then .reqPath
      else if isAlpha ch then .reqSchema
      else .dead
    | .reqSchema =>
      if isAlpha ch then .reqSchema
      else if ch = byte ':' then .reqSchemaSlash
      else .dead
    | .reqSchemaSlash => if ch = byte '/' then .reqSchemaSlashSlash else .dead
    | .reqSchemaSlashSlash => if ch = byte '/' then .reqServerStart else .dead
    | .reqServerWithAt => if ch = byte '@' then .dead else server ch
    | .reqServerStart => server ch
    | .reqServer => server ch
    | .reqPath =>
      if isUrlChar ch then .reqPath
      else if ch = byte '?' then .reqQueryStringStart
      else if ch = byte '#' then .reqFragmentStart
      else .dead
    | .reqQueryStringStart => query ch
    | .reqQueryString => query ch
    | .reqFragmentStart =>
      if isUrlChar ch then .reqFragment
      else if ch = byte '?' then .reqFragment
      else if ch = byte '#' then .reqFragmentStart
      else .dead
    | .reqFragment =>
      if isUrlChar ch then .reqFragment
      else if ch = byte '?' || ch = byte '#' then .reqFragment
      else .dead
    | _ => .dead
where
  /-- The case `s_req_server_start`, `s_req_server`. -/
  server (ch : UInt8) : State :=
    if ch = byte '/' then .reqPath
    else if ch = byte '?' then .reqQueryStringStart
    else if ch = byte '@' then .reqServerWithAt
    else if isUserinfoChar ch || ch = byte '[' || ch = byte ']' then .reqServer
    else .dead
  /-- The case `s_req_query_string_start`, `s_req_query_string`. -/
  query (ch : UInt8) : State :=
    if isUrlChar ch then .reqQueryString
    else if ch = byte '?' then .reqQueryString
    else if ch = byte '#' then .reqFragmentStart
    else .dead

end ParserLib

end Server
