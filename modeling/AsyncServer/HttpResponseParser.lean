/-
The response parser, and what it makes of a response that was serialised.

`HttpResponseParser` registers the callbacks for headers and body; it has one for
the end of the message, but does not register it, and takes the status from
`parser->state`, the 7 bits in which `http_parser` keeps its own place in the
grammar.

* `decoded` — of a response that was serialised, the version, headers and body
  come back, and the keep-alive flag unless a header name begins with
  "connection";
* `not_roundTrip` — the end of the message is noticed for no response.
-/
import AsyncServer.HttpGrammar

namespace Server

open CString

/-- A call of a callback while a response is parsed, with what there is to be read
in the `http_parser` at that moment. -/
inductive ResponseEvent
  | headerField (buf : Bytes)
  | headerValue (buf : Bytes)
  | headersComplete (httpMajor httpMinor statusCode : ℕ) (state : BitVec 7)
  | body (buf : Bytes)
  | messageComplete
  deriving DecidableEq

/-- `http_parser` set up for responses. -/
structure HttpResponseLib (σ : Type*) where
  init : σ
  execute : σ → Bytes → σ × List ResponseEvent × ℕ

/-- `HttpResponseParser`. -/
structure HttpResponseParser (σ : Type*) where
  mParser : σ
  mData : HttpResponse
  isFinish : Bool

namespace HttpResponseParser

variable {σ : Type*} {p : HttpResponseParser σ}

/-- The constructor. -/
def create (init : σ) : HttpResponseParser σ :=
  ⟨init, HttpResponse.create (bytes "1.1") false, false⟩

/-! ### The callbacks -/

def responseBodyCallback (p : HttpResponseParser σ) (buf : Bytes) : HttpResponseParser σ :=
  { p with mData := p.mData.setBody buf }

/-- The version is written with `std::to_string`; the status is cast from
`parser->state`. -/
def responseHeaderComplete (p : HttpResponseParser σ) (httpMajor httpMinor : ℕ)
    (state : BitVec 7) : HttpResponseParser σ :=
  { p with
    mData := (p.mData.setVersion (digits httpMajor ++ bytes "." ++ digits httpMinor)).setStatus
      ⟨state.toNat⟩ }

def responseHeaderFieldCallback (p : HttpResponseParser σ) (buf : Bytes) : HttpResponseParser σ :=
  { p with mData := p.mData.setTmpHeader buf }

/-- Other than for requests only the first bytes are compared. -/
def responseHeaderValueCallback (p : HttpResponseParser σ) (val : Bytes) : HttpResponseParser σ :=
  let key := p.mData.mTmpHeader
  let data :=
    if strncasecmp (bytes "connection") key 10 = .eq then
      p.mData.setKeepAlive (if strncasecmp (bytes "close") val 5 = .eq then false else true)
    else p.mData
  { p with mData := data.addHeader key val }

/-- The callbacks as they are registered by the constructor:
`response_body_complete` is not among them. -/
def callback (p : HttpResponseParser σ) : ResponseEvent → HttpResponseParser σ
  | .body buf => p.responseBodyCallback buf
  | .headerField buf => p.responseHeaderFieldCallback buf
  | .headerValue buf => p.responseHeaderValueCallback buf
  | .headersComplete major minor _ state => p.responseHeaderComplete major minor state
  -- `on_message_complete` is a null pointer
  | .messageComplete => p

/-- The callbacks of several events. -/
def feed (p : HttpResponseParser σ) (events : List ResponseEvent) : HttpResponseParser σ :=
  events.foldl callback p

/-- `HttpResponseParser::execute`. -/
def execute (lib : HttpResponseLib σ) (p : HttpResponseParser σ) (buf : Bytes) :
    HttpResponseParser σ × ℕ :=
  let (state, events, offset) := lib.execute p.mParser buf
  (({ p with mParser := state } : HttpResponseParser σ).feed events, offset)

/-- Nothing the parser does marks it finished. -/
theorem feed_isFinish (events : List ResponseEvent) : (p.feed events).isFinish = p.isFinish := by
  induction events generalizing p with
  | nil => rfl
  | cons e es ih =>
    show ((p.callback e).feed es).isFinish = _
    rw [ih]
    cases e <;> rfl

theorem feed_append (es es' : List ResponseEvent) : p.feed (es ++ es') = (p.feed es).feed es' :=
  List.foldl_append

/-- The callbacks for a header. -/
def headerEvents (h : Bytes × Bytes) : List ResponseEvent := [.headerField h.1, .headerValue h.2]

/-- The callbacks for a header store it, and leave everything else but the
keep-alive flag alone. -/
theorem feed_headerEvents (h : Bytes × Bytes) :
    (p.feed (headerEvents h)).mData =
      { p.mData with
        mTmpHeader := h.1
        mHeaders := p.mData.mHeaders.assign h.1 h.2
        mKeepAlive :=
          if strncasecmp (bytes "connection") h.1 10 = .eq then
            if strncasecmp (bytes "close") h.2 5 = .eq then false else true
          else p.mData.mKeepAlive } := by
  show (responseHeaderValueCallback (p.responseHeaderFieldCallback h.1) h.2).mData = _
  have hkey : (p.responseHeaderFieldCallback h.1).mData.mTmpHeader = h.1 := rfl
  rw [responseHeaderValueCallback]
  simp only [hkey]
  split_ifs <;> rfl

/-- The headers of a message are stored one after the other. -/
theorem mHeaders_feed (hs : List (Bytes × Bytes)) :
    (p.feed (hs.flatMap headerEvents)).mData.mHeaders = p.mData.mHeaders.fill hs := by
  induction hs generalizing p with
  | nil => rfl
  | cons h hs ih =>
    rw [List.flatMap_cons, feed_append, ih, feed_headerEvents, OrderedMap.fill_cons]

theorem mBody_feed (hs : List (Bytes × Bytes)) :
    (p.feed (hs.flatMap headerEvents)).mData.mBody = p.mData.mBody := by
  induction hs generalizing p with
  | nil => rfl
  | cons h hs ih => rw [List.flatMap_cons, feed_append, ih, feed_headerEvents]

/-- Headers whose names do not begin with "connection" leave the keep-alive flag
alone. -/
theorem mKeepAlive_feed {hs : List (Bytes × Bytes)}
    (h : ∀ e ∈ hs, strncasecmp (bytes "connection") e.1 10 ≠ .eq) :
    (p.feed (hs.flatMap headerEvents)).mData.mKeepAlive = p.mData.mKeepAlive := by
  induction hs generalizing p with
  | nil => rfl
  | cons e hs ih =>
    obtain ⟨hhead, htail⟩ := List.forall_mem_cons.mp h
    rw [List.flatMap_cons, feed_append, ih htail, feed_headerEvents]
    exact if_neg hhead

/-- The emitted connection line sets the flag to what it was. -/
theorem mKeepAlive_connection (keepAlive : Bool) :
    (p.feed (headerEvents (connectionHeader keepAlive))).mData.mKeepAlive = keepAlive := by
  have hname : strncasecmp (bytes "connection") (bytes "connection") 10 = .eq := by decide
  have hclose : strncasecmp (bytes "close") (bytes "close") 5 = .eq := by decide
  have hkeep : strncasecmp (bytes "close") (bytes "keep-alive") 5 ≠ .eq := by decide
  have hfst : (connectionHeader keepAlive).1 = bytes "connection" := rfl
  rw [feed_headerEvents]
  simp only [hfst, if_pos hname]
  cases keepAlive with
  | false => exact if_pos hclose
  | true => exact if_neg hkeep

section Ended

variable (p : HttpResponseParser σ) (major minor : ℕ) (state : BitVec 7) (buf : Bytes)

/-! The last two callbacks of a message set the version and the status, and append the
body. -/

theorem mKeepAlive_ended :
    ((p.responseHeaderComplete major minor state).responseBodyCallback buf).mData.mKeepAlive =
      p.mData.mKeepAlive := rfl

theorem mBody_ended :
    ((p.responseHeaderComplete major minor state).responseBodyCallback buf).mData.mBody =
      p.mData.mBody ++ buf := rfl

theorem mHeaders_ended :
    ((p.responseHeaderComplete major minor state).responseBodyCallback buf).mData.mHeaders =
      p.mData.mHeaders := rfl

end Ended

end HttpResponseParser

/-! ### Response messages -/

/-- A response on the wire. -/
structure ResponseMessage where
  httpMajor : ℕ
  httpMinor : ℕ
  statusCode : ℕ
  reason : Bytes
  headers : List (Bytes × Bytes)
  body : Bytes

namespace ResponseMessage

def wire (m : ResponseMessage) : Bytes :=
  bytes "HTTP/" ++ (digits m.httpMajor ++ bytes "." ++ digits m.httpMinor) ++ bytes " " ++
    digits m.statusCode ++ bytes " " ++ m.reason ++ crlf ++ headerBlock m.headers ++ crlf ++ m.body

/-- The callbacks for a message in one piece. -/
def events (m : ResponseMessage) (state : BitVec 7) : List ResponseEvent :=
  m.headers.flatMap HttpResponseParser.headerEvents ++
    [.headersComplete m.httpMajor m.httpMinor m.statusCode state, .body m.body, .messageComplete]

/-- What is assumed of `http_parser` for a message: it reports it unfragmented, with
some state of its own in `parser->state`. -/
def DeliveredBy {σ : Type*} (m : ResponseMessage) (lib : HttpResponseLib σ) : Prop :=
  ∃ s state, lib.execute lib.init m.wire = (s, m.events state, m.wire.length)

end ResponseMessage

namespace HttpResponse

/-- The responses in question, with version `major.minor` and a status that allows a
body. -/
structure Encodable (res : HttpResponse) (major minor code : ℕ) : Prop where
  plain : PlainHeaders res.mHeaders
  webSocket : res.mWebSocket = false
  version : res.mVersion = digits major ++ bytes "." ++ digits minor
  digit : major < 10 ∧ minor < 10
  status : res.mStatus = ⟨code⟩
  known : (code : ℤ) ∈ httpStatusMap.map Prod.fst
  mayCarryBody : 200 ≤ code ∧ code ≠ 204 ∧ code ≠ 304
  body : res.mBody ≠ []

/-- The message that `toString` writes. -/
def message (res : HttpResponse) (major minor code : ℕ) : ResponseMessage where
  httpMajor := major
  httpMinor := minor
  statusCode := code
  reason := httpStatusToString res.mStatus
  headers := emittedLines res.mHeaders res.mKeepAlive res.mBody
  body := res.mBody

variable {res : HttpResponse} {major minor code : ℕ}

/-- **What `toString` writes.** -/
theorem toString_eq_wire (h : res.Encodable major minor code) :
    res.toString = (res.message major minor code).wire := by
  have hlines : res.headerLines = headerBlock res.mHeaders.entries := by
    refine flatMap_headerLine _ fun e he => ?_
    rw [h.webSocket]
    simpa using h.plain.notConnection e he
  have hlines' := emittedLines_eq h.plain res.mKeepAlive res.mBody
  have hcode : bytes (ToString.toString (code : ℤ)) = digits code := rfl
  simp only [List.append_assoc] at hlines'
  simp only [toString, message, ResponseMessage.wire, h.webSocket, hlines, h.version, h.status,
    hcode, List.append_assoc, Bool.false_eq_true, if_false]
  rw [hlines']
  rfl

/-- What a new `HttpResponseParser` makes of `toString`: the parser, and the number of
bytes it has accepted. -/
def parsedBack {σ : Type*} (lib : HttpResponseLib σ) (res : HttpResponse) :
    HttpResponseParser σ × ℕ :=
  (HttpResponseParser.create lib.init).execute lib res.toString

/-- The response comes back: the same status, version, keep-alive flag and body, the
same headers and the emitted ones, and the parser is finished. -/
structure RoundTrip {σ : Type*} (lib : HttpResponseLib σ) (res : HttpResponse) : Prop where
  accepted : (parsedBack lib res).2 = res.toString.length
  status : (parsedBack lib res).1.mData.mStatus = res.mStatus
  version : (parsedBack lib res).1.mData.mVersion = res.mVersion
  keepAlive : (parsedBack lib res).1.mData.mKeepAlive = res.mKeepAlive
  body : (parsedBack lib res).1.mData.mBody = res.mBody
  headers : (parsedBack lib res).1.mData.mHeaders =
    withEmitted res.mHeaders res.mKeepAlive res.mBody
  finished : (parsedBack lib res).1.isFinish = true

/-- What of a response comes back. -/
structure Decoded {σ : Type*} (lib : HttpResponseLib σ) (res : HttpResponse) : Prop where
  accepted : (parsedBack lib res).2 = res.toString.length
  status : (parsedBack lib res).1.mData.mStatus ≠ res.mStatus
  version : (parsedBack lib res).1.mData.mVersion = res.mVersion
  keepAlive : (∀ h ∈ res.mHeaders.entries, strncasecmp (bytes "connection") h.1 10 ≠ .eq) →
    (parsedBack lib res).1.mData.mKeepAlive = res.mKeepAlive
  body : (parsedBack lib res).1.mData.mBody = res.mBody
  headers : (parsedBack lib res).1.mData.mHeaders =
    withEmitted res.mHeaders res.mKeepAlive res.mBody

open HttpResponseParser in
/-- **What the parser makes of a response that was serialised**: everything comes back
but the status, which it takes from seven bits that cannot hold any status of a
response with a body. -/
theorem decoded {σ : Type*} {lib : HttpResponseLib σ} (h : res.Encodable major minor code)
    (hlib : (res.message major minor code).DeliveredBy lib) : Decoded lib res := by
  obtain ⟨s, state, hexec⟩ := hlib
  rw [← toString_eq_wire h] at hexec
  -- the callbacks do not look at the state of `http_parser`, so it can be set before them
  set p : HttpResponseParser σ := { HttpResponseParser.create lib.init with mParser := s } with hp
  have hback : parsedBack lib res =
      (p.feed ((res.message major minor code).events state), res.toString.length) := by
    rw [parsedBack, execute, show (HttpResponseParser.create lib.init).mParser = lib.init from rfl,
      hexec]
  set lines := emittedLines res.mHeaders res.mKeepAlive res.mBody with hlines
  have hdata : (parsedBack lib res).1.mData =
      (((p.feed (lines.flatMap headerEvents)).responseHeaderComplete major minor
        state).responseBodyCallback res.mBody).mData := by
    rw [hback, ResponseMessage.events, feed_append]
    rfl
  constructor
  · rw [hback]
  · rw [hdata, h.status]
    intro hstatus
    -- 7 bits hold less than 128, and the status is at least 200
    have hcode : (state.toNat : ℤ) = code := congrArg HttpStatus.code hstatus
    have hstate := state.isLt
    have := h.mayCarryBody.1
    omega
  · rw [hdata, h.version]
    rfl
  · intro hnames
    rw [hdata, mKeepAlive_ended]
    -- the connection line comes first, and no line behind it touches the flag
    rw [hlines, emittedLines, List.cons_append, List.flatMap_cons, feed_append,
      mKeepAlive_feed ?_, mKeepAlive_connection]
    intro e he
    rcases List.mem_append.mp he with he | he
    · exact hnames e he
    · rw [if_neg h.body, List.mem_singleton] at he
      rw [he]
      exact (by decide : strncasecmp (bytes "connection") (bytes "content-length") 10 ≠ .eq)
  · rw [hdata, mBody_ended, mBody_feed]
    rfl
  · rw [hdata, mHeaders_ended, mHeaders_feed]
    exact fill_emittedLines h.plain res.mKeepAlive res.mBody

/-- **No response makes the round trip**: the parser is not marked finished, whatever
`http_parser` reports. -/
theorem not_roundTrip {σ : Type*} (lib : HttpResponseLib σ) (res : HttpResponse) :
    ¬ RoundTrip lib res := by
  intro h
  have hfinish : (parsedBack lib res).1.isFinish = false := HttpResponseParser.feed_isFinish _
  rw [h.finished] at hfinish
  exact absurd hfinish (by decide)

/-- A page of two bytes. -/
def page : HttpResponse :=
  ((create (bytes "1.1") true).setBody (bytes "hi")).addHeader (bytes "Server") (bytes "a")

/-- A parser for this page; when the headers are complete, the state stored in
`http_parser` is that behind the last header value, 52. -/
def pageLib : HttpResponseLib Unit where
  init := ()
  execute _ buf := ((), (page.message 1 1 200).events 52, buf.length)

theorem page_encodable : page.Encodable 1 1 200 := by
  have hentries : page.mHeaders.entries = [(bytes "Server", bytes "a")] := by decide
  refine ⟨⟨?_, ?_, ?_, ?_, ?_⟩, rfl, rfl, by decide, rfl, by decide, by decide, by decide⟩ <;>
    · rw [hentries]
      decide

/-- **The page comes back with status 52, and the parser is not finished.** -/
theorem page_not_back : page.Encodable 1 1 200 ∧
    (page.message 1 1 200).DeliveredBy pageLib ∧
    (parsedBack pageLib page).1.mData.mStatus = ⟨52⟩ ∧
    (parsedBack pageLib page).1.isFinish = false ∧ ¬ RoundTrip pageLib page := by
  have hback : (parsedBack pageLib page).1.isFinish = false := HttpResponseParser.feed_isFinish _
  refine ⟨page_encodable, ⟨(), 52, ?_⟩, rfl, hback, fun h => ?_⟩
  · rfl
  · rw [h.finished] at hback
    exact absurd hback (by decide)

end HttpResponse

end Server
