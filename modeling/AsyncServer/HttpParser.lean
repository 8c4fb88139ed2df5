/-
The request parser: `HttpRequestParser` over the vendored `http_parser`.

`http_parser` is a parameter (`HttpParser`): a state, and an `execute` that turns
the bytes it is given into the calls it makes of the registered callbacks, in
order, and the number of bytes it has consumed.  The callbacks are those of
`http11_parser.cpp`; none of them stops the parser.

A `RequestMessage` is what one request is reported as, its data still in one
piece each (`δ` is `Bytes`) or cut into consecutive fragments (`δ` is a list of
them).
-/
import AsyncServer.HttpMessage

namespace Server

open CString

/-- A call of a callback registered in `http_parser_settings`. -/
inductive ParserEvent
  | url (buf : Bytes)
  | headerField (buf : Bytes)
  | headerValue (buf : Bytes)
  | headersComplete (method : HttpMethod) (httpMajor httpMinor : ℕ)
  | body (buf : Bytes)
  | messageComplete
  deriving DecidableEq

/-- The vendored parser: `http_parser_init`, and `http_parser_execute` with the
callbacks it makes and the number of bytes consumed. -/
structure HttpParser (σ : Type*) where
  init : σ
  execute : σ → Bytes → σ × List ParserEvent × ℕ

/-- `HttpRequestParser`. -/
structure HttpRequestParser (σ : Type*) where
  mParser : σ
  mData : HttpRequest
  isFinish : Bool

namespace HttpRequestParser

variable {σ : Type*} {p : HttpRequestParser σ}

/-- The constructor. -/
def create (init : σ) : HttpRequestParser σ := ⟨init, HttpRequest.create, false⟩

/-! ### The callbacks -/

def requestUrlCallback (p : HttpRequestParser σ) (buf : Bytes) : HttpRequestParser σ :=
  { p with mData := p.mData.setPath buf }

def requestBodyCallback (p : HttpRequestParser σ) (buf : Bytes) : HttpRequestParser σ :=
  { p with mData := p.mData.setBody buf }

/-- Keep the name until its value comes. -/
def requestHeaderFieldCallback (p : HttpRequestParser σ) (buf : Bytes) : HttpRequestParser σ :=
  { p with mData := p.mData.setTmpHeader buf }

def requestHeaderValueCallback (p : HttpRequestParser σ) (val : Bytes) : HttpRequestParser σ :=
  let key := p.mData.mTmpHeader
  let data :=
    if strcasecmp key (bytes "connection") = .eq then
      p.mData.setKeepAlive (if strcasecmp val (bytes "close") = .eq then false else true)
    else p.mData
  { p with mData := data.addHeader key val }

/-- The version is written with `std::to_string`. -/
def requestHeaderComplete (p : HttpRequestParser σ) (method : HttpMethod)
    (httpMajor httpMinor : ℕ) : HttpRequestParser σ :=
  { p with
    mData := (p.mData.setMethod method).setVersion
      (bytes (toString httpMajor) ++ bytes "." ++ bytes (toString httpMinor)) }

def requestBodyComplete (p : HttpRequestParser σ) : HttpRequestParser σ :=
  { p with isFinish := true }

/-- The callbacks as they are registered by the constructor. -/
def callback (p : HttpRequestParser σ) : ParserEvent → HttpRequestParser σ
  | .url buf => p.requestUrlCallback buf
  | .body buf => p.requestBodyCallback buf
  | .headerField buf => p.requestHeaderFieldCallback buf
  | .headerValue buf => p.requestHeaderValueCallback buf
  | .headersComplete method major minor => p.requestHeaderComplete method major minor
  | .messageComplete => p.requestBodyComplete

/-- The callbacks of several events. -/
def feed (p : HttpRequestParser σ) (events : List ParserEvent) : HttpRequestParser σ :=
  events.foldl callback p

/-- The request that a fresh parser builds from the callbacks. -/
def parsed (init : σ) (events : List ParserEvent) : HttpRequest :=
  ((create init).feed events).mData

/-- `HttpRequestParser::execute`. -/
def execute (lib : HttpParser σ) (p : HttpRequestParser σ) (buf : Bytes) :
    HttpRequestParser σ × ℕ :=
  let (state, events, offset) := lib.execute p.mParser buf
  (({ p with mParser := state } : HttpRequestParser σ).feed events, offset)

@[simp] theorem feed_nil : p.feed [] = p := rfl

theorem feed_cons (e : ParserEvent) (es : List ParserEvent) :
    p.feed (e :: es) = (p.callback e).feed es := rfl

theorem feed_append (es es' : List ParserEvent) : p.feed (es ++ es') = (p.feed es).feed es' :=
  List.foldl_append

/-- The callbacks do not look at the state of the parser below. -/
theorem callback_withParser (s : σ) (e : ParserEvent) :
    ({ p with mParser := s } : HttpRequestParser σ).callback e =
      { p.callback e with mParser := s } := by
  cases e <;> rfl

theorem feed_withParser (s : σ) : ∀ {es : List ParserEvent} {p : HttpRequestParser σ},
    ({ p with mParser := s } : HttpRequestParser σ).feed es = { p.feed es with mParser := s } := by
  intro es
  induction es with
  | nil =>
    intro p
    rfl
  | cons e es ih =>
    intro p
    rw [feed_cons, callback_withParser, ih, feed_cons]

theorem execute_eq {lib : HttpParser σ} {buf : Bytes} {s : σ} {es : List ParserEvent} {n : ℕ}
    (h : lib.execute p.mParser buf = (s, es, n)) :
    p.execute lib buf = ({ p.feed es with mParser := s }, n) := by
  rw [execute, h, ← feed_withParser]

/-- `isFinish` is set by `on_message_complete` only. -/
theorem feed_isFinish : ∀ {es : List ParserEvent} {p : HttpRequestParser σ},
    (p.feed es).isFinish = true ↔ p.isFinish = true ∨ .messageComplete ∈ es := by
  intro es
  induction es with
  | nil =>
    intro p
    simp
  | cons e es ih =>
    intro p
    rw [feed_cons, ih, List.mem_cons]
    cases e <;> simp [callback, requestUrlCallback, requestBodyCallback,
      requestHeaderFieldCallback, requestHeaderValueCallback, requestHeaderComplete,
      requestBodyComplete]

end HttpRequestParser

/-! ### Request messages -/

/-- One request, as `http_parser` reports it: the URL, the header names and
values, the method and version, the parts of the body (one for a body of known
length, one a chunk otherwise) and the headers of the trailer of a chunked
body. -/
structure RequestMessage (δ : Type*) where
  url : δ
  headers : List (δ × δ)
  method : HttpMethod
  httpMajor : ℕ
  httpMinor : ℕ
  body : List δ
  trailers : List (δ × δ)

namespace RequestMessage

/-- Change each datum. -/
def map {δ ε : Type*} (f : δ → ε) (m : RequestMessage δ) : RequestMessage ε where
  url := f m.url
  headers := m.headers.map (Prod.map f f)
  method := m.method
  httpMajor := m.httpMajor
  httpMinor := m.httpMinor
  body := m.body.map f
  trailers := m.trailers.map (Prod.map f f)

/-- The message that has been cut. -/
def joined (c : RequestMessage (List Bytes)) : RequestMessage Bytes := c.map List.flatten

/-- Every datum in one fragment. -/
def unfragmented (m : RequestMessage Bytes) : RequestMessage (List Bytes) := m.map fun d => [d]

/-- The callbacks for a header: all fragments of the name, then all of the
value. -/
def headerEvents (h : List Bytes × List Bytes) : List ParserEvent :=
  h.1.map .headerField ++ h.2.map .headerValue

/-- The callbacks for a message cut into fragments. -/
def events (c : RequestMessage (List Bytes)) : List ParserEvent :=
  c.url.map .url ++ c.headers.flatMap headerEvents ++
    [.headersComplete c.method c.httpMajor c.httpMinor] ++
    c.body.flatMap (fun d => d.map .body) ++ c.trailers.flatMap headerEvents ++
    [.messageComplete]

end RequestMessage

end Server
