/-
`HttpServer::handleClient`, one step for each answer of a socket call.

Between two calls of the socket the handler is a function of the answer it has
got: `onRecv`, `onSend` and `onClose` take it from the answer of `recv`, `send`
and `close` to its next call (`HttpPc`).  Two histories go with it: the requests
given to `mDispatch->handle`, and the bytes the socket has accepted.

The parser is the parameter `lib`, and the servlets behind `mDispatch` are any
function `handle` of the request and the response, both of which they may
change.
-/
import AsyncServer.HttpParser
import AsyncServer.SendLoop

namespace Server

open CString

/-- `Socket`, an accepted one. -/
structure Socket where
  mSockfd : ℤ
  isConnected : Bool
  deriving DecidableEq

/-- `Socket(int fd)`. -/
def Socket.create (fd : ℤ) : Socket := ⟨fd, true⟩

/-- Where `handleClient` is: at a call of the socket, or back from it all. -/
inductive HttpPc (σ : Type*)
  /-- At `sock->recv`, with the parser of the request in progress. -/
  | recv (reqParser : HttpRequestParser σ)
  /-- At `sock->send`, inside the loop for the response to `req`. -/
  | send (req : HttpRequest) (loop : SendLoop)
  /-- At one of the `sock->close()` that are followed by the return. -/
  | close
  | returned

/-- A running `handleClient` with its histories. -/
structure HttpHandler (σ : Type*) where
  sock : Socket
  pc : HttpPc σ
  dispatched : List HttpRequest
  sent : Bytes

/-- What `handleClient` uses of the server. -/
structure HttpServer (σ : Type*) where
  lib : HttpParser σ
  handle : HttpRequest → HttpResponse → HttpRequest × HttpResponse

namespace HttpServer

variable {σ : Type*} (srv : HttpServer σ)

/-- The response to a request, as it is sent. -/
def response (req : HttpRequest) : Bytes :=
  (srv.handle req (HttpResponse.create req.mVersion req.mKeepAlive)).2.toString

/-- The beginning of `handleClient`. -/
def handleClient (fd : ℤ) : HttpHandler σ where
  sock := Socket.create fd
  pc := .recv (HttpRequestParser.create srv.lib.init)
  dispatched := []
  sent := []

/-- The memory from `buf` on after `recv` has put `data` into the 1024 zero
bytes; `beyond` is what lies behind them. -/
def recvMemory (data beyond : Bytes) : Bytes :=
  data ++ List.replicate (1024 - data.length) 0 ++ beyond

/-- The test of the send loop; when the response is out, `close` or the parser
for the next request. -/
def sendTest (h : HttpHandler σ) (req : HttpRequest) (loop : SendLoop) : HttpHandler σ :=
  if loop.unfinished then { h with pc := .send req loop }
  else if !h.sock.isConnected || !req.mKeepAlive then { h with pc := .close }
  else { h with pc := .recv (HttpRequestParser.create srv.lib.init) }

/-- Dispatch a complete request and start to send the response. -/
def respond (h : HttpHandler σ) (req : HttpRequest) : HttpHandler σ :=
  let res := HttpResponse.create req.mVersion req.mKeepAlive
  let (req', res') := srv.handle req res
  srv.sendTest { h with dispatched := h.dispatched ++ [req] } req' (SendLoop.start res'.toString)

/-- `recv` has returned `n`; the parser is given the C string in `buf`. -/
def onRecv (h : HttpHandler σ) (reqParser : HttpRequestParser σ) (n : ℤ) (memory : Bytes) :
    HttpHandler σ :=
  if n ≤ 0 then { h with pc := .close }
  else
    let (reqParser', t) := reqParser.execute srv.lib (cstr memory)
    if t ≠ strlen memory then { h with pc := .close }
    else if reqParser'.isFinish then srv.respond h reqParser'.mData
    else { h with pc := .recv reqParser' }

/-- `send` has returned `n`. -/
def onSend (h : HttpHandler σ) (req : HttpRequest) (loop : SendLoop) (n : ℤ) : HttpHandler σ :=
  srv.sendTest { h with sent := h.sent ++ (loop.buf.drop loop.offset.toNat).take n.toNat }
    req (loop.advance n)

/-- `close` has returned, and then `handleClient` does. -/
def onClose (h : HttpHandler σ) : HttpHandler σ :=
  { h with sock := { h.sock with isConnected := false }, pc := .returned }

/-- The C string in `buf` after a block without NUL: the block, and behind one that fills
the buffer what the memory goes on with. -/
theorem cstr_recvMemory_of_notMem {data : Bytes} (h0 : (0 : UInt8) ∉ data) (beyond : Bytes) :
    cstr (recvMemory data beyond) =
      data ++ if data.length < 1024 then [] else cstr beyond := by
  rw [recvMemory, List.append_assoc, cstr_append h0]
  congr 1
  split_ifs with hlt
  -- the buffer has a zero byte left behind the block
  · obtain ⟨k, hk⟩ : ∃ k, 1024 - data.length = k + 1 := ⟨1023 - data.length, by omega⟩
    rw [hk, List.replicate_succ]
    rfl
  -- the block fills it, and `strlen` reads on
  · rw [Nat.sub_eq_zero_of_le (not_lt.mp hlt)]
    rfl

end HttpServer

end Server
