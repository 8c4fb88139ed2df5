/-
`TcpServer`: the accept loop, `TcpServer::handleClient`, and all handlers of a
process on the descriptors they share.

A `Host` has the two servers of the repository, `TcpServer` and `HttpServer`,
each with its listening socket and accept loop, and any number of running
handlers of both kinds.  The kernel knows for each open descriptor whose it is:
`accept` returns any number that is not open, and `close` frees the number it is
given, whoever calls it.
-/
import AsyncServer.HttpServer

namespace Server

/-- The calls a handler makes of its socket. -/
inductive SocketOp
  | recv
  | send
  | close
  deriving DecidableEq

/-- What a call returns; `recv` also leaves bytes in the buffer (`memory` is what
lies from the buffer on). -/
inductive Answer
  | recv (n : ℤ) (memory : Bytes)
  | send (n : ℤ)
  | close (n : ℤ)

/-! ### `TcpServer::handleClient` -/

/-- Where `TcpServer::handleClient` is. -/
inductive TcpPc
  | recv
  | send
  /-- At the `sock->close()` inside the test of the branch `len == 0`. -/
  | close
  /-- At the `sock->close()` behind that test. -/
  | closeAgain
  /-- At the `sock->close()` of the branch `len < 0`. -/
  | closeOnError
  | returned
  deriving DecidableEq

structure TcpHandler where
  sock : Socket
  pc : TcpPc

namespace TcpHandler

/-- The beginning of `handleClient`. -/
def handleClient (fd : ℤ) : TcpHandler := ⟨Socket.create fd, .recv⟩

def onRecv (h : TcpHandler) (len : ℤ) : TcpHandler :=
  if len = 0 then { h with pc := .close }
  else if len < 0 then { h with pc := .closeOnError }
  else { h with pc := .send }

/-- The result of `send` is only logged. -/
def onSend (h : TcpHandler) : TcpHandler := { h with pc := .recv }

/-- The result of the first `close` is only logged as well. -/
def onClose (h : TcpHandler) : TcpHandler :=
  { sock := { h.sock with isConnected := false }
    pc := if h.pc = .close then .closeAgain else .returned }

/-- The call the handler is at. -/
def op (h : TcpHandler) : Option SocketOp :=
  match h.pc with
  | .recv => some .recv
  | .send => some .send
  | .close | .closeAgain | .closeOnError => some .close
  | .returned => none

/-- The answer to the call the handler is at. -/
def resume (h : TcpHandler) : Answer → Option TcpHandler
  | .recv n _ => if h.op = some .recv then some (h.onRecv n) else none
  | .send _ => if h.op = some .send then some h.onSend else none
  | .close _ => if h.op = some .close then some h.onClose else none

end TcpHandler

namespace HttpHandler

variable {σ : Type*}

/-- The call the handler is at. -/
def op (h : HttpHandler σ) : Option SocketOp :=
  match h.pc with
  | .recv _ => some .recv
  | .send _ _ => some .send
  | .close => some .close
  | .returned => none

/-- The answer to the call the handler is at. -/
def resume (srv : HttpServer σ) (h : HttpHandler σ) : Answer → Option (HttpHandler σ)
  | .recv n memory =>
    match h.pc with
    | .recv reqParser => some (srv.onRecv h reqParser n memory)
    | _ => none
  | .send n =>
    match h.pc with
    | .send req loop => some (srv.onSend h req loop n)
    | _ => none
  | .close _ =>
    match h.pc with
    | .close => some (HttpServer.onClose h)
    | _ => none

end HttpHandler

/-! ### All handlers -/

inductive ServerKind
  | tcp
  | http
  deriving DecidableEq

/-- A handler of either kind. -/
inductive Handler (σ : Type*)
  | tcp (h : TcpHandler)
  | http (h : HttpHandler σ)

namespace Handler

variable {σ : Type*}

/-- The virtual `handleClient`. -/
def create (srv : HttpServer σ) (fd : ℤ) : ServerKind → Handler σ
  | .tcp => .tcp (TcpHandler.handleClient fd)
  | .http => .http (srv.handleClient fd)

/-- The descriptor it was given. -/
def fd : Handler σ → ℤ
  | .tcp h => h.sock.mSockfd
  | .http h => h.sock.mSockfd

def op : Handler σ → Option SocketOp
  | .tcp h => h.op
  | .http h => h.op

def resume (srv : HttpServer σ) : Handler σ → Answer → Option (Handler σ)
  | .tcp h, a => (h.resume a).map .tcp
  | .http h, a => (h.resume srv a).map .http

end Handler

/-- A handler with the number of calls of `close` it has made. -/
structure Client (σ : Type*) where
  handler : Handler σ
  closes : ℕ

/-- Whose a descriptor is. -/
inductive Owner
  | listener (k : ServerKind)
  | client (i : ℕ)
  deriving DecidableEq

/-- Where `handleAccept` is. -/
inductive AcceptPc
  | accept
  | close
  | returned
  deriving DecidableEq

/-- `handleAccept` with `mLisSock` and `mIsStop`. -/
structure Acceptor where
  mLisSock : ℤ
  mIsStop : Bool
  pc : AcceptPc

namespace Acceptor

/-- The loop test, `!mIsStop`. -/
def loopTest (a : Acceptor) : Acceptor :=
  { a with pc := if a.mIsStop then .close else .accept }

end Acceptor

/-- The servers, their handlers, and the open descriptors. -/
structure Host (σ : Type*) where
  owner : ℤ → Option Owner
  acceptor : ServerKind → Acceptor
  clients : List (Client σ)

namespace Host

variable {σ : Type*}

/-- What can happen. -/
inductive Act
  /-- `accept` returns `fd`, and `handleClient` is started. -/
  | accept (k : ServerKind) (fd : ℤ)
  /-- `accept` fails. -/
  | acceptFails (k : ServerKind)
  | stop (k : ServerKind)
  /-- `mLisSock->close()`. -/
  | closeListener (k : ServerKind)
  /-- The call that handler `i` is at is made and returns. -/
  | answer (i : ℕ) (a : Answer)

/-- Both servers started on their listening sockets. -/
def start (lis : ServerKind → ℤ) : Host σ where
  owner fd :=
    if fd = lis .tcp then some (.listener .tcp)
    else if fd = lis .http then some (.listener .http)
    else none
  acceptor k := ⟨lis k, false, .accept⟩
  clients := []

/-- One action. -/
def step (srv : HttpServer σ) (s : Host σ) : Act → Option (Host σ)
  | .accept k fd =>
    if (s.acceptor k).pc = .accept ∧ s.owner fd = none then
      some
        { owner := Function.update s.owner fd (some (.client s.clients.length))
          acceptor := Function.update s.acceptor k (s.acceptor k).loopTest
          clients := s.clients ++ [⟨Handler.create srv fd k, 0⟩] }
    else none
  | .acceptFails k =>
    if (s.acceptor k).pc = .accept then
      some { s with acceptor := Function.update s.acceptor k (s.acceptor k).loopTest }
    else none
  | .stop k =>
    some { s with acceptor := Function.update s.acceptor k { s.acceptor k with mIsStop := true } }
  | .closeListener k =>
    if (s.acceptor k).pc = .close then
      some
        { s with
          owner := Function.update s.owner (s.acceptor k).mLisSock none
          acceptor := Function.update s.acceptor k { s.acceptor k with pc := .returned } }
    else none
  | .answer i a =>
    (s.clients[i]?).bind fun c => (c.handler.resume srv a).map fun h =>
      if c.handler.op = some .close then
        { s with
          owner := Function.update s.owner c.handler.fd none
          clients := s.clients.set i ⟨h, c.closes + 1⟩ }
      else { s with clients := s.clients.set i ⟨h, c.closes⟩ }

end Host

end Server
