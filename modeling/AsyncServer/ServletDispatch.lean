/-
Servlets, and what a response says about its connection (http_servlet.h,
http_servlet.cpp).

A servlet is a function of the request and the response; what it does to the two
is a list of calls of their setters.  When the response has been sent,
`handleClient` looks at the flag of the request, while the line in the response
comes from the flag of the response.

* `runSends_pc` — where a run of sends gets to, once the response is out;
* `announced_iff` — the server does what the response says exactly if the servlet
  leaves the two flags the same;
* `builtin_keepsFlag` — the two servlets of the library do;
* `announces_close_and_goes_on` — a servlet that sets that of the response to `false`.
-/
import AsyncServer.HttpServer
import AsyncServer.Transition

namespace Server

open CString Transition

/-- A call of a setter of `HttpResponse`. -/
inductive ResponseCall where
  | setKeepAlive (keepAlive : Bool)
  | setTmpHeader (tmpheader : Bytes)
  | setVersion (version : Bytes)
  | setStatus (status : HttpStatus)
  | setBody (body : Bytes)
  | addHeader (key value : Bytes)

namespace ResponseCall

/-- What the call does. -/
def apply (res : HttpResponse) : ResponseCall → HttpResponse
  | .setKeepAlive keepAlive => res.setKeepAlive keepAlive
  | .setTmpHeader tmpheader => res.setTmpHeader tmpheader
  | .setVersion version => res.setVersion version
  | .setStatus status => res.setStatus status
  | .setBody body => res.setBody body
  | .addHeader key value => res.addHeader key value

/-- The flag that a call sets. -/
def flag? : ResponseCall → Option Bool
  | .setKeepAlive keepAlive => some keepAlive
  | _ => none

end ResponseCall

/-- A call of a setter of `HttpRequest`. -/
inductive RequestCall where
  | setVersion (version : Bytes)
  | setMethod (method : HttpMethod)
  | setQuery (query : Bytes)
  | setPath (path : Bytes)
  | setFrag (frag : Bytes)
  | setBody (body : Bytes)
  | setKeepAlive (keepAlive : Bool)
  | setWebSocket (webSocket : Bool)
  | setTmpHeader (tmpheader : Bytes)
  | addHeader (key value : Bytes)
  | addCookie (key value : Bytes)
  | addParam (key value : Bytes)
  | delHeader (key : Bytes)
  | delCookie (key : Bytes)
  | delParam (key : Bytes)

namespace RequestCall

/-- What the call does. -/
def apply (req : HttpRequest) : RequestCall → HttpRequest
  | .setVersion version => req.setVersion version
  | .setMethod method => req.setMethod method
  | .setQuery query => req.setQuery query
  | .setPath path => req.setPath path
  | .setFrag frag => req.setFrag frag
  | .setBody body => req.setBody body
  | .setKeepAlive keepAlive => req.setKeepAlive keepAlive
  | .setWebSocket webSocket => req.setWebSocket webSocket
  | .setTmpHeader tmpheader => req.setTmpHeader tmpheader
  | .addHeader key value => req.addHeader key value
  | .addCookie key value => req.addCookie key value
  | .addParam key value => req.addParam key value
  | .delHeader key => req.delHeader key
  | .delCookie key => req.delCookie key
  | .delParam key => req.delParam key

/-- The flag that a call sets. -/
def flag? : RequestCall → Option Bool
  | .setKeepAlive keepAlive => some keepAlive
  | _ => none

end RequestCall

/-- What a servlet does: calls of the setters of its two arguments. -/
inductive ServletCall where
  | req (c : RequestCall)
  | res (c : ResponseCall)

namespace ServletCall

/-- What the call does. -/
def apply (r : HttpRequest × HttpResponse) : ServletCall → HttpRequest × HttpResponse
  | .req c => (c.apply r.1, r.2)
  | .res c => (r.1, c.apply r.2)

/-- The calls on the request. -/
def request? : ServletCall → Option RequestCall
  | .req c => some c
  | .res _ => none

/-- The calls on the response. -/
def response? : ServletCall → Option ResponseCall
  | .req _ => none
  | .res c => some c

end ServletCall

/-- `Servlet::handle`, by the calls it makes. -/
abbrev Servlet := HttpRequest → HttpResponse → List ServletCall

/-- `NotFoundServlet`. -/
def notFoundServlet : Servlet := fun req _ =>
  let body := bytes ("<html><head><title>404 Not Found" ++
    "</title></head><body><center><h1>404 Not Found</h1></center>" ++
    "<hr><center>Jerry Han</center></body></html>")
  [.res (.setStatus ⟨404⟩), .res (.setVersion req.mVersion), .res (.setKeepAlive req.mKeepAlive),
    .res (.setBody body),
    .res (.addHeader (bytes "content-length") (bytes (toString body.length)))]

/-- `DefaultServlet`. -/
def defaultServlet : Servlet := fun req _ =>
  let body := bytes ("<html><head><title>Jerry han's Server" ++
    "</title></head><body><center><h1>Welcome to JerryHan's server</h1></center>" ++
    "<hr><center>Jerry Han</center></body></html>")
  [.res (.setStatus ⟨200⟩), .res (.setVersion req.mVersion), .res (.setKeepAlive req.mKeepAlive),
    .res (.setBody body),
    .res (.addHeader (bytes "content-length") (bytes (toString body.length))),
    .res (.addHeader (bytes "content-type") (bytes "text/html"))]

/-- `ServletDispatch`. -/
structure ServletDispatch where
  mDatas : Bytes → Option Servlet
  mNotFound : Servlet

namespace ServletDispatch

variable {d : ServletDispatch} {req : HttpRequest} {res : HttpResponse}

/-- The constructor. -/
def create : ServletDispatch where
  mDatas := Function.update (fun _ => none) (bytes "/") (some defaultServlet)
  mNotFound := notFoundServlet

def addServlet (d : ServletDispatch) (uri : Bytes) (slt : Servlet) : ServletDispatch :=
  { d with mDatas := Function.update d.mDatas uri (some slt) }

def getServlet (d : ServletDispatch) (uri : Bytes) : Servlet := (d.mDatas uri).getD d.mNotFound

/-- `handle`: what the servlet leaves of the two. -/
def handle (d : ServletDispatch) (req : HttpRequest) (res : HttpResponse) :
    HttpRequest × HttpResponse :=
  (d.getServlet req.mPath req res).foldl ServletCall.apply (req, res)

/-- The server with these servlets. -/
def server {σ : Type*} (d : ServletDispatch) (lib : HttpParser σ) : HttpServer σ where
  lib := lib
  handle := d.handle

/-- The calls for a request. -/
def calls (d : ServletDispatch) (req : HttpRequest) : List ServletCall :=
  d.getServlet req.mPath req (HttpResponse.create req.mVersion req.mKeepAlive)

/-- The flags of the request that the servlet sets. -/
def requestFlags (d : ServletDispatch) (req : HttpRequest) : List Bool :=
  ((d.calls req).filterMap ServletCall.request?).filterMap RequestCall.flag?

/-- The flags of the response that it sets. -/
def responseFlags (d : ServletDispatch) (req : HttpRequest) : List Bool :=
  ((d.calls req).filterMap ServletCall.response?).filterMap ResponseCall.flag?

/-- The flag that the servlet last sets in the response is the one that it last sets in the
request; where it sets none, the one of the request counts. -/
def KeepsFlag (d : ServletDispatch) (req : HttpRequest) : Prop :=
  (d.responseFlags req).getLast?.getD req.mKeepAlive =
    (d.requestFlags req).getLast?.getD req.mKeepAlive

/-! ### What the calls leave -/

/-- The calls on the one do not concern the other. -/
theorem foldl_apply (cs : List ServletCall) (r : HttpRequest × HttpResponse) :
    cs.foldl ServletCall.apply r =
      ((cs.filterMap ServletCall.request?).foldl RequestCall.apply r.1,
        (cs.filterMap ServletCall.response?).foldl ResponseCall.apply r.2) := by
  induction cs generalizing r with
  | nil => rfl
  | cons c cs ih =>
    rw [List.foldl_cons, ih]
    cases c with
    | req c =>
      rw [List.filterMap_cons_some (by rfl), List.filterMap_cons_none (by rfl)]
      rfl
    | res c =>
      rw [List.filterMap_cons_none (by rfl), List.filterMap_cons_some (by rfl)]
      rfl

/-- The last call that sets the flag counts, and none makes it a web socket. -/
theorem flags_foldl_apply (cs : List ResponseCall) (res : HttpResponse) :
    (cs.foldl ResponseCall.apply res).mKeepAlive =
      ((cs.filterMap ResponseCall.flag?).getLast?).getD res.mKeepAlive ∧
    (cs.foldl ResponseCall.apply res).mWebSocket = res.mWebSocket := by
  induction cs using List.reverseRecOn with
  | nil => exact ⟨rfl, rfl⟩
  | append_singleton cs c ih =>
    rw [List.foldl_append, List.filterMap_append]
    cases c with
    | setKeepAlive keepAlive =>
      have hone : [ResponseCall.setKeepAlive keepAlive].filterMap ResponseCall.flag? =
        [keepAlive] := rfl
      rw [hone, List.getLast?_concat]
      exact ⟨rfl, ih.2⟩
    | _ =>
      rw [List.filterMap_cons_none rfl, List.filterMap_nil, List.append_nil]
      exact ih

theorem mKeepAlive_foldl_apply (cs : List RequestCall) (req : HttpRequest) :
    (cs.foldl RequestCall.apply req).mKeepAlive =
      ((cs.filterMap RequestCall.flag?).getLast?).getD req.mKeepAlive := by
  induction cs using List.reverseRecOn with
  | nil => rfl
  | append_singleton cs c ih =>
    rw [List.foldl_append, List.filterMap_append]
    cases c with
    | setKeepAlive keepAlive =>
      have hone : [RequestCall.setKeepAlive keepAlive].filterMap RequestCall.flag? =
        [keepAlive] := rfl
      rw [hone, List.getLast?_concat]
      rfl
    | _ =>
      rw [List.filterMap_cons_none rfl, List.filterMap_nil, List.append_nil]
      exact ih

/-- What the servlet leaves of the two flags. -/
theorem flags_handle (d : ServletDispatch) (req : HttpRequest) :
    (d.handle req (.create req.mVersion req.mKeepAlive)).1.mKeepAlive =
        (d.requestFlags req).getLast?.getD req.mKeepAlive ∧
      (d.handle req (.create req.mVersion req.mKeepAlive)).2.mKeepAlive =
        (d.responseFlags req).getLast?.getD req.mKeepAlive ∧
      (d.handle req (.create req.mVersion req.mKeepAlive)).2.mWebSocket = false := by
  have hcalls : d.handle req (.create req.mVersion req.mKeepAlive) =
      (d.calls req).foldl ServletCall.apply (req, .create req.mVersion req.mKeepAlive) := rfl
  rw [hcalls, foldl_apply]
  exact ⟨mKeepAlive_foldl_apply _ _, (flags_foldl_apply _ _).1, (flags_foldl_apply _ _).2⟩

theorem getServlet_create (uri : Bytes) :
    create.getServlet uri = if uri = bytes "/" then defaultServlet else notFoundServlet := by
  unfold getServlet create
  dsimp only
  split_ifs with h
  · rw [h, Function.update_self]
    rfl
  · rw [Function.update_of_ne h]
    rfl

/-- **The two servlets of the library keep the flag.** -/
theorem builtin_keepsFlag (req : HttpRequest) : create.KeepsFlag req := by
  unfold KeepsFlag requestFlags responseFlags calls
  rw [getServlet_create]
  split_ifs
  · rfl
  · rfl

end ServletDispatch

/-! ### Sending the response -/

namespace HttpServer

variable {σ : Type*} {srv : HttpServer σ} {h h' : HttpHandler σ} {req : HttpRequest}

/-- `send` has answered, and the loop goes on. -/
def sendStep (srv : HttpServer σ) (h : HttpHandler σ) (n : ℤ) : Option (HttpHandler σ) :=
  match h.pc with
  | .send req loop => some (srv.onSend h req loop n)
  | _ => none

/-- `handleClient` has dispatched the request in `h`, and sent its response when it gets
to `h'`. -/
structure Responded (srv : HttpServer σ) (h : HttpHandler σ) (req : HttpRequest)
    (h' : HttpHandler σ) : Prop where
  run : ∃ answers, Transition.run srv.sendStep answers (srv.respond h req) = some h'
  behind : ∀ req' loop, h'.pc ≠ .send req' loop
  sent : h'.sent = h.sent ++ srv.response req

/-- Behind the send loop: `close`, or the next request. -/
def next (srv : HttpServer σ) (req : HttpRequest) : HttpPc σ :=
  if req.mKeepAlive then .recv (HttpRequestParser.create srv.lib.init) else .close

/-- The loop goes on, or the flag of the request decides. -/
theorem sendTest_pc (srv : HttpServer σ) (req : HttpRequest) (hconn : h.sock.isConnected = true)
    (loop : SendLoop) :
    (srv.sendTest h req loop).sock.isConnected = true ∧
      ((srv.sendTest h req loop).pc = .send req loop ∨
        (srv.sendTest h req loop).pc = srv.next req) := by
  by_cases hloop : loop.unfinished = true
  · rw [sendTest, if_pos hloop]
    exact ⟨hconn, .inl rfl⟩
  · rw [sendTest, if_neg hloop, next]
    cases hreq : req.mKeepAlive with
    | false =>
      rw [if_pos (by simp)]
      exact ⟨hconn, .inr rfl⟩
    | true =>
      rw [if_neg (by simp [hconn])]
      exact ⟨hconn, .inr rfl⟩

/-- **Where a run of sends gets to.** -/
theorem runSends_pc {answers : List ℤ} (hconn : h.sock.isConnected = true)
    (hpc : (∃ loop, h.pc = .send req loop) ∨ h.pc = srv.next req)
    (hrun : Transition.run srv.sendStep answers h = some h') :
    (∃ loop, h'.pc = .send req loop) ∨ h'.pc = srv.next req := by
  have hinv : h'.sock.isConnected = true ∧
      ((∃ loop, h'.pc = .send req loop) ∨ h'.pc = srv.next req) := by
    refine Reachable.run_invariant (I := fun h => h.sock.isConnected = true ∧
      ((∃ loop, h.pc = .send req loop) ∨ h.pc = srv.next req)) ?_ ⟨hconn, hpc⟩ hrun
    rintro h n h' - ⟨hconn, hpc⟩ hstep
    rcases hpc with ⟨loop, hpc⟩ | hpc
    · simp only [sendStep, hpc, Option.some_inj] at hstep
      subst hstep
      obtain ⟨hconn', hpc'⟩ := sendTest_pc srv req
        (h := { h with sent := h.sent ++ (loop.buf.drop loop.offset.toNat).take n.toNat })
        hconn (loop.advance n)
      exact ⟨hconn', hpc'.imp_left fun hp => ⟨_, hp⟩⟩
    -- behind the loop there is no other send
    · exfalso
      revert hstep
      unfold sendStep
      rw [hpc, next]
      split_ifs <;> simp
  exact hinv.2

end HttpServer

/-! ### The line in the response -/

/-- The response has this line about the connection behind its status line. -/
def Announces (res : HttpResponse) (response word : Bytes) : Prop :=
  ∃ rest, response = bytes "HTTP/" ++ res.mVersion ++ bytes " " ++
    bytes (ToString.toString res.mStatus.code) ++ bytes " " ++ httpStatusToString res.mStatus ++
    bytes "\r\n" ++ (bytes "connection:" ++ word ++ bytes "\r\n" ++ rest)

/-- `toString` writes the flag of the response. -/
theorem announces_toString {res : HttpResponse} (hws : res.mWebSocket = false) (keepAlive : Bool) :
    Announces res res.toString (bytes (if keepAlive then "keep-alive" else "close")) ↔
      res.mKeepAlive = keepAlive := by
  obtain ⟨tail, htail⟩ : ∃ tail, res.toString = bytes "HTTP/" ++ res.mVersion ++ bytes " " ++
      bytes (ToString.toString res.mStatus.code) ++ bytes " " ++ httpStatusToString res.mStatus ++
      bytes "\r\n" ++ (bytes "connection:" ++
        bytes (if res.mKeepAlive then "keep-alive" else "close") ++ bytes "\r\n" ++ tail) := by
    refine ⟨res.headerLines ++ (if res.mBody.length ≠ 0 then
      (if res.mHeaders.find (bytes "content-length") = none
        then bytes "content-length:" ++ bytes (ToString.toString res.mBody.length) ++ bytes "\r\n"
        else []) ++ bytes "\r\n" ++ res.mBody
      else bytes "\r\n"), ?_⟩
    rw [HttpResponse.toString, hws]
    simp only [Bool.false_eq_true, if_false, List.append_assoc]
  rw [Announces, htail]
  constructor
  · rintro ⟨rest, hrest⟩
    have hword := List.append_cancel_left hrest
    rw [List.append_assoc, List.append_assoc, List.append_assoc, List.append_assoc] at hword
    -- the words differ in their first letters
    have hfirst := List.append_cancel_left hword
    cases hres : res.mKeepAlive <;> cases keepAlive
    · rfl
    · rw [hres] at hfirst
      exact absurd (List.cons.inj hfirst).1 (by decide)
    · rw [hres] at hfirst
      exact absurd (List.cons.inj hfirst).1 (by decide)
    · rfl
  · rintro rfl
    exact ⟨tail, rfl⟩

open ServletDispatch

/-- **The server does what the response says exactly if the servlet leaves the flags of
request and response the same.** -/
theorem announced_iff {σ : Type*} {lib : HttpParser σ} {d : ServletDispatch}
    {h h' : HttpHandler σ} {req : HttpRequest} (hconn : h.sock.isConnected = true)
    (hsent : (d.server lib).Responded h req h') :
    ((h'.pc = .close ↔ Announces (d.handle req (.create req.mVersion req.mKeepAlive)).2
          ((d.server lib).response req) (bytes "close")) ∧
        (h'.pc = .recv (HttpRequestParser.create lib.init) ↔
          Announces (d.handle req (.create req.mVersion req.mKeepAlive)).2
            ((d.server lib).response req) (bytes "keep-alive"))) ↔ d.KeepsFlag req := by
  obtain ⟨hreq, hflag, hws⟩ := flags_handle d req
  set req' := (d.handle req (.create req.mVersion req.mKeepAlive)).1 with hreq'
  set res := (d.handle req (.create req.mVersion req.mKeepAlive)).2 with hres
  have hclose : Announces res ((d.server lib).response req) (bytes "close") ↔
    res.mKeepAlive = false := announces_toString hws false
  have hkeep : Announces res ((d.server lib).response req) (bytes "keep-alive") ↔
    res.mKeepAlive = true := announces_toString hws true
  -- the flag that the request has now decides where the handler is
  have hpc : h'.pc = (d.server lib).next req' := by
    obtain ⟨answers, hrun⟩ := hsent.run
    have hstart := HttpServer.sendTest_pc (d.server lib) req'
      (h := { h with dispatched := h.dispatched ++ [req] }) hconn (SendLoop.start res.toString)
    have hend := HttpServer.runSends_pc hstart.1 (hstart.2.imp_left fun hp => ⟨_, hp⟩) hrun
    exact hend.resolve_left fun ⟨loop, hp⟩ => hsent.behind _ _ hp
  rw [hclose, hkeep, KeepsFlag, ← hreq, ← hflag, hpc, HttpServer.next]
  cases req'.mKeepAlive <;> cases res.mKeepAlive <;> simp [server]

/-- A handler with a complete request for "/", which asks for a persistent connection. -/
def handlerAt (σ : Type*) (init : σ) : HttpHandler σ where
  sock := Socket.create 5
  pc := .recv (HttpRequestParser.create init)
  dispatched := []
  sent := []

/-- The parser without callbacks. -/
def silentParser : HttpParser Unit := ⟨(), fun s buf => (s, [], buf.length)⟩

/-- The response goes out in one piece. -/
theorem responded_at_once {σ : Type*} (lib : HttpParser σ) (d : ServletDispatch)
    (req : HttpRequest) {h : HttpHandler σ} (hconn : h.sock.isConnected = true)
    (hlen : ((d.server lib).response req).length < 2 ^ 31) :
    ∃ h', (d.server lib).Responded h req h' ∧
      h'.pc = (d.server lib).next (d.handle req (.create req.mVersion req.mKeepAlive)).1 := by
  set req' := (d.handle req (.create req.mVersion req.mKeepAlive)).1 with hreq'
  set buf := (d.server lib).response req with hbuf
  set l := SendLoop.start buf with hl
  have hne : buf.length ≠ 0 := by
    have hcr : buf ≠ [] := by
      intro hnil
      have hhead : buf.take 5 = bytes "HTTP/" := by
        rw [hbuf, HttpServer.response, HttpResponse.toString]
        simp only [List.append_assoc]
        rfl
      rw [hnil] at hhead
      exact absurd hhead (by decide)
    exact fun h0 => hcr (List.length_eq_zero_iff.mp h0)
  have hopen : l.unfinished = true :=
    (SendLoop.unfinished_iff (by show buf.length < _; omega)).mpr (Ne.symm hne)
  have hoffset : (l.advance buf.length).offset.toNat = buf.length := by
    have h := SendLoop.offset_advance (l := l) (n := buf.length) (by omega)
      (by show 0 + _ < _; omega)
    rw [h]
    show 0 + _ = _
    omega
  have hdone : (l.advance buf.length).unfinished = false := by
    have h := SendLoop.unfinished_iff (l := l.advance buf.length) (by show buf.length < _; omega)
    rw [hoffset] at h
    exact Bool.eq_false_iff.mpr fun hu => h.mp hu rfl
  have hstart : (d.server lib).respond h req =
      { h with dispatched := h.dispatched ++ [req], pc := .send req' l } := if_pos hopen
  -- the whole response is accepted, and the loop ends
  set h₁ : HttpHandler σ :=
    { h with dispatched := h.dispatched ++ [req], pc := .send req' l, sent := h.sent ++ buf }
  have hstep : (d.server lib).sendStep ((d.server lib).respond h req) buf.length =
      some ((d.server lib).sendTest h₁ req' (l.advance buf.length)) := by
    rw [hstart]
    show some (HttpServer.onSend _ _ _ _ _) = _
    have htake : (l.buf.drop l.offset.toNat).take ((buf.length : ℤ).toNat) = buf :=
      List.take_length
    rw [HttpServer.onSend, htake]
  have hend := (HttpServer.sendTest_pc (d.server lib) req' (h := h₁) hconn
    (l.advance buf.length)).2
  have hpc : ((d.server lib).sendTest h₁ req' (l.advance buf.length)).pc =
      (d.server lib).next req' := by
    refine hend.resolve_left fun hp => ?_
    rw [HttpServer.sendTest, if_neg (by simp [hdone])] at hp
    split_ifs at hp
  have hbehind : ∀ q loop, (d.server lib).next req' ≠ .send q loop := by
    intro q loop
    unfold HttpServer.next
    split_ifs <;> simp
  refine ⟨_, ⟨⟨[(buf.length : ℤ)], ?_⟩, fun q loop hp => ?_, ?_⟩, hpc⟩
  · rw [Transition.run_cons, hstep]
    rfl
  · exact hbehind q loop (hpc.symm.trans hp)
  · unfold HttpServer.sendTest
    split_ifs <;> rfl

/-- A servlet that clears both flags: the response says `close`, and the server closes. -/
theorem announced_both_closed :
    let d := ServletDispatch.create.addServlet (bytes "/") fun _ _ =>
      [.res (.setKeepAlive false), .req (.setKeepAlive false)]
    let req := HttpRequest.create.setKeepAlive true
    ∃ h', (d.server silentParser).Responded (handlerAt Unit ()) req h' ∧
      (h'.pc = .close ↔ Announces (d.handle req (.create req.mVersion req.mKeepAlive)).2
          ((d.server silentParser).response req) (bytes "close")) ∧
        (h'.pc = .recv (HttpRequestParser.create ()) ↔
          Announces (d.handle req (.create req.mVersion req.mKeepAlive)).2
            ((d.server silentParser).response req) (bytes "keep-alive")) := by
  intro d req
  obtain ⟨h', hsent, -⟩ := responded_at_once silentParser d req (h := handlerAt Unit ()) rfl
    (by decide)
  exact ⟨h', hsent, (announced_iff rfl hsent).mpr rfl⟩

/-- **The response says `close`, and the server reads on.** -/
theorem announces_close_and_goes_on :
    let d := ServletDispatch.create.addServlet (bytes "/") fun _ _ =>
      [.res (.setKeepAlive false)]
    let req := HttpRequest.create.setKeepAlive true
    ∃ h', (d.server silentParser).Responded (handlerAt Unit ()) req h' ∧
      Announces (d.handle req (.create req.mVersion req.mKeepAlive)).2
        ((d.server silentParser).response req) (bytes "close") ∧
      h'.pc = .recv (HttpRequestParser.create ()) ∧
      ¬ ((h'.pc = .close ↔ Announces (d.handle req (.create req.mVersion req.mKeepAlive)).2
            ((d.server silentParser).response req) (bytes "close")) ∧
          (h'.pc = .recv (HttpRequestParser.create ()) ↔
            Announces (d.handle req (.create req.mVersion req.mKeepAlive)).2
              ((d.server silentParser).response req) (bytes "keep-alive"))) := by
  intro d req
  have hclose : Announces (d.handle req (.create req.mVersion req.mKeepAlive)).2
    ((d.server silentParser).response req) (bytes "close") :=
    (announces_toString rfl false).mpr rfl
  obtain ⟨h', hsent, hpc⟩ := responded_at_once silentParser d req (h := handlerAt Unit ()) rfl
    (by decide)
  have hpc : h'.pc = .recv (HttpRequestParser.create ()) := hpc
  refine ⟨h', hsent, hclose, hpc, fun hprop => ?_⟩
  rw [hpc] at hprop
  exact absurd (hprop.1.mpr hclose) (by simp)

end Server
