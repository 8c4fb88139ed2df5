/-
One response for each request of a connection.

A `Connection` is a handler with the blocks that `recv` will return, one after
the other.  `Serves` says that it dispatches the requests of the stream one by
one and in order, each as the parser reports it, sends one response for each,
and does not stop before.

`handleClient` makes a new parser for each request, but gives a parser the whole
block: what a block holds behind the end of its request goes to the parser that
is finished, and is lost.

* `serves_of_aligned` — with blocks that do not reach past the end of the request
  in progress, all requests are served;
* `second_request_lost` — two requests in one block are served as one.
-/
import AsyncServer.HttpServer
import AsyncServer.Transition

namespace Server

open CString RequestMessage HttpRequestParser

/-! ### What is assumed of `http_parser` -/

namespace HttpParser

variable {σ : Type*}

/-- Give the parser blocks one after the other: its state and all callbacks made,
`none` when it has not consumed a block whole. -/
def reports (lib : HttpParser σ) : σ → List Bytes → Option (σ × List ParserEvent)
  | s, [] => some (s, [])
  | s, b :: bs =>
    let (s', es, n) := lib.execute s b
    if n = b.length then (lib.reports s' bs).map fun r => (r.1, es ++ r.2) else none

/-- `Reported ms n es`: the callbacks `es` are those for the first `n` bytes of
the messages `ms`, given with their bytes.  A message that has arrived is
reported cut in some way; the end of one that has not is not reported. -/
inductive Reported : List (RequestMessage Bytes × Bytes) → ℕ → List ParserEvent → Prop
  | nil : Reported [] 0 []
  | started {m : RequestMessage Bytes} {w : Bytes} {ms : List (RequestMessage Bytes × Bytes)}
      {n : ℕ} {es : List ParserEvent} (hn : n < w.length) (hes : .messageComplete ∉ es) :
      Reported ((m, w) :: ms) n es
  | message {m : RequestMessage Bytes} {c : RequestMessage (List Bytes)} {w : Bytes}
      {ms : List (RequestMessage Bytes × Bytes)} {n : ℕ} {es : List ParserEvent}
      (hc : c.joined = m) (h : Reported ms n es) :
      Reported ((m, w) :: ms) (w.length + n) (c.events ++ es)

/-- **The parser turns a byte stream into the callbacks of its successive
messages**, in blocks of any length: `wire m w` says that `w` is the byte string
of a keep-alive message `m`. -/
def Parses (lib : HttpParser σ) (wire : RequestMessage Bytes → Bytes → Prop) : Prop :=
  ∀ (ms : List (RequestMessage Bytes × Bytes)) (bs : List Bytes) (rest : Bytes),
    (∀ x ∈ ms, wire x.1 x.2) → (∀ b ∈ bs, b ≠ []) →
    bs.flatten ++ rest = (ms.map Prod.snd).flatten →
    ∃ s es, lib.reports lib.init bs = some (s, es) ∧ Reported ms bs.flatten.length es

variable {lib : HttpParser σ} {s s' : σ} {es : List ParserEvent}

theorem reports_append {bs bs' : List Bytes} :
    ∀ {s : σ}, lib.reports s (bs ++ bs') = (lib.reports s bs).bind fun r =>
      (lib.reports r.1 bs').map fun r' => (r'.1, r.2 ++ r'.2) := by
  induction bs with
  | nil =>
    intro s
    show lib.reports s bs' = (lib.reports s bs').map fun r' => (r'.1, [] ++ r'.2)
    simp
  | cons b bs ih =>
    intro s
    simp only [List.cons_append, reports]
    split
    -- the first block is consumed whole, and the rest is as for the shorter list
    · rw [ih]
      cases lib.reports (lib.execute s b).1 bs with
      | none => rfl
      | some r => simp [List.append_assoc, Function.comp_def]
    · rfl

/-- One more block. -/
theorem reports_snoc {bs : List Bytes} {b : Bytes} {es' : List ParserEvent}
    (h : lib.reports s bs = some (s', es)) {s'' : σ}
    (h' : lib.reports s (bs ++ [b]) = some (s'', es')) :
    ∃ new, lib.execute s' b = (s'', new, b.length) ∧ es' = es ++ new := by
  rw [reports_append, h, Option.bind_some, reports] at h'
  rcases hexec : lib.execute s' b with ⟨t, new, n⟩
  rw [hexec] at h'
  simp only at h'
  split at h'
  · rename_i hn
    obtain ⟨rfl, rfl⟩ := Prod.mk.inj (Option.some_inj.mp h')
    subst hn
    exact ⟨new, by simp, by simp⟩
  · exact absurd h' (by simp)

/-- What is assumed, for a single message: it is accepted in any blocks, its end
is reported when all of it has arrived, and not before. -/
theorem Parses.single {wire : RequestMessage Bytes → Bytes → Prop} (hlib : lib.Parses wire)
    {m : RequestMessage Bytes} {w rest : Bytes} (hw : wire m w) {bs : List Bytes}
    (hbs : ∀ b ∈ bs, b ≠ []) (h : bs.flatten ++ rest = w) :
    ∃ s es, lib.reports lib.init bs = some (s, es) ∧
      (rest ≠ [] → .messageComplete ∉ es) ∧
      (rest = [] → ∃ c : RequestMessage (List Bytes), c.joined = m ∧ es = c.events) := by
  have hstream : bs.flatten ++ rest = ([(m, w)].map Prod.snd).flatten := by simpa using h
  obtain ⟨s, es, hrep, hreported⟩ := hlib [(m, w)] bs rest (by simpa using hw) hbs hstream
  have hlen : bs.flatten.length + rest.length = w.length := by rw [← h, List.length_append]
  refine ⟨s, es, hrep, ?_⟩
  -- the length is an index of `Reported`, and has to be a variable for the case split
  generalize bs.flatten.length = n at hlen hreported
  cases hreported with
  | started hn hes =>
    refine ⟨fun _ => hes, fun hrest => ?_⟩
    rw [hrest, List.length_nil] at hlen
    omega
  -- all of the message is there, and nothing follows it
  | message hc hnil =>
    cases hnil
    refine ⟨fun hrest => ?_, fun _ => ⟨_, hc, List.append_nil _⟩⟩
    have := List.length_pos_iff.mpr hrest
    omega

end HttpParser

/-! ### The keep-alive flag -/

namespace ParserEvent

/-- The name reported last. -/
def lastName (es : List ParserEvent) : Option Bytes :=
  (es.filterMap fun
    | .headerField n => some n
    | _ => none).getLast?

/-- Every value is reported under a name other than connection. -/
def NoConnection (es : List ParserEvent) : Prop :=
  ∀ pre v post, es = pre ++ .headerValue v :: post →
    ∃ n, lastName pre = some n ∧ strcasecmp n (bytes "connection") ≠ .eq

/-- The last value, or piece of one, that is reported under the name connection
is something else than close. -/
def AnnouncesKeepAlive (es : List ParserEvent) : Prop :=
  ∃ pre n v post, es = pre ++ .headerValue v :: post ∧
    lastName pre = some n ∧ strcasecmp n (bytes "connection") = .eq ∧
    strcasecmp v (bytes "close") ≠ .eq ∧ NoConnection post

theorem NoConnection.of_append {es es' : List ParserEvent} (h : NoConnection (es ++ es')) :
    NoConnection es := by
  intro pre v post heq
  refine h pre v (post ++ es') ?_
  rw [heq]
  simp

end ParserEvent

namespace HttpRequestParser

open ParserEvent

variable {σ : Type*} {p : HttpRequestParser σ}

theorem mTmpHeader_feed {es : List ParserEvent} {n : Bytes} (h : lastName es = some n) :
    (p.feed es).mData.mTmpHeader = n := by
  induction es using List.reverseRecOn with
  | nil => exact absurd h (by simp [lastName])
  -- on the last event: a name sets the field, and nothing else does
  | append_singleton es e ih =>
    rw [feed_append]
    cases e with
    | headerField m =>
      have hm : lastName (es ++ [.headerField m]) = some m := by simp [lastName]
      rw [hm] at h
      exact Option.some_inj.mp h
    | headerValue v =>
      have hes : (p.feed es).mData.mTmpHeader = n := ih (by simpa [lastName] using h)
      rw [← hes]
      simp only [feed_cons, feed_nil, callback, requestHeaderValueCallback]
      split <;> rfl
    | _ => exact ih (by simpa [lastName] using h)

theorem mKeepAlive_feed_of_noConnection {es : List ParserEvent} (h : NoConnection es) :
    (p.feed es).mData.mKeepAlive = p.mData.mKeepAlive := by
  induction es using List.reverseRecOn with
  | nil => rfl
  | append_singleton es e ih =>
    rw [feed_append, ← ih h.of_append]
    cases e with
    | headerValue v =>
      obtain ⟨n, hn, hne⟩ := h es v [] rfl
      simp only [feed_cons, feed_nil, callback, requestHeaderValueCallback]
      rw [mTmpHeader_feed hn, if_neg hne]
      rfl
    | _ => rfl

theorem mKeepAlive_feed {es : List ParserEvent} (h : AnnouncesKeepAlive es) :
    (p.feed es).mData.mKeepAlive = true := by
  obtain ⟨pre, n, v, post, rfl, hn, hname, hval, hpost⟩ := h
  rw [feed_append, feed_cons, mKeepAlive_feed_of_noConnection hpost]
  simp only [callback, requestHeaderValueCallback]
  rw [mTmpHeader_feed hn, if_pos hname, if_neg hval]
  rfl

end HttpRequestParser

/-! ### Connections -/

/-- A handler with the blocks that its `recv` will return. -/
structure Connection (σ : Type*) where
  handler : HttpHandler σ
  input : List Bytes

namespace Connection

variable {σ : Type*} {srv : HttpServer σ}

/-- An answer to the call the handler is at. -/
inductive Act
  /-- `recv` returns the next block; `beyond` is the memory behind the buffer. -/
  | recv (beyond : Bytes)
  /-- `send` accepts `n` bytes. -/
  | send (n : ℕ)
  | close

/-- The handler gets an answer to its call. -/
def step (srv : HttpServer σ) (c : Connection σ) : Act → Option (Connection σ)
  | .recv beyond =>
    match c.handler.pc, c.input with
    | .recv reqParser, b :: bs =>
      some ⟨srv.onRecv c.handler reqParser b.length (HttpServer.recvMemory b beyond), bs⟩
    | _, _ => none
  -- a `send` that fails or accepts nothing is not among the answers
  | .send n =>
    match c.handler.pc with
    | .send req loop =>
      if 1 ≤ n ∧ n ≤ loop.asked.toNat then some { c with handler := srv.onSend c.handler req loop n }
      else none
    | _ => none
  | .close =>
    match c.handler.pc with
    | .close => some { c with handler := HttpServer.onClose c.handler }
    | _ => none

/-- `handleClient` on a connection on which `input` arrives. -/
def start (srv : HttpServer σ) (fd : ℤ) (input : List Bytes) : Connection σ :=
  ⟨srv.handleClient fd, input⟩

/-- The requests are the messages, each built from the callbacks for some cut of
its data. -/
def Built (init : σ) (ms : List (RequestMessage Bytes)) (rs : List HttpRequest) : Prop :=
  List.Forall₂ (fun m r => ∃ c : RequestMessage (List Bytes), c.joined = m ∧
    r = parsed init c.events) ms rs

/-- The responses to the requests dispatched so far. -/
def responses (srv : HttpServer σ) (c : Connection σ) : Bytes :=
  (c.handler.dispatched.map srv.response).flatten

/-- **One response for each request**: in every state of every run the requests
dispatched are the first of the stream, in order, and what has been sent is the
beginning of their responses; a run that cannot go on has dispatched all and
sent all the responses; and no run goes on for ever. -/
structure Serves (srv : HttpServer σ) (fd : ℤ) (ms : List (RequestMessage Bytes))
    (input : List Bytes) : Prop where
  inOrder : ∀ c, Transition.Reachable (step srv) Transition.anyStep (start srv fd input) c →
    (∃ k, Built srv.lib.init (ms.take k) c.handler.dispatched) ∧
      c.handler.sent <+: responses srv c
  complete : ∀ c, Transition.Reachable (step srv) Transition.anyStep (start srv fd input) c →
    (∀ a, step srv c a = none) →
      Built srv.lib.init ms c.handler.dispatched ∧ c.handler.sent = responses srv c
  ends : ∃ bound, ∀ as c, Transition.run (step srv) as (start srv fd input) = some c →
    as.length ≤ bound

/-! ### Aligned blocks -/

/-- A block that `recv` reads whole and `strlen` measures right: not empty, not
filling the buffer, and without NUL. -/
def PlainBlock (b : Bytes) : Prop := b ≠ [] ∧ b.length < 1024 ∧ (0 : UInt8) ∉ b

/-- A request with the blocks it arrives in. -/
structure Arrival where
  message : RequestMessage Bytes
  blocks : List Bytes

/-- The requests arrive in blocks of their own, so that no block reaches past the
end of the request in progress, and the parser reports of each that is followed by
another a connection header other than close. -/
structure Aligned (srv : HttpServer σ) (wire : RequestMessage Bytes → Bytes → Prop)
    (gs : List Arrival) : Prop where
  wire : ∀ g ∈ gs, wire g.message g.blocks.flatten
  plain : ∀ g ∈ gs, ∀ b ∈ g.blocks, PlainBlock b
  keepAlive : ∀ g ∈ gs.dropLast, ∀ s es, srv.lib.reports srv.lib.init g.blocks = some (s, es) →
    ParserEvent.AnnouncesKeepAlive es

/-- The servlets leave the keep-alive flag of the request alone, and no response
is too long for the send loop. -/
structure Regular (srv : HttpServer σ) (gs : List Arrival) : Prop where
  keepsFlag : ∀ req res, (srv.handle req res).1.mKeepAlive = req.mKeepAlive
  short : ∀ g ∈ gs, ∀ c : RequestMessage (List Bytes), c.joined = g.message →
    (srv.response (parsed srv.lib.init c.events)).length < 2 ^ 31

/-- The requests of `past` have been dispatched, those of `rest` have not. -/
structure Done (srv : HttpServer σ) (gs : List Arrival) (c : Connection σ)
    (past rest : List Arrival) : Prop where
  split : gs = past ++ rest
  built : Built srv.lib.init (past.map Arrival.message) c.handler.dispatched
  connected : c.handler.sock.isConnected = true

/-- The parser that has seen what gave the callbacks `es`. -/
def parserAt (srv : HttpServer σ) (s : σ) (es : List ParserEvent) : HttpRequestParser σ :=
  { (create srv.lib.init).feed es with mParser := s }

/-- Where a connection can be when the requests arrive aligned. -/
inductive Serving (srv : HttpServer σ) (gs : List Arrival) (c : Connection σ) : Prop
  /-- The blocks `seen` of a request have been parsed, `unseen` are to come. -/
  | receiving (past : List Arrival) (g : Arrival) (rest : List Arrival) (seen unseen : List Bytes)
      (s : σ) (es : List ParserEvent) (hdone : Done srv gs c past (g :: rest))
      (hblocks : g.blocks = seen ++ unseen) (hunseen : unseen ≠ [])
      (hinput : c.input = unseen ++ rest.flatMap Arrival.blocks)
      (hpc : c.handler.pc = .recv (parserAt srv s es))
      (hrep : srv.lib.reports srv.lib.init seen = some (s, es))
      (hsent : c.handler.sent = responses srv c)
  /-- The last response is on its way. -/
  | sending (past rest : List Arrival) (req : HttpRequest) (loop : SendLoop) (before : Bytes)
      (hdone : Done srv gs c past rest) (hinput : c.input = rest.flatMap Arrival.blocks)
      (hpc : c.handler.pc = .send req loop) (hflag : rest ≠ [] → req.mKeepAlive = true)
      (hshort : loop.buf.length < 2 ^ 31) (hord : loop.InOrder) (hopen : loop.unfinished = true)
      (hresp : responses srv c = before ++ loop.buf)
      (hsent : c.handler.sent = before ++ loop.accepted)
  /-- All requests have been answered. -/
  | idle (hdone : Done srv gs c gs []) (hinput : c.input = [])
      (hpc : c.handler.pc = .recv (create srv.lib.init)) (hsent : c.handler.sent = responses srv c)
  /-- The last request closes the connection. -/
  | closing (hbuilt : Built srv.lib.init (gs.map Arrival.message) c.handler.dispatched)
      (hinput : c.input = []) (hpc : c.handler.pc = .close ∨ c.handler.pc = .returned)
      (hsent : c.handler.sent = responses srv c)

/-- Whether the handler has returned. -/
def returned (c : Connection σ) : ℕ :=
  match c.handler.pc with
  | .returned => 1
  | _ => 0

variable {wire : RequestMessage Bytes → Bytes → Prop} {gs past rest : List Arrival}
  {c c' : Connection σ} {h : HttpHandler σ} {input : List Bytes}

theorem cstr_recvMemory {b : Bytes} (hb : PlainBlock b) (beyond : Bytes) :
    cstr (HttpServer.recvMemory b beyond) = b := by
  obtain ⟨-, hlen, hnul⟩ := hb
  rw [HttpServer.cstr_recvMemory_of_notMem hnul, if_pos hlen, List.append_nil]

/-- **One block, given whole to the parser of the request in progress.** -/
theorem onRecv_reported {b beyond : Bytes} {s s' : σ} {es new : List ParserEvent}
    (hb : PlainBlock b) (hexec : srv.lib.execute s b = (s', new, b.length)) :
    srv.onRecv h (parserAt srv s es) b.length (HttpServer.recvMemory b beyond) =
      if .messageComplete ∈ es ++ new then srv.respond h (parsed srv.lib.init (es ++ new))
      else { h with pc := .recv (parserAt srv s' (es ++ new)) } := by
  have hpos : ¬ (b.length : ℤ) ≤ 0 := by
    have := List.length_pos_iff.mpr hb.1
    omega
  -- what was parsed before and this block make one list of callbacks
  have hexecute :
      (parserAt srv s es).execute srv.lib b = (parserAt srv s' (es ++ new), b.length) := by
    rw [execute_eq (p := parserAt srv s es) hexec, parserAt, feed_withParser, ← feed_append]
    rfl
  have hfinish : (parserAt srv s' (es ++ new)).isFinish = true ↔
      .messageComplete ∈ es ++ new := by
    have hfeed : ((create srv.lib.init).feed (es ++ new)).isFinish = true ↔
        (create srv.lib.init).isFinish = true ∨ .messageComplete ∈ es ++ new := feed_isFinish
    exact hfeed.trans (or_iff_right Bool.false_ne_true)
  rw [HttpServer.onRecv, if_neg hpos, strlen, cstr_recvMemory hb, hexecute]
  show (if b.length ≠ b.length then _ else _) = _
  rw [if_neg (not_not.mpr rfl)]
  by_cases hm : .messageComplete ∈ es ++ new
  · rw [if_pos hm, if_pos (hfinish.mpr hm)]
    rfl
  · rw [if_neg hm, if_neg fun hf => hm (hfinish.mp hf)]

/-- A message has bytes: its end is reported behind some. -/
theorem blocks_ne_nil (hlib : srv.lib.Parses wire) (hgs : Aligned srv wire gs) {g : Arrival}
    (hg : g ∈ gs) : g.blocks ≠ [] := by
  intro hnil
  have hwire := hgs.wire g hg
  rw [hnil] at hwire
  have hempty : ∀ b ∈ ([] : List Bytes), b ≠ [] := fun b hb => absurd hb List.not_mem_nil
  obtain ⟨s, es, hrep, -, hall⟩ := hlib.single hwire hempty rfl
  obtain ⟨c, -, hes⟩ := hall rfl
  obtain ⟨-, hnone⟩ := Prod.mk.inj (Option.some_inj.mp hrep)
  -- without a block there are no callbacks, but a message has at least one
  rw [← hnone, events] at hes
  exact absurd hes (by simp)

/-- At `recv` with a new parser: at the next request, or at the end of the
stream. -/
theorem serving_next (hlib : srv.lib.Parses wire) (hgs : Aligned srv wire gs)
    (hdone : Done srv gs c past rest) (hinput : c.input = rest.flatMap Arrival.blocks)
    (hpc : c.handler.pc = .recv (create srv.lib.init))
    (hsent : c.handler.sent = responses srv c) : Serving srv gs c := by
  cases rest with
  | nil =>
    have hpast : gs = past := hdone.split.trans (List.append_nil past)
    subst hpast
    exact .idle hdone hinput hpc hsent
  | cons g rest =>
    have hg : g ∈ gs := by
      rw [hdone.split]
      exact List.mem_append_right past List.mem_cons_self
    exact .receiving past g rest [] g.blocks srv.lib.init [] hdone rfl
      (blocks_ne_nil hlib hgs hg) (by rw [hinput, List.flatMap_cons]) hpc rfl hsent

@[simp] theorem sent_sendTest (req : HttpRequest) (loop : SendLoop) :
    (srv.sendTest h req loop).sent = h.sent := by
  unfold HttpServer.sendTest
  split_ifs <;> rfl

/-- **The test of the send loop**: the response goes on, or it has been sent
whole and the next request comes, or the last one closes the connection. -/
theorem serving_sendTest (hlib : srv.lib.Parses wire) (hgs : Aligned srv wire gs)
    {req : HttpRequest} {loop : SendLoop} {before : Bytes}
    (hdone : Done srv gs ⟨h, input⟩ past rest) (hinput : input = rest.flatMap Arrival.blocks)
    (hflag : rest ≠ [] → req.mKeepAlive = true) (hshort : loop.buf.length < 2 ^ 31)
    (hord : loop.InOrder) (hresp : responses srv ⟨h, input⟩ = before ++ loop.buf)
    (hsent : h.sent = before ++ loop.accepted) :
    Serving srv gs ⟨srv.sendTest h req loop, input⟩ := by
  by_cases hopen : loop.unfinished = true
  · rw [HttpServer.sendTest, if_pos hopen]
    exact .sending past rest req loop before ⟨hdone.split, hdone.built, hdone.connected⟩ hinput rfl
      hflag hshort hord hopen hresp hsent
  · have hfull : loop.accepted = loop.buf := by
      rw [SendLoop.unfinished_iff (by omega), not_not] at hopen
      rw [hord.accepted, hopen, List.take_length]
    have hall : h.sent = responses srv ⟨h, input⟩ := by rw [hsent, hfull, hresp]
    rw [HttpServer.sendTest, if_neg hopen, show h.sock.isConnected = true from hdone.connected]
    cases hkeep : req.mKeepAlive with
    -- the peer is there and wants more: no `close`
    | true =>
      exact serving_next hlib hgs ⟨hdone.split, hdone.built, hdone.connected⟩ hinput rfl hall
    | false =>
      obtain rfl : rest = [] := by
        by_contra hrest
        rw [hflag hrest] at hkeep
        exact absurd hkeep (by simp)
      obtain rfl : gs = past := hdone.split.trans (List.append_nil past)
      exact .closing hdone.built hinput (.inl rfl) hall

/-- A request is complete: it is dispatched, and its response is started. -/
theorem serving_respond (hlib : srv.lib.Parses wire) (hsrv : Regular srv gs)
    (hgs : Aligned srv wire gs) {g : Arrival} {req : HttpRequest}
    (hdone : Done srv gs ⟨h, input⟩ past (g :: rest))
    (hinput : input = rest.flatMap Arrival.blocks)
    {cut : RequestMessage (List Bytes)} (hcut : cut.joined = g.message)
    (hreq : req = parsed srv.lib.init cut.events) (hflag : rest ≠ [] → req.mKeepAlive = true)
    (hsent : h.sent = responses srv ⟨h, input⟩) :
    Serving srv gs ⟨srv.respond h req, input⟩ := by
  have hg : g ∈ gs := by
    rw [hdone.split]
    exact List.mem_append_right past List.mem_cons_self
  have hdone' : Done srv gs ⟨{ h with dispatched := h.dispatched ++ [req] }, input⟩
      (past ++ [g]) rest := by
    refine ⟨by rw [hdone.split, List.append_assoc]; rfl, ?_, hdone.connected⟩
    rw [List.map_append]
    exact List.rel_append hdone.built (List.Forall₂.cons ⟨cut, hcut, hreq⟩ List.Forall₂.nil)
  have hresp : responses srv ⟨{ h with dispatched := h.dispatched ++ [req] }, input⟩ =
      responses srv ⟨h, input⟩ ++ srv.response req := by
    simp [responses]
  refine serving_sendTest hlib hgs hdone' hinput ?_ ?_ (SendLoop.inOrder_start _) hresp ?_
  · rw [hsrv.keepsFlag]
    exact hflag
  · rw [hreq]
    exact hsrv.short g hg cut hcut
  · rw [hsent]
    exact (List.append_nil _).symm

/-- `recv` answers with the next block of the request in progress. -/
theorem serving_recv (hlib : srv.lib.Parses wire) (hsrv : Regular srv gs)
    (hgs : Aligned srv wire gs) {g : Arrival} {seen unseen : List Bytes} {b beyond : Bytes}
    {s : σ} {es : List ParserEvent} (hdone : Done srv gs c past (g :: rest))
    (hblocks : g.blocks = seen ++ b :: unseen)
    (hrep : srv.lib.reports srv.lib.init seen = some (s, es))
    (hsent : c.handler.sent = responses srv c) :
    Serving srv gs ⟨srv.onRecv c.handler (parserAt srv s es) b.length
      (HttpServer.recvMemory b beyond), unseen ++ rest.flatMap Arrival.blocks⟩ := by
  have hg : g ∈ gs := by
    rw [hdone.split]
    exact List.mem_append_right past List.mem_cons_self
  have hplain : ∀ x ∈ seen ++ b :: unseen, PlainBlock x := by
    rw [← hblocks]
    exact hgs.plain g hg
  have hb : PlainBlock b := hplain b (by simp)
  have hne : ∀ x ∈ seen ++ [b], x ≠ [] := by
    intro x hx
    rcases List.mem_append.mp hx with hx | hx
    · exact (hplain x (List.mem_append_left _ hx)).1
    · rw [List.mem_singleton.mp hx]
      exact hb.1
  have hjoin : (seen ++ [b]).flatten ++ unseen.flatten = g.blocks.flatten := by
    rw [hblocks]
    simp
  obtain ⟨s', es', hrep', hstarted, hall⟩ := hlib.single (hgs.wire g hg) hne hjoin
  obtain ⟨new, hexec, rfl⟩ := HttpParser.reports_snoc hrep hrep'
  rw [onRecv_reported hb hexec]
  rcases unseen with _ | ⟨b', unseen⟩
  · -- the request is complete
    obtain ⟨cut, hcut, hes⟩ := hall rfl
    have hm : ParserEvent.messageComplete ∈ es ++ new := by
      rw [hes, events]
      simp
    have hkeep : rest ≠ [] → (parsed srv.lib.init (es ++ new)).mKeepAlive = true := by
      intro hrest
      have hfollowed : g ∈ gs.dropLast := by
        rw [hdone.split, List.dropLast_append_of_ne_nil (List.cons_ne_nil g rest),
          List.dropLast_cons_of_ne_nil hrest]
        exact List.mem_append_right past List.mem_cons_self
      exact mKeepAlive_feed
        (hgs.keepAlive g hfollowed s' (es ++ new) (by rw [hblocks]; exact hrep'))
    rw [if_pos hm]
    refine serving_respond hlib hsrv hgs ⟨hdone.split, hdone.built, hdone.connected⟩ rfl
      hcut (by rw [hes]) hkeep hsent
  -- bytes of the request are missing, so its end is not reported
  · have hmore : (b' :: unseen).flatten ≠ [] := by
      rw [List.flatten_cons]
      exact List.append_ne_nil_of_left_ne_nil (hplain b' (by simp)).1 _
    rw [if_neg (hstarted hmore)]
    exact .receiving past g rest (seen ++ [b]) (b' :: unseen) s' (es ++ new)
      ⟨hdone.split, hdone.built, hdone.connected⟩ (by rw [hblocks]; simp)
      (List.cons_ne_nil _ _) rfl rfl hrep' hsent

theorem sent_onRecv (p : HttpRequestParser σ) (n : ℤ) (memory : Bytes) :
    (srv.onRecv h p n memory).sent = h.sent := by
  unfold HttpServer.onRecv
  split_ifs with hn
  · rfl
  · simp only
    split_ifs
    · rfl
    · exact sent_sendTest _ _
    · rfl

/-- **What one answer does to an aligned connection.** -/
theorem serving_step (hlib : srv.lib.Parses wire) (hsrv : Regular srv gs)
    (hgs : Aligned srv wire gs) {a : Act} (hc : Serving srv gs c) (hstep : step srv c a = some c') :
    Serving srv gs c' ∧ (c.handler.sent.length + returned c) + c'.input.length <
      (c'.handler.sent.length + returned c') + c.input.length := by
  cases hc with
  | receiving past g rest seen unseen s es hdone hblocks hunseen hinput hpc hrep hsent =>
    have hzero : returned c = 0 := by rw [returned, hpc]
    cases a with
    | recv beyond =>
      obtain ⟨b, unseen, rfl⟩ := List.exists_cons_of_ne_nil hunseen
      simp only [step, hpc, hinput, List.cons_append, Option.some_inj] at hstep
      subst hstep
      refine ⟨serving_recv hlib hsrv hgs hdone hblocks hrep hsent, ?_⟩
      rw [sent_onRecv, hinput, hzero, List.cons_append, List.length_cons]
      show _ + (unseen ++ rest.flatMap Arrival.blocks).length < _
      omega
    | send n => simp [step, hpc] at hstep
    | close => simp [step, hpc] at hstep
  | sending past rest req loop before hdone hinput hpc hflag hshort hord hopen hresp hsent =>
    have hzero : returned c = 0 := by rw [returned, hpc]
    cases a with
    | recv beyond => simp [step, hpc] at hstep
    | send n =>
      simp only [step, hpc] at hstep
      split_ifs at hstep with hn
      rw [Option.some_inj] at hstep
      subst hstep
      have hask := SendLoop.asked_toNat_short hshort hord.le
      -- below 2^31 bytes the offset does not overflow
      have hwin : loop.InWindow := ⟨hord.le, by have := hord.le; omega⟩
      obtain ⟨hord', -⟩ := SendLoop.inOrder_advance (n := n) hord (by omega) (by omega) (by omega)
        hwin
      refine ⟨serving_sendTest hlib hgs ⟨hdone.split, hdone.built, hdone.connected⟩ hinput hflag
        hshort hord' hresp ?_, ?_⟩
      · show c.handler.sent ++ _ = before ++ (loop.accepted ++ _)
        rw [hsent, List.append_assoc]
      · show (c.handler.sent.length + returned c) + c.input.length <
          ((srv.onSend _ _ _ _).sent.length + _) + _
        rw [HttpServer.onSend, sent_sendTest, List.length_append, List.length_take,
          List.length_drop, hzero]
        have := hord.le
        omega
    | close => simp [step, hpc] at hstep
  | idle hdone hinput hpc hsent =>
    cases a with
    | recv beyond => simp [step, hpc, hinput] at hstep
    | send n => simp [step, hpc] at hstep
    | close => simp [step, hpc] at hstep
  | closing hbuilt hinput hpc hsent =>
    rcases hpc with hpc | hpc
    · have hzero : returned c = 0 := by rw [returned, hpc]
      cases a with
      | recv beyond => simp [step, hpc] at hstep
      | send n => simp [step, hpc] at hstep
      | close =>
        simp only [step, hpc, Option.some_inj] at hstep
        subst hstep
        refine ⟨.closing hbuilt hinput (.inr rfl) hsent, ?_⟩
        show (c.handler.sent.length + returned c) + c.input.length < (c.handler.sent.length + 1) + _
        rw [hzero]
        omega
    · cases a <;> simp [step, hpc] at hstep

/-- An aligned connection that cannot go on has answered all requests. -/
theorem built_of_stuck (hc : Serving srv gs c) (hstuck : ∀ a, step srv c a = none) :
    Built srv.lib.init (gs.map Arrival.message) c.handler.dispatched ∧
      c.handler.sent = responses srv c := by
  cases hc with
  | receiving past g rest seen unseen s es hdone hblocks hunseen hinput hpc hrep hsent =>
    obtain ⟨b, unseen, rfl⟩ := List.exists_cons_of_ne_nil hunseen
    exact absurd (hstuck (.recv [])) (by simp [step, hpc, hinput])
  | sending past rest req loop before hdone hinput hpc hflag hshort hord hopen hresp hsent =>
    have hask := SendLoop.asked_toNat_short hshort hord.le
    rw [SendLoop.unfinished_iff (by omega)] at hopen
    have hle := hord.le
    have hone : 1 ≤ 1 ∧ 1 ≤ loop.asked.toNat := ⟨le_rfl, by omega⟩
    exact absurd (hstuck (.send 1)) (by simp [step, hpc, hone])
  | idle hdone hinput hpc hsent => exact ⟨hdone.built, hsent⟩
  | closing hbuilt hinput hpc hsent => exact ⟨hbuilt, hsent⟩

theorem sent_begins (hc : Serving srv gs c) : c.handler.sent <+: responses srv c := by
  cases hc with
  | receiving past g rest seen unseen s es hdone hblocks hunseen hinput hpc hrep hsent =>
    rw [hsent]
  | sending past rest req loop before hdone hinput hpc hflag hshort hord hopen hresp hsent =>
    rw [hsent, hresp, hord.accepted]
    exact (List.prefix_append_right_inj before).mpr (List.take_prefix _ _)
  | idle hdone hinput hpc hsent => rw [hsent]
  | closing hbuilt hinput hpc hsent => rw [hsent]

theorem Serving.built (hc : Serving srv gs c) : ∃ past rest, gs = past ++ rest ∧
    Built srv.lib.init (past.map Arrival.message) c.handler.dispatched := by
  cases hc with
  | receiving past g rest seen unseen s es hdone => exact ⟨past, g :: rest, hdone.split, hdone.built⟩
  | sending past rest req loop before hdone => exact ⟨past, rest, hdone.split, hdone.built⟩
  | idle hdone => exact ⟨gs, [], hdone.split, hdone.built⟩
  | closing hbuilt => exact ⟨gs, [], (List.append_nil gs).symm, hbuilt⟩

theorem length_flatten_map_le {α : Type*} {f : α → Bytes} {n : ℕ} {l : List α}
    (h : ∀ x ∈ l, (f x).length ≤ n) : (l.map f).flatten.length ≤ l.length * n := by
  induction l with
  | nil => exact Nat.zero_le _
  | cons x l ih =>
    have hx := h x List.mem_cons_self
    have hl := ih fun y hy => h y (List.mem_cons_of_mem x hy)
    rw [List.map_cons, List.flatten_cons, List.length_append, List.length_cons, Nat.succ_mul]
    omega

/-- What has been sent is bounded by the number of requests. -/
theorem length_sent_le (hsrv : Regular srv gs) (hc : Serving srv gs c) :
    c.handler.sent.length ≤ gs.length * 2 ^ 31 := by
  obtain ⟨past, rest, hsplit, hbuilt⟩ := hc.built
  have hcount : c.handler.dispatched.length ≤ gs.length := by
    have hpast := List.Forall₂.length_eq hbuilt
    rw [List.length_map] at hpast
    rw [hsplit, List.length_append]
    omega
  -- each dispatched request is one of the arrivals, as the parser has cut it
  have hshort : ∀ req ∈ c.handler.dispatched, (srv.response req).length ≤ 2 ^ 31 := by
    intro req hreq
    obtain ⟨i, hi, rfl⟩ := List.mem_iff_getElem.mp hreq
    obtain ⟨hlen, hrel⟩ := List.forall₂_iff_get.mp hbuilt
    obtain ⟨cut, hcut, heq⟩ := hrel i (hlen ▸ hi) hi
    rw [List.get_eq_getElem, List.getElem_map] at hcut
    rw [List.get_eq_getElem] at heq
    rw [heq]
    refine (hsrv.short _ ?_ cut hcut).le
    rw [hsplit]
    exact List.mem_append_left rest (List.getElem_mem _)
  calc c.handler.sent.length ≤ (responses srv c).length := (sent_begins hc).length_le
    _ ≤ c.handler.dispatched.length * 2 ^ 31 := length_flatten_map_le hshort
    _ ≤ gs.length * 2 ^ 31 := Nat.mul_le_mul_right _ hcount

theorem serving_start (hlib : srv.lib.Parses wire) (hgs : Aligned srv wire gs) (fd : ℤ) :
    Serving srv gs (start srv fd (gs.flatMap Arrival.blocks)) := by
  have hdone : Done srv gs (start srv fd (gs.flatMap Arrival.blocks)) [] gs :=
    ⟨rfl, List.Forall₂.nil, rfl⟩
  exact serving_next hlib hgs hdone rfl rfl rfl

/-- **Aligned requests are all served**: one response each, whatever the blocks
and whatever `send` accepts at a time. -/
theorem serves_of_aligned (hlib : srv.lib.Parses wire) (hsrv : Regular srv gs)
    (hgs : Aligned srv wire gs) (fd : ℤ) :
    Serves srv fd (gs.map Arrival.message) (gs.flatMap Arrival.blocks) := by
  have hreach : ∀ c, Transition.Reachable (step srv) Transition.anyStep
      (start srv fd (gs.flatMap Arrival.blocks)) c → Serving srv gs c := fun c hc =>
    hc.invariant (serving_start hlib hgs fd) fun _ _ _ hI _ hs =>
      (serving_step hlib hsrv hgs hI hs).1
  refine ⟨fun c hc => ?_, fun c hc hstuck => ?_, ?_⟩
  · obtain ⟨past, rest, hsplit, hbuilt⟩ := (hreach c hc).built
    refine ⟨⟨past.length, ?_⟩, sent_begins (hreach c hc)⟩
    have htake : (gs.map Arrival.message).take past.length = past.map Arrival.message := by
      rw [hsplit, List.map_append, List.take_left' (List.length_map _)]
    rw [htake]
    exact hbuilt
  · exact built_of_stuck (hreach c hc) hstuck
  -- each answer takes a block off the input, sends at least a byte or ends the handler
  · refine ⟨(gs.flatMap Arrival.blocks).length + gs.length * 2 ^ 31 + 1, fun as c hrun => ?_⟩
    have hlen := Transition.Reachable.run_length_le (I := Serving srv gs)
      (fun _ _ _ hI hs => serving_step hlib hsrv hgs hI hs) (serving_start hlib hgs fd) hrun
    have hsent := length_sent_le hsrv
      (hreach c (Transition.Reachable.of_run hrun))
    have hone : returned c ≤ 1 := by
      unfold returned
      split <;> omega
    have hinput : (start srv fd (gs.flatMap Arrival.blocks)).input = gs.flatMap Arrival.blocks := rfl
    rw [hinput] at hlen
    omega

/-! ### A parser for one request -/

/-- A keep-alive request without a body. -/
def getRoot : RequestMessage Bytes where
  url := bytes "/"
  headers := [(bytes "Connection", bytes "keep-alive")]
  method := .get
  httpMajor := 1
  httpMinor := 1
  body := []
  trailers := []

/-- `getRoot` as it is sent. -/
def getRootWire : Bytes := bytes "GET / HTTP/1.1\r\nConnection: keep-alive\r\n\r\n"

/-- The block goes on with the repeated request from its byte `k` on. -/
def Continues (k : ℕ) (b : Bytes) : Prop :=
  ∀ i < b.length, b[i]? = getRootWire[(k + i) % getRootWire.length]?

instance (k : ℕ) (b : Bytes) : Decidable (Continues k b) :=
  inferInstanceAs (Decidable (∀ i < b.length, b[i]? = getRootWire[(k + i) % getRootWire.length]?))

/-- The callbacks for `n` requests, each in one piece. -/
def getRootEvents (n : ℕ) : List ParserEvent :=
  (List.replicate n getRoot.unfragmented.events).flatten

/-- A parser for this request only, again and again; its state is the number of
bytes it has of the request in progress, which it reports when it has all. -/
def getRootParser : HttpParser ℕ where
  init := 0
  execute k b :=
    if Continues k b then
      ((k + b.length) % getRootWire.length, getRootEvents ((k + b.length) / getRootWire.length),
        b.length)
    else (k, [], 0)

/-- The only message is `getRoot`. -/
def IsGetRoot (m : RequestMessage Bytes) (w : Bytes) : Prop := m = getRoot ∧ w = getRootWire

theorem length_getRootWire : getRootWire.length = 42 := by decide

theorem continues_append {k : ℕ} {b b' : Bytes} : Continues k (b ++ b') ↔
    Continues k b ∧ Continues ((k + b.length) % getRootWire.length) b' := by
  constructor
  · intro h
    refine ⟨fun i hi => ?_, fun i hi => ?_⟩
    · rw [← h i (by rw [List.length_append]; omega), List.getElem?_append_left hi]
    · have hi' := h (b.length + i) (by rw [List.length_append]; omega)
      rw [List.getElem?_append_right (Nat.le_add_right _ _), Nat.add_sub_cancel_left] at hi'
      rw [hi', Nat.mod_add_mod, Nat.add_assoc]
  · rintro ⟨hb, hb'⟩ i hi
    rcases Nat.lt_or_ge i b.length with hlt | hge
    · rw [List.getElem?_append_left hlt, hb i hlt]
    · rw [List.length_append] at hi
      rw [List.getElem?_append_right hge, hb' (i - b.length) (by omega), Nat.mod_add_mod]
      congr 2
      omega

theorem continues_replicate (n : ℕ) : Continues 0 (List.replicate n getRootWire).flatten := by
  induction n with
  | zero => exact fun i hi => absurd hi (Nat.not_lt_zero i)
  | succ n ih =>
    rw [List.replicate_succ, List.flatten_cons, continues_append, Nat.zero_add, Nat.mod_self]
    exact ⟨by decide, ih⟩

theorem getRootEvents_add (a b : ℕ) :
    getRootEvents (a + b) = getRootEvents a ++ getRootEvents b := by
  rw [getRootEvents, List.replicate_add, List.flatten_append]
  rfl

theorem reports_getRoot {bs : List Bytes} : ∀ {k : ℕ}, k < getRootWire.length →
    Continues k bs.flatten → getRootParser.reports k bs =
      some ((k + bs.flatten.length) % getRootWire.length,
        getRootEvents ((k + bs.flatten.length) / getRootWire.length)) := by
  induction bs with
  | nil =>
    intro k hk _
    rw [List.flatten_nil, List.length_nil, Nat.add_zero, Nat.mod_eq_of_lt hk, Nat.div_eq_of_lt hk]
    rfl
  | cons b bs ih =>
    intro k hk h
    rw [List.flatten_cons, continues_append] at h
    have hexec : getRootParser.execute k b = ((k + b.length) % getRootWire.length,
        getRootEvents ((k + b.length) / getRootWire.length), b.length) := if_pos h.1
    have hrest := ih (Nat.mod_lt _ (by rw [length_getRootWire]; decide)) h.2
    rw [HttpParser.reports, hexec]
    simp only [if_true]
    rw [hrest, Option.map_some, ← getRootEvents_add, List.flatten_cons, List.length_append,
      length_getRootWire]
    congr 3 <;> omega

theorem reported_getRoot (n : ℕ) : ∀ {len : ℕ}, len ≤ n * getRootWire.length →
    HttpParser.Reported (List.replicate n (getRoot, getRootWire)) len
      (getRootEvents (len / getRootWire.length)) := by
  induction n with
  | zero =>
    intro len hlen
    rw [Nat.zero_mul, Nat.le_zero] at hlen
    subst hlen
    exact .nil
  | succ n ih =>
    intro len hlen
    rw [List.replicate_succ]
    -- the first request has arrived in part, or whole
    rcases Nat.lt_or_ge len getRootWire.length with hlt | hge
    · rw [Nat.div_eq_of_lt hlt]
      exact .started hlt (by decide)
    · obtain ⟨m, rfl⟩ := Nat.exists_eq_add_of_le hge
      rw [Nat.succ_mul] at hlen
      have hdiv : (getRootWire.length + m) / getRootWire.length = 1 + m / getRootWire.length := by
        rw [length_getRootWire]
        omega
      rw [hdiv, getRootEvents_add]
      exact .message (c := getRoot.unfragmented) rfl (ih (by omega))

/-- The small parser does what is assumed of `http_parser`. -/
theorem getRootParser_parses : getRootParser.Parses IsGetRoot := by
  intro ms bs rest hms _ hstream
  have hrep : ms = List.replicate ms.length (getRoot, getRootWire) :=
    List.eq_replicate_of_mem fun x hx => Prod.ext (hms x hx).1 (hms x hx).2
  have hflat : (ms.map Prod.snd).flatten = (List.replicate ms.length getRootWire).flatten := by
    conv_lhs => rw [hrep, List.map_replicate]
  rw [hflat] at hstream
  have hcont := continues_replicate ms.length
  rw [← hstream, continues_append] at hcont
  have hlen : bs.flatten.length ≤ ms.length * getRootWire.length := by
    have hright : (List.replicate ms.length getRootWire).flatten.length =
        ms.length * getRootWire.length := by
      rw [List.length_flatten, List.map_replicate, List.sum_replicate, smul_eq_mul]
    rw [← hright, ← hstream, List.length_append]
    exact Nat.le_add_right _ _
  have hreports := reports_getRoot (by rw [length_getRootWire]; decide) hcont.1
  rw [Nat.zero_add] at hreports
  refine ⟨_, _, hreports, ?_⟩
  rw [hrep]
  exact reported_getRoot ms.length hlen

/-- A server that answers every request with an empty page. -/
def getRootServer : HttpServer ℕ where
  lib := getRootParser
  handle req _ := (req, HttpResponse.create (bytes "1.1") true)

theorem getRoot_announces : ParserEvent.AnnouncesKeepAlive (getRootEvents 1) := by
  refine ⟨[.url (bytes "/"), .headerField (bytes "Connection")], bytes "Connection",
    bytes "keep-alive", [.headersComplete .get 1 1, .messageComplete], by decide, by decide,
    by decide, by decide, ?_⟩
  intro pre v post heq
  have hmem : ParserEvent.headerValue v ∈
      [ParserEvent.headersComplete .get 1 1, .messageComplete] := by
    rw [heq]
    simp
  exact absurd hmem (by simp)

/-- Two requests, each in a block of its own. -/
theorem served_in_two_blocks :
    Serves getRootServer 5 [getRoot, getRoot] [getRootWire, getRootWire] := by
  have hplain : PlainBlock getRootWire := by
    refine ⟨by decide, by decide, by decide⟩
  have hkeep : ∀ s es, getRootParser.reports 0 [getRootWire] = some (s, es) →
      ParserEvent.AnnouncesKeepAlive es := by
    intro s es hrep
    have hevents : getRootParser.reports 0 [getRootWire] = some (0, getRootEvents 1) := by decide
    obtain ⟨-, rfl⟩ := Prod.mk.inj (Option.some_inj.mp (hevents.symm.trans hrep))
    exact getRoot_announces
  have hpage : ∀ req, getRootServer.response req =
      (HttpResponse.create (bytes "1.1") true).toString := fun _ => rfl
  have halone : ∀ g ∈ [Arrival.mk getRoot [getRootWire], Arrival.mk getRoot [getRootWire]],
      g = ⟨getRoot, [getRootWire]⟩ := by simp
  have hregular : Regular getRootServer [⟨getRoot, [getRootWire]⟩, ⟨getRoot, [getRootWire]⟩] := by
    refine ⟨fun _ _ => rfl, fun _ _ _ _ => ?_⟩
    rw [hpage]
    decide
  have haligned : Aligned getRootServer IsGetRoot
      [⟨getRoot, [getRootWire]⟩, ⟨getRoot, [getRootWire]⟩] := by
    refine ⟨fun g hg => halone g hg ▸ ⟨rfl, rfl⟩, fun g hg b hb => ?_, fun g hg => ?_⟩
    · rw [halone g hg, List.mem_singleton] at hb
      rw [hb]
      exact hplain
    · rw [halone g (List.mem_of_mem_dropLast hg)]
      exact hkeep
  exact serves_of_aligned getRootParser_parses hregular haligned 5

set_option maxRecDepth 2000 in
/-- **Two requests in one block are served as one**: the parser of the first gets
the whole block, and when its response is out `handleClient` waits with a new
parser for input that has all come. -/
theorem second_request_lost :
    getRootParser.Parses IsGetRoot ∧ IsGetRoot getRoot getRootWire ∧
      PlainBlock (getRootWire ++ getRootWire) ∧
      ¬ Serves getRootServer 5 [getRoot, getRoot] [getRootWire ++ getRootWire] := by
  refine ⟨getRootParser_parses, ⟨rfl, rfl⟩, ⟨by decide, by decide, by decide⟩, fun hserves => ?_⟩
  have hrun : ∃ c, Transition.run (step getRootServer) [.recv [], .send 42]
      (start getRootServer 5 [getRootWire ++ getRootWire]) = some c ∧
        c.handler.dispatched.length = 1 ∧ c.input = [] ∧ ∃ p, c.handler.pc = .recv p :=
    ⟨_, rfl, rfl, rfl, _, rfl⟩
  obtain ⟨c, hc, hone, hinput, p, hpc⟩ := hrun
  -- at `recv` with no input left
  have hstuck : ∀ a, step getRootServer c a = none := by
    intro a
    cases a <;> simp [step, hpc, hinput]
  have hbuilt := (hserves.complete c (Transition.Reachable.of_run hc) hstuck).1
  have htwo := List.Forall₂.length_eq hbuilt
  rw [hone] at htwo
  exact absurd htwo (by decide)

end Connection

end Server
