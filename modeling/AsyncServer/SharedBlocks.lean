/-
Blocks of whole requests, on a connection.

`handleClient` gives the parser of a request all of a block, and dispatches once when the
end of a request has been reported.  So the requests that share a block are answered as one.

* `mergeMessage` — what a message leaves in the request under construction;
* `answers_of_takes` — blocks that a new parser takes as one request each are answered one
  by one, up to the first after which the connection is closed;
* `answers_shared` — this is so of blocks of whole requests and the parser that
  `HttpRequestParser` really has.
-/
import AsyncServer.WholeBlocks
import AsyncServer.KeepAlive

namespace Server

open CString RequestMessage HttpRequestParser

/-! ### What a message leaves in a request -/

/-- What a message leaves in the request under construction. -/
def mergeMessage (req : HttpRequest) (m : RequestMessage Bytes) : HttpRequest :=
  { req with
    mMethod := m.method
    mTmpHeader := (m.allHeaders.getLast?.map Prod.fst).getD req.mTmpHeader
    mVersion := digits m.httpMajor ++ bytes "." ++ digits m.httpMinor
    mPath := m.url
    mBody := req.mBody ++ m.body.flatten
    mKeepAlive := m.allHeaders.foldl requestReader.readHeader req.mKeepAlive
    mHeaders := req.mHeaders.fill m.allHeaders }

namespace HttpRequestParser

variable {σ : Type*} {p : HttpRequestParser σ}

/-- What some headers leave. -/
def mergeHeaders (req : HttpRequest) (hs : List (Bytes × Bytes)) : HttpRequest :=
  { req with
    mTmpHeader := (hs.getLast?.map Prod.fst).getD req.mTmpHeader
    mKeepAlive := hs.foldl requestReader.readHeader req.mKeepAlive
    mHeaders := req.mHeaders.fill hs }

theorem mergeHeaders_append (req : HttpRequest) (hs hs' : List (Bytes × Bytes)) :
    mergeHeaders (mergeHeaders req hs) hs' = mergeHeaders req (hs ++ hs') := by
  unfold mergeHeaders
  rw [List.foldl_append, OrderedMap.fill_append, List.getLast?_append]
  cases hs'.getLast? <;> rfl

theorem mData_feed_header (h : Bytes × Bytes) :
    (p.feed (headerEvents ([h.1], [h.2]))).mData = mergeHeaders p.mData [h] := by
  show (requestHeaderValueCallback (p.requestHeaderFieldCallback h.1) h.2).mData = _
  have hkey : (p.requestHeaderFieldCallback h.1).mData.mTmpHeader = h.1 := rfl
  rw [requestHeaderValueCallback]
  simp only [hkey, mergeHeaders, List.foldl_cons, List.foldl_nil, ConnectionReader.readHeader,
    requestReader, decide_eq_true_eq]
  by_cases hname : strcasecmp h.1 (bytes "connection") = .eq
  · rw [if_pos hname, if_pos hname]
    by_cases hclose : strcasecmp h.2 (bytes "close") = .eq
    · rw [if_pos hclose, decide_eq_true hclose]
      rfl
    · rw [if_neg hclose, decide_eq_false hclose]
      rfl
  · rw [if_neg hname, if_neg hname]
    rfl

theorem mData_feed_headers (hs : List (Bytes × Bytes)) :
    (p.feed ((hs.map (Prod.map (fun d => [d]) fun d => [d])).flatMap headerEvents)).mData =
      mergeHeaders p.mData hs := by
  induction hs generalizing p with
  | nil => rfl
  | cons h hs ih =>
    rw [List.map_cons, List.flatMap_cons, feed_append, ih]
    exact (congrArg (fun req => mergeHeaders req hs) (mData_feed_header h)).trans
      (mergeHeaders_append _ [h] hs)

theorem mData_feed_bodies (ds : List Bytes) :
    (p.feed ((ds.map fun d => [d]).flatMap fun d => d.map .body)).mData =
      { p.mData with mBody := p.mData.mBody ++ ds.flatten } := by
  induction ds generalizing p with
  | nil =>
    rw [List.flatten_nil, List.append_nil]
    rfl
  | cons d ds ih =>
    rw [List.map_cons, List.flatMap_cons, feed_append, ih, List.flatten_cons]
    show HttpRequest.mk _ _ _ _ _ _ ((p.mData.mBody ++ d) ++ ds.flatten) _ _ _ _ _ = _
    rw [List.append_assoc]
    rfl

/-- **A message whose data come in one piece each.** -/
theorem mData_feed_message (m : RequestMessage Bytes) :
    (p.feed m.unfragmented.events).mData = mergeMessage p.mData m := by
  have hevents : m.unfragmented.events = [ParserEvent.url m.url] ++
      (m.headers.map (Prod.map (fun d => [d]) fun d => [d])).flatMap headerEvents ++
      [.headersComplete m.method m.httpMajor m.httpMinor] ++
      (m.body.map fun d => [d]).flatMap (fun d => d.map .body) ++
      (m.trailers.map (Prod.map (fun d => [d]) fun d => [d])).flatMap headerEvents ++
      [.messageComplete] := rfl
  have hfirst : ∀ q : HttpRequestParser σ, (q.feed [.url m.url]).mData = q.mData.setPath m.url :=
    fun _ => rfl
  have hlast : ∀ q : HttpRequestParser σ, (q.feed [.messageComplete]).mData = q.mData :=
    fun _ => rfl
  have hhead : ∀ q : HttpRequestParser σ,
      (q.feed [.headersComplete m.method m.httpMajor m.httpMinor]).mData =
        (q.mData.setMethod m.method).setVersion
          (digits m.httpMajor ++ bytes "." ++ digits m.httpMinor) := fun _ => rfl
  rw [hevents, feed_append, hlast, feed_append, mData_feed_headers, feed_append, mData_feed_bodies,
    feed_append, hhead, feed_append, mData_feed_headers, hfirst]
  unfold mergeMessage mergeHeaders allHeaders
  rw [List.foldl_append, OrderedMap.fill_append, List.getLast?_append]
  cases m.trailers.getLast? <;> rfl

theorem mData_feed_messages (ms : List (RequestMessage Bytes)) :
    (p.feed ((ms.map unfragmented).flatMap events)).mData = ms.foldl mergeMessage p.mData := by
  induction ms generalizing p with
  | nil => rfl
  | cons m ms ih => rw [List.map_cons, List.flatMap_cons, feed_append, ih, mData_feed_message,
      List.foldl_cons]

end HttpRequestParser

/-! ### Blocks that are requests -/

namespace Connection

variable {σ : Type*} {srv : HttpServer σ} {b beyond : Bytes} {c c' : Connection σ}
variable {q q' : HttpRequest} {qs past rest : List (Bytes × HttpRequest)} {h : HttpHandler σ}
variable {input : List Bytes}

/-- A new parser takes the block as one request. -/
structure Takes (srv : HttpServer σ) (b : Bytes) (q : HttpRequest) : Prop where
  plain : PlainBlock b
  parsed : ∃ p, (create srv.lib.init).execute srv.lib b = (p, b.length) ∧
    p.isFinish = true ∧ p.mData = q
  short : (srv.response q).length < 2 ^ 31

/-- The requests that are answered: up to the first that does not keep the connection. -/
def answered : List HttpRequest → List HttpRequest
  | [] => []
  | q :: qs => if q.mKeepAlive then q :: answered qs else [q]

/-- **One response for each block**, until the connection is closed: what has been dispatched
and sent is always a beginning of that, a run that cannot go on has done all of it and is
closed if a request says so, and no run goes on for ever. -/
structure Answers (srv : HttpServer σ) (fd : ℤ) (qs : List HttpRequest) (input : List Bytes) :
    Prop where
  inOrder : ∀ c, Transition.Reachable (step srv) Transition.anyStep (start srv fd input) c →
    c.handler.dispatched <+: answered qs ∧ c.handler.sent <+: responses srv c
  complete : ∀ c, Transition.Reachable (step srv) Transition.anyStep (start srv fd input) c →
    (∀ a, step srv c a = none) →
      c.handler.dispatched = answered qs ∧ c.handler.sent = responses srv c ∧
        (c.handler.sock.isConnected = false ↔ ∃ q ∈ qs, q.mKeepAlive = false)
  ends : ∃ bound, ∀ as c, Transition.run (step srv) as (start srv fd input) = some c →
    as.length ≤ bound

theorem answered_append {qs : List HttpRequest} (qs' : List HttpRequest)
    (h : ∀ q ∈ qs, q.mKeepAlive = true) :
    answered (qs ++ qs') = qs ++ answered qs' := by
  induction qs with
  | nil => rfl
  | cons q qs ih =>
    obtain ⟨hq, hqs⟩ := List.forall_mem_cons.mp h
    rw [List.cons_append, answered, if_pos hq, ih hqs, List.cons_append]

theorem answered_begins (q : HttpRequest) (qs : List HttpRequest) : [q] <+: answered (q :: qs) := by
  rw [answered]
  split_ifs
  · exact ⟨answered qs, rfl⟩
  · exact List.prefix_rfl

/-- The blocks of `past` have been taken, and behind all of them the connection went on. -/
structure Taken (qs : List (Bytes × HttpRequest)) (c : Connection σ)
    (past rest : List (Bytes × HttpRequest)) : Prop where
  split : qs = past ++ rest
  keeps : ∀ x ∈ past, x.2.mKeepAlive = true
  input : c.input = rest.map Prod.fst

/-- Where a connection can be when every block is a request. -/
inductive Answering (srv : HttpServer σ) (qs : List (Bytes × HttpRequest)) (c : Connection σ) : Prop
  /-- At `recv`, with a new parser. -/
  | receiving (past rest : List (Bytes × HttpRequest)) (htaken : Taken qs c past rest)
      (hpc : c.handler.pc = .recv (create srv.lib.init)) (hopen : c.handler.sock.isConnected = true)
      (hdispatched : c.handler.dispatched = past.map Prod.snd)
      (hsent : c.handler.sent = responses srv c)
  /-- The response to the block of `q` is on its way. -/
  | sending (past rest : List (Bytes × HttpRequest)) (b : Bytes) (q q' : HttpRequest)
      (loop : SendLoop) (before : Bytes) (hsplit : qs = past ++ (b, q) :: rest)
      (hkeeps : ∀ x ∈ past, x.2.mKeepAlive = true) (hinput : c.input = rest.map Prod.fst)
      (hpc : c.handler.pc = .send q' loop) (hflag : q'.mKeepAlive = q.mKeepAlive)
      (hopen : c.handler.sock.isConnected = true)
      (hdispatched : c.handler.dispatched = past.map Prod.snd ++ [q])
      (hshort : loop.buf.length < 2 ^ 31) (hord : loop.InOrder) (hmore : loop.unfinished = true)
      (hresp : responses srv c = before ++ loop.buf)
      (hsent : c.handler.sent = before ++ loop.accepted)
  /-- The request `q` closes the connection. -/
  | closing (past rest : List (Bytes × HttpRequest)) (b : Bytes) (q : HttpRequest)
      (hsplit : qs = past ++ (b, q) :: rest) (hkeeps : ∀ x ∈ past, x.2.mKeepAlive = true)
      (hinput : c.input = rest.map Prod.fst) (hflag : q.mKeepAlive = false)
      (hpc : c.handler.pc = .close ∨
        c.handler.pc = .returned ∧ c.handler.sock.isConnected = false)
      (hdispatched : c.handler.dispatched = past.map Prod.snd ++ [q])
      (hsent : c.handler.sent = responses srv c)

/-- **The test of the send loop**: the response goes on, or it has been sent whole. -/
theorem answering_sendTest {loop : SendLoop} {x : Bytes} (hsplit : qs = past ++ (b, q) :: rest)
    (hkeeps : ∀ x ∈ past, x.2.mKeepAlive = true) (hinput : input = rest.map Prod.fst)
    (hflag : q'.mKeepAlive = q.mKeepAlive) (hopen : h.sock.isConnected = true)
    (hdispatched : h.dispatched = past.map Prod.snd ++ [q]) (hshort : loop.buf.length < 2 ^ 31)
    (hord : loop.InOrder) (hresp : responses srv ⟨h, input⟩ = x ++ loop.buf)
    (hsent : h.sent = x ++ loop.accepted) :
    Answering srv qs ⟨srv.sendTest h q' loop, input⟩ := by
  by_cases hmore : loop.unfinished = true
  · rw [HttpServer.sendTest, if_pos hmore]
    exact .sending past rest b q q' loop x hsplit hkeeps hinput rfl hflag hopen hdispatched
      hshort hord hmore hresp hsent
  have hfull : loop.accepted = loop.buf := by
    rw [SendLoop.unfinished_iff (by omega), not_not] at hmore
    rw [hord.accepted, hmore, List.take_length]
  have hall : h.sent = responses srv ⟨h, input⟩ := by rw [hsent, hfull, hresp]
  rw [HttpServer.sendTest, if_neg hmore, hopen, hflag]
  cases hkeep : q.mKeepAlive with
  | true =>
    refine .receiving (past ++ [(b, q)]) rest ⟨by rw [hsplit]; simp, fun x hx => ?_, hinput⟩ rfl
      hopen (by rw [hdispatched]; simp) hall
    rcases List.mem_append.mp hx with hx | hx
    · exact hkeeps x hx
    · rw [List.mem_singleton.mp hx]
      exact hkeep
  | false =>
    exact .closing past rest b q hsplit hkeeps hinput hkeep (.inl rfl) hdispatched hall

/-- A block is taken as a request, and its response is started. -/
theorem answering_recv (hkeepsFlag : ∀ req res, (srv.handle req res).1.mKeepAlive = req.mKeepAlive)
    (htakes : Takes srv b q) (htaken : Taken qs c past ((b, q) :: rest))
    (hopen : c.handler.sock.isConnected = true)
    (hdispatched : c.handler.dispatched = past.map Prod.snd)
    (hsent : c.handler.sent = responses srv c) :
    Answering srv qs ⟨srv.onRecv c.handler (create srv.lib.init) b.length
      (HttpServer.recvMemory b beyond), rest.map Prod.fst⟩ := by
  obtain ⟨p, hexec, hfinish, hdata⟩ := htakes.parsed
  have hpos : ¬ (b.length : ℤ) ≤ 0 := by
    have := List.length_pos_iff.mpr htakes.plain.1
    omega
  rw [HttpServer.onRecv, if_neg hpos, strlen, cstr_recvMemory htakes.plain, hexec]
  show Answering srv qs ⟨if b.length ≠ b.length then _ else if p.isFinish = true then _ else _, _⟩
  rw [if_neg (not_not.mpr rfl), if_pos hfinish, hdata]
  refine answering_sendTest htaken.split htaken.keeps rfl
    (hkeepsFlag _ _) hopen (by show c.handler.dispatched ++ [q] = _; rw [hdispatched])
    htakes.short (SendLoop.inOrder_start _) (x := responses srv c) ?_ ?_
  · simp [responses, HttpServer.response, SendLoop.start]
  · rw [hsent]
    exact (List.append_nil _).symm

/-- **What one answer does**: it takes a block, sends at least a byte, or closes. -/
theorem answering_step (hkeepsFlag : ∀ req res, (srv.handle req res).1.mKeepAlive = req.mKeepAlive)
    (htakes : ∀ x ∈ qs, Takes srv x.1 x.2) {a : Act} (hc : Answering srv qs c)
    (hstep : step srv c a = some c') : Answering srv qs c' ∧
      (c.handler.sent.length + returned c) + c'.input.length <
        (c'.handler.sent.length + returned c') + c.input.length := by
  cases hc with
  | receiving past rest htaken hpc hopen hdispatched hsent =>
    have hzero : returned c = 0 := by rw [returned, hpc]
    cases a with
    | recv beyond =>
      cases rest with
      | nil => simp [step, hpc, htaken.input] at hstep
      | cons x rest =>
        simp only [step, hpc, htaken.input, List.map_cons, Option.some_inj] at hstep
        subst hstep
        have hx : x ∈ qs := by
          rw [htaken.split]
          exact List.mem_append_right past List.mem_cons_self
        refine ⟨answering_recv hkeepsFlag (htakes x hx) htaken hopen hdispatched hsent, ?_⟩
        rw [sent_onRecv, hzero, htaken.input, List.map_cons, List.length_cons]
        show _ + (rest.map Prod.fst).length < _
        omega
    | send n => simp [step, hpc] at hstep
    | close => simp [step, hpc] at hstep
  | sending past rest b q q' loop before hsplit hkeeps hinput hpc hflag hopen hdispatched hshort
      hord hmore hresp hsent =>
    have hzero : returned c = 0 := by rw [returned, hpc]
    cases a with
    | recv beyond => simp [step, hpc] at hstep
    | send n =>
      simp only [step, hpc] at hstep
      split_ifs at hstep with hn
      rw [Option.some_inj] at hstep
      subst hstep
      have hask := SendLoop.asked_toNat_short hshort hord.le
      -- below 2^31 bytes the offset does not overflow
      have hwin : loop.InWindow := ⟨hord.le, by have := hord.le; omega⟩
      obtain ⟨hord', -⟩ := SendLoop.inOrder_advance (n := n) hord (by omega) (by omega) (by omega)
        hwin
      refine ⟨answering_sendTest hsplit hkeeps hinput hflag hopen hdispatched hshort hord' hresp ?_,
        ?_⟩
      · show c.handler.sent ++ _ = before ++ (loop.accepted ++ _)
        rw [hsent, List.append_assoc]
      · show (c.handler.sent.length + returned c) + c.input.length <
          ((srv.onSend _ _ _ _).sent.length + _) + _
        rw [HttpServer.onSend, sent_sendTest, List.length_append, List.length_take,
          List.length_drop, hzero]
        have := hord.le
        omega
    | close => simp [step, hpc] at hstep
  | closing past rest b q hsplit hkeeps hinput hflag hpc hdispatched hsent =>
    rcases hpc with hpc | ⟨hpc, -⟩
    · have hzero : returned c = 0 := by rw [returned, hpc]
      cases a with
      | recv beyond => simp [step, hpc] at hstep
      | send n => simp [step, hpc] at hstep
      | close =>
        simp only [step, hpc, Option.some_inj] at hstep
        subst hstep
        refine ⟨.closing past rest b q hsplit hkeeps hinput hflag (.inr ⟨rfl, rfl⟩) hdispatched
          hsent, ?_⟩
        show (c.handler.sent.length + returned c) + c.input.length < (c.handler.sent.length + 1) + _
        rw [hzero]
        omega
    · cases a <;> simp [step, hpc] at hstep

/-- A connection that cannot go on has answered all it was to answer. -/
theorem answered_of_stuck (hc : Answering srv qs c) (hstuck : ∀ a, step srv c a = none) :
    c.handler.dispatched = answered (qs.map Prod.snd) ∧ c.handler.sent = responses srv c ∧
      (c.handler.sock.isConnected = false ↔ ∃ q ∈ qs.map Prod.snd, q.mKeepAlive = false) := by
  have hpast : ∀ {past : List (Bytes × HttpRequest)}, (∀ x ∈ past, x.2.mKeepAlive = true) →
      ∀ q ∈ past.map Prod.snd, q.mKeepAlive = true := by
    intro past hkeeps q hq
    obtain ⟨x, hx, rfl⟩ := List.mem_map.mp hq
    exact hkeeps x hx
  cases hc with
  | receiving past rest htaken hpc hopen hdispatched hsent =>
    cases rest with
    | cons x rest =>
      exact absurd (hstuck (.recv [])) (by simp [step, hpc, htaken.input])
    | nil =>
      have hqs : qs = past := htaken.split.trans (List.append_nil past)
      subst hqs
      have hall := answered_append [] (hpast htaken.keeps)
      rw [List.append_nil, answered, List.append_nil] at hall
      refine ⟨by rw [hall, hdispatched], hsent, ?_⟩
      rw [hopen]
      refine iff_of_false (by simp) ?_
      rintro ⟨q, hq, hno⟩
      rw [hpast htaken.keeps q hq] at hno
      exact absurd hno (by simp)
  | sending past rest b q q' loop before hsplit hkeeps hinput hpc hflag hopen hdispatched hshort
      hord hmore hresp hsent =>
    have hask := SendLoop.asked_toNat_short hshort hord.le
    rw [SendLoop.unfinished_iff (by omega)] at hmore
    have hle := hord.le
    have hone : 1 ≤ 1 ∧ 1 ≤ loop.asked.toNat := ⟨le_rfl, by omega⟩
    exact absurd (hstuck (.send 1)) (by simp [step, hpc, hone])
  | closing past rest b q hsplit hkeeps hinput hflag hpc hdispatched hsent =>
    rcases hpc with hpc | ⟨-, hclosed⟩
    · exact absurd (hstuck .close) (by simp [step, hpc])
    · refine ⟨?_, hsent, iff_of_true hclosed ⟨q, by rw [hsplit]; simp, hflag⟩⟩
      rw [hsplit, List.map_append, answered_append _ (hpast hkeeps), List.map_cons, answered, hflag,
        hdispatched]
      rfl

/-- What has been dispatched and sent so far. -/
theorem inOrder_of_answering (hc : Answering srv qs c) :
    c.handler.dispatched <+: answered (qs.map Prod.snd) ∧ c.handler.sent <+: responses srv c := by
  have hpast : ∀ {past : List (Bytes × HttpRequest)}, (∀ x ∈ past, x.2.mKeepAlive = true) →
      ∀ {rest : List (Bytes × HttpRequest)}, answered ((past ++ rest).map Prod.snd) =
        past.map Prod.snd ++ answered (rest.map Prod.snd) := by
    intro past hkeeps rest
    rw [List.map_append]
    refine answered_append _ fun q hq => ?_
    obtain ⟨x, hx, rfl⟩ := List.mem_map.mp hq
    exact hkeeps x hx
  have hone : ∀ {past : List (Bytes × HttpRequest)} {x : Bytes × HttpRequest}
      {rest : List (Bytes × HttpRequest)}, (∀ x ∈ past, x.2.mKeepAlive = true) →
      past.map Prod.snd ++ [x.2] <+: answered ((past ++ x :: rest).map Prod.snd) := by
    intro past x rest hkeeps
    rw [hpast hkeeps]
    exact (List.prefix_append_right_inj _).mpr (answered_begins _ _)
  cases hc with
  | receiving past rest htaken hpc hopen hdispatched hsent =>
    rw [hsent, hdispatched, htaken.split, hpast htaken.keeps]
    exact ⟨List.prefix_append _ _, List.prefix_rfl⟩
  | sending past rest b q q' loop before hsplit hkeeps hinput hpc hflag hopen hdispatched hshort
      hord hmore hresp hsent =>
    rw [hdispatched, hsplit]
    refine ⟨hone (x := (b, q)) hkeeps, ?_⟩
    rw [hsent, hresp, hord.accepted]
    exact (List.prefix_append_right_inj before).mpr (List.take_prefix _ _)
  | closing past rest b q hsplit hkeeps hinput hflag hpc hdispatched hsent =>
    rw [hsent, hdispatched, hsplit]
    exact ⟨hone (x := (b, q)) hkeeps, List.prefix_rfl⟩

theorem mem_of_mem_answered {qs : List HttpRequest} : ∀ q ∈ answered qs, q ∈ qs := by
  induction qs with
  | nil => exact fun _ hq => hq
  | cons q' qs ih =>
    intro q hq
    rw [answered] at hq
    split_ifs at hq
    · exact (List.mem_cons.mp hq).elim (fun h => h ▸ List.mem_cons_self)
        fun h => List.mem_cons_of_mem _ (ih q h)
    · rw [List.mem_singleton.mp hq]
      exact List.mem_cons_self

theorem length_answered_le (qs : List HttpRequest) : (answered qs).length ≤ qs.length := by
  induction qs with
  | nil => exact Nat.le_refl _
  | cons q qs ih =>
    rw [answered]
    split_ifs
    · exact Nat.succ_le_succ ih
    · simp

/-- **Blocks that are requests are answered one by one.** -/
theorem answers_of_takes (qs : List (Bytes × HttpRequest))
    (hkeepsFlag : ∀ req res, (srv.handle req res).1.mKeepAlive = req.mKeepAlive)
    (htakes : ∀ x ∈ qs, Takes srv x.1 x.2) (fd : ℤ) :
    Answers srv fd (qs.map Prod.snd) (qs.map Prod.fst) := by
  have hstart : Answering srv qs (start srv fd (qs.map Prod.fst)) :=
    .receiving [] qs ⟨rfl, fun _ hx => absurd hx List.not_mem_nil, rfl⟩ rfl rfl rfl rfl
  have hreach : ∀ c, Transition.Reachable (step srv) Transition.anyStep
      (start srv fd (qs.map Prod.fst)) c → Answering srv qs c := fun c hc =>
    hc.invariant hstart fun _ _ _ hI _ hs => (answering_step hkeepsFlag htakes hI hs).1
  refine ⟨fun c hc => inOrder_of_answering (hreach c hc),
    fun c hc hstuck => answered_of_stuck (hreach c hc) hstuck,
    ⟨(qs.map Prod.fst).length + (qs.map Prod.snd).length * 2 ^ 31 + 1, fun as c hrun => ?_⟩⟩
  have hlen := Transition.Reachable.run_length_le (I := Answering srv qs)
    (fun _ _ _ hI hs => answering_step hkeepsFlag htakes hI hs) hstart hrun
  obtain ⟨hdispatched, hsent⟩ := inOrder_of_answering (hreach c (Transition.Reachable.of_run hrun))
  have hshort : ∀ q ∈ c.handler.dispatched, (srv.response q).length ≤ 2 ^ 31 := by
    intro q hq
    obtain ⟨x, hx, rfl⟩ := List.mem_map.mp (mem_of_mem_answered q (hdispatched.subset hq))
    exact (htakes x hx).short.le
  have hbytes : c.handler.sent.length ≤ (qs.map Prod.snd).length * 2 ^ 31 :=
    calc c.handler.sent.length ≤ (responses srv c).length := hsent.length_le
      _ ≤ c.handler.dispatched.length * 2 ^ 31 := length_flatten_map_le hshort
      _ ≤ (qs.map Prod.snd).length * 2 ^ 31 :=
        Nat.mul_le_mul_right _ (hdispatched.length_le.trans (length_answered_le _))
  have hone : returned c ≤ 1 := by
    unfold returned
    split <;> omega
  have hinput : (start srv fd (qs.map Prod.fst)).input = qs.map Prod.fst := rfl
  rw [hinput] at hlen
  omega

end Connection

/-! ### With the vendored parser -/

namespace ParserLib

/-- Requests that share a block: some that keep the connection alive, and one more. -/
structure SharedBlock where
  before : List (RequestMessage Bytes × Bytes)
  last : RequestMessage Bytes × Bytes
  keeps : Bool
  persistent : ∀ x ∈ before, PersistentWire x.1 x.2
  plain : PlainWire keeps last.1 last.2

/-- The bytes of the block. -/
def SharedBlock.wire (g : SharedBlock) : Bytes := (g.before.map Prod.snd).flatten ++ g.last.2

/-- The messages of the block. -/
def SharedBlock.messages (g : SharedBlock) : List (RequestMessage Bytes) :=
  g.before.map Prod.fst ++ [g.last.1]

/-- The request that is made of them: the first line of the last one, the headers and the
bodies of all. -/
def SharedBlock.request (g : SharedBlock) : HttpRequest :=
  g.messages.foldl mergeMessage HttpRequest.create

/-- **The parser takes a shared block as one request.** -/
theorem SharedBlock.takes {srv : HttpServer Parser} (hlib : srv.lib = requestParser)
    (g : SharedBlock) (hblock : Connection.PlainBlock g.wire)
    (hshort : (srv.response g.request).length < 2 ^ 31) :
    Connection.Takes srv g.wire g.request := by
  obtain ⟨s, hexec⟩ := execute_requests _ g.persistent g.plain
  have hfinish : ((create srv.lib.init).feed
      ((g.messages.map unfragmented).flatMap events)).isFinish = true := by
    refine feed_isFinish.mpr (.inr (List.mem_flatMap.mpr ⟨g.last.1.unfragmented, ?_, ?_⟩))
    · simp [SharedBlock.messages]
    · simp [events]
  have hdata := mData_feed_messages (p := create srv.lib.init) g.messages
  have hexecute : (create srv.lib.init).execute srv.lib g.wire =
      ({ (create srv.lib.init).feed ((g.messages.map unfragmented).flatMap events) with
        mParser := s }, g.wire.length) := by
    rw [hlib]
    exact HttpRequestParser.execute_eq (p := create requestParser.init) hexec
  exact ⟨hblock, ⟨_, hexecute, hfinish, hdata⟩, hshort⟩

/-- **The requests that share a block are answered as one**, and the blocks one by one. -/
theorem answers_shared (srv : HttpServer Parser) (hlib : srv.lib = requestParser)
    (hkeepsFlag : ∀ req res, (srv.handle req res).1.mKeepAlive = req.mKeepAlive)
    (gs : List SharedBlock) (hblocks : ∀ g ∈ gs, Connection.PlainBlock g.wire)
    (hshort : ∀ g ∈ gs, (srv.response g.request).length < 2 ^ 31) (fd : ℤ) :
    Connection.Answers srv fd (gs.map SharedBlock.request) (gs.map SharedBlock.wire) := by
  have h := Connection.answers_of_takes (gs.map fun g => (g.wire, g.request)) hkeepsFlag
    (fun x hx => by
      obtain ⟨g, hg, rfl⟩ := List.mem_map.mp hx
      exact g.takes hlib (hblocks g hg) (hshort g hg)) fd
  simpa only [List.map_map, Function.comp_def] using h

/-- A form that is sent to a path, with the body `x`. -/
def postForm (path close : Bytes) : RequestMessage Bytes × Bytes :=
  let lines := [(bytes "Connection", close), (bytes "Content-Length", bytes "1")]
  (requestMessage .post path 1 1 lines (bytes "x"),
    requestWire (bytes "POST") path 1 1 lines (bytes "x"))

theorem plainWire_postForm (keeps : Bool) : PlainWire keeps
    (postForm (bytes "/a") (bytes (if keeps then "keep-alive" else "close"))).1
    (postForm (bytes "/a") (bytes (if keeps then "keep-alive" else "close"))).2 := by
  cases keeps <;> exact ⟨_, bytes "x", by decide, rfl, rfl, by decide⟩

/-- Two forms in a block, of which the second closes the connection. -/
def twoForms : SharedBlock where
  before := [postForm (bytes "/a") (bytes "keep-alive")]
  last := postForm (bytes "/a") (bytes "close")
  keeps := false
  persistent := by
    intro x hx
    rw [List.mem_singleton.mp hx]
    exact plainWire_postForm true
  plain := plainWire_postForm false

/-- A server that answers every request with an empty page. -/
def emptyPages : HttpServer Parser where
  lib := requestParser
  handle req _ := (req, HttpResponse.create (bytes "1.1") true)

/-- The two forms are answered as one, and what comes behind them is not. -/
theorem twoForms_answered : Connection.Answers emptyPages 5 [twoForms.request, twoForms.request]
    [twoForms.wire, twoForms.wire] := by
  refine answers_shared emptyPages rfl (fun _ _ => rfl) [twoForms, twoForms] ?_ ?_ 5
  · intro g hg
    obtain rfl : g = twoForms := by simpa using hg
    exact ⟨by decide, by decide, by decide⟩
  · intro g hg
    have hpage : emptyPages.response g.request =
        (HttpResponse.create (bytes "1.1") true).toString := rfl
    rw [hpage]
    decide

end ParserLib

end Server
