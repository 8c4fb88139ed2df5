/-
Parsing back a request that was serialised.

`HttpRequest::toString` writes the query and the fragment behind the blank that
follows the path, and nothing between them and `HTTP/`; the method M-SEARCH is
written by the name of its enumerator.

* `isRequest_toString`, `writable_of_isRequest` — what it writes is a request of the
  grammar exactly when there is neither query nor fragment, and the method is another one;
* `roundTrip_iff` — in these cases everything comes back, and in the others the
  parser does not accept it.
-/
import AsyncServer.Fragments
import AsyncServer.RequestGrammar

namespace Server

open CString RequestMessage

namespace HttpRequestParser

variable {σ : Type*} {p : HttpRequestParser σ}

/-! ### The fields of a parsed request -/

/-- Only `on_headers_complete` writes method and version. -/
theorem mMethod_feed_of_notMem (es : List ParserEvent) (h : ∀ m i j, .headersComplete m i j ∉ es) :
    (p.feed es).mData.mMethod = p.mData.mMethod ∧
      (p.feed es).mData.mVersion = p.mData.mVersion := by
  refine Prod.mk.inj (feed_frame (f := fun q : HttpRequestParser σ =>
    (q.mData.mMethod, q.mData.mVersion)) fun e he q => ?_)
  cases e with
  | headersComplete m i j => exact absurd he (h m i j)
  | headerValue s =>
    simp only [callback, requestHeaderValueCallback]
    split <;> rfl
  | _ => rfl

theorem mMethod_feed (c : RequestMessage (List Bytes)) :
    (p.feed c.events).mData.mMethod = c.method ∧
      (p.feed c.events).mData.mVersion = digits c.httpMajor ++ bytes "." ++ digits c.httpMinor := by
  -- the events behind the one that writes method and version
  set tail := c.body.flatMap (fun d => d.map ParserEvent.body) ++
    c.trailers.flatMap headerEvents ++ [.messageComplete] with htail
  have hevents : c.events = (c.url.map .url ++ c.headers.flatMap headerEvents) ++
      [.headersComplete c.method c.httpMajor c.httpMinor] ++ tail := by
    simp only [events, htail, List.append_assoc]
  rw [hevents, feed_append]
  obtain ⟨hmethod, hversion⟩ := mMethod_feed_of_notMem (p := p.feed _) tail
    fun m i j => by simp [htail, headerEvents]
  rw [hmethod, hversion, feed_append]
  exact ⟨rfl, rfl⟩

/-- Only `on_body` writes the body. -/
theorem mBody_feed_of_notMem (es : List ParserEvent) (h : ∀ s, .body s ∉ es) :
    (p.feed es).mData.mBody = p.mData.mBody := by
  refine feed_frame (f := fun q : HttpRequestParser σ => q.mData.mBody) fun e he q => ?_
  cases e with
  | body s => exact absurd he (h s)
  | headerValue s =>
    simp only [callback, requestHeaderValueCallback]
    split <;> rfl
  | _ => rfl

theorem mBody_feed_parts (l : List (List Bytes)) :
    (p.feed (l.flatMap fun d => d.map .body)).mData.mBody =
      p.mData.mBody ++ (l.map List.flatten).flatten := by
  induction l generalizing p with
  | nil => simp
  | cons d l ih =>
    rw [List.flatMap_cons, feed_append, ih, feed_body]
    show p.mData.mBody ++ d.flatten ++ _ = _
    rw [List.map_cons, List.flatten_cons, List.append_assoc]

theorem mBody_feed (c : RequestMessage (List Bytes)) :
    (p.feed c.events).mData.mBody = p.mData.mBody ++ (c.body.map List.flatten).flatten := by
  -- from the last event to the first: of the six groups only the body's writes the body
  simp only [events, feed_append]
  rw [mBody_feed_of_notMem [.messageComplete] (fun s => by simp),
    mBody_feed_of_notMem (c.trailers.flatMap headerEvents) (fun s => by simp [headerEvents]),
    mBody_feed_parts,
    mBody_feed_of_notMem [.headersComplete _ _ _] (fun s => by simp),
    mBody_feed_of_notMem (c.headers.flatMap headerEvents) (fun s => by simp [headerEvents]),
    mBody_feed_of_notMem (c.url.map .url) (fun s => by simp)]

/-- No callback writes query or fragment. -/
theorem mQuery_feed (es : List ParserEvent) :
    (p.feed es).mData.mQuery = p.mData.mQuery ∧ (p.feed es).mData.mFrag = p.mData.mFrag := by
  refine Prod.mk.inj (feed_frame (f := fun q : HttpRequestParser σ =>
    (q.mData.mQuery, q.mData.mFrag)) fun e _ q => ?_)
  cases e with
  | headerValue s =>
    simp only [callback, requestHeaderValueCallback]
    split <;> rfl
  | _ => rfl

end HttpRequestParser

namespace HttpRequest

/-! ### What `toString` writes -/

/-- The requests in question, with version `major.minor`. -/
structure Encodable (req : HttpRequest) (major minor : ℕ) : Prop where
  plain : PlainHeaders req.mHeaders
  notUpgrade : ∀ h ∈ req.mHeaders.entries, strcasecmp h.1 (bytes "upgrade") ≠ .eq
  webSocket : req.mWebSocket = false
  method : req.mMethod ∈ httpMethodMap.map Prod.fst ∧ req.mMethod ≠ .connect
  version : req.mVersion = digits major ++ bytes "." ++ digits minor
  major : 1 ≤ major ∧ major < 10
  minor : minor < 10
  /-- The path is of origin form. -/
  path : req.mPath.head? = some 47 ∧
    ∀ c ∈ req.mPath, (33 ≤ c ∧ c ≠ 127) ∧ c ∉ bytes "?#"
  query : ∀ c ∈ req.mQuery, (33 ≤ c ∧ c ≠ 127) ∧ c ∉ bytes "#"
  frag : ∀ c ∈ req.mFrag, 33 ≤ c ∧ c ≠ 127

/-- `toString` writes a first line of three parts: neither query nor fragment, and a
method that is written as it is called. -/
def Writable (req : HttpRequest) : Prop :=
  req.mQuery = [] ∧ req.mFrag = [] ∧ req.mMethod ≠ .msearch

/-- The message that `toString` writes then. -/
def message (req : HttpRequest) (major minor : ℕ) : RequestMessage Bytes where
  url := req.mPath
  headers := emittedLines req.mHeaders req.mKeepAlive req.mBody
  method := req.mMethod
  httpMajor := major
  httpMinor := minor
  body := if req.mBody = [] then [] else [req.mBody]
  trailers := []

variable {req : HttpRequest} {major minor : ℕ}

/-- The bytes of `toString`, cut at its second blank. -/
theorem toString_eq (h : req.Encodable major minor) :
    req.toString = httpMethodToString req.mMethod ++ 32 :: (req.mPath ++ 32 ::
      ((if req.mQuery = [] then [] else 63 :: req.mQuery) ++
        (if req.mFrag = [] then [] else 35 :: req.mFrag) ++ bytes "HTTP/" ++
        (digits major ++ bytes "." ++ digits minor) ++ crlf ++
        headerBlock (emittedLines req.mHeaders req.mKeepAlive req.mBody) ++ crlf ++ req.mBody)) := by
  have hlines : req.headerLines = headerBlock req.mHeaders.entries := by
    refine flatMap_headerLine _ fun e he => ?_
    have hname := h.plain.notConnection e he
    rw [ne_eq, strcasecmp_eq_iff, eq_comm, ← strcasecmp_eq_iff] at hname
    rw [h.webSocket]
    simpa using hname
  have hemitted := emittedLines_eq h.plain req.mKeepAlive req.mBody
  simp only [List.append_assoc] at hemitted
  -- the mark stands with the text behind it, or neither stands
  have hquery : (if req.mQuery = [] then [] else bytes "?") ++ req.mQuery =
      if req.mQuery = [] then [] else 63 :: req.mQuery := by
    split_ifs with hq
    · exact hq
    · rfl
  have hfrag : (if req.mFrag = [] then [] else bytes "#") ++ req.mFrag =
      if req.mFrag = [] then [] else 35 :: req.mFrag := by
    split_ifs with hf
    · exact hf
    · rfl
  rw [← hquery, ← hfrag]
  simp only [toString, h.webSocket, hlines, h.version, List.append_assoc, Bool.false_eq_true,
    if_false]
  rw [hemitted]
  rfl

/-- A method that is written as it is called. -/
theorem methodName_eq (hknown : req.mMethod ∈ httpMethodMap.map Prod.fst)
    (hne : req.mMethod ≠ .msearch) :
    methodName req.mMethod = some (httpMethodToString req.mMethod) := by
  cases hm : req.mMethod with
  | msearch => exact absurd hm hne
  | invalidMethod => exact absurd (hm ▸ hknown) (by decide)
  | _ => rfl

theorem blank_notMem_httpMethodToString (method : HttpMethod) :
    (32 : UInt8) ∉ httpMethodToString method := by
  cases method <;> decide

theorem methodName_ne_msearch (method : HttpMethod) :
    methodName method ≠ some (httpMethodToString .msearch) := by
  cases method <;> decide

/-- The emitted lines announce the body. -/
theorem framed_emittedLines (h : PlainHeaders req.mHeaders) :
    Framed (emittedLines req.mHeaders req.mKeepAlive req.mBody) req.mBody := by
  have hconn : strcasecmp (bytes "connection") (bytes "content-length") ≠ .eq := by decide
  have hcoding : strcasecmp (bytes "connection") (bytes "transfer-encoding") ≠ .eq := by decide
  have hlength : strcasecmp (bytes "content-length") (bytes "transfer-encoding") ≠ .eq := by decide
  constructor
  · intro l hl heq
    rcases mem_emittedLines.mp hl with rfl | hl | ⟨-, rfl⟩
    · exact absurd heq hconn
    · exact absurd heq (h.notLength l hl)
    · rfl
  · intro hbody
    exact ⟨lengthHeader req.mBody, mem_emittedLines.mpr (.inr (.inr ⟨hbody, rfl⟩)),
      (by decide : strcasecmp (bytes "content-length") (bytes "content-length") = .eq)⟩
  · intro l hl
    rcases mem_emittedLines.mp hl with rfl | hl | ⟨-, rfl⟩
    · exact hcoding
    · exact h.notEncoding l hl
    · exact hlength

/-- **When `toString` writes a request of the grammar.** -/
theorem isRequest_toString (h : req.Encodable major minor) (hw : req.Writable) :
    IsRequest (req.message major minor) req.toString := by
  obtain ⟨hquery, hfrag, hmethod⟩ := hw
  have hlines := plain_emittedLines h.plain req.mKeepAlive req.mBody
  have hmap : (emittedLines req.mHeaders req.mKeepAlive req.mBody).map lineHeader =
      emittedLines req.mHeaders req.mKeepAlive req.mBody :=
    (List.map_congr_left fun l hl => lineHeader_of_clean (hlines l hl).2).trans (List.map_id _)
  have hwire : req.toString = requestWire (httpMethodToString req.mMethod) req.mPath major minor
      (emittedLines req.mHeaders req.mKeepAlive req.mBody) req.mBody := by
    rw [toString_eq h, if_pos hquery, if_pos hfrag, requestWire,
      show bytes " " = [32] from rfl]
    simp
  have hframed : Framed _ req.mBody := framed_emittedLines h.plain
  rw [← hmap] at hframed
  have htarget : IsTarget req.mPath := by
    refine ⟨fun h0 => ?_, fun c hc => (h.path.2 c hc).1⟩
    have hhead := h.path.1
    rw [h0] at hhead
    exact absurd hhead (by decide)
  have hrequest := IsRequest.mk (methodName_eq h.method.1 hmethod) htarget h.major.2 h.minor
    (fun l hl => ⟨(hlines l hl).1, (hlines l hl).2.fieldText⟩) hframed
  rw [hwire]
  rwa [hmap] at hrequest

/-- **When it does not**: behind the blank that follows the path, a request of the
grammar goes on with `HTTP/`. -/
theorem writable_of_isRequest (h : req.Encodable major minor) {m : RequestMessage Bytes}
    (hm : IsRequest m req.toString) : req.Writable := by
  generalize hb : req.toString = b at hm
  obtain ⟨hname, hurl, -, -, -, -⟩ := hm
  have hpath : (32 : UInt8) ∉ req.mPath := fun hc => absurd (h.path.2 32 hc).1.1 (by decide)
  rw [toString_eq h, requestWire, show bytes " " = [32] from rfl] at hb
  simp only [List.append_assoc, List.cons_append, List.nil_append] at hb
  -- the method ends at the first blank, and the path at the second
  obtain ⟨hmethod, hrest⟩ := split_inj (blank_notMem_httpMethodToString _)
    (blank_notMem_methodName hname) hb
  obtain ⟨-, hrest⟩ := split_inj hpath hurl.blank_notMem hrest
  -- where the grammar has the H of HTTP, there would be a question mark
  have hquery : req.mQuery = [] := by
    by_contra hq
    rw [if_neg hq] at hrest
    exact absurd (List.cons_eq_cons.mp hrest).1 (by decide)
  have hfrag : req.mFrag = [] := by
    by_contra hf
    rw [if_pos hquery, if_neg hf] at hrest
    exact absurd (List.cons_eq_cons.mp hrest).1 (by decide)
  refine ⟨hquery, hfrag, fun hmsearch => ?_⟩
  rw [← hmethod, hmsearch] at hname
  exact methodName_ne_msearch _ hname

/-! ### The round trip -/

/-- What a new `HttpRequestParser` makes of `toString`: the parser, and the number of
bytes it has accepted. -/
def parsedBack {σ : Type*} (lib : HttpParser σ) (req : HttpRequest) : HttpRequestParser σ × ℕ :=
  (HttpRequestParser.create lib.init).execute lib req.toString

/-- The request is accepted in full and comes back: the same method, path, query,
fragment, version and body, the same headers and the emitted ones. -/
structure RoundTrip {σ : Type*} (lib : HttpParser σ) (req : HttpRequest) : Prop where
  accepted : (parsedBack lib req).2 = req.toString.length
  method : (parsedBack lib req).1.mData.mMethod = req.mMethod
  path : (parsedBack lib req).1.mData.mPath = req.mPath
  query : (parsedBack lib req).1.mData.mQuery = req.mQuery
  frag : (parsedBack lib req).1.mData.mFrag = req.mFrag
  version : (parsedBack lib req).1.mData.mVersion = req.mVersion
  headers : (parsedBack lib req).1.mData.mHeaders =
    withEmitted req.mHeaders req.mKeepAlive req.mBody
  body : (parsedBack lib req).1.mData.mBody = req.mBody

theorem roundTrip_of_writable {σ : Type*} {lib : HttpParser σ} (h : req.Encodable major minor)
    (hw : req.Writable) (hlib : lib.Recognises req.toString) : RoundTrip lib req := by
  obtain ⟨s, hexec⟩ := hlib.request _ (isRequest_toString h hw)
  set c := (req.message major minor).unfragmented with hc
  have hback : parsedBack lib req =
      ({ (HttpRequestParser.create lib.init).feed c.events with mParser := s },
        req.toString.length) := HttpRequestParser.execute_eq hexec
  obtain ⟨hmethod, hversion⟩ :=
    HttpRequestParser.mMethod_feed (p := HttpRequestParser.create lib.init) c
  obtain ⟨hquery, hfrag⟩ :=
    HttpRequestParser.mQuery_feed (p := HttpRequestParser.create lib.init) c.events
  constructor <;> rw [hback]
  · exact hmethod
  · exact HttpRequestParser.mPath_feed c
  · exact hquery.trans hw.1.symm
  · exact hfrag.trans hw.2.1.symm
  · exact hversion.trans h.version.symm
  · show ((HttpRequestParser.create lib.init).feed c.events).mData.mHeaders = _
    rw [HttpRequestParser.mHeaders_feed (HttpRequestParser.name_ne_nil_unfragmented _),
      HttpRequestParser.flatMap_kept_unfragmented]
    -- without trailers the lines are those emitted
    show OrderedMap.empty.fill (emittedLines req.mHeaders req.mKeepAlive req.mBody ++ []) = _
    rw [List.append_nil]
    exact fill_emittedLines h.plain req.mKeepAlive req.mBody
  · refine (HttpRequestParser.mBody_feed c).trans ?_
    show (((if req.mBody = [] then [] else [req.mBody]).map fun d => [d]).map
      List.flatten).flatten = req.mBody
    split_ifs with hbody
    · exact hbody.symm
    · simp

/-- **When a request makes the round trip.** -/
theorem roundTrip_iff {σ : Type*} {lib : HttpParser σ} (h : req.Encodable major minor)
    (hlib : lib.Recognises req.toString) : RoundTrip lib req ↔ req.Writable := by
  constructor
  -- what is not in the grammar is not accepted, whatever its fields are parsed to
  · intro hback
    by_contra hw
    refine hlib.other (fun m hm => hw (writable_of_isRequest h hm)) ?_
    exact hback.accepted
  · exact fun hw => roundTrip_of_writable h hw hlib

/-- A request without query and fragment. -/
def indexPage : HttpRequest := (create.setPath (bytes "/index")).addHeader (bytes "Host") (bytes "a")

/-- A parser for this request. -/
def indexLib : HttpParser Unit where
  init := ()
  execute _ b := ((), (indexPage.message 1 1).unfragmented.events, b.length)

theorem indexPage_encodable : indexPage.Encodable 1 1 := by
  have hentries : indexPage.mHeaders.entries = [(bytes "Host", bytes "a")] := by decide
  refine ⟨⟨?_, ?_, ?_, ?_, ?_⟩, ?_, rfl, by decide, rfl, by decide, by decide, by decide,
    by decide, by decide⟩ <;>
    · rw [hentries]
      decide

/-- It comes back. -/
theorem indexPage_back : RoundTrip indexLib indexPage := by
  have hw : indexPage.Writable := ⟨rfl, rfl, by decide⟩
  have hrequest := isRequest_toString indexPage_encodable hw
  refine (roundTrip_iff indexPage_encodable ⟨fun m hm => ⟨(), ?_⟩, fun h => ?_⟩).mpr hw
  · rw [hm.unique hrequest]
    rfl
  · exact absurd hrequest (h _)

/-- A request for `/` with the query `q=1`. -/
def searchPage : HttpRequest := { create with mQuery := bytes "q=1" }

/-- What `http_parser` does with `GET / ?q=1HTTP/1.1`: it reports the path and stops at
the question mark. -/
def searchLib : HttpParser Unit where
  init := ()
  execute _ _ := ((), [.url (bytes "/")], 6)

/-- **A request with a query is not accepted.** -/
theorem searchPage_rejected : searchPage.Encodable 1 1 ∧
    searchLib.Recognises searchPage.toString ∧ ¬ RoundTrip searchLib searchPage := by
  have hencodable : searchPage.Encodable 1 1 := by
    have hentries : searchPage.mHeaders.entries = [] := rfl
    refine ⟨⟨?_, ?_, ?_, ?_, ?_⟩, ?_, rfl, by decide, rfl, by decide, by decide, by decide,
      by decide, by decide⟩ <;>
      · rw [hentries]
        exact fun _ hm => absurd hm List.not_mem_nil
  have hlength : (6 : ℕ) ≠ searchPage.toString.length := by decide
  refine ⟨hencodable, ⟨fun m hm => ?_, fun _ => hlength⟩, fun h => hlength h.accepted⟩
  exact absurd (writable_of_isRequest hencodable hm).1 (by decide)

end HttpRequest

end Server
