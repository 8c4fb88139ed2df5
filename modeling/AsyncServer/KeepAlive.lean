/-
When the parsers take a connection for persistent.

Both parsers look at one header after the other, take some for Connection headers,
and compare the value of each of them with `close`; the last one decides.  They
differ in the comparisons (`requestReader`, `responseReader`).

* `Ends` — what the headers and the version say about the end of the connection, by
  their tokens or by the reading of `http_should_keep_alive`;
* `keepAlive_follows_iff` — the flags follow exactly if, where the connection ends,
  the last header taken for a Connection header has a value taken for `close`, and
  no header taken for one by mistake says anything else than those before it;
* `not_follows_list` — neither parser finds `close` behind another token.
-/
import AsyncServer.ConnectionHeader
import AsyncServer.HttpResponseParser

namespace Server

open CString

/-- What the headers and the version say: the connection ends. -/
def Ends (headers : List (Bytes × Bytes)) (httpMajor httpMinor : ℕ) : Prop :=
  Carries headers (bytes "close") ∨
    (¬ (0 < httpMajor ∧ 0 < httpMinor) ∧ ¬ Carries headers (bytes "keep-alive")) ∨
    shouldKeepAlive headers httpMajor httpMinor = false

instance (headers : List (Bytes × Bytes)) (httpMajor httpMinor : ℕ) :
    Decidable (Ends headers httpMajor httpMinor) :=
  inferInstanceAs (Decidable (_ ∨ _ ∧ _ ∨ _))

/-! ### Reading the headers -/

/-- How a parser compares names and values. -/
structure ConnectionReader where
  named : Bytes → Bool
  closes : Bytes → Bool

/-- The comparisons of `request_header_value_callback`. -/
def requestReader : ConnectionReader where
  named key := strcasecmp key (bytes "connection") = .eq
  closes val := strcasecmp val (bytes "close") = .eq

/-- The comparisons of `response_header_value_callback`. -/
def responseReader : ConnectionReader where
  named key := strncasecmp (bytes "connection") key 10 = .eq
  closes val := strncasecmp (bytes "close") val 5 = .eq

namespace ConnectionReader

variable {r : ConnectionReader} {headers pre post : List (Bytes × Bytes)} {h : Bytes × Bytes}
  {keepAlive : Bool}

/-- The flag after one header. -/
def readHeader (r : ConnectionReader) (keepAlive : Bool) (h : Bytes × Bytes) : Bool :=
  if r.named h.1 then !r.closes h.2 else keepAlive

/-- The flag after some headers, where it is unset at first. -/
def read (r : ConnectionReader) (headers : List (Bytes × Bytes)) : Bool :=
  headers.foldl r.readHeader false

/-- The value of the last header that is taken for a Connection header. -/
def last (r : ConnectionReader) (headers : List (Bytes × Bytes)) : Option Bytes :=
  ((headers.filter fun h => r.named h.1).getLast?).map Prod.snd

/-- There is none, or it is taken for `close`. -/
def LastCloses (r : ConnectionReader) (headers : List (Bytes × Bytes)) : Prop :=
  ∀ v, r.last headers = some v → r.closes v = true

theorem read_concat (headers : List (Bytes × Bytes)) (h : Bytes × Bytes) :
    r.read (headers ++ [h]) = r.readHeader (r.read headers) h := by
  rw [read, List.foldl_append]
  rfl

theorem last_concat (headers : List (Bytes × Bytes)) (h : Bytes × Bytes) :
    r.last (headers ++ [h]) = if r.named h.1 then some h.2 else r.last headers := by
  unfold last
  split_ifs with hn
  · simp [List.filter_append, hn]
  · simp [List.filter_append, hn]

/-- **The last header decides.** -/
theorem read_eq_false_iff : r.read headers = false ↔ r.LastCloses headers := by
  unfold LastCloses
  induction headers using List.reverseRecOn with
  | nil => exact iff_of_true rfl fun v hv => absurd hv (by simp [last])
  | append_singleton headers h ih =>
    rw [read_concat, last_concat, readHeader]
    split_ifs with hn
    · simp
    · exact ih

/-- The flag `final` at the end is not set where the connection ends, and headers with
another name do not change the flag. -/
structure Follows (flag : List (Bytes × Bytes) → Bool) (final : Bool)
    (headers : List (Bytes × Bytes)) (ends : Prop) : Prop where
  ends : ends → final = false
  others : ∀ {pre h post}, headers = pre ++ h :: post → ¬ IsConnection h.1 →
    flag (pre ++ [h]) = flag pre

/-- Where the connection ends, the last header taken for a Connection header says so, and
none that is taken for one by mistake says anything else than those before it. -/
structure Agrees (r : ConnectionReader) (headers : List (Bytes × Bytes)) (ends : Prop) : Prop where
  last : ends → r.LastCloses headers
  others : ∀ {pre h post}, headers = pre ++ h :: post → ¬ IsConnection h.1 →
    r.named h.1 = true → (r.closes h.2 = true ↔ r.LastCloses pre)

/-- **What a reader makes of the headers, it says itself.** -/
theorem follows_iff_agrees (ends : Prop) :
    Follows r.read (r.read headers) headers ends ↔ r.Agrees headers ends := by
  have hsame : ∀ {pre : List (Bytes × Bytes)} {h : Bytes × Bytes}, r.named h.1 = true →
      (r.read (pre ++ [h]) = r.read pre ↔ (r.closes h.2 = true ↔ r.LastCloses pre)) := by
    intro pre h hn
    rw [read_concat, readHeader, if_pos hn, ← read_eq_false_iff]
    cases r.closes h.2 <;> cases r.read pre <;> decide
  constructor
  · rintro ⟨hends, hothers⟩
    exact ⟨fun h => read_eq_false_iff.mp (hends h),
      fun hsplit hname hn => (hsame hn).mp (hothers hsplit hname)⟩
  · rintro ⟨hlast, hothers⟩
    refine ⟨fun h => read_eq_false_iff.mpr (hlast h), fun {pre h post} hsplit hname => ?_⟩
    by_cases hn : r.named h.1 = true
    · exact (hsame hn).mpr (hothers hsplit hname hn)
    · rw [read_concat, readHeader, if_neg hn]

end ConnectionReader

/-! ### The two parsers -/

namespace HttpRequestParser

variable {σ : Type*}

/-- The callbacks for a header in one piece. -/
def wholeHeader (h : Bytes × Bytes) : List ParserEvent := [.headerField h.1, .headerValue h.2]

/-- The callbacks for a header do to the flag what the comparisons say. -/
theorem mKeepAlive_wholeHeader (p : HttpRequestParser σ) (h : Bytes × Bytes) :
    (p.feed (wholeHeader h)).mData.mKeepAlive =
      requestReader.readHeader p.mData.mKeepAlive h := by
  show (requestHeaderValueCallback (p.requestHeaderFieldCallback h.1) h.2).mData.mKeepAlive = _
  have hkey : (p.requestHeaderFieldCallback h.1).mData.mTmpHeader = h.1 := rfl
  rw [requestHeaderValueCallback]
  simp only [hkey, ConnectionReader.readHeader, requestReader, decide_eq_true_eq]
  split_ifs with hname hclose
  · exact (congrArg (!·) (decide_eq_true hclose)).symm
  · exact (congrArg (!·) (decide_eq_false hclose)).symm
  · rfl

/-- The flag after the callbacks for some headers. -/
theorem mKeepAlive_wholeHeaders (headers : List (Bytes × Bytes)) :
    ∀ p : HttpRequestParser σ, (p.feed (headers.flatMap wholeHeader)).mData.mKeepAlive =
      headers.foldl requestReader.readHeader p.mData.mKeepAlive := by
  induction headers with
  | nil =>
    intro p
    rfl
  | cons h headers ih =>
    intro p
    rw [List.flatMap_cons, feed_append, ih, List.foldl_cons, mKeepAlive_wholeHeader]

/-- The flag of the request that a fresh parser builds from some headers. -/
def flagAfter (init : σ) (headers : List (Bytes × Bytes)) : Bool :=
  (parsed init (headers.flatMap wholeHeader)).mKeepAlive

theorem flagAfter_eq (init : σ) : flagAfter init = requestReader.read :=
  funext fun headers => mKeepAlive_wholeHeaders headers (create init)

/-- The end of the header block leaves the flag alone. -/
theorem mKeepAlive_block (init : σ) (headers : List (Bytes × Bytes)) (method : HttpMethod)
    (httpMajor httpMinor : ℕ) :
    (parsed init (headers.flatMap wholeHeader ++
      [.headersComplete method httpMajor httpMinor])).mKeepAlive =
      requestReader.read headers := by
  rw [parsed, feed_append]
  exact mKeepAlive_wholeHeaders headers (create init)

end HttpRequestParser

namespace HttpResponseParser

variable {σ : Type*}

theorem mKeepAlive_headerEvents (headers : List (Bytes × Bytes)) :
    ∀ p : HttpResponseParser σ, (p.feed (headers.flatMap headerEvents)).mData.mKeepAlive =
      headers.foldl responseReader.readHeader p.mData.mKeepAlive := by
  induction headers with
  | nil =>
    intro p
    rfl
  | cons h headers ih =>
    intro p
    rw [List.flatMap_cons, feed_append, ih, List.foldl_cons, feed_headerEvents]
    simp only [ConnectionReader.readHeader, responseReader, decide_eq_true_eq]
    split_ifs with hname hclose
    · rw [decide_eq_true hclose]
      rfl
    · rw [decide_eq_false hclose]
      rfl
    · rfl

/-- The flag of the response that a fresh parser builds from some headers. -/
def flagAfter (init : σ) (headers : List (Bytes × Bytes)) : Bool :=
  ((create init).feed (headers.flatMap headerEvents)).mData.mKeepAlive

theorem flagAfter_eq (init : σ) : flagAfter init = responseReader.read :=
  funext fun headers => mKeepAlive_headerEvents headers (create init)

/-- The end of the header block leaves the flag alone. -/
theorem mKeepAlive_block (init : σ) (headers : List (Bytes × Bytes))
    (httpMajor httpMinor statusCode : ℕ) (state : BitVec 7) :
    ((create init).feed (headers.flatMap headerEvents ++
      [.headersComplete httpMajor httpMinor statusCode state])).mData.mKeepAlive =
      responseReader.read headers := by
  rw [feed_append]
  exact mKeepAlive_headerEvents headers (create init)

end HttpResponseParser

/-! ### The decision -/

open ConnectionReader

/-- **The flags follow the Connection headers exactly if** the last header that the parser
takes for a Connection header says `close` where the connection ends, and no header that it
takes for one by mistake says anything else than those before it. -/
theorem keepAlive_follows_iff {σ σ' : Type*} (init : σ) (init' : σ')
    (headers : List (Bytes × Bytes)) (method : HttpMethod) (statusCode : ℕ) (state : BitVec 7)
    (httpMajor httpMinor : ℕ) :
    (Follows (HttpRequestParser.flagAfter init)
        (HttpRequestParser.parsed init (headers.flatMap HttpRequestParser.wholeHeader ++
          [.headersComplete method httpMajor httpMinor])).mKeepAlive
        headers (Ends headers httpMajor httpMinor) ∧
      Follows (HttpResponseParser.flagAfter init')
        ((HttpResponseParser.create init').feed
          (headers.flatMap HttpResponseParser.headerEvents ++
            [.headersComplete httpMajor httpMinor statusCode state])).mData.mKeepAlive
        headers (Ends headers httpMajor httpMinor)) ↔
      requestReader.Agrees headers (Ends headers httpMajor httpMinor) ∧
        responseReader.Agrees headers (Ends headers httpMajor httpMinor) := by
  rw [HttpRequestParser.flagAfter_eq, HttpRequestParser.mKeepAlive_block,
    HttpResponseParser.flagAfter_eq, HttpResponseParser.mKeepAlive_block]
  exact and_congr (follows_iff_agrees _) (follows_iff_agrees _)

/-- **Behind another token neither parser finds `close`**, and `http_should_keep_alive`
does. -/
theorem not_follows_list :
    let headers := [(bytes "Connection", bytes "te, close")]
    shouldKeepAlive headers 1 1 = false ∧
      ¬ Follows (HttpRequestParser.flagAfter ())
        (HttpRequestParser.parsed () (headers.flatMap HttpRequestParser.wholeHeader ++
          [.headersComplete .get 1 1])).mKeepAlive headers (Ends headers 1 1) ∧
      ¬ Follows (HttpResponseParser.flagAfter ())
        ((HttpResponseParser.create ()).feed (headers.flatMap HttpResponseParser.headerEvents ++
          [.headersComplete 1 1 200 60])).mData.mKeepAlive headers (Ends headers 1 1) := by
  refine ⟨by decide, fun h => ?_, fun h => ?_⟩
  · exact absurd (h.ends (by decide)) (by decide)
  · exact absurd (h.ends (by decide)) (by decide)

-- any name that begins with `connection` is taken for it in a response
example : HttpResponseParser.flagAfter () [(bytes "connection-id", bytes "7")] = true := by decide

end Server
