/-
Cut data.

`http_parser` may report one datum (the URL, a header name, a header value, a
body) by several callbacks in a row, one for each fragment.  `setBody` appends
what it is given; the other callbacks overwrite, so that of a cut datum the last
fragment is left.

* `feed_overwritten` — the callbacks for a cut message leave the parser as those
  for the last fragments alone do;
* `mHeaders_feed` — the header map that a cut message leaves;
* `sameRequest_iff` — the request does not depend on the cuts exactly when the
  last fragment of each URL, header name and header value is the whole datum.
-/
import AsyncServer.HttpParser

namespace Server

open CString

namespace RequestMessage

/-- The last fragment of a datum, if there is one. -/
def lastOnly (d : List Bytes) : List Bytes := d.getLast?.toList

/-- A header without its fragments before the last. -/
def lastOfHeader (h : List Bytes × List Bytes) : List Bytes × List Bytes :=
  Prod.map lastOnly lastOnly h

/-- The message with the last fragments only; the parts of the body in one piece
each. -/
def overwritten (c : RequestMessage (List Bytes)) : RequestMessage (List Bytes) :=
  { c with
    url := lastOnly c.url
    headers := c.headers.map lastOfHeader
    body := c.body.map fun d => [d.flatten]
    trailers := c.trailers.map lastOfHeader }

/-- The headers and the trailers. -/
def allHeaders {δ : Type*} (m : RequestMessage δ) : List (δ × δ) := m.headers ++ m.trailers

/-- The last fragment of the URL and of each header name and value is all of it:
the fragments before are empty. -/
structure LastWhole (c : RequestMessage (List Bytes)) : Prop where
  url : c.url.getLast? = some c.url.flatten
  headers : ∀ h ∈ c.allHeaders,
    h.1.getLast? = some h.1.flatten ∧ h.2.getLast? = some h.2.flatten

/-- No header name is empty, and no two are equal up to the case of letters. -/
structure DistinctNames (m : RequestMessage Bytes) : Prop where
  nonempty : ∀ h ∈ m.allHeaders, h.1 ≠ []
  distinct : m.allHeaders.Pairwise fun a b => strcasecmp a.1 b.1 ≠ .eq

end RequestMessage

open RequestMessage

/-- Two requests agree in path, headers, keep-alive flag and body. -/
structure SameRequest (r r' : HttpRequest) : Prop where
  path : r.mPath = r'.mPath
  headers : r.mHeaders = r'.mHeaders
  keepAlive : r.mKeepAlive = r'.mKeepAlive
  body : r.mBody = r'.mBody

namespace HttpRequestParser

variable {σ : Type*} {p : HttpRequestParser σ}

/-! ### The last fragment counts -/

/-- A callback that undoes what a call before it did leaves only the last of
several calls. -/
theorem feed_map_lastOnly {k : Bytes → ParserEvent}
    (hk : ∀ (p : HttpRequestParser σ) (s t : Bytes),
      (p.callback (k s)).callback (k t) = p.callback (k t)) :
    ∀ {d : List Bytes} {p : HttpRequestParser σ},
      p.feed (d.map k) = p.feed ((lastOnly d).map k) := by
  intro d
  induction d with
  | nil =>
    intro p
    rfl
  | cons s d ih =>
    intro p
    rw [List.map_cons, feed_cons, ih]
    cases d with
    | nil => rfl
    | cons t d =>
      -- the last fragment is in the tail, and undoes what `s` did
      obtain ⟨x, hx⟩ : ∃ x, (t :: d).getLast? = some x :=
        ⟨_, List.getLast?_eq_some_getLast (List.cons_ne_nil t d)⟩
      rw [lastOnly, lastOnly, List.getLast?_cons_cons, hx]
      exact hk p s x

theorem callback_url_url (p : HttpRequestParser σ) (s t : Bytes) :
    (p.callback (.url s)).callback (.url t) = p.callback (.url t) := rfl

theorem callback_headerField_headerField (p : HttpRequestParser σ) (s t : Bytes) :
    (p.callback (.headerField s)).callback (.headerField t) = p.callback (.headerField t) := rfl

theorem callback_headerValue_headerValue (p : HttpRequestParser σ) (s t : Bytes) :
    (p.callback (.headerValue s)).callback (.headerValue t) = p.callback (.headerValue t) := by
  -- both calls are made under the same name
  by_cases hkey : strcasecmp p.mData.mTmpHeader (bytes "connection") = .eq
  · simp [callback, requestHeaderValueCallback, HttpRequest.setKeepAlive, HttpRequest.addHeader,
      hkey]
  · simp [callback, requestHeaderValueCallback, HttpRequest.addHeader, hkey]

theorem feed_body : ∀ {d : List Bytes} {p : HttpRequestParser σ},
    p.feed (d.map .body) = p.callback (.body d.flatten) := by
  intro d
  induction d with
  | nil =>
    intro p
    simp [callback, requestBodyCallback, HttpRequest.setBody]
  | cons s d ih =>
    intro p
    rw [List.map_cons, feed_cons, ih]
    simp [callback, requestBodyCallback, HttpRequest.setBody]

theorem feed_headerEvents (h : List Bytes × List Bytes) :
    p.feed (headerEvents h) = p.feed (headerEvents (lastOfHeader h)) := by
  rw [headerEvents, feed_append, feed_map_lastOnly callback_headerField_headerField,
    feed_map_lastOnly callback_headerValue_headerValue, ← feed_append]
  rfl

theorem feed_flatMap {α β : Type*} {f : α → List ParserEvent} {g : β → List ParserEvent}
    {t : α → β} (h : ∀ (p : HttpRequestParser σ) a, p.feed (f a) = p.feed (g (t a))) :
    ∀ {l : List α} {p : HttpRequestParser σ}, p.feed (l.flatMap f) = p.feed ((l.map t).flatMap g) := by
  intro l
  induction l with
  | nil =>
    intro p
    rfl
  | cons a l ih =>
    intro p
    rw [List.map_cons, List.flatMap_cons, List.flatMap_cons, feed_append, feed_append, h, ih]

theorem feed_headers (l : List (List Bytes × List Bytes)) :
    p.feed (l.flatMap headerEvents) = p.feed ((l.map lastOfHeader).flatMap headerEvents) :=
  feed_flatMap fun _ h => feed_headerEvents h

theorem feed_bodies (l : List (List Bytes)) :
    p.feed (l.flatMap fun d => d.map .body) =
      p.feed ((l.map fun d => [d.flatten]).flatMap fun d => d.map .body) :=
  feed_flatMap fun _ _ => feed_body

/-- **Of each datum but the body the last fragment is left.** -/
theorem feed_overwritten (c : RequestMessage (List Bytes)) :
    p.feed c.events = p.feed c.overwritten.events := by
  -- group by group; the end of the headers and of the message are in one piece anyway
  simp only [events, feed_append, overwritten]
  rw [feed_map_lastOnly callback_url_url, feed_headers c.headers, feed_bodies,
    feed_headers c.trailers]

theorem overwritten_of_lastWhole {c : RequestMessage (List Bytes)} (hc : c.LastWhole) :
    c.overwritten = c.joined.unfragmented := by
  have hlast : ∀ d : List Bytes, d.getLast? = some d.flatten → lastOnly d = [d.flatten] := by
    intro d hd
    rw [lastOnly, hd]
    rfl
  have hheaders : ∀ l : List (List Bytes × List Bytes), (∀ h ∈ l, h ∈ c.allHeaders) →
      l.map lastOfHeader =
        (l.map (Prod.map List.flatten List.flatten)).map (Prod.map (fun d => [d]) fun d => [d]) := by
    intro l hl
    rw [List.map_map]
    refine List.map_congr_left fun h hh => ?_
    obtain ⟨hname, hval⟩ := hc.headers h (hl h hh)
    exact Prod.ext (hlast _ hname) (hlast _ hval)
  have hbody : c.body.map (fun d => [d.flatten]) = (c.body.map List.flatten).map fun d => [d] := by
    rw [List.map_map]
    rfl
  simp only [overwritten, unfragmented, joined, RequestMessage.map]
  rw [hlast _ hc.url, hbody, hheaders c.headers fun h hh => List.mem_append_left _ hh,
    hheaders c.trailers fun h hh => List.mem_append_right _ hh]

/-! ### What a cut message leaves -/

/-- A part of the parser that no callback of the list writes. -/
theorem feed_frame {α : Type*} {f : HttpRequestParser σ → α} {es : List ParserEvent}
    (h : ∀ e ∈ es, ∀ p : HttpRequestParser σ, f (p.callback e) = f p) :
    ∀ {p : HttpRequestParser σ}, f (p.feed es) = f p := by
  induction es with
  | nil =>
    intro p
    rfl
  | cons e es ih =>
    intro p
    rw [feed_cons, ih fun e' he' => h e' (List.mem_cons_of_mem e he')]
    exact h e List.mem_cons_self p

/-- Only `on_url` writes the path. -/
theorem mPath_feed_of_notMem {es : List ParserEvent} (h : ∀ s, .url s ∉ es) :
    (p.feed es).mData.mPath = p.mData.mPath := by
  refine feed_frame (f := fun q : HttpRequestParser σ => q.mData.mPath) fun e he q => ?_
  cases e with
  | url s => exact absurd he (h s)
  | headerValue s =>
    simp only [callback, requestHeaderValueCallback]
    split <;> rfl
  | _ => rfl

/-- Only `on_header_value` writes headers. -/
theorem mHeaders_feed_of_notMem (es : List ParserEvent) (h : ∀ s, .headerValue s ∉ es) :
    (p.feed es).mData.mHeaders = p.mData.mHeaders := by
  refine feed_frame (f := fun q : HttpRequestParser σ => q.mData.mHeaders) fun e he q => ?_
  cases e with
  | headerValue s => exact absurd he (h s)
  | _ => rfl

theorem mPath_feed (c : RequestMessage (List Bytes)) :
    (p.feed c.events).mData.mPath = c.url.getLast?.getD p.mData.mPath := by
  have hurl : (p.feed (c.url.map .url)).mData.mPath = c.url.getLast?.getD p.mData.mPath := by
    rw [feed_map_lastOnly callback_url_url, lastOnly]
    cases c.url.getLast? <;> rfl
  rw [events, List.append_assoc, List.append_assoc, List.append_assoc, List.append_assoc,
    feed_append, mPath_feed_of_notMem (fun s => by simp [headerEvents]), hurl]

/-- What a header leaves in the map: its last value fragment under its last name
fragment. -/
def kept (h : List Bytes × List Bytes) : List (Bytes × Bytes) :=
  h.2.getLast?.toList.map fun v => (h.1.getLast?.getD [], v)

theorem mHeaders_callback_headerValue (s : Bytes) :
    (p.callback (.headerValue s)).mData.mHeaders =
      p.mData.mHeaders.assign p.mData.mTmpHeader s := by
  simp only [callback, requestHeaderValueCallback, HttpRequest.addHeader]
  split <;> rfl

theorem mHeaders_feed_headerEvents {h : List Bytes × List Bytes} (hname : h.1 ≠ []) :
    (p.feed (headerEvents h)).mData.mHeaders = p.mData.mHeaders.fill (kept h) := by
  obtain ⟨n, hn⟩ : ∃ n, h.1.getLast? = some n := ⟨_, List.getLast?_eq_some_getLast hname⟩
  rw [feed_headerEvents, headerEvents, lastOfHeader, Prod.map_fst, Prod.map_snd, lastOnly, lastOnly,
    kept, hn]
  cases h.2.getLast? with
  | none => rfl
  | some v => exact mHeaders_callback_headerValue v

theorem mHeaders_feed_headers {l : List (List Bytes × List Bytes)} (hl : ∀ h ∈ l, h.1 ≠ []) :
    ∀ {p : HttpRequestParser σ}, (p.feed (l.flatMap headerEvents)).mData.mHeaders =
      p.mData.mHeaders.fill (l.flatMap kept) := by
  induction l with
  | nil =>
    intro p
    rfl
  | cons h l ih =>
    intro p
    rw [List.flatMap_cons, List.flatMap_cons, feed_append,
      ih fun h' hh' => hl h' (List.mem_cons_of_mem h hh'),
      mHeaders_feed_headerEvents (hl h List.mem_cons_self), OrderedMap.fill_append]

/-- **The header map that a cut message leaves.** -/
theorem mHeaders_feed {c : RequestMessage (List Bytes)} (hc : ∀ h ∈ c.allHeaders, h.1 ≠ []) :
    (p.feed c.events).mData.mHeaders = p.mData.mHeaders.fill (c.allHeaders.flatMap kept) := by
  -- two of the groups write headers, and their entries come one after the other
  simp only [events, feed_append]
  rw [mHeaders_feed_of_notMem [.messageComplete] (fun s => by simp),
    mHeaders_feed_headers fun h hh => hc h (List.mem_append_right _ hh),
    mHeaders_feed_of_notMem (c.body.flatMap fun d => d.map .body) (fun s => by simp),
    mHeaders_feed_of_notMem [.headersComplete _ _ _] (fun s => by simp),
    mHeaders_feed_headers fun h hh => hc h (List.mem_append_left _ hh),
    mHeaders_feed_of_notMem (c.url.map .url) (fun s => by simp), allHeaders,
    List.flatMap_append, OrderedMap.fill_append]

/-! ### The converse -/

/-- A sum of smaller terms is smaller unless the terms are equal. -/
theorem eq_of_sum_le {α : Type*} {f g : α → ℕ} {l : List α} (hle : ∀ x ∈ l, f x ≤ g x)
    (hsum : (l.map g).sum ≤ (l.map f).sum) : ∀ x ∈ l, f x = g x := by
  induction l with
  | nil =>
    intro x hx
    exact absurd hx List.not_mem_nil
  | cons a l ih =>
    have hl : (l.map f).sum ≤ (l.map g).sum :=
      List.sum_le_sum fun x hx => hle x (List.mem_cons_of_mem a hx)
    have ha := hle a List.mem_cons_self
    rw [List.map_cons, List.map_cons, List.sum_cons, List.sum_cons] at hsum
    -- no term is larger on the left, so there is no room for a smaller one either
    intro x hx
    rcases List.mem_cons.mp hx with rfl | hx
    · omega
    · exact ih (fun y hy => hle y (List.mem_cons_of_mem a hy)) (by omega) x hx

/-- The number of bytes in names and values. -/
def bytesIn (l : List (Bytes × Bytes)) : ℕ := (l.map fun h => h.1.length + h.2.length).sum

theorem getLast_suffix {d : List Bytes} {x : Bytes} (h : d.getLast? = some x) :
    x <:+ d.flatten := by
  obtain ⟨l, rfl⟩ := List.getLast?_eq_some_iff.mp h
  rw [List.flatten_append, List.flatten_singleton]
  exact List.suffix_append _ _

/-- A header leaves no more bytes than it has, and as many only if its last
fragments are whole. -/
theorem bytesIn_kept_le {h : List Bytes × List Bytes} (hname : h.1.flatten ≠ []) :
    bytesIn (kept h) ≤ h.1.flatten.length + h.2.flatten.length ∧
      (bytesIn (kept h) = h.1.flatten.length + h.2.flatten.length →
        h.1.getLast? = some h.1.flatten ∧ h.2.getLast? = some h.2.flatten) := by
  have hne : h.1 ≠ [] := by
    intro h0
    rw [h0] at hname
    exact hname rfl
  obtain ⟨n, hn⟩ : ∃ n, h.1.getLast? = some n := ⟨_, List.getLast?_eq_some_getLast hne⟩
  have hnle := (getLast_suffix hn).length_le
  rw [kept, hn]
  cases hv : h.2.getLast? with
  | none =>
    -- the value callback is never made, and the name is lost
    have hpos := List.length_pos_iff.mpr hname
    refine ⟨Nat.zero_le _, fun heq => absurd heq ?_⟩
    show 0 ≠ h.1.flatten.length + h.2.flatten.length
    omega
  | some v =>
    have hvle := (getLast_suffix hv).length_le
    have hkept : bytesIn ((some v).toList.map fun v => ((some n).getD [], v)) =
        n.length + v.length := by simp [bytesIn]
    rw [hkept]
    refine ⟨by omega, fun heq => ⟨?_, ?_⟩⟩
    · rw [(getLast_suffix hn).eq_of_length (by omega)]
    · rw [(getLast_suffix hv).eq_of_length (by omega)]

theorem bytesIn_flatMap_kept (l : List (List Bytes × List Bytes)) :
    bytesIn (l.flatMap kept) = (l.map fun h => bytesIn (kept h)).sum := by
  induction l with
  | nil => rfl
  | cons h l ih =>
    rw [List.flatMap_cons, bytesIn, List.map_append, List.sum_append, List.map_cons, List.sum_cons,
      ← ih]
    rfl

theorem length_flatMap_kept_le (l : List (List Bytes × List Bytes)) :
    (l.flatMap kept).length ≤ l.length := by
  induction l with
  | nil => exact le_rfl
  | cons h l ih =>
    have hone : (kept h).length ≤ 1 := by
      rw [kept, List.length_map]
      cases h.2.getLast? <;> simp
    rw [List.flatMap_cons, List.length_append, List.length_cons]
    omega

theorem allHeaders_joined (c : RequestMessage (List Bytes)) :
    c.joined.allHeaders = c.allHeaders.map (Prod.map List.flatten List.flatten) :=
  (List.map_append ..).symm

theorem allHeaders_unfragmented (m : RequestMessage Bytes) :
    m.unfragmented.allHeaders = m.allHeaders.map (Prod.map (fun d => [d]) fun d => [d]) :=
  (List.map_append ..).symm

theorem flatMap_kept_unfragmented (m : RequestMessage Bytes) :
    m.unfragmented.allHeaders.flatMap kept = m.allHeaders := by
  rw [allHeaders_unfragmented, List.flatMap_map]
  exact List.flatMap_pure_eq_map (fun h => h) m.allHeaders |>.trans (List.map_id _)

theorem name_ne_nil_unfragmented (m : RequestMessage Bytes) :
    ∀ h ∈ m.unfragmented.allHeaders, h.1 ≠ [] := by
  intro h hh
  rw [allHeaders_unfragmented] at hh
  obtain ⟨h₀, -, rfl⟩ := List.mem_map.mp hh
  exact List.cons_ne_nil _ _

/-- What a message with different header names is stored as. -/
theorem fill_allHeaders_perm {m : RequestMessage Bytes} (hm : m.DistinctNames) :
    ((OrderedMap.empty : MSS).fill m.allHeaders).entries.Perm m.allHeaders := by
  have hdistinct := hm.distinct.imp fun h => caseInsensitiveLess_or_iff.mpr h
  have hperm := OrderedMap.fill_perm_of_distinct hdistinct (m := OrderedMap.empty)
    fun a _ e he => absurd he List.not_mem_nil
  exact hperm.trans (List.append_nil _ ▸ List.Perm.refl _)

/-- **The converse**: a request that comes out as the unfragmented one has lost
no fragment, if no header could be stored in the place of another. -/
theorem lastWhole_of_sameRequest {init : σ} {c : RequestMessage (List Bytes)}
    (hc : c.joined.DistinctNames)
    (hsame : SameRequest (parsed init c.events) (parsed init c.joined.unfragmented.events)) :
    c.LastWhole := by
  have hnames : ∀ h ∈ c.allHeaders, h.1.flatten ≠ [] := by
    intro h hh
    refine hc.nonempty (Prod.map List.flatten List.flatten h) ?_
    rw [allHeaders_joined]
    exact List.mem_map_of_mem hh
  have hne : ∀ h ∈ c.allHeaders, h.1 ≠ [] := by
    intro h hh h0
    exact hnames h hh (by rw [h0]; rfl)
  constructor
  · have hpath : c.url.getLast?.getD (bytes "/") = c.url.flatten := by
      have h := hsame.path
      rw [parsed, parsed, mPath_feed, mPath_feed] at h
      exact h
    cases hu : c.url.getLast? with
    | none =>
      -- a URL without a callback leaves the path of the constructor
      rw [hu, List.getLast?_eq_none_iff.mp hu] at hpath
      exact absurd hpath (by decide)
    | some u =>
      rw [hu] at hpath
      exact congrArg some hpath
  · have hstored : (OrderedMap.empty : MSS).fill (c.allHeaders.flatMap kept) =
        OrderedMap.empty.fill c.joined.allHeaders := by
      have h := hsame.headers
      rw [parsed, parsed, mHeaders_feed hne, mHeaders_feed (name_ne_nil_unfragmented _),
        flatMap_kept_unfragmented] at h
      exact h
    have hwhole := fill_allHeaders_perm hc
    have hcount := length_flatMap_kept_le c.allHeaders
    -- as many entries as headers: each header has left one of its own
    have hkept := OrderedMap.fill_perm_of_length (m := (OrderedMap.empty : MSS))
      (l := c.allHeaders.flatMap kept) (by
        rw [hstored, hwhole.length_eq, allHeaders_joined, List.length_map]
        exact (Nat.zero_add _).le.trans hcount)
    rw [hstored] at hkept
    have hperm : (c.allHeaders.flatMap kept).Perm c.joined.allHeaders := by
      have h := hkept.symm.trans hwhole
      rwa [show (OrderedMap.empty : MSS).entries = [] from rfl, List.append_nil] at h
    have hbytes : bytesIn (c.allHeaders.flatMap kept) = bytesIn c.joined.allHeaders :=
      (hperm.map _).sum_eq
    rw [bytesIn_flatMap_kept, allHeaders_joined, bytesIn, List.map_map] at hbytes
    intro h hh
    exact (bytesIn_kept_le (hnames h hh)).2
      (eq_of_sum_le (fun x hx => (bytesIn_kept_le (hnames x hx)).1) hbytes.ge h hh)

/-- **The request does not depend on the cuts exactly when no fragment but the
last holds anything**, the body apart, which may be cut anywhere.  For the
converse the header names have to be different, so that a lost fragment is not
hidden by a later header. -/
theorem sameRequest_iff (init : σ) (c : RequestMessage (List Bytes)) :
    (c.LastWhole → SameRequest (parsed init c.events) (parsed init c.joined.unfragmented.events)) ∧
    (c.joined.DistinctNames →
      (SameRequest (parsed init c.events) (parsed init c.joined.unfragmented.events) ↔
        c.LastWhole)) := by
  have hsame : c.LastWhole →
      SameRequest (parsed init c.events) (parsed init c.joined.unfragmented.events) := by
    intro hc
    rw [parsed, feed_overwritten, overwritten_of_lastWhole hc]
    exact ⟨rfl, rfl, rfl, rfl⟩
  exact ⟨hsame, fun hc => ⟨lastWhole_of_sameRequest hc, hsame⟩⟩

/-- A request whose body comes in two pieces, with an empty fragment before the
URL. -/
theorem sameRequest_body_in_two : SameRequest
    (parsed () (⟨[[], bytes "/index"], [([bytes "Host"], [bytes "a"])], .post, 1, 1,
      [[bytes "abc", bytes "def"]], []⟩ : RequestMessage (List Bytes)).events)
    (parsed () (⟨[bytes "/index"], [([bytes "Host"], [bytes "a"])], .post, 1, 1,
      [[bytes "abcdef"]], []⟩ : RequestMessage (List Bytes)).events) :=
  ((sameRequest_iff () ⟨[[], bytes "/index"], [([bytes "Host"], [bytes "a"])], .post, 1, 1,
    [[bytes "abc", bytes "def"]], []⟩).2 ⟨by decide, by decide⟩).mpr ⟨by decide, by decide⟩

/-- **The request of the parser's own test loses its path**: the first piece of
input ends behind the URL, which is therefore reported as `/` and, when the next
piece comes, as an empty rest. -/
theorem path_lost_at_cut :
    (parsed () (⟨[bytes "/", []], [([bytes "Content-Length"], [bytes "6"])], .post, 1, 1,
      [[bytes "abc", bytes "abc"]], []⟩ : RequestMessage (List Bytes)).events).mPath = [] ∧
    ¬ SameRequest
      (parsed () (⟨[bytes "/", []], [([bytes "Content-Length"], [bytes "6"])], .post, 1, 1,
        [[bytes "abc", bytes "abc"]], []⟩ : RequestMessage (List Bytes)).events)
      (parsed () (⟨[bytes "/"], [([bytes "Content-Length"], [bytes "6"])], .post, 1, 1,
        [[bytes "abcabc"]], []⟩ : RequestMessage (List Bytes)).events) := by
  refine ⟨by decide, fun h => ?_⟩
  exact absurd h.path (by decide)

end HttpRequestParser

end Server
