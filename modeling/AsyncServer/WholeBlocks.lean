/-
Requests in one block.

* `length_eq_one` — lists of which none is empty, and no more elements than lists;
* `execute_requests` — of a block that is made of whole requests, every datum is reported in
  one piece, and the requests one after the other.
-/
import AsyncServer.ParserMessages
import AsyncServer.ParserCuts
import AsyncServer.RequestRoundTrip

namespace Server

open CString Pieces RequestMessage

namespace ParserLib

variable {P P' : Parser} {bs w url : Bytes} {out out' : Stream} {es : List Event}
variable {m : HttpMethod} {lines : List (Bytes × Bytes)} {content : Bytes} {major minor : ℕ}
variable {r : RequestMessage Bytes} {ms ms' : List (RequestMessage Bytes)} {keeps : Bool}

/-! ### Callbacks with data -/

/-- A callback with data, as the request parser sees it. -/
def bringsData : ParserEvent → Bool
  | .url _ | .headerField _ | .headerValue _ | .body _ => true
  | _ => false

theorem countP_requestEvents_le (es : List Event) :
    (requestEvents es).countP bringsData ≤ portions es := by
  rw [requestEvents, List.countP_filterMap, portions]
  refine List.countP_mono_left fun e _ he => ?_
  cases e with
  | data d x => rfl
  | notify n => cases n <;> simp [Event.toRequest, bringsData] at he
  | headersComplete m i j k s => simp [Event.toRequest, bringsData] at he

theorem countP_flatMap_headerEvents (hs : List (List Bytes × List Bytes)) :
    (hs.flatMap headerEvents).countP bringsData =
      (hs.flatMap fun h => [h.1, h.2]).flatten.length := by
  induction hs with
  | nil => rfl
  | cons h hs ih =>
    rw [List.flatMap_cons, List.flatMap_cons, List.countP_append, ih, headerEvents]
    simp [List.countP_map, Function.comp_def, bringsData]
    omega

theorem countP_events (c : RequestMessage (List Bytes)) :
    (events c).countP bringsData = (parts c).flatten.length := by
  have hbody : (c.body.flatMap fun d => d.map ParserEvent.body).countP bringsData =
      c.body.flatten.length := by
    induction c.body with
    | nil => rfl
    | cons d ds ih =>
      rw [List.flatMap_cons, List.countP_append, ih, List.flatten_cons, List.length_append]
      simp [List.countP_map, Function.comp_def, bringsData]
  simp only [events, List.countP_append, countP_flatMap_headerEvents, hbody, parts,
    List.flatten_append, List.flatten_cons, List.length_append]
  simp [List.countP_map, Function.comp_def, bringsData]

/-- As many pieces as lists of them, and no list is empty. -/
theorem length_eq_one {α : Type*} (ds : List (List α)) (hne : ∀ d ∈ ds, d ≠ [])
    (hle : ds.flatten.length ≤ ds.length) : ∀ d ∈ ds, d.length = 1 := by
  have hge : ∀ {ds : List (List α)}, (∀ d ∈ ds, d ≠ []) → ds.length ≤ ds.flatten.length := by
    intro ds hds
    induction ds with
    | nil => exact Nat.le_refl _
    | cons d ds ih =>
      obtain ⟨hd, hds⟩ := List.forall_mem_cons.mp hds
      have := List.length_pos_iff.mpr hd
      have := ih hds
      rw [List.flatten_cons, List.length_append, List.length_cons]
      omega
  induction ds with
  | nil => exact fun _ hd => absurd hd List.not_mem_nil
  | cons d ds ih =>
    obtain ⟨hd, hds⟩ := List.forall_mem_cons.mp hne
    rw [List.flatten_cons, List.length_append, List.length_cons] at hle
    have hpos := List.length_pos_iff.mpr hd
    have hrest := hge hds
    exact List.forall_mem_cons.mpr ⟨by omega, ih hds (by omega)⟩

theorem eq_unfragmented {c : RequestMessage (List Bytes)} (h : ∀ d ∈ parts c, d.length = 1) :
    c = c.joined.unfragmented := by
  have hone : ∀ d ∈ parts c, [d.flatten] = d := by
    intro d hd
    obtain ⟨x, rfl⟩ := List.length_eq_one_iff.mp (h d hd)
    simp
  simp only [parts, List.cons_append, List.mem_cons, List.mem_append, List.mem_flatMap,
    List.not_mem_nil, or_false] at hone
  have hheaders : ∀ {hs : List (List Bytes × List Bytes)},
      (∀ l ∈ hs, [l.1.flatten] = l.1 ∧ [l.2.flatten] = l.2) →
      (hs.map (Prod.map List.flatten List.flatten)).map (Prod.map (fun d => [d]) fun d => [d]) =
        hs := by
    intro hs hhs
    rw [List.map_map]
    refine (List.map_congr_left fun l hl => ?_).trans (List.map_id hs)
    exact Prod.ext (hhs l hl).1 (hhs l hl).2
  have hbody : (c.body.map List.flatten).map (fun d => [d]) = c.body := by
    rw [List.map_map]
    refine (List.map_congr_left fun d hd => ?_).trans (List.map_id _)
    exact hone d (.inr (.inl (.inr hd)))
  obtain ⟨url, headers, m, major, minor, body, trailers⟩ := c
  simp only [joined, unfragmented, RequestMessage.map, RequestMessage.mk.injEq, true_and]
    at hone hbody ⊢
  refine ⟨(hone url (.inl rfl)).symm, (hheaders fun l hl => ?_).symm, hbody.symm,
    (hheaders fun l hl => ?_).symm⟩
  · exact ⟨hone _ (.inr (.inl (.inl ⟨l, hl, .inl rfl⟩))),
      hone _ (.inr (.inl (.inl ⟨l, hl, .inr rfl⟩)))⟩
  · exact ⟨hone _ (.inr (.inr ⟨l, hl, .inl rfl⟩)), hone _ (.inr (.inr ⟨l, hl, .inr rfl⟩))⟩

theorem cuts_lines : cuts (lines.flatMap (lineStream requestSettings)) = 2 * lines.length := by
  induction lines with
  | nil => rfl
  | cons l lines ih =>
    have hline : cuts (lineStream requestSettings l) = 2 := by
      rw [lineStream, cuts_append, whole, whole, cuts_whole, cuts_whole]
      rfl
    rw [List.flatMap_cons, cuts_append, ih, hline, List.length_cons]
    omega

theorem cuts_requestStream {status : ℕ} :
    cuts (requestStream requestSettings m url major minor status lines content) =
      1 + 2 * lines.length + if content = [] then 0 else 1 := by
  have hcontent : cuts (if content = [] then [] else whole requestSettings .body content) =
      if content = [] then 0 else 1 := by
    split_ifs
    · rfl
    · rw [whole, cuts_whole]
      rfl
  have hurl : cuts (whole requestSettings .url url) = 1 := cuts_whole url
  simp only [requestStream, cuts_append, cuts_lines, hcontent, hurl]
  show 0 + 1 + 2 * lines.length + 0 + _ + 0 = _
  omega

/-- The number of data of a message. -/
def dataCount (r : RequestMessage Bytes) : ℕ :=
  1 + 2 * (r.headers.length + r.trailers.length) + r.body.length

theorem length_parts (c : RequestMessage (List Bytes)) : (parts c).length = dataCount c.joined := by
  have hpairs : ∀ hs : List (List Bytes × List Bytes),
      (hs.flatMap fun h => [h.1, h.2]).length = 2 * hs.length := fun hs => by
    simp [List.length_flatMap, Nat.mul_comm]
  simp only [parts, List.length_append, List.length_cons, hpairs, dataCount, joined,
    RequestMessage.map, List.length_map]
  omega

/-! ### Streams of whole requests -/

/-- A stream is that of these messages, each datum of which ends once. -/
structure Reports (out : Stream) (ms : List (RequestMessage Bytes)) : Prop where
  events : ∀ es rest, join (stream es) = join (erase out ++ rest) →
    ∃ (cs : List (RequestMessage (List Bytes))) (es₁ es' : List Event), es = es₁ ++ es' ∧
      requestEvents es₁ = cs.flatMap RequestMessage.events ∧ cs.map joined = ms ∧
      (∀ c ∈ cs, ∀ d ∈ parts c, d ≠ []) ∧ join (stream es') = join rest
  ends : cuts out = (ms.map dataCount).sum

theorem Reports.append (h : Reports out ms) (h' : Reports out' ms') :
    Reports (out ++ out') (ms ++ ms') := by
  constructor
  · intro es rest hes
    rw [erase_append, List.append_assoc] at hes
    obtain ⟨cs, es₁, es', rfl, hevents, hcs, hne, hrest⟩ := h.events es _ hes
    obtain ⟨cs', es₂, es'', rfl, hevents', hcs', hne', hrest'⟩ := h'.events es' _ hrest
    refine ⟨cs ++ cs', es₁ ++ es₂, es'', (List.append_assoc ..).symm, ?_, ?_, ?_, hrest'⟩
    · rw [requestEvents_append, hevents, hevents', List.flatMap_append]
    · rw [List.map_append, hcs, hcs']
    · exact fun c hc => (List.mem_append.mp hc).elim (hne c) (hne' c)
  · rw [cuts_append, h.ends, h'.ends, List.map_append, List.sum_append]

theorem Reports.congr (h : Reports out ms) (hjoin : join out = join out') : Reports out' ms := by
  refine ⟨fun es rest hes => h.events es rest ?_, (cuts_congr hjoin).symm.trans h.ends⟩
  rw [hes]
  exact join_append_congr (erase_congr hjoin.symm)

theorem reports_requestStream {status : ℕ} :
    Reports (requestStream requestSettings m url major minor status lines content)
      [requestMessage m url major minor lines content] := by
  constructor
  · intro es rest hes
    obtain ⟨c, es₁, es', hsplit, hevents, hc, hne, hrest⟩ := events_of_requestStream hes
    refine ⟨[c], es₁, es', hsplit, ?_, by rw [List.map_cons, hc]; rfl, ?_, hrest⟩
    · rw [hevents, List.flatMap_cons, List.flatMap_nil, List.append_nil]
    · exact fun c' hc' => List.mem_singleton.mp hc' ▸ hne
  · rw [cuts_requestStream]
    by_cases hcontent : content = [] <;> simp [hcontent, dataCount, requestMessage]

/-- **As few callbacks as data**: every datum is reported in one piece. -/
theorem Reports.unfragmented (h : Reports out ms) (hes : join (stream es) = join (erase out))
    (hle : portions es ≤ cuts out) :
    requestEvents es = (ms.map RequestMessage.unfragmented).flatMap RequestMessage.events := by
  obtain ⟨cs, es₁, es', rfl, hevents, hcs, hne, hrest⟩ := h.events es []
    (hes.trans (congrArg join (List.append_nil _).symm))
  -- nothing follows the messages
  obtain rfl : es' = [] := List.map_eq_nil_iff.mp (join_eq_nil hrest)
  rw [List.append_nil] at hle ⊢
  have hcount : (cs.flatMap RequestMessage.events).countP bringsData =
      (cs.flatMap parts).flatten.length := by
    clear hevents hcs hne hle hes
    induction cs with
    | nil => rfl
    | cons c cs ih => rw [List.flatMap_cons, List.countP_append, countP_events, ih,
        List.flatMap_cons, List.flatten_append, List.length_append]
  have hlength : cuts out = (cs.flatMap parts).length := by
    rw [h.ends, ← hcs, List.length_flatMap, List.map_map]
    exact congrArg List.sum (List.map_congr_left fun c _ => (length_parts c).symm)
  have hone := length_eq_one (cs.flatMap parts)
    (fun d hd => by
      obtain ⟨c, hc, hd⟩ := List.mem_flatMap.mp hd
      exact hne c hc d hd)
    (by
      rw [← hcount, ← hevents, ← hlength]
      exact (countP_requestEvents_le es₁).trans hle)
  rw [hevents, ← hcs, List.map_map]
  congr 1
  refine (List.map_id cs).symm.trans (List.map_congr_left fun c hc => ?_)
  exact eq_unfragmented fun d hd => hone d (List.mem_flatMap.mpr ⟨c, hc, hd⟩)

theorem reads_request (hP : P.Ready) (h : PlainWire keeps r w) :
    ∃ P' out, Reads requestSettings P w P' out ∧ P'.Behind P.statusCode keeps ∧
      Reports out [r] := by
  obtain ⟨lines, content, hplain, hr, hw, hkeeps⟩ := h
  obtain ⟨P', hcompletes, hbehind⟩ := completes_request (S := requestSettings) hP hplain
  rw [hkeeps] at hbehind
  rw [hw]
  refine ⟨P', _, hcompletes.reads, hbehind, ?_⟩
  have hreports : Reports (requestStream requestSettings r.method r.url r.httpMajor r.httpMinor
      P.statusCode lines content)
      [requestMessage r.method r.url r.httpMajor r.httpMinor lines content] :=
    reports_requestStream
  rwa [← hr] at hreports

/-- Requests that keep the connection alive, and one more. -/
theorem reads_requests {xs : List (RequestMessage Bytes × Bytes)}
    (hxs : ∀ x ∈ xs, PersistentWire x.1 x.2) (hP : P.Ready) (h : PlainWire keeps r w) :
    ∃ P' status out, Reads requestSettings P ((xs.map Prod.snd).flatten ++ w) P' out ∧
      P'.Behind status keeps ∧ Reports out (xs.map Prod.fst ++ [r]) := by
  induction xs generalizing P with
  | nil =>
    obtain ⟨P', out, hreads, hbehind, hreports⟩ := reads_request hP h
    exact ⟨P', P.statusCode, out, hreads, hbehind, hreports⟩
  | cons x xs ih =>
    obtain ⟨hx, hxs⟩ := List.forall_mem_cons.mp hxs
    obtain ⟨P₁, out₁, hreads₁, hbehind₁, hreports₁⟩ := reads_request hP hx
    obtain ⟨P', status, out, hreads, hbehind, hreports⟩ := ih hxs hbehind₁.ready
    refine ⟨P', status, out₁ ++ out, ?_, hbehind, ?_⟩
    · rw [List.map_cons, List.flatten_cons, List.append_assoc]
      exact hreads₁.append hreads
    · exact hreports₁.append hreports

/-- **A block of whole requests.** -/
theorem execute_requests (xs : List (RequestMessage Bytes × Bytes))
    (hxs : ∀ x ∈ xs, PersistentWire x.1 x.2) (h : PlainWire keeps r w) :
    ∃ s, requestParser.execute requestParser.init ((xs.map Prod.snd).flatten ++ w) =
      (s, ((xs.map Prod.fst ++ [r]).map RequestMessage.unfragmented).flatMap RequestMessage.events,
        ((xs.map Prod.snd).flatten ++ w).length) := by
  obtain ⟨P', status, out, ⟨o, hticks, hjoin⟩, hbehind, hreports⟩ := reads_requests hxs
    (P := httpParserInit .request) ⟨rfl, rfl, rfl, rfl⟩ h
  have hne : (xs.map Prod.snd).flatten ++ w ≠ [] := by
    obtain ⟨lines, content, -, -, hw, -⟩ := h
    rw [hw, requestWire]
    simp [show bytes " " = [32] from rfl]
  obtain ⟨es, hexec, -, -, hstream⟩ := httpParserExecute_eq (sound_init .request) hne hticks
  rw [opening_init, List.nil_append] at hstream
  have hle := portions_httpParserExecute (sound_init .request) hne hticks
    (by rw [hbehind.state]; split_ifs <;> rfl) (by rw [hbehind.state]; split_ifs <;> rfl)
  rw [hexec] at hle
  have hevents := (hreports.congr hjoin.symm).unfragmented hstream hle
  refine ⟨P', ?_⟩
  show ((httpParserExecute requestSettings (httpParserInit .request) _).parser,
    requestEvents (httpParserExecute requestSettings (httpParserInit .request) _).events,
    (httpParserExecute requestSettings (httpParserInit .request) _).consumed) = _
  rw [hexec, hevents]

/-- A request in one block. -/
theorem execute_request (h : PlainWire keeps r w) :
    ∃ s, requestParser.execute requestParser.init w = (s, r.unfragmented.events, w.length) := by
  obtain ⟨s, hexec⟩ := execute_requests [] (fun _ hx => absurd hx List.not_mem_nil) h
  refine ⟨s, hexec.trans ?_⟩
  simp

end ParserLib

end Server
