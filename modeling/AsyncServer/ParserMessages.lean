/-
Requests one after the other, as the server is told of them.

* `events_of_requestStream` — a stream that joins to that of a request is the callbacks of
  the request, cut in some way;
* `requestParser_parses` — what is assumed of `http_parser` for persistent connections
  holds of it, for plain requests that keep the connection alive.
-/
import AsyncServer.ParserRequests
import AsyncServer.Pipelining

namespace Server

open CString Pieces RequestMessage

namespace ParserLib

variable {S : Settings} {P P' : Parser} {bs rest url : Bytes} {out : Stream}
variable {m : HttpMethod} {lines : List (Bytes × Bytes)} {content : Bytes} {major minor : ℕ}
variable {es : List Event}

/-! ### The callbacks of a stream -/

/-- What a stream does not go on with. -/
def Leaves (d : Datum) (xs : Stream) : Prop := ∀ l zs, join xs ≠ .data d l :: zs

theorem leaves_mark (d : Datum) (n : Milestone) (xs : Stream) : Leaves d (.mark n :: xs) := by
  intro l zs h
  rw [join_cons, push] at h
  exact absurd (List.cons_eq_cons.mp h).1 (by simp)

theorem leaves_data {d d' : Datum} (hne : d ≠ d') (x : Bytes) (xs : Stream) :
    Leaves d (.data d' x :: xs) := by
  intro l zs h
  rw [join_cons] at h
  rcases hj : join xs with _ | ⟨⟨k, l'⟩ | k, zs'⟩ <;> rw [hj] at h
  · simp only [push, List.cons.injEq, Item.data.injEq] at h
    exact hne h.1.1.symm
  · rw [push] at h
    split at h <;> simp only [List.cons.injEq, Item.data.injEq] at h <;> exact hne h.1.1.symm
  · simp only [push, List.cons.injEq, Item.data.injEq] at h
    exact hne h.1.1.symm

theorem join_data_of_leaves {d : Datum} {x : Bytes} {xs : Stream} (h : Leaves d xs) :
    join (.data d x :: xs) = .data d x :: join xs := by
  rw [join_cons]
  rcases hj : join xs with _ | ⟨⟨k, l⟩ | k, zs⟩
  · rfl
  · rw [push, if_neg]
    rintro rfl
    exact h l zs hj
  · rfl

theorem eq_of_item_data {e : Event} {d : Datum} {x : Bytes} (h : e.item = .data d x) :
    e = .data d x := by
  cases e <;> simp_all [Event.item]

theorem split_stream {xs ys : Stream} (h : stream es = xs ++ ys) :
    ∃ es₁ es₂, es = es₁ ++ es₂ ∧ stream es₁ = xs ∧ stream es₂ = ys := by
  obtain ⟨es₁, es₂, heq, h₁, h₂⟩ := List.map_eq_append_iff.mp h
  exact ⟨es₁, es₂, heq, h₁, h₂⟩

/-- The callbacks for a datum. -/
theorem peel_data {d : Datum} {x : Bytes} {xs : Stream} (hleaves : Leaves d xs)
    (h : join (stream es) = join (.data d x :: xs)) :
    ∃ ps es', ps ≠ [] ∧ es = ps.map (.data d) ++ es' ∧ ps.flatten = x ∧
      join (stream es') = join xs := by
  rw [join_data_of_leaves hleaves] at h
  obtain ⟨ps, ys, hne, hstream, hflatten, hjoin⟩ := join_eq_data_cons h
  obtain ⟨es₁, es₂, rfl, h₁, rfl⟩ := split_stream hstream
  refine ⟨ps, es₂, hne, ?_, hflatten, hjoin⟩
  congr 1
  clear hne hflatten h hstream
  induction ps generalizing es₁ with
  | nil => exact List.map_eq_nil_iff.mp h₁
  | cons p ps ih =>
    obtain ⟨e, es, rfl, he, hes⟩ := List.map_eq_cons_iff.mp h₁
    rw [List.map_cons, eq_of_item_data he, ih es hes]

/-- A callback without data. -/
theorem peel_mark {n : Milestone} {xs : Stream} (h : join (stream es) = join (.mark n :: xs)) :
    ∃ e es', es = e :: es' ∧ e.item = .mark n ∧ join (stream es') = join xs := by
  rw [join_cons, push] at h
  obtain ⟨ys, hstream, hjoin⟩ := join_eq_mark_cons h
  obtain ⟨e, es', rfl, he, rfl⟩ := List.map_eq_cons_iff.mp hstream
  exact ⟨e, es', rfl, he, hjoin⟩

/-- The callbacks of the request parser. -/
def requestEvents (es : List Event) : List ParserEvent := es.filterMap Event.toRequest

theorem requestEvents_append (es es' : List Event) :
    requestEvents (es ++ es') = requestEvents es ++ requestEvents es' := List.filterMap_append

theorem requestEvents_data {d : Datum} {f : Bytes → ParserEvent}
    (h : ∀ x, Event.toRequest (.data d x) = some (f x)) (ps : List Bytes) :
    requestEvents (ps.map (.data d)) = ps.map f := by
  induction ps with
  | nil => rfl
  | cons p ps ih =>
    rw [List.map_cons, requestEvents, List.filterMap_cons_some (h p), List.map_cons, ← ih,
      requestEvents]

/-- A header in the stream of the callbacks. -/
def lineItems (l : Bytes × Bytes) : Stream :=
  [.data .headerField l.1, .data .headerValue (lineHeader l).2]

theorem erase_lines : erase (lines.flatMap (lineStream requestSettings)) =
    lines.flatMap lineItems := by
  induction lines with
  | nil => rfl
  | cons l lines ih =>
    rw [List.flatMap_cons, erase_append, ih, List.flatMap_cons]
    rfl

/-- The callbacks for header lines, in front of a mark. -/
theorem peel_lines {n : Milestone} (h : join (stream es) =
      join (lines.flatMap lineItems ++ .mark n :: out)) :
    ∃ (hs : List (List Bytes × List Bytes)) (es₁ es' : List Event), es = es₁ ++ es' ∧
      requestEvents es₁ = hs.flatMap headerEvents ∧
      hs.map (Prod.map List.flatten List.flatten) = lines.map lineHeader ∧
      (∀ l ∈ hs, l.1 ≠ [] ∧ l.2 ≠ []) ∧ join (stream es') = join (.mark n :: out) := by
  induction lines generalizing es with
  | nil => exact ⟨[], [], es, rfl, rfl, rfl, fun _ hl => absurd hl List.not_mem_nil, h⟩
  | cons l lines ih =>
    rw [List.flatMap_cons, lineItems] at h
    have hleaves : Leaves .headerValue (lines.flatMap lineItems ++ .mark n :: out) := by
      cases lines with
      | nil => exact leaves_mark _ _ _
      | cons l' lines => exact leaves_data (by decide) _ _
    obtain ⟨names, es₁, hnames, rfl, hname, h⟩ := peel_data (leaves_data (by decide) _ _) h
    obtain ⟨values, es₂, hvalues, rfl, hvalue, h⟩ := peel_data hleaves h
    obtain ⟨hs, es₃, es', rfl, hevents, hmap, hne, hjoin⟩ := ih h
    refine ⟨(names, values) :: hs, names.map (.data .headerField) ++
      (values.map (.data .headerValue) ++ es₃), es', by simp only [List.append_assoc], ?_, ?_,
      List.forall_mem_cons.mpr ⟨⟨hnames, hvalues⟩, hne⟩, hjoin⟩
    · rw [requestEvents_append, requestEvents_append, hevents,
        requestEvents_data (fun _ => rfl) names, requestEvents_data (fun _ => rfl) values,
        List.flatMap_cons, headerEvents, List.append_assoc]
    · rw [List.map_cons, List.map_cons, hmap, Prod.map_apply, hname, hvalue]
      rfl

/-- The message of a plain request. -/
def requestMessage (m : HttpMethod) (url : Bytes) (major minor : ℕ) (lines : List (Bytes × Bytes))
    (content : Bytes) : RequestMessage Bytes :=
  ⟨url, lines.map lineHeader, m, major, minor, if content = [] then [] else [content], []⟩

/-- The data of a message, each in its pieces. -/
def parts (c : RequestMessage (List Bytes)) : List (List Bytes) :=
  c.url :: (c.headers.flatMap fun h => [h.1, h.2]) ++ c.body ++
    c.trailers.flatMap fun h => [h.1, h.2]

/-- **The callbacks of a request**, cut in some way, and what follows them. -/
theorem events_of_requestStream {status : ℕ} (h : join (stream es) =
      join (erase (requestStream requestSettings m url major minor status lines content) ++ out)) :
    ∃ (c : RequestMessage (List Bytes)) (es₁ es' : List Event), es = es₁ ++ es' ∧
      requestEvents es₁ = events c ∧
      c.joined = requestMessage m url major minor lines content ∧
      (∀ d ∈ parts c, d ≠ []) ∧ join (stream es') = join out := by
  have hcontent : erase (if content = [] then [] else whole requestSettings .body content) =
      if content = [] then [] else [.data .body content] := by
    split_ifs <;> rfl
  have hstream : erase (requestStream requestSettings m url major minor status lines content) ++
      out = .data .url url :: (lines.flatMap lineItems ++
        .mark (.headersComplete m major minor status) ::
          ((if content = [] then [] else [.data .body content]) ++ completeMark :: out)) := by
    simp only [requestStream, erase_append, erase_lines, hcontent, List.append_assoc]
    rfl
  rw [hstream] at h
  have hleaves : Leaves .url (lines.flatMap lineItems ++
        .mark (.headersComplete m major minor status) ::
          ((if content = [] then [] else [.data .body content]) ++ completeMark :: out)) := by
    cases lines with
    | nil => exact leaves_mark _ _ _
    | cons l' lines => exact leaves_data (by decide) _ _
  obtain ⟨us, es₁, hus, rfl, hurl, h⟩ := peel_data hleaves h
  obtain ⟨hs, es₂, es₃, rfl, hheaders, hmap, hne, h⟩ := peel_lines h
  obtain ⟨e, es₄, rfl, he, h⟩ := peel_mark h
  have hhead : Event.toRequest e = some (.headersComplete m major minor) := by
    cases e with
    | headersComplete m' major' minor' status' state =>
      simp only [Event.item, Item.mark.injEq, Milestone.headersComplete.injEq] at he
      obtain ⟨rfl, rfl, rfl, -⟩ := he
      rfl
    | _ => simp [Event.item] at he
  obtain ⟨body, es₅, es₆, rfl, hbody, hparts, hbodies, h⟩ :
      ∃ (body : List (List Bytes)) (es₅ es₆ : List Event), es₄ = es₅ ++ es₆ ∧
        requestEvents es₅ = body.flatMap (fun d => d.map .body) ∧
        body.map List.flatten = (if content = [] then [] else [content]) ∧
        (∀ d ∈ body, d ≠ []) ∧ join (stream es₆) = join (completeMark :: out) := by
    split_ifs at h ⊢ with hcontent
    · exact ⟨[], [], es₄, rfl, rfl, rfl, fun _ hd => absurd hd List.not_mem_nil, h⟩
    · obtain ⟨bs, es₆, hne, rfl, hbs, h⟩ := peel_data (leaves_mark _ _ _) h
      exact ⟨[bs], _, es₆, rfl, by simp [requestEvents_data (d := .body) fun _ => rfl],
        by simp [hbs], by simpa using hne, h⟩
  obtain ⟨e', es', rfl, he', h⟩ := peel_mark h
  have hend : Event.toRequest e' = some .messageComplete := by
    cases e' with
    | notify n =>
      simp only [Event.item, Item.mark.injEq, Milestone.notify.injEq] at he'
      rw [he']
      rfl
    | _ => simp [Event.item] at he'
  refine ⟨⟨us, hs, m, major, minor, body, []⟩,
    us.map (.data .url) ++ (es₂ ++ e :: (es₅ ++ [e'])), es', by simp, ?_, ?_, ?_, h⟩
  · rw [requestEvents_append, requestEvents_append, hheaders, requestEvents_data (fun _ => rfl) us,
      show e :: (es₅ ++ [e']) = [e] ++ (es₅ ++ [e']) from rfl, requestEvents_append,
      requestEvents_append, hbody]
    simp [requestEvents, hhead, hend, events]
  · simp only [joined, RequestMessage.map, requestMessage, hurl, hmap, hparts, List.map_nil]
  · intro d hd
    simp only [parts, List.cons_append, List.flatMap_nil, List.append_nil, List.mem_cons,
      List.mem_append, List.mem_flatMap, List.not_mem_nil, or_false] at hd
    rcases hd with rfl | ⟨l, hl, rfl | rfl⟩ | hd
    exacts [hus, (hne l hl).1, (hne l hl).2, hbodies d hd]

/-! ### Streams of requests -/

theorem erase_congr {xs ys : Stream} (h : join xs = join ys) :
    join (erase xs) = join (erase ys) :=
  join_filter_congr (fun _ _ => rfl) h

/-- The wire of a plain request, behind which the connection goes on or not. -/
def PlainWire (keeps : Bool) (r : RequestMessage Bytes) (w : Bytes) : Prop :=
  ∃ (lines : List (Bytes × Bytes)) (content : Bytes),
    PlainRequest r.method r.url r.httpMajor r.httpMinor lines content ∧
      r = requestMessage r.method r.url r.httpMajor r.httpMinor lines content ∧
      w = requestWire (methodStrings r.method) r.url r.httpMajor r.httpMinor lines content ∧
      keepsAlive lines r.httpMajor r.httpMinor = keeps

/-- The wire of a plain request that keeps the connection alive. -/
abbrev PersistentWire : RequestMessage Bytes → Bytes → Prop := PlainWire true

theorem Parser.Behind.ready {status : ℕ} (h : P.Behind status true) : P.Ready :=
  ⟨h.type, h.state, h.errno, h.nread⟩

theorem notMem_requestEvents (h : completeMark ∉ stream es) :
    ParserEvent.messageComplete ∉ requestEvents es := by
  intro hmem
  obtain ⟨e, he, hevent⟩ := List.mem_filterMap.mp hmem
  refine h (List.mem_map.mpr ⟨e, he, ?_⟩)
  cases e with
  | data d x => cases d <;> simp [Event.toRequest] at hevent
  | notify n => cases n <;> simp_all [Event.toRequest, Event.item]
  | headersComplete m i j k s => simp [Event.toRequest] at hevent

/-- **A stream of requests**, of which only a beginning has come. -/
theorem ticks_requests {ms : List (RequestMessage Bytes × Bytes)}
    (hms : ∀ x ∈ ms, PersistentWire x.1 x.2) (hP : P.Ready)
    (h : bs ++ rest = (ms.map Prod.snd).flatten) :
    ∃ r, ticks requestSettings P bs = some r ∧
      ∀ es, join (stream es) = join (erase r.2) →
        HttpParser.Reported ms bs.length (requestEvents es) := by
  induction ms generalizing P bs with
  | nil =>
    obtain ⟨rfl, -⟩ := List.append_eq_nil_iff.mp h
    refine ⟨(P, []), rfl, fun es hes => ?_⟩
    obtain rfl : es = [] := List.map_eq_nil_iff.mp (join_eq_nil hes)
    exact .nil
  | cons x ms ih =>
    obtain ⟨hx, hms⟩ := List.forall_mem_cons.mp hms
    obtain ⟨lines, content, hplain, hmessage, hwire, hkeeps⟩ := hx
    obtain ⟨P', hcompletes, hbehind⟩ := completes_request (S := requestSettings) hP hplain
    rw [← hwire] at hcompletes
    rw [hkeeps] at hbehind
    rw [List.map_cons, List.flatten_cons] at h
    rcases Nat.lt_or_ge bs.length x.2.length with hlt | hge
    · -- the first request has not come in full
      obtain ⟨bs', hbs'⟩ : ∃ bs', x.2 = bs ++ bs' := by
        rcases List.append_eq_append_iff.mp h with ⟨as, has, -⟩ | ⟨as, has, -⟩
        · exact ⟨as, has⟩
        · rw [has, List.length_append] at hlt
          omega
      rw [hbs'] at hcompletes hlt
      obtain ⟨r, hr, hmark⟩ := hcompletes.started (fun hnil => by
        rw [hnil, List.append_nil] at hlt
        exact lt_irrefl _ hlt)
      refine ⟨r, hr, fun es hes => ?_⟩
      have hstarted : completeMark ∉ stream es := by
        rw [← mark_mem_join, hes, mark_mem_join]
        exact fun hmem => hmark (List.mem_filter.mp hmem).1
      rw [← hbs'] at hlt
      exact .started hlt (notMem_requestEvents hstarted)
    · obtain ⟨bs', rfl⟩ : ∃ bs', bs = x.2 ++ bs' := by
        rcases List.append_eq_append_iff.mp h with ⟨as, has, -⟩ | ⟨as, has, -⟩
        · rw [has, List.length_append] at hge
          exact ⟨[], by rw [has, List.length_eq_zero_iff.mp (show as.length = 0 by omega)]; simp⟩
        · exact ⟨as, has⟩
      rw [List.append_assoc, List.append_cancel_left_eq] at h
      obtain ⟨o, hticks, hjoin⟩ := hcompletes.reads
      obtain ⟨r, hr, hreported⟩ := ih hms hbehind.ready h
      refine ⟨(r.1, o ++ r.2), ?_, fun es hes => ?_⟩
      · rw [ticks_append, hticks, Option.bind_some, hr]
        rfl
      · rw [erase_append, join_append_congr (erase_congr hjoin)] at hes
        obtain ⟨c, es₁, es', rfl, hevents, hc, -, hrest⟩ := events_of_requestStream hes
        rw [requestEvents_append, hevents, List.length_append]
        exact .message (hc.trans hmessage.symm) (hreported es' hrest)

/-- A buffer that is parsed to its end is consumed. -/
theorem consumed_loop {R : Run} {skip p : ℕ} (h : (loop S skip R p bs).verdict = .next) :
    (loop S skip R p bs).consumed = p + bs.length := by
  induction bs generalizing R skip p with
  | nil =>
    rw [loop_nil] at h ⊢
    split_ifs at h ⊢
    · rfl
    · exact absurd h (by simp [Run.finish])
  | cons c bs ih =>
    have hnext : ∀ {skip : ℕ} {R : Run}, (loop S skip R (p + 1) bs).verdict = .next →
        (loop S skip R (p + 1) bs).consumed = p + (c :: bs).length := by
      intro skip R hv
      rw [ih hv, List.length_cons]
      omega
    cases skip with
    | succ skip => exact hnext h
    | zero =>
      rw [loop] at h ⊢
      dsimp only at h ⊢
      split_ifs at h ⊢
      · exact absurd h (by simp [Run.finish])
      · cases hv : (turn R.counted c bs).last.verdict with
        | next =>
          simp only [hv] at h ⊢
          exact hnext h
        | leave => simp [hv, Run.finish] at h
        | stop => simp [hv, Run.finish] at h
        | abort => simp [hv, Run.finish] at h

/-- What the request parser reports of blocks. -/
theorem reports_of_feed {bs : List Bytes} (hbs : ∀ b ∈ bs, b ≠ []) {r : Parser × List Event}
    (h : feed requestSettings P bs = some r) :
    requestParser.reports P bs = some (r.1, requestEvents r.2) := by
  induction bs generalizing P r with
  | nil =>
    obtain rfl := Option.some_inj.mp h
    rfl
  | cons b bs ih =>
    obtain ⟨hb, hbs⟩ := List.forall_mem_cons.mp hbs
    rw [feed] at h
    split_ifs at h with hv
    obtain ⟨r', hr', rfl⟩ := Option.map_eq_some_iff.mp h
    have hconsumed : (httpParserExecute requestSettings P b).consumed = b.length := by
      unfold httpParserExecute at hv ⊢
      by_cases hok : P.httpErrno = .ok
      · rw [if_neg (not_not.mpr hok), if_neg (by simpa using hb)] at hv ⊢
        rw [consumed_loop hv, zero_add]
      · rw [if_pos hok] at hv
        exact absurd hv (by simp)
    have hrest := ih hbs hr'
    show (if (httpParserExecute requestSettings P b).consumed = b.length then _ else none) = _
    rw [if_pos hconsumed]
    show (requestParser.reports (httpParserExecute requestSettings P b).parser bs).map _ = _
    rw [hrest, Option.map_some, requestEvents_append]
    rfl

/-- **The parser turns a byte stream into the callbacks of its requests.** -/
theorem requestParser_parses : requestParser.Parses PersistentWire := by
  intro ms bs rest hms hbs h
  obtain ⟨r, hr, hreported⟩ := ticks_requests hms (P := httpParserInit .request)
    ⟨rfl, rfl, rfl, rfl⟩ h
  obtain ⟨es, hfeed, -, hstream⟩ := feed_eq (sound_init .request) hbs hr
  rw [opening_init, List.nil_append, List.nil_append] at hstream
  exact ⟨r.1, requestEvents es, reports_of_feed hbs hfeed, hreported es hstream⟩

end ParserLib

end Server
