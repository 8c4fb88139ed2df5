/-
Whole requests.

* `blockFold_plain` — what the header lines of an ordinary request leave in the struct;
* `completes_request` — such a request is parsed to its end, is reported as it stands, and
  is complete at its last byte and not before; the parser is then in front of the next
  one, or closed, as `keepsAlive` says.
-/
import AsyncServer.ParserFraming
import AsyncServer.ParserStartLine

namespace Server

open CString Pieces

namespace ParserLib

variable {S : Settings} {P P' P'' Q : Parser} {ch : UInt8} {bs bs' rest url : Bytes}
variable {out out' : Stream} {m : HttpMethod} {l : Bytes × Bytes} {lines : List (Bytes × Bytes)}
variable {content : Bytes} {n major minor : ℕ}

/-! ### Header lines -/

/-- A header whose tokens are looked at. -/
def isConnectionLine (l : Bytes × Bytes) : Bool :=
  strcasecmp l.1 (bytes "connection") = .eq || strcasecmp l.1 (bytes "proxy-connection") = .eq

/-- A header that announces the length of the body. -/
def isLengthLine (l : Bytes × Bytes) : Bool := strcasecmp l.1 (bytes "content-length") = .eq

/-- The words that are found in a header. -/
def lineWords (l : Bytes × Bytes) (w : ConnectionWord) : Bool :=
  isConnectionLine l && connectionScan (lineHeader l).2 w

/-- The words that are found in all headers. -/
def blockWords (lines : List (Bytes × Bytes)) (w : ConnectionWord) : Bool :=
  lines.any fun l => lineWords l w

/-- Header lines of a message that announce a length of `n`, by a single content-length, or
none. -/
structure PlainLines (lines : List (Bytes × Bytes)) (n : ℕ) : Prop where
  wellFormed : ∀ l ∈ lines, IsToken l.1 ∧ IsFieldText l.2
  noEncoding : ∀ l ∈ lines, NoEncoding l.1
  noUpgrade : ∀ l ∈ lines, strcasecmp l.1 (bytes "upgrade") ≠ .eq
  length : ∀ l ∈ lines, isLengthLine l = true → (lineHeader l).2 = digits n
  once : lines.Pairwise fun l l' => ¬ (isLengthLine l = true ∧ isLengthLine l' = true)

instance : DecidablePred IsFieldText := fun text =>
  inferInstanceAs (Decidable (∀ c ∈ text, (32 ≤ c ∨ c = 9) ∧ c ≠ 127))

instance (lines : List (Bytes × Bytes)) (n : ℕ) : Decidable (PlainLines lines n) :=
  decidable_of_iff
    ((∀ l ∈ lines, IsToken l.1 ∧ IsFieldText l.2) ∧ (∀ l ∈ lines, NoEncoding l.1) ∧
      (∀ l ∈ lines, strcasecmp l.1 (bytes "upgrade") ≠ .eq) ∧
      (∀ l ∈ lines, isLengthLine l = true → (lineHeader l).2 = digits n) ∧
      lines.Pairwise fun l l' => ¬ (isLengthLine l = true ∧ isLengthLine l' = true))
    ⟨fun h => ⟨h.1, h.2.1, h.2.2.1, h.2.2.2.1, h.2.2.2.2⟩, fun h => ⟨h.1, h.2, h.3, h.4, h.5⟩⟩

/-- What plain lines leave in the struct. -/
def Parser.framed (P : Parser) (g : ConnectionWord → Bool) (length : Option ℕ) (i : ℕ)
    (s : HeaderState) : Parser :=
  { P.enter .headerFieldStart with
    index := i
    headerState := s
    contentLength := length.getD P.contentLength
    flags := { P.flags.words g with contentlength := P.flags.contentlength || length.isSome } }

/-- What a line says about the length. -/
def lineLength (n : ℕ) (l : Bytes × Bytes) : Option ℕ := if isLengthLine l then some n else none

/-- One of two different names only. -/
theorem not_strcasecmp_of {name s t : Bytes} (h : strcasecmp name s = .eq)
    (hne : fold s ≠ fold t) : strcasecmp name t ≠ .eq := by
  rw [ne_eq, strcasecmp_eq_iff]
  rw [strcasecmp_eq_iff] at h
  exact fun h' => hne (h.symm.trans h')

theorem not_encoding_of_noEncoding {name : Bytes} (hname : IsToken name) (h : NoEncoding name) :
    strcasecmp name (bytes "transfer-encoding") ≠ .eq := by
  intro heq
  refine h ?_
  rw [(map_token_eq_iff hname (by decide)).mpr heq]

/-- **What one plain line leaves.** -/
theorem lineFold_ordinary (hl : IsToken l.1) (hno : NoEncoding l.1)
    (hupgrade : strcasecmp l.1 (bytes "upgrade") ≠ .eq)
    (hlength : isLengthLine l = true → (lineHeader l).2 = digits n)
    (huses : P.usesTransferEncoding = false)
    (hflag : isLengthLine l = true → P.flags.contentlength = false) (hn : n ≤ 10 * lengthBound) :
    ∃ i s, lineFold P (lineHeader l) = some (P.framed (lineWords l) (lineLength n l) i s) := by
  have hsome : lineHeader l = (l.1, (lineHeader l).2) := rfl
  have hwords : isConnectionLine l = false → P.flags.words (lineWords l) = P.flags := by
    intro hc
    have hnone : lineWords l = fun _ => false := by
      funext w
      rw [lineWords, hc, Bool.false_and]
    rw [hnone, words_none]
  unfold Parser.framed lineLength
  by_cases hlen : isLengthLine l = true
  · have heq : strcasecmp l.1 (bytes "content-length") = .eq := by simpa [isLengthLine] using hlen
    have hc : isConnectionLine l = false := by
      simp [isConnectionLine, not_strcasecmp_of (t := bytes "connection") heq (by decide),
        not_strcasecmp_of (t := bytes "proxy-connection") heq (by decide)]
    obtain ⟨i, s, hfold⟩ := lineFold_length hl heq huses (hflag hlen) hn
    refine ⟨i, s, ?_⟩
    rw [hsome, hlength hlen, hfold, hwords hc, if_pos hlen]
    simp
  rw [if_neg hlen]
  by_cases hc : isConnectionLine l = true
  · have heq : strcasecmp l.1 (bytes "connection") = .eq ∨
        strcasecmp l.1 (bytes "proxy-connection") = .eq := by simpa [isConnectionLine] using hc
    obtain ⟨i, s, hfold⟩ := lineFold_connection (lineHeader l).2 hl heq huses
    have hscan : lineWords l = connectionScan (lineHeader l).2 := by
      funext w
      rw [lineWords, hc, Bool.true_and]
    refine ⟨i, s, ?_⟩
    rw [hsome, hfold, hscan]
    simp only [Option.getD_none, Option.isSome_none, Bool.or_false]
    rfl
  · have hunknown : Unknown l.1 := by
      simp only [isConnectionLine, Bool.or_eq_true, decide_eq_true_iff, not_or] at hc
      refine forall_mem_headerNames.mpr ⟨hc.1, hc.2, ?_, not_encoding_of_noEncoding hl hno,
        hupgrade⟩
      simpa [isLengthLine] using hlen
    obtain ⟨i, s, hfold⟩ := lineFold_plain (lineHeader l).2 hl hunknown hno huses
    refine ⟨i, s, ?_⟩
    rw [hsome, hfold, hwords (by simpa using hc)]
    simp only [Option.getD_none, Option.isSome_none, Bool.or_false]
    rfl

/-- The length that the lines announce. -/
def blockLength (n : ℕ) (lines : List (Bytes × Bytes)) : Option ℕ :=
  if lines.any isLengthLine then some n else none

theorem framed_framed {g g' : ConnectionWord → Bool} {k k' : Option ℕ} {i i' : ℕ}
    {s s' : HeaderState} (hk : k = none ∨ k' = none) :
    (P.framed g k i s).framed g' k' i' s' =
      P.framed (fun w => g w || g' w) (k.or k') i' s' := by
  rcases hk with rfl | rfl
  · simp only [Parser.framed, Option.getD_none, Option.isSome_none, Bool.or_false, Option.none_or]
    simp [Flags.words, Parser.enter, Bool.or_assoc]
  · cases k <;> simp [Parser.framed, Flags.words, Parser.enter, Bool.or_assoc]

theorem PlainLines.cons (h : PlainLines (l :: lines) n) :
    PlainLines lines n ∧ (isLengthLine l = true → lines.any isLengthLine = false) := by
  refine ⟨⟨fun l' hl => h.wellFormed l' (by simp [hl]), fun l' hl => h.noEncoding l' (by simp [hl]),
    fun l' hl => h.noUpgrade l' (by simp [hl]), fun l' hl => h.length l' (by simp [hl]),
    (List.pairwise_cons.mp h.once).2⟩, fun hl => ?_⟩
  simp only [List.any_eq_false]
  exact fun l' hl' hlen => (List.pairwise_cons.mp h.once).1 l' hl' ⟨hl, hlen⟩

/-- **What plain lines leave.** -/
theorem blockFold_plain (h : PlainLines lines n) (hs : P.state = .headerFieldStart)
    (huses : P.usesTransferEncoding = false)
    (hflag : lines.any isLengthLine = true → P.flags.contentlength = false)
    (hn : n ≤ 10 * lengthBound) :
    ∃ i s, blockFold P lines = some (P.framed (blockWords lines) (blockLength n lines) i s) := by
  induction lines generalizing P with
  | nil =>
    refine ⟨P.index, P.headerState, ?_⟩
    have hP : P.enter .headerFieldStart = P := by rw [← hs]; rfl
    have hnil : blockWords [] = fun _ => false := rfl
    rw [Parser.framed, hP, hnil, words_none]
    simp [blockLength, blockFold]
  | cons l lines ih =>
    obtain ⟨htail, honly⟩ := h.cons
    have hl := h.wellFormed l (by simp)
    have hflag' : isLengthLine l = true → P.flags.contentlength = false :=
      fun hlen => hflag (by simp [hlen])
    obtain ⟨i, s, hfold⟩ := lineFold_ordinary hl.1 (h.noEncoding l (by simp))
      (h.noUpgrade l (by simp)) (h.length l (by simp)) huses hflag' hn
    have hflag'' : lines.any isLengthLine = true →
        (P.flags.contentlength || (lineLength n l).isSome) = false := by
      intro hany
      have hnot : ¬ isLengthLine l = true := fun hlen => by
        rw [honly hlen] at hany
        exact absurd hany (by simp)
      rw [lineLength, if_neg hnot, hflag (by simp [hany])]
      rfl
    obtain ⟨i', s', hrest⟩ := ih (P := P.framed (lineWords l) (lineLength n l) i s) htail rfl huses
      hflag''
    refine ⟨i', s', Option.bind_eq_some_iff.mpr ⟨_, hfold, hrest.trans ?_⟩⟩
    rw [framed_framed]
    · congr 2
      unfold lineLength blockLength
      rw [List.any_cons]
      cases isLengthLine l <;> rfl
    · unfold lineLength blockLength
      by_cases hlen : isLengthLine l = true
      · exact .inr (by rw [honly hlen]; rfl)
      · exact .inl (if_neg hlen)

/-! ### Complete messages -/

/-- The end of a message. -/
abbrev completeMark : Item Datum UInt8 Milestone := .mark (.notify .messageComplete)

/-- From `P` the bytes are parsed to their end and leave `P'`, and the end of the message is
reported at the last of them and not before. -/
def Completes (S : Settings) (P : Parser) (bs : Bytes) (P' : Parser) (out : Stream) : Prop :=
  ∃ bs' c P₁ out' o, bs = bs' ++ [c] ∧ Reads S P bs' P₁ out' ∧ completeMark ∉ out' ∧
    tick S P₁ c = some (P', o) ∧ join (out' ++ o) = join out

theorem Reads.completes {c : UInt8} {o : Stream} (h : Reads S P bs P' out)
    (hno : completeMark ∉ out) (ht : tick S P' c = some (P'', o)) :
    Completes S P (bs ++ [c]) P'' (out ++ o) :=
  ⟨bs, c, P', out, o, rfl, h, hno, ht, rfl⟩

theorem Reads.append_completes (h : Reads S P bs P' out) (hno : completeMark ∉ out)
    (h' : Completes S P' bs' P'' out') :
    Completes S P (bs ++ bs') P'' (out ++ out') := by
  obtain ⟨bs₁, c, P₁, out₁, o, rfl, hreads, hno₁, ht, hjoin⟩ := h'
  refine ⟨bs ++ bs₁, c, P₁, out ++ out₁, o, (List.append_assoc ..).symm, h.append hreads, ?_,
    ht, ?_⟩
  · exact fun hmem => (List.mem_append.mp hmem).elim hno hno₁
  · rw [List.append_assoc, join_append_congr_right hjoin]

theorem Completes.reads (h : Completes S P bs P' out) : Reads S P bs P' out := by
  obtain ⟨bs₁, c, P₁, out₁, o, rfl, hreads, -, ht, hjoin⟩ := h
  exact (hreads.append (Reads.one ht)).congr hjoin

theorem Completes.congr (h : Completes S P bs P' out) (hjoin : join out = join out') :
    Completes S P bs P' out' := by
  obtain ⟨bs₁, c, P₁, out₁, o, hbs, hreads, hno, ht, heq⟩ := h
  exact ⟨bs₁, c, P₁, out₁, o, hbs, hreads, hno, ht, heq.trans hjoin⟩

/-- **Up to its last byte a message is not complete.** -/
theorem Completes.started (h : Completes S P (bs ++ bs') P' out) (hne : bs' ≠ []) :
    ∃ r, ticks S P bs = some r ∧ completeMark ∉ r.2 := by
  obtain ⟨bs₁, c, P₁, out₁, o, hbs, ⟨o₁, hticks, hjoin⟩, hno, -, -⟩ := h
  obtain ⟨xs, hxs⟩ : ∃ xs, bs₁ = bs ++ xs := by
    rcases List.append_eq_append_iff.mp hbs with ⟨as, has, -⟩ | ⟨as, has, has'⟩
    · exact ⟨as, has⟩
    · rcases List.cons_eq_append_iff.mp has' with ⟨rfl, -⟩ | ⟨as', rfl, hnil⟩
      · exact ⟨[], by rw [has]; simp⟩
      · exact absurd (List.append_eq_nil_iff.mp hnil.symm).2 hne
  rw [hxs, ticks_append] at hticks
  obtain ⟨r, hr, hmap⟩ := Option.bind_eq_some_iff.mp hticks
  obtain ⟨r', -, heq⟩ := Option.map_eq_some_iff.mp hmap
  refine ⟨r, hr, fun hmem => hno ?_⟩
  rw [← mark_mem_join, ← hjoin, mark_mem_join, ← (Prod.mk.inj heq).2]
  exact List.mem_append_left _ hmem

/-! ### The end of the head, and the body -/

/-- A request of which the head has been read, and that is plain. -/
structure Parser.PlainHead (P : Parser) : Prop where
  type : P.type = .request
  method : P.method ≠ .connect
  encoding : P.usesTransferEncoding = false
  chunked : P.flags.chunked = false
  trailing : P.flags.trailing = false
  upgrade : P.flags.upgrade = false
  skipbody : P.flags.skipbody = false

/-- `http_should_keep_alive` of a request. -/
def Parser.persists (P : Parser) : Bool :=
  if 0 < P.httpMajor ∧ 0 < P.httpMinor then !P.flags.connectionClose
  else P.flags.connectionKeepAlive

theorem newMessage_of_request (h : P.type = .request) :
    P.newMessage = if P.persists then .startReq else .dead := by
  have heof : P.httpMessageNeedsEof = false := by rw [Parser.httpMessageNeedsEof, if_pos h]
  unfold Parser.newMessage Parser.httpShouldKeepAlive Parser.persists Parser.startState
  rw [heof, if_pos h]
  cases P.flags.connectionClose <;> cases P.flags.connectionKeepAlive <;> simp

/-- What is reported at the end of a head. -/
def headMark (S : Settings) (P : Parser) : Stream :=
  if S.headersComplete then
    [.mark (.headersComplete P.method P.httpMajor P.httpMinor P.statusCode)]
  else []

/-- The struct behind a plain head. -/
def Parser.behindHead (P : Parser) : Parser :=
  { P.enter .headersDone with upgrade := false, nread := 0 }

theorem headersDone_plain (h : P.PlainHead) (hup : P.upgrade = false) : headersDone P LF =
    if P.contentLength = 0 ∨ P.contentLength = ullongMax then
      completeMessage (P.reading 0)
    else ParserLib.brk ((P.reading 0).enter .bodyIdentity) := by
  have heof : (P.reading 0).httpMessageNeedsEof = false := by
    rw [Parser.httpMessageNeedsEof]
    exact if_pos h.type
  have hnot : ∀ {b : Bool}, b = false → ¬ b = true := fun hb => by simp [hb]
  unfold headersDone
  rw [if_neg (not_not.mpr rfl)]
  show (if (P.upgrade && _) = true then _ else if P.flags.skipbody = true then _ else
      if P.flags.chunked = true then _ else if P.usesTransferEncoding = true then _ else
      if P.contentLength = 0 then _ else if P.contentLength ≠ ullongMax then _ else
      if (!(P.reading 0).httpMessageNeedsEof) = true then _ else _) = _
  rw [if_neg (hnot (by rw [hup, Bool.false_and])), if_neg (hnot h.skipbody),
    if_neg (hnot h.chunked), if_neg (hnot h.encoding), heof]
  by_cases h0 : P.contentLength = 0
  · rw [if_pos h0, if_pos (.inl h0)]
    rfl
  rw [if_neg h0]
  by_cases hmax : P.contentLength = ullongMax
  · rw [if_neg (not_not.mpr hmax), if_pos (show (!false) = true from rfl),
      if_pos (show _ ∨ _ from .inr hmax)]
    rfl
  · rw [if_pos hmax, if_neg (not_or.mpr ⟨h0, hmax⟩)]
    rfl

theorem headersAlmostDone_plain (h : P.PlainHead) : headersAlmostDone P LF =
    (if P.contentLength = 0 ∨ P.contentLength = ullongMax then completeMessage P.behindHead
      else ParserLib.brk (P.behindHead.enter .bodyIdentity)).doing
        [.headersComplete P.method P.httpMajor P.httpMinor P.statusCode] := by
  have hnot : ∀ {b : Bool}, b = false → ¬ b = true := fun hb => by simp [hb]
  have hconflict : lengthConflict P = false := by
    rw [lengthConflict, h.encoding, Bool.false_and, Bool.false_and]
  have hupgrade : ¬ (P.flags.upgrade && P.flags.connectionUpgrade) = true :=
    hnot (by rw [h.upgrade, Bool.false_and])
  unfold headersAlmostDone
  rw [if_neg (not_not.mpr rfl), if_neg (hnot h.trailing), if_neg (hnot hconflict)]
  have hplain := headersDone_plain (P := { P.enter .headersDone with upgrade := false })
    ⟨h.type, h.method, h.encoding, h.chunked, h.trailing, h.upgrade, h.skipbody⟩ rfl
  dsimp only [Parser.enter]
  rw [if_neg hupgrade, show decide (P.method = .connect) = false by simpa using h.method]
  exact congrArg (Case.doing _) hplain

/-- The struct behind a body. -/
def Parser.bodyRead (P : Parser) : Parser := { P with contentLength := 0, state := P.newMessage }

/-- A byte of a body that is not its last one. -/
theorem tick_body (ch : UInt8) (hs : P.state = .bodyIdentity) (he : P.httpErrno = .ok)
    (hmore : 1 < P.contentLength) (hmax : P.contentLength ≠ ullongMax) :
    tick S P ch = some (passed P 1, piece S .body [] ++ piece S .body [ch]) := by
  have hnext : P.next = P := by rw [Parser.next, if_neg (by rw [hs]; decide)]
  have hmin : min P.contentLength (([] : Bytes).length + 1) = 1 := by
    simp only [List.length_nil]
    omega
  have hturn : turn P ch [] = ⟨[.mark .body], 0, ParserLib.brk (passed P 1)⟩ := by
    simp only [turn, hs, bodyIdentity]
    rw [if_neg (by omega), hmin, if_neg (by omega)]
  refine tick_eq_some.mpr ⟨by rw [hnext]; exact he, by rw [hnext, hturn]; rfl, ?_⟩
  rw [hnext, hturn]
  simp [Turn.shows, ParserLib.brk, Action.shows, Action.adds, Action.opens, openPiece]

/-- The last byte of a body. -/
theorem tick_body_last (hs : P.state = .bodyIdentity) (he : P.httpErrno = .ok)
    (hlast : P.contentLength = 1) (hup : P.upgrade = false) (htype : P.type = .request) :
    tick S P ch = some (P.bodyRead,
      piece S .body [] ++
        (piece S .body [ch] ++ (cut S .body ++ notice S .messageComplete))) := by
  have hnext : P.next = P := by rw [Parser.next, if_neg (by rw [hs]; decide)]
  have hmin : min P.contentLength (([] : Bytes).length + 1) = 1 := by
    rw [hlast]
    rfl
  have hnew : ((passed P 1).enter .messageDone).newMessage = P.newMessage := by
    rw [newMessage_of_request htype]
    exact newMessage_of_request htype
  have hdone : messageDone ((passed P 1).enter .messageDone) =
      completeMessage ((passed P 1).enter .messageDone) := by
    rw [messageDone]
    exact if_neg (show ¬ P.upgrade = true by simp [hup])
  have hturn : turn P ch [] = ⟨[.mark .body], 0,
      (completeMessage ((passed P 1).enter .messageDone)).doing
        [.dataThrough .body .messageDone]⟩ := by
    simp only [turn, hs, bodyIdentity]
    rw [if_neg (by rw [hlast]; decide), hmin, if_pos (by rw [hlast]), hdone]
  refine tick_eq_some.mpr ⟨by rw [hnext]; exact he, by rw [hnext, hturn]; rfl, ?_⟩
  rw [hnext, hturn]
  refine Prod.ext ?_ ?_
  · show (completeMessage ((passed P 1).enter .messageDone)).parser = _
    rw [completeMessage, hnew]
    show ((passed P 1).enter .messageDone).enter P.newMessage = _
    simp only [passed, Parser.enter, Parser.bodyRead, hlast]
  · simp [Turn.shows, completeMessage, ParserLib.brk, Case.doing, Action.shows, Action.adds,
      Action.opens, openPiece, notice, hs, State.openDatum]

theorem completeMark_notMem_piece {d : Datum} {x : Bytes} :
    completeMark ∉ piece S d x := by
  unfold piece
  split_ifs <;> simp

theorem completeMark_notMem_whole {d : Datum} {x : Bytes} :
    completeMark ∉ whole S d x := by
  refine fun hmem => (List.mem_append.mp hmem).elim completeMark_notMem_piece ?_
  unfold cut
  split_ifs <;> simp

theorem join_piece_nil {d : Datum} {x : Bytes} :
    join (piece S d [] ++ (piece S d x ++ out)) = join (piece S d x ++ out) := by
  have h := join_piece_piece (S := S) (d := d) (x := []) (y := x) [] out
  simpa using h

/-- **The body of a request.** -/
theorem completes_body (hs : P.state = .bodyIdentity) (he : P.httpErrno = .ok)
    (hlength : P.contentLength = content.length) (hne : content ≠ [])
    (hmax : content.length < ullongMax) (hup : P.upgrade = false) (htype : P.type = .request) :
    Completes S P content P.bodyRead
      (whole S .body content ++ notice S .messageComplete) := by
  induction content generalizing P with
  | nil => exact absurd rfl hne
  | cons c cs ih =>
    cases cs with
    | nil =>
      exact ⟨[], c, P, [], _, rfl, Reads.nil, List.not_mem_nil,
        tick_body_last hs he hlength hup htype, by
          rw [List.nil_append, join_piece_nil, whole, List.append_assoc]⟩
    | cons c' cs =>
      have hmore : 1 < P.contentLength := by
        rw [hlength]
        simp
      have hrest := ih (P := passed P 1) hs he
        (by show P.contentLength - 1 = _; rw [hlength]; rfl) (by simp)
        ((Nat.lt_succ_self _).trans hmax) hup htype
      have hfirst := tick_body (S := S) c hs he hmore (by omega)
      have hnew : (passed P 1).bodyRead = P.bodyRead := by
        have h : (passed P 1).newMessage = P.newMessage := by
          rw [newMessage_of_request htype]
          exact newMessage_of_request htype
        rw [Parser.bodyRead, h]
        rfl
      rw [hnew] at hrest
      refine ((Reads.one hfirst).append_completes ?_ hrest).congr ?_
      · exact fun hmem => (List.mem_append.mp hmem).elim completeMark_notMem_piece
          completeMark_notMem_piece
      · rw [List.append_assoc, join_piece_nil]
        simpa [whole] using join_piece_piece (S := S) (d := .body) (x := [c])
          (y := c' :: cs) [] (cut S .body ++ notice S .messageComplete)

/-- The line feed behind a head. -/
theorem tick_headEnd (hs : P.state = .headersAlmostDone) (he : P.httpErrno = .ok)
    (hroom : P.nread < maxHeaderSize) (h : P.PlainHead) :
    tick S P LF = some
      (if P.contentLength = 0 ∨ P.contentLength = ullongMax then
        (P.behindHead.enter P.behindHead.newMessage,
          headMark S P ++ notice S .messageComplete)
      else (P.behindHead.enter .bodyIdentity, headMark S P)) := by
  have hswitch : switch (P.reading (P.nread + 1)) LF =
      headersAlmostDone (P.reading (P.nread + 1)) LF := by
    simp only [switch, Parser.reading, hs]
  have hplain : headersAlmostDone (P.reading (P.nread + 1)) LF =
      (if P.contentLength = 0 ∨ P.contentLength = ullongMax then completeMessage P.behindHead
        else ParserLib.brk (P.behindHead.enter .bodyIdentity)).doing
          [.headersComplete P.method P.httpMajor P.httpMinor P.statusCode] :=
    headersAlmostDone_plain (P := P.reading (P.nread + 1)) ⟨h.type, h.method, h.encoding,
      h.chunked, h.trailing, h.upgrade, h.skipbody⟩
  have hcount : P.Counting := ⟨he, by rw [hs]; rfl, hroom⟩
  rw [hplain] at hswitch
  by_cases hnone : P.contentLength = 0 ∨ P.contentLength = ullongMax
  · rw [if_pos hnone] at hswitch
    rw [tick_switch hcount (by rw [hs]; rfl) hswitch rfl, if_pos hnone, hs]
    simp [Case.shows, completeMessage, ParserLib.brk, Case.doing, Action.shows, Action.adds,
      Action.opens, openPiece, State.openDatum, headMark, notice]
  · rw [if_neg hnone] at hswitch
    rw [tick_switch hcount (by rw [hs]; rfl) hswitch rfl, if_neg hnone, hs]
    simp [Case.shows, ParserLib.brk, Case.doing, Action.shows, Action.adds, Action.opens, openPiece,
      State.openDatum, headMark]

/-- A request that the parser takes as it stands. -/
structure PlainRequest (m : HttpMethod) (url : Bytes) (major minor : ℕ)
    (lines : List (Bytes × Bytes)) (content : Bytes) : Prop where
  method : m ∈ httpMethodMap.map Prod.fst ∧ m ≠ .connect
  target : IsUrl url
  version : major < 10 ∧ minor < 10
  plain : PlainLines lines content.length
  announced : content ≠ [] → lines.any isLengthLine = true
  bound : content.length ≤ 10 * lengthBound
  head : (requestWire (methodStrings m) url major minor lines []).length ≤ maxHeaderSize

instance (m : HttpMethod) (url : Bytes) (major minor : ℕ) (lines : List (Bytes × Bytes))
    (content : Bytes) : Decidable (PlainRequest m url major minor lines content) :=
  decidable_of_iff
    ((m ∈ httpMethodMap.map Prod.fst ∧ m ≠ .connect) ∧ IsUrl url ∧ (major < 10 ∧ minor < 10) ∧
      PlainLines lines content.length ∧ (content ≠ [] → lines.any isLengthLine = true) ∧
      content.length ≤ 10 * lengthBound ∧
      (requestWire (methodStrings m) url major minor lines []).length ≤ maxHeaderSize)
    ⟨fun h => ⟨h.1, h.2.1, h.2.2.1, h.2.2.2.1, h.2.2.2.2.1, h.2.2.2.2.2.1, h.2.2.2.2.2.2⟩,
      fun h => ⟨h.1, h.2, h.3, h.4, h.5, h.6, h.7⟩⟩

/-- Whether the connection goes on behind a request. -/
def keepsAlive (lines : List (Bytes × Bytes)) (major minor : ℕ) : Bool :=
  if 0 < major ∧ 0 < minor then !blockWords lines .close else blockWords lines .keepAlive

/-- What is reported of a request. -/
def requestStream (S : Settings) (m : HttpMethod) (url : Bytes) (major minor status : ℕ)
    (lines : List (Bytes × Bytes)) (content : Bytes) : Stream :=
  notice S .messageBegin ++ whole S .url url ++
    lines.flatMap (lineStream S) ++
    (if S.headersComplete then [.mark (.headersComplete m major minor status)] else []) ++
    (if content = [] then [] else whole S .body content) ++
    notice S .messageComplete

theorem requestWire_eq (name : Bytes) : requestWire name url major minor lines content =
    requestLine name url major minor ++ (headerBlock lines ++ [CR]) ++ [LF] ++ content := by
  simp only [requestWire, requestLine, List.append_assoc]
  rfl

/-- A parser behind a request, and in front of the next one if there may be one. -/
structure Parser.Behind (P : Parser) (status : ℕ) (persists : Bool) : Prop where
  type : P.type = .request
  state : P.state = if persists then .startReq else .dead
  errno : P.httpErrno = .ok
  nread : P.nread = 0
  status : P.statusCode = status

theorem behind_behindHead (htype : P.type = .request) (he : P.httpErrno = .ok) :
    (P.behindHead.enter P.behindHead.newMessage).Behind P.statusCode P.persists :=
  ⟨htype, newMessage_of_request (P := P.behindHead) htype, he, rfl, rfl⟩

theorem behind_bodyRead (htype : P.type = .request) (he : P.httpErrno = .ok) :
    (P.behindHead.enter .bodyIdentity).bodyRead.Behind P.statusCode P.persists :=
  ⟨htype, newMessage_of_request (P := P.behindHead.enter .bodyIdentity) htype, he, rfl, rfl⟩

theorem completeMark_notMem_head (url : Bytes) (lines : List (Bytes × Bytes)) : completeMark ∉
    notice S .messageBegin ++ whole S .url url ++
      (lines.flatMap (lineStream S) ++ []) := by
  have hnotice : completeMark ∉ notice S .messageBegin := by
    unfold notice
    split_ifs <;> simp
  simp only [List.append_nil, List.mem_append, List.mem_flatMap, lineStream, not_or, not_exists,
    not_and]
  exact ⟨⟨hnotice, completeMark_notMem_whole⟩, fun l _ =>
    ⟨completeMark_notMem_whole, completeMark_notMem_whole⟩⟩

/-- **A plain request is read**, and is complete at its last byte. -/
theorem completes_request (hP : P.Ready) (h : PlainRequest m url major minor lines content) :
    ∃ P', Completes S P (requestWire (methodStrings m) url major minor lines content) P'
      (requestStream S m url major minor P.statusCode lines content) ∧
      P'.Behind P.statusCode (keepsAlive lines major minor) := by
  have hlength : (requestLine (methodStrings m) url major minor).length +
      (headerBlock lines).length + 2 ≤ maxHeaderSize := by
    have := h.head
    rw [requestWire_eq] at this
    simp only [List.length_append, List.length_cons, List.length_nil] at this
    omega
  obtain ⟨i, hline⟩ := reads_requestLine (S := S) hP h.method h.target h.version.1
    h.version.2 (by omega)
  set k := (requestLine (methodStrings m) url major minor).length with hk
  set P₀ := (P.behindLine m major minor i).reading k with hP₀
  obtain ⟨i', s, hfold⟩ := blockFold_plain (P := P₀) h.plain rfl rfl (fun _ => rfl) h.bound
  set Q := (P₀.framed (blockWords lines) (blockLength content.length lines) i' s).reading
    (k + (headerBlock lines).length) with hQ
  -- the carriage return of the empty line ends the last header
  have hcr : Reads S Q [CR] ((Q.enter .headersAlmostDone).reading (Q.nread + 1)) [] := by
    refine Reads.brk ⟨hP.errno, rfl, by rw [hQ, nread_reading]; omega⟩ rfl rfl ?_ Reads.nil
    rfl
  have hblock : Reads S P₀ (headerBlock lines ++ [CR])
      ((Q.enter .headersAlmostDone).reading (Q.nread + 1))
      (lines.flatMap (lineStream S) ++ []) :=
    reads_headerBlock rfl hP.errno (by rw [hP₀, nread_reading]; omega) h.plain.wellFormed hfold
      (by decide) hcr
  set R := (Q.enter .headersAlmostDone).reading (Q.nread + 1) with hR
  have hplain : R.PlainHead := ⟨hP.type, h.method.2, rfl, rfl, rfl, rfl, rfl⟩
  have hend := tick_headEnd (S := S) (P := R) rfl hP.errno
    (by rw [hR, nread_reading, hQ, nread_reading]; omega) hplain
  have hhead := hline.append hblock
  have hnoHead := completeMark_notMem_head (S := S) url lines
  have herrno : R.httpErrno = .ok := hP.errno
  have hpersists : R.persists = keepsAlive lines major minor := rfl
  have hstatus : R.statusCode = P.statusCode := rfl
  rw [← hpersists, ← hstatus]
  have hmark : headMark S R = if S.headersComplete then
      [.mark (.headersComplete m major minor R.statusCode)] else [] := rfl
  have hlen : R.contentLength = (blockLength content.length lines).getD ullongMax := rfl
  have hmax : content.length < ullongMax :=
    h.bound.trans_lt (by decide)
  rw [requestWire_eq]
  by_cases hcontent : content = []
  · have hnone : R.contentLength = 0 ∨ R.contentLength = ullongMax := by
      rw [hlen, blockLength, hcontent]
      split_ifs
      · exact .inl rfl
      · exact .inr rfl
    rw [if_pos hnone] at hend
    refine ⟨_, ?_, behind_behindHead hplain.type herrno⟩
    have hall := hhead.completes hnoHead hend
    rw [hcontent, List.append_nil, requestStream, if_pos rfl, List.append_nil]
    simpa only [List.append_assoc, List.append_nil, hmark] using hall
  · have hany := h.announced hcontent
    have hlength' : R.contentLength = content.length := by rw [hlen, blockLength, if_pos hany]; rfl
    have hpos := List.length_pos_iff.mpr hcontent
    rw [if_neg (by rw [hlength']; omega)] at hend
    have hbody := completes_body (S := S) (P := R.behindHead.enter .bodyIdentity) rfl
      hP.errno hlength' hcontent hmax rfl hP.type
    refine ⟨_, ?_, behind_bodyRead hplain.type herrno⟩
    have hall := (hhead.append (Reads.one hend)).append_completes ?_ hbody
    · rw [requestStream, if_neg hcontent]
      simpa only [List.append_assoc, List.append_nil, hmark] using hall
    · refine fun hmem => (List.mem_append.mp hmem).elim hnoHead ?_
      unfold headMark
      split_ifs <;> simp

end ParserLib

end Server
