/-
No assertion of the parser fails.

* `Parser.Sane` — what the struct keeps: the bounds of its fields, which make up for the
  fields being unbounded here, and for each state what the assertions there ask for;
* `Safe.turn` — a pass through the loop at any byte, with anything behind it, does not abort,
  and keeps that or sets an errno;
* `Parser.Live.execute` — so does a call, which ends with at most one mark and, unless it
  has stopped, without an errno;
* `never_aborts` — no call aborts, whatever has been parsed before and however it ended.

The macros for callbacks assert that there is no errno.  `loop` asks this for the marks left
over; a pass begins without an errno and ends where it sets one, so that there it need not be
asked.
-/
import AsyncServer.ParserReads

namespace Server

open CString

namespace ParserLib

/-! ### The invariant -/

/-- How many bytes of a name or a token can have been matched. -/
def HeaderState.room : HeaderState → ℕ
  | .C => 0
  | .CO => 1
  | .CON => 2
  | .matchingConnection | .matchingConnectionKeepAlive => 10
  | .matchingProxyConnection => 16
  | .matchingContentLength => 14
  | .matchingTransferEncoding => 17
  | .matchingUpgrade | .matchingConnectionUpgrade | .matchingTransferEncodingChunked => 7
  | .matchingConnectionClose => 5
  | .matchingTransferEncodingTokenStart | .matchingConnectionTokenStart => 0
  | _ => 18

/-- The states of the switch over a name. -/
def HeaderState.ofName : HeaderState → Bool
  | .general | .C | .CO | .CON | .matchingConnection | .matchingProxyConnection
  | .matchingContentLength | .matchingTransferEncoding | .matchingUpgrade | .connection
  | .contentLength | .transferEncoding | .upgrade => true
  | _ => false

/-- The bounds of the fields. -/
structure Parser.Bounded (P : Parser) : Prop where
  nread : P.nread ≤ maxHeaderSize
  length : P.contentLength ≤ ullongMax
  status : P.statusCode ≤ 999
  major : P.httpMajor ≤ 9
  minor : P.httpMinor ≤ 9
  index : P.index ≤ 18

/-- What belongs to the state. -/
def Parser.Local (P : Parser) : Prop :=
  match P.state with
  -- the string of the method is not read behind its NUL
  | .reqMethod => P.index ≤ (methodStrings P.method).length
  | .headerField => P.headerState.ofName = true ∧ P.index ≤ P.headerState.room
  | .headerValue =>
    (P.headerState ≠ .connection ∧ P.headerState ≠ .transferEncoding) ∧
      P.index ≤ P.headerState.room
  | .bodyIdentity => 0 < P.contentLength ∧ P.contentLength < ullongMax
  | .chunkSizeStart => P.flags.chunked = true ∧ P.nread = 0
  | .chunkSize | .chunkParameters | .chunkSizeAlmostDone =>
    P.flags.chunked = true ∧ P.contentLength < ullongMax
  | .chunkData =>
    P.flags.chunked = true ∧ 0 < P.contentLength ∧ P.contentLength < ullongMax
  | .chunkDataAlmostDone => P.flags.chunked = true ∧ P.contentLength = 0
  | .chunkDataDone => P.flags.chunked = true
  | _ => True

/-- **What the struct keeps.** -/
structure Parser.Sane (P : Parser) : Prop where
  bounded : P.Bounded
  locally : P.Local

/-- No assertion fails, and the struct is as it should be unless there is an errno. -/
structure Safe (t : Case) : Prop where
  verdict : t.verdict ≠ .abort
  sane : t.verdict ≠ .stop → t.parser.Sane
  errno : t.verdict = .stop → t.parser.httpErrno ≠ .ok

/-- What an inner loop leaves. -/
structure Inner.Sane (s : State) (r : Inner) : Prop where
  ending : r.ending ≠ .abort ∧ r.ending ≠ .error .ok
  parser : r.parser.Sane
  state : r.parser.state = s

theorem Inner.Sane.ite {c : Prop} [Decidable c] {s : State} {r r' : Inner} (h : r.Sane s)
    (h' : r'.Sane s) : (if c then r else r').Sane s := by
  split_ifs
  exacts [h, h']

theorem Inner.Sane.further {s : State} {r : Inner} (h : r.Sane s) : r.further.Sane s :=
  ⟨h.ending, h.parser, h.state⟩

variable {S : Settings} {P P' : Parser} {ch : UInt8} {rest bs : Bytes} {t t' : Case} {s : State}

theorem Parser.Bounded.enter (h : P.Bounded) (s : State) : (P.enter s).Bounded :=
  ⟨h.nread, h.length, h.status, h.major, h.minor, h.index⟩

theorem Parser.local_of (hs : P.state = s) (h : (P.enter s).Local) : P.Local := by
  subst hs
  exact h

theorem bounded_reading {n : ℕ} (h : P.Bounded) (hn : n ≤ maxHeaderSize) :
    (P.reading n).Bounded :=
  ⟨hn, h.length, h.status, h.major, h.minor, h.index⟩

theorem local_reading {n : ℕ} (h : P.Local) (hs : P.state ≠ .chunkSizeStart) :
    (P.reading n).Local := by
  cases hstate : P.state with
  | chunkSizeStart => exact absurd hstate hs
  | _ =>
    rw [Parser.Local, hstate] at h
    exact Parser.local_of (P := P.reading n) hstate h

namespace Safe

theorem brk (h : P.Sane) : Safe (brk P) :=
  ⟨by simp [ParserLib.brk], fun _ => h, fun hv => absurd hv (by simp [ParserLib.brk])⟩

theorem fail {e : Errno} (he : e ≠ .ok) : Safe (fail P e) :=
  ⟨by simp [ParserLib.fail], fun hv => absurd rfl hv, fun _ => he⟩

theorem leave (h : t.parser.Sane) : Safe { t with verdict := .leave } :=
  ⟨by simp, fun _ => h, fun hv => absurd hv (by simp)⟩

theorem ite {c : Prop} [Decidable c] (h : Safe t) (h' : Safe t') : Safe (if c then t else t') := by
  split_ifs
  exacts [h, h']

theorem doing {as : List Action} (h : Safe t) : Safe (t.doing as) :=
  ⟨h.verdict, h.sane, h.errno⟩

theorem expect {ok : Bool} {e : Errno} (h : P.Bounded) (hs : (P.enter s).Local)
    (he : e ≠ .ok) : Safe (expect ok e P s) :=
  .ite (.brk ⟨h.enter s, hs⟩) (.fail he)

theorem local_newMessage (P : Parser) : (P.enter P.newMessage).Local := by
  unfold Parser.Local Parser.newMessage Parser.startState
  split_ifs <;> trivial

theorem sane_completeMessage (h : P.Bounded) : (ParserLib.completeMessage P).parser.Sane :=
  ⟨h.enter _, local_newMessage P⟩

theorem completeMessage (h : P.Bounded) : Safe (completeMessage P) :=
  .doing (.brk (sane_completeMessage h))

theorem messageDone (h : P.Bounded) : Safe (messageDone P) :=
  .ite (.leave (sane_completeMessage h)) (.completeMessage h)

theorem headersDone (h : P.Bounded) : Safe (headersDone P ch) := by
  have h' : ({ P with nread := 0 } : Parser).Bounded :=
    ⟨Nat.zero_le _, h.length, h.status, h.major, h.minor, h.index⟩
  refine .ite (.fail (by decide)) (.ite (.leave (sane_completeMessage h'))
    (.ite (.completeMessage h') ?_))
  dsimp only
  by_cases hchunked : P.flags.chunked = true
  · rw [if_pos hchunked]
    exact .brk ⟨h'.enter _, hchunked, rfl⟩
  rw [if_neg hchunked]
  refine .ite (.ite (.fail (by decide)) (.brk ⟨h'.enter _, trivial⟩)) ?_
  by_cases hzero : P.contentLength = 0
  · rw [if_pos hzero]
    exact .completeMessage h'
  rw [if_neg hzero]
  by_cases hmax : P.contentLength = ullongMax
  · rw [if_neg (not_not.mpr hmax)]
    exact .ite (.completeMessage h') (.brk ⟨h'.enter _, trivial⟩)
  · rw [if_pos hmax]
    exact .brk ⟨h'.enter _, Nat.pos_of_ne_zero hzero, lt_of_le_of_ne h.length hmax⟩

theorem headersAlmostDone (h : P.Bounded) : Safe (headersAlmostDone P ch) := by
  refine .ite (.fail (by decide))
    (.ite (.doing (.messageDone (h.enter _))) (.ite (.fail (by decide)) ?_))
  exact .doing (.headersDone ⟨h.nread, h.length, h.status, h.major, h.minor, h.index⟩)

theorem headerFieldStart (h : P.Bounded) : Safe (headerFieldStart P ch) := by
  refine .ite (.brk ⟨h.enter _, trivial⟩) (.ite (.headersAlmostDone (h.enter _))
    (.ite (.fail (by decide)) ?_))
  refine .doing (.brk ⟨⟨h.nread, h.length, h.status, h.major, h.minor, Nat.zero_le _⟩, ?_,
    Nat.zero_le _⟩)
  show (firstHeaderState (token ch)).ofName = true
  unfold firstHeaderState
  split_ifs <;> rfl

theorem digitVal_le_nine (h : isNum ch = true) : digitVal ch ≤ 9 := by
  simp only [isNum, Bool.and_eq_true, decide_eq_true_eq, UInt8.le_iff_toNat_le] at h
  have h57 : byte '9' = 57 := rfl
  have h48 : byte '0' = 48 := rfl
  rw [h57, h48] at h
  have : ch.toNat ≤ 57 := h.2
  simp only [digitVal]
  omega

/-- A value begins with nothing matched. -/
theorem value {f : Flags} {l : ℕ} {x : HeaderState} (h : P.Bounded) (hl : l ≤ ullongMax)
    (hx : x ≠ .connection ∧ x ≠ .transferEncoding) :
    Safe (ParserLib.brk { P.enter .headerValue with
      index := 0, flags := f, contentLength := l, headerState := x }) :=
  .brk ⟨⟨h.nread, hl, h.status, h.major, h.minor, Nat.zero_le _⟩, hx, Nat.zero_le _⟩

theorem headerValueStart (h : P.Bounded) : Safe (headerValueStart P ch) := by
  refine .doing ?_
  dsimp only
  split
  case h_4 =>
    by_cases hnum : isNum ch = true
    · rw [if_neg (by simp [hnum])]
      exact .ite (.fail (by decide))
        (value h ((digitVal_le_nine hnum).trans (by decide)) (by decide))
    · rw [if_pos (by simp [hnum])]
      exact .fail (by decide)
  case h_2 => exact value h h.length (by split_ifs <;> decide)
  case h_6 => exact value h h.length (by split_ifs <;> decide)
  case h_3 hx => exact value h h.length (by rw [hx]; decide)
  case h_5 hx => exact value h h.length (by rw [hx]; decide)
  case h_7 hx => exact value h h.length (by rw [hx]; decide)
  all_goals exact value h h.length (by decide)

theorem headerValueDiscardWs (h : P.Bounded) (hs : P.state = .headerValueDiscardWs) :
    Safe (headerValueDiscardWs P ch) :=
  .ite (.brk ⟨h, Parser.local_of hs trivial⟩) (.ite (.brk ⟨h.enter _, trivial⟩)
    (.ite (.brk ⟨h.enter _, trivial⟩) (.headerValueStart h)))

theorem bounded_addFlag (h : P.Bounded) : (addFlag P).Bounded := by
  unfold addFlag
  split <;> exact ⟨h.nread, h.length, h.status, h.major, h.minor, h.index⟩

theorem headerValueLws (h : P.Bounded) : Safe (headerValueLws P ch) := by
  refine .ite (.headerValueStart ?_) (.headerFieldStart ((bounded_addFlag h).enter _))
  split_ifs <;> exact ⟨h.nread, h.length, h.status, h.major, h.minor, h.index⟩

theorem headerValueDiscardLws (h : P.Bounded) : Safe (headerValueDiscardLws P ch) :=
  .ite (.brk ⟨h.enter _, trivial⟩)
    (.ite (.fail (by decide)) (.doing (.headerFieldStart ((bounded_addFlag h).enter _))))

theorem headerAlmostDone (h : P.Bounded) : Safe (headerAlmostDone P ch) :=
  .expect h trivial (by decide)

/-! ### First lines -/

theorem bounded_beginMessage (h : P.Bounded) : (beginMessage P).Bounded :=
  ⟨h.nread, Nat.le_refl _, h.status, h.major, h.minor, h.index⟩

/-- Every method has a name, and none is long. -/
theorem length_methodStrings (m : HttpMethod) : (methodStrings m).length ≤ 17 := by
  cases m <;> decide

theorem length_firstMethod {m : HttpMethod} (h : firstMethod ch = some m) :
    2 ≤ (methodStrings m).length := by
  have hall : ∀ row ∈ [(byte 'A', HttpMethod.acl), (byte 'B', .bind), (byte 'C', .connect),
      (byte 'D', .delete), (byte 'G', .get), (byte 'H', .head), (byte 'L', .lock),
      (byte 'M', .mkcol), (byte 'N', .notify), (byte 'O', .options), (byte 'P', .post),
      (byte 'R', .report), (byte 'S', .subscribe), (byte 'T', .trace), (byte 'U', .unlock)],
      2 ≤ (methodStrings row.2).length := by decide
  obtain ⟨l₁, l₂, heq, -⟩ := List.lookup_eq_some_iff.mp h
  exact hall (ch, m) (by rw [heq]; simp)

theorem length_methodTurns {m m' : HttpMethod} {i : ℕ}
    (h : methodTurns.lookup (m, i, ch) = some m') : i + 1 ≤ (methodStrings m').length := by
  have hall : ∀ row ∈ methodTurns, row.1.2.1 + 1 ≤ (methodStrings row.2).length := by decide
  obtain ⟨l₁, l₂, heq, -⟩ := List.lookup_eq_some_iff.mp h
  exact hall ((m, i, ch), m') (by rw [heq]; simp)

theorem startReq (h : P.Bounded) (hs : P.state = .startReq) : Safe (startReq P ch) := by
  refine .ite (.brk ⟨h, Parser.local_of hs trivial⟩) (.ite (.fail (by decide)) ?_)
  dsimp only
  split
  · exact .fail (by decide)
  · rename_i m hm
    have hlength := length_firstMethod hm
    refine .doing (.brk
      ⟨⟨h.nread, Nat.le_refl _, h.status, h.major, h.minor, by simp [Parser.enter]⟩,
      ?_⟩)
    show 1 ≤ (methodStrings m).length
    omega

theorem reqMethod (h : P.Bounded) (hs : P.state = .reqMethod)
    (hindex : P.index ≤ (methodStrings P.method).length) : Safe (reqMethod P ch) := by
  have hon : ∀ m, P.index + 1 ≤ (methodStrings m).length →
      Safe (ParserLib.brk { P with index := P.index + 1, method := m }) := fun m hm =>
    .brk ⟨⟨h.nread, h.length, h.status, h.major, h.minor,
      (hm.trans (length_methodStrings m)).trans (by decide)⟩,
      Parser.local_of (s := .reqMethod) hs hm⟩
  unfold ParserLib.reqMethod
  dsimp only
  by_cases hzero : ch = 0
  · rw [if_pos hzero]
    exact .fail (by decide)
  rw [if_neg hzero]
  refine .ite (.brk ⟨?_, trivial⟩) ?_
  · exact ⟨h.nread, h.length, h.status, h.major, h.minor,
      Nat.succ_le_succ (hindex.trans (length_methodStrings _))⟩
  by_cases hmatch : ch = charAt (methodStrings P.method) P.index
  · rw [if_pos hmatch]
    refine hon P.method (Nat.lt_of_le_of_ne hindex fun heq => hzero ?_)
    rw [hmatch, charAt, heq, List.getD_eq_default _ _ le_rfl]
  rw [if_neg hmatch]
  refine .ite ?_ (.fail (by decide))
  split
  · exact .fail (by decide)
  · rename_i m hm
    exact hon m (length_methodTurns hm)

theorem local_of_openDatum (h : P.state.openDatum = some .url) : P.Local := by
  unfold Parser.Local
  cases hs : P.state <;> simp_all [State.openDatum]

theorem urlChar (h : P.Bounded) : Safe (urlChar P ch) := by
  unfold ParserLib.urlChar
  dsimp only
  split_ifs with hdead
  · exact .fail (by decide)
  · exact .brk ⟨h.enter _, local_of_openDatum ((Keeps.openDatum_parseUrlChar _).resolve_left hdead)⟩

theorem reqSpacesBeforeUrl (h : P.Bounded) (hs : P.state = .reqSpacesBeforeUrl) :
    Safe (reqSpacesBeforeUrl P ch) := by
  refine .ite (.brk ⟨h, Parser.local_of hs trivial⟩) (.doing (.urlChar ?_))
  split_ifs
  exacts [h.enter _, h]

theorem reqSchema (h : P.Bounded) : Safe (reqSchema P ch) := .ite (.fail (by decide)) (.urlChar h)

theorem reqUrl (h : P.Bounded) : Safe (reqUrl P ch) := by
  refine .ite (.doing (.brk ⟨h.enter _, trivial⟩)) (.ite (.doing (.brk ⟨?_, ?_⟩)) (.urlChar h))
  · exact ⟨h.nread, h.length, h.status, Nat.zero_le _, Nat.le_refl _, h.index⟩
  · dsimp only [Parser.Local, Parser.enter]
    split_ifs <;> trivial

theorem reqHttpStart (h : P.Bounded) (hs : P.state = .reqHttpStart) : Safe (reqHttpStart P ch) :=
  .ite (.brk ⟨h, Parser.local_of hs trivial⟩) (.ite (.brk ⟨h.enter _, trivial⟩)
    (.ite (.brk ⟨h.enter _, trivial⟩) (.fail (by decide))))

theorem httpMajor (h : P.Bounded)
    (hs : ({ P.enter s with httpMajor := digitVal ch } : Parser).Local) :
    Safe (httpMajor P ch s) := by
  unfold ParserLib.httpMajor
  by_cases hnum : isNum ch = true
  · rw [if_neg (by simp [hnum])]
    exact .brk ⟨⟨h.nread, h.length, h.status, digitVal_le_nine hnum, h.minor, h.index⟩, hs⟩
  · rw [if_pos (by simp [hnum])]
    exact .fail (by decide)

theorem httpMinor (h : P.Bounded)
    (hs : ({ P.enter s with httpMinor := digitVal ch } : Parser).Local) :
    Safe (httpMinor P ch s) := by
  unfold ParserLib.httpMinor
  by_cases hnum : isNum ch = true
  · rw [if_neg (by simp [hnum])]
    exact .brk ⟨⟨h.nread, h.length, h.status, h.major, digitVal_le_nine hnum, h.index⟩, hs⟩
  · rw [if_pos (by simp [hnum])]
    exact .fail (by decide)

theorem reqHttpEnd (h : P.Bounded) : Safe (reqHttpEnd P ch) :=
  .ite (.brk ⟨h.enter _, trivial⟩) (.ite (.brk ⟨h.enter _, trivial⟩) (.fail (by decide)))

theorem startRes (h : P.Bounded) (hs : P.state = .startRes) : Safe (startRes P ch) :=
  .ite (.brk ⟨h, Parser.local_of hs trivial⟩)
    (.ite (.doing (.brk ⟨(bounded_beginMessage h).enter _, trivial⟩)) (.fail (by decide)))

theorem startReqOrRes (h : P.Bounded) (hs : P.state = .startReqOrRes) :
    Safe (startReqOrRes P ch) := by
  have h' := bounded_beginMessage h
  refine .ite (.brk ⟨h, Parser.local_of hs trivial⟩)
    (.ite (.doing (.brk ⟨h'.enter _, trivial⟩)) (.startReq ?_ rfl))
  exact ⟨h'.nread, h'.length, h'.status, h'.major, h'.minor, h'.index⟩

theorem resOrRespH (h : P.Bounded) : Safe (resOrRespH P ch) := by
  refine .ite (.brk ⟨?_, trivial⟩) (.ite (.fail (by decide)) (.brk ⟨?_, ?_⟩))
  · exact ⟨h.nread, h.length, h.status, h.major, h.minor, h.index⟩
  · exact ⟨h.nread, h.length, h.status, h.major, h.minor, by simp [Parser.enter]⟩
  · exact (by decide : 2 ≤ (methodStrings .head).length)

theorem resFirstStatusCode (h : P.Bounded) (hs : P.state = .resFirstStatusCode) :
    Safe (resFirstStatusCode P ch) := by
  unfold ParserLib.resFirstStatusCode
  by_cases hnum : isNum ch = true
  · rw [if_neg (by simp [hnum])]
    have hdigit := digitVal_le_nine hnum
    exact .brk ⟨⟨h.nread, h.length, hdigit.trans (by decide), h.major, h.minor, h.index⟩, trivial⟩
  · rw [if_pos (by simp [hnum])]
    exact .ite (.brk ⟨h, Parser.local_of hs trivial⟩) (.fail (by decide))

theorem resStatus (h : P.Bounded) (hs : P.state = .resStatus) : Safe (resStatus P ch) :=
  .ite (.doing (.brk ⟨h.enter _, trivial⟩)) (.ite (.doing (.brk ⟨h.enter _, trivial⟩))
    (.brk ⟨h, Parser.local_of hs trivial⟩))

theorem resStatusStart (h : P.Bounded) : Safe (resStatusStart P ch) := by
  have h' : ({ P.enter .resStatus with index := 0 } : Parser).Bounded :=
    ⟨h.nread, h.length, h.status, h.major, h.minor, Nat.zero_le _⟩
  exact .doing (.ite (.resStatus h' rfl) (.brk ⟨h', trivial⟩))

theorem resStatusCode (h : P.Bounded) (hs : P.state = .resStatusCode) :
    Safe (resStatusCode P ch) := by
  refine .ite (.ite (.brk ⟨h.enter _, trivial⟩)
    (.ite (.resStatusStart (h.enter _)) (.fail (by decide)))) ?_
  dsimp only
  split_ifs with hlarge
  · exact .fail (by decide)
  · exact .brk ⟨⟨h.nread, h.length, not_lt.mp hlarge, h.major, h.minor, h.index⟩,
      Parser.local_of (s := .resStatusCode) hs trivial⟩

/-! ### Bodies -/

theorem chunkSizeStart (h : P.Bounded) (hchunked : P.flags.chunked = true) (hn : P.nread = 1) :
    Safe (chunkSizeStart P ch) := by
  unfold ParserLib.chunkSizeStart
  rw [if_neg (by simp [hchunked, hn])]
  split
  · exact .fail (by decide)
  · rename_i v hv
    have hle := Keeps.unhexVal_le hv
    refine .brk ⟨⟨h.nread, ?_, h.status, h.major, h.minor, h.index⟩, hchunked, ?_⟩
    · exact hle.trans (by decide)
    · exact hle.trans_lt (by decide)

theorem chunkSize (h : P.Bounded) (hs : P.state = .chunkSize) (hchunked : P.flags.chunked = true)
    (hmax : P.contentLength < ullongMax) : Safe (chunkSize P ch) := by
  unfold ParserLib.chunkSize
  rw [if_neg (by simp [hchunked])]
  refine .ite (.brk ⟨h.enter _, hchunked, hmax⟩) ?_
  split
  · exact .ite (.brk ⟨h.enter _, hchunked, hmax⟩) (.fail (by decide))
  · rename_i v hv
    have hle := Keeps.unhexVal_le hv
    split_ifs with hlarge
    · exact .fail (by decide)
    · have hlt : P.contentLength * 16 + v < ullongMax := by
        simp only [ullongMax] at hlarge ⊢
        omega
      have hmod : (P.contentLength * 16 + v) % 2 ^ 64 = P.contentLength * 16 + v :=
        Nat.mod_eq_of_lt (by simp only [ullongMax] at hlt; omega)
      rw [hmod]
      exact .brk ⟨⟨h.nread, hlt.le, h.status, h.major, h.minor, h.index⟩,
        Parser.local_of (s := .chunkSize) hs ⟨hchunked, hlt⟩⟩

theorem chunkParameters (h : P.Bounded) (hs : P.state = .chunkParameters)
    (hchunked : P.flags.chunked = true) (hmax : P.contentLength < ullongMax) :
    Safe (chunkParameters P ch) := by
  unfold ParserLib.chunkParameters
  rw [if_neg (by simp [hchunked])]
  exact .ite (.brk ⟨h.enter _, hchunked, hmax⟩)
    (.brk ⟨h, Parser.local_of (s := .chunkParameters) hs ⟨hchunked, hmax⟩⟩)

theorem chunkSizeAlmostDone (h : P.Bounded) (hchunked : P.flags.chunked = true)
    (hmax : P.contentLength < ullongMax) : Safe (chunkSizeAlmostDone P ch) := by
  unfold ParserLib.chunkSizeAlmostDone
  rw [if_neg (by simp [hchunked])]
  refine .ite (.fail (by decide)) (.doing (.brk ?_))
  dsimp only
  split_ifs with hzero
  · exact ⟨⟨Nat.zero_le _, h.length, h.status, h.major, h.minor, h.index⟩, trivial⟩
  · exact ⟨⟨Nat.zero_le _, h.length, h.status, h.major, h.minor, h.index⟩, hchunked,
      Nat.pos_of_ne_zero hzero, hmax⟩

theorem chunkDataAlmostDone (h : P.Bounded) (hchunked : P.flags.chunked = true)
    (hzero : P.contentLength = 0) : Safe (chunkDataAlmostDone P ch) := by
  unfold ParserLib.chunkDataAlmostDone
  rw [if_neg (by simp [hchunked, hzero])]
  exact .doing (.expect h hchunked (by decide))

theorem chunkDataDone (h : P.Bounded) (hchunked : P.flags.chunked = true) :
    Safe (chunkDataDone P ch) := by
  unfold ParserLib.chunkDataDone
  rw [if_neg (by simp [hchunked])]
  refine .ite (.fail (by decide)) (.doing (.brk ⟨?_, hchunked, rfl⟩))
  exact ⟨Nat.zero_le _, h.length, h.status, h.major, h.minor, h.index⟩

theorem bodyIdentity (h : P.Bounded) (hs : P.state = .bodyIdentity) (hpos : 0 < P.contentLength)
    (hmax : P.contentLength < ullongMax) : Safe (bodyIdentity P rest).last := by
  have hpassed : ∀ n, (passed P n).Bounded := fun n =>
    ⟨h.nread, (Nat.sub_le _ _).trans h.length, h.status, h.major, h.minor, h.index⟩
  unfold ParserLib.bodyIdentity
  rw [if_neg (not_or.mpr ⟨hpos.ne', hmax.ne⟩)]
  dsimp only
  split_ifs with hlast
  · exact .doing (.messageDone ((hpassed _).enter _))
  · exact .brk ⟨hpassed _, Parser.local_of (s := .bodyIdentity) hs
      ⟨Nat.pos_of_ne_zero hlast, (Nat.sub_le _ _).trans_lt hmax⟩⟩

theorem chunkData (h : P.Bounded) (hs : P.state = .chunkData) (hchunked : P.flags.chunked = true)
    (hpos : 0 < P.contentLength) (hmax : P.contentLength < ullongMax) :
    Safe (chunkData P rest).last := by
  have hpassed : ∀ n, (passed P n).Bounded := fun n =>
    ⟨h.nread, (Nat.sub_le _ _).trans h.length, h.status, h.major, h.minor, h.index⟩
  unfold ParserLib.chunkData
  rw [if_neg (by simp [hchunked, hpos.ne', hmax.ne])]
  dsimp only
  split_ifs with hlast
  · exact .brk ⟨(hpassed _).enter _, hchunked, hlast⟩
  · exact .brk ⟨hpassed _, Parser.local_of (s := .chunkData) hs
      ⟨hchunked, Nat.pos_of_ne_zero hlast, (Nat.sub_le _ _).trans_lt hmax⟩⟩

/-- **The cases of a single byte.** -/
theorem switch (h : P.Bounded) (hl : P.state ≠ .chunkSizeStart → P.Local)
    (hstart : P.state = .chunkSizeStart → P.flags.chunked = true ∧ P.nread = 1)
    (hsingle : P.state.single = true) : Safe (switch P ch) := by
  cases hs : P.state <;> rw [hs] at hl hstart hsingle <;>
    simp only [ParserLib.switch, hs]
  all_goals first
    | exact absurd hsingle (by decide)
    | exact .ite (.brk ⟨h, Parser.local_of hs trivial⟩) (.fail (by decide))
    | exact .expect h trivial (by decide)
    | exact startReqOrRes h hs | exact resOrRespH h | exact startRes h hs
    | exact httpMajor h trivial | exact httpMinor h trivial | exact resFirstStatusCode h hs
    | exact resStatusCode h hs | exact resStatusStart h | exact resStatus h hs | exact startReq h hs
    | exact reqSpacesBeforeUrl h hs | exact reqSchema h | exact reqUrl h
    | exact reqHttpStart h hs | exact reqHttpEnd h | exact headerFieldStart h
    | exact headerValueDiscardWs h hs | exact headerValueDiscardLws h | exact headerValueStart h
    | exact headerValueLws h | exact headerAlmostDone h | exact headersAlmostDone h
    | exact headersDone h | exact messageDone h
    | skip
  case reqMethod =>
    have hlocal := hl (by decide)
    rw [Parser.Local, hs] at hlocal
    exact reqMethod h hs hlocal
  case chunkSizeStart => exact chunkSizeStart h (hstart rfl).1 (hstart rfl).2
  case chunkSize =>
    have hlocal := hl (by decide)
    rw [Parser.Local, hs] at hlocal
    exact chunkSize h hs hlocal.1 hlocal.2
  case chunkParameters =>
    have hlocal := hl (by decide)
    rw [Parser.Local, hs] at hlocal
    exact chunkParameters h hs hlocal.1 hlocal.2
  case chunkSizeAlmostDone =>
    have hlocal := hl (by decide)
    rw [Parser.Local, hs] at hlocal
    exact chunkSizeAlmostDone h hlocal.1 hlocal.2
  case chunkDataAlmostDone =>
    have hlocal := hl (by decide)
    rw [Parser.Local, hs] at hlocal
    exact chunkDataAlmostDone h hlocal.1 hlocal.2
  case chunkDataDone =>
    have hlocal := hl (by decide)
    rw [Parser.Local, hs] at hlocal
    exact chunkDataDone h hlocal

/-! ### The inner loops -/

theorem room_le (x : HeaderState) : x.room ≤ 18 := by cases x <;> decide

theorem room_matching {s : Bytes} (c : UInt8) {full : HeaderState} (other : HeaderState)
    (hroom : P.headerState.room = s.length) (hlen : s.length ≤ 17) (hfull : full.room = 18)
    (hother : other.room = 18) (hindex : P.index ≤ P.headerState.room) :
    (matching P s c full other).index ≤ (matching P s c full other).headerState.room ∧
      ((matching P s c full other).headerState = full ∨
        (matching P s c full other).headerState = other ∨
          (matching P s c full other).headerState = P.headerState) := by
  unfold matching
  dsimp only
  split_ifs with hend hlast
  · exact ⟨by show P.index + 1 ≤ _; rw [hother]; omega, .inr (.inl rfl)⟩
  · exact ⟨by show P.index + 1 ≤ _; rw [hfull]; omega, .inl rfl⟩
  · rw [not_or, not_lt] at hend
    exact ⟨by rw [hroom]; exact hend.1, .inr (.inr rfl)⟩

theorem headerFieldChar (ch : UInt8) (h : P.Sane) (hs : P.state = .headerField) :
    ∃ P', headerFieldChar P ch = some P' ∧ P'.Sane ∧ P'.state = .headerField := by
  obtain ⟨hb, hl⟩ := h
  rw [Parser.Local, hs] at hl
  obtain ⟨hname, hroom⟩ := hl
  have hon : ∀ {i : ℕ} {x : HeaderState} {u : Bool}, x.ofName = true → i ≤ x.room →
      ({ P with index := i, headerState := x, usesTransferEncoding := u } : Parser).Sane :=
    fun hx hi => ⟨⟨hb.nread, hb.length, hb.status, hb.major, hb.minor, hi.trans (room_le _)⟩,
      Parser.local_of (s := .headerField) hs ⟨hx, hi⟩⟩
  have hmatch : ∀ {s : Bytes} {c : UInt8} {full : HeaderState} {u : Bool},
      P.headerState.room = s.length → s.length ≤ 17 → full.room = 18 → full.ofName = true →
      ({ matching P s c full .general with usesTransferEncoding := u } : Parser).Sane ∧
        (matching P s c full .general).state = .headerField := by
    intro s c full u hroom' hlen hfull hof
    obtain ⟨hi, hx⟩ := room_matching c .general hroom' hlen hfull rfl hroom
    obtain ⟨i, x, hm⟩ := matching_frame P s c full .general
    rw [hm] at hi hx ⊢
    refine ⟨hon ?_ hi, hs⟩
    rcases hx with hx | hx | hx <;> rw [hx]
    exacts [hof, rfl, hname]
  have hplain : ∀ {s : Bytes} {c : UInt8} {full : HeaderState},
      P.headerState.room = s.length → s.length ≤ 17 → full.room = 18 → full.ofName = true →
      ∃ P', some (matching P s c full .general) = some P' ∧ P'.Sane ∧ P'.state = .headerField :=
    fun {s c full} h₁ h₂ h₃ h₄ => ⟨_, rfl,
      hmatch (u := (matching P s c full .general).usesTransferEncoding) h₁ h₂ h₃ h₄⟩
  have hfollows : ∀ {found : Bool} {x : HeaderState}, x.ofName = true →
      P.index + 1 ≤ x.room → P.index + 1 ≤ 18 → (follows P found x).Sane := by
    intro found x hx hi hi'
    unfold follows
    split_ifs
    exacts [hon hx hi, hon rfl hi']
  cases hx : P.headerState <;> rw [hx] at hname hroom hmatch hplain <;>
    simp only [ParserLib.headerFieldChar, hx]
  case general | connection | contentLength | transferEncoding | upgrade =>
    have hsame : P.Sane := ⟨hb, Parser.local_of (s := .headerField) hs
      (show P.headerState.ofName = true ∧ P.index ≤ P.headerState.room by
        rw [hx]; exact ⟨rfl, hroom⟩)⟩
    first
      | exact ⟨P, rfl, hsame, hs⟩
      | refine ⟨_, rfl, ?_, ?_⟩
        · split_ifs
          exacts [hon rfl hroom, hsame]
        · split_ifs <;> exact hs
  case C =>
    change P.index ≤ 0 at hroom
    exact ⟨_, rfl, hfollows rfl (by show _ ≤ 1; omega) (by omega), hs⟩
  case CO =>
    change P.index ≤ 1 at hroom
    exact ⟨_, rfl, hfollows rfl (by show _ ≤ 2; omega) (by omega), hs⟩
  case CON =>
    change P.index ≤ 2 at hroom
    refine ⟨_, rfl, ?_, ?_⟩
    · split_ifs
      · exact hfollows rfl (by show _ ≤ 10; omega) (by omega)
      · exact hfollows rfl (by show _ ≤ 14; omega) (by omega)
    · split_ifs <;> exact hs
  case matchingTransferEncoding =>
    refine ⟨_, rfl, ?_, ?_⟩
    · split_ifs
      · exact (hmatch (u := true) rfl (by decide) rfl rfl).1
      · exact (hmatch (u := (matching P _ _ _ _).usesTransferEncoding) rfl (by decide) rfl rfl).1
    · split_ifs <;> exact (hmatch (u := true) rfl (by decide) rfl rfl).2
  case matchingConnection | matchingProxyConnection | matchingContentLength | matchingUpgrade =>
    exact hplain rfl (by decide) rfl rfl
  all_goals exact absurd hname (by decide)

theorem headerValueChar (ch : UInt8) (h : P.Sane) (hs : P.state = .headerValue) :
    (headerValueChar P ch).1.Sane ∧ (headerValueChar P ch).1.state = .headerValue := by
  obtain ⟨hb, hl⟩ := h
  rw [Parser.Local, hs] at hl
  obtain ⟨hvalue, hroom⟩ := hl
  have hon : ∀ {i : ℕ} {x : HeaderState} {f : Flags} {l : ℕ},
      (x ≠ .connection ∧ x ≠ .transferEncoding) → i ≤ x.room → l ≤ ullongMax →
      ({ P with index := i, headerState := x, flags := f, contentLength := l } : Parser).Sane ∧
        ({ P with index := i, headerState := x, flags := f, contentLength := l } : Parser).state =
          .headerValue :=
    fun hx hi hl => ⟨⟨⟨hb.nread, hl, hb.status, hb.major, hb.minor, hi.trans (room_le _)⟩,
      Parser.local_of (s := .headerValue) hs ⟨hx, hi⟩⟩, hs⟩
  have hsame : P.Sane ∧ P.state = .headerValue :=
    ⟨⟨hb, Parser.local_of (s := .headerValue) hs ⟨hvalue, hroom⟩⟩, hs⟩
  have hindex := hb.index
  have hlength : (contentLengthChar P ch).1.Sane ∧
      (contentLengthChar P ch).1.state = .headerValue := by
    unfold contentLengthChar
    dsimp only
    split_ifs
    · exact hon (by decide) hindex hb.length
    · exact hon (by decide) hindex hb.length
    · exact hon (by decide) hindex hb.length
    · refine hon (by decide) hindex ?_
      simp only [ullongMax]
      omega
  have hmatch : ∀ {s : Bytes} {c : UInt8} {full other : HeaderState},
      P.headerState.room = s.length → s.length ≤ 17 → full.room = 18 → other.room = 18 →
      (full ≠ .connection ∧ full ≠ .transferEncoding) →
      (other ≠ .connection ∧ other ≠ .transferEncoding) →
      (matching P s c full other).Sane ∧ (matching P s c full other).state = .headerValue := by
    intro s c full other h₁ h₂ h₃ h₄ hfull hother
    obtain ⟨hi, hx⟩ := room_matching c other h₁ h₂ h₃ h₄ hroom
    obtain ⟨i, x, hm⟩ := matching_frame P s c full other
    rw [hm] at hi hx ⊢
    refine hon (f := P.flags) ?_ hi hb.length
    have hx' : x = full ∨ x = other ∨ x = P.headerState := hx
    rcases hx' with rfl | rfl | rfl
    exacts [hfull, hother, hvalue]
  have hstart : ∀ {c : UInt8} {found any : HeaderState}, P.index = 0 →
      (found ≠ .connection ∧ found ≠ .transferEncoding) →
      (any ≠ .connection ∧ any ≠ .transferEncoding) →
      (tokenStart P c found any).Sane ∧ (tokenStart P c found any).state = .headerValue := by
    intro c found any hzero hfound hany
    unfold tokenStart
    split_ifs
    · exact hon (f := P.flags) hany (by rw [hzero]; exact Nat.zero_le _) hb.length
    · exact hon (f := P.flags) hfound (by rw [hzero]; exact Nat.zero_le _) hb.length
    · exact hsame
    · exact hon (f := P.flags) (by decide) hindex hb.length
  have htoken : ∀ {start : HeaderState}, (start ≠ .connection ∧ start ≠ .transferEncoding) →
      (tokenChar P ch start).Sane ∧ (tokenChar P ch start).state = .headerValue := by
    intro start hst
    unfold tokenChar
    split_ifs
    exacts [hon (f := P.flags) hst (Nat.zero_le _) hb.length, hsame]
  cases hx : P.headerState <;> rw [hx] at hvalue hroom hmatch <;>
    simp only [ParserLib.headerValueChar, hx]
  case contentLength =>
    split_ifs
    exacts [hsame, hlength]
  case contentLengthNum => exact hlength
  case contentLengthWs =>
    split_ifs <;> exact hsame
  case matchingTransferEncodingTokenStart =>
    exact hstart (Nat.le_zero.mp hroom) (by split_ifs <;> decide) (by decide)
  case matchingConnectionTokenStart =>
    exact hstart (Nat.le_zero.mp hroom) (by split_ifs <;> decide) (by decide)
  case matchingTransferEncodingChunked | matchingConnectionKeepAlive | matchingConnectionClose
    | matchingConnectionUpgrade =>
    exact hmatch rfl (by decide) rfl rfl (by decide) (by decide)
  case matchingTransferEncodingToken | matchingConnectionToken => exact htoken (by decide)
  case transferEncodingChunked =>
    split_ifs
    exacts [hon (f := P.flags) (by decide) hindex hb.length, hsame]
  case connectionKeepAlive | connectionClose | connectionUpgrade =>
    simp only [addFlag, hx]
    split_ifs
    exacts [hon (by decide) (Nat.zero_le _) hb.length,
      hon (f := P.flags) (by decide) hindex hb.length, hsame]
  case connection => exact absurd rfl hvalue.1
  case transferEncoding => exact absurd rfl hvalue.2
  all_goals exact hon (f := P.flags) (by decide) hindex hb.length

theorem error_headerValueChar : (ParserLib.headerValueChar P ch).2 ≠ some .ok := by
  have hlength : (contentLengthChar P ch).2 ≠ some .ok := by
    unfold contentLengthChar
    dsimp only
    split_ifs <;> simp
  unfold ParserLib.headerValueChar
  dsimp only
  split
  case h_1 =>
    split_ifs
    exacts [by simp, hlength]
  case h_2 => exact hlength
  case h_3 => split_ifs <;> simp
  all_goals simp

theorem headerFieldLoop (skip : ℕ) (h : P.Sane) (hs : P.state = .headerField) (bs : Bytes) :
    (headerFieldLoop skip P bs).Sane .headerField := by
  induction bs generalizing skip P with
  | nil => cases skip <;> exact ⟨by simp [ParserLib.headerFieldLoop], h, hs⟩
  | cons c bs ih =>
    cases skip with
    | succ skip => exact (ih skip h hs).further
    | zero =>
      rw [ParserLib.headerFieldLoop]
      by_cases htoken : token c = 0
      · rw [if_pos htoken]
        exact ⟨by simp, h, hs⟩
      obtain ⟨P', hchar, h', hs'⟩ := headerFieldChar c h hs
      rw [if_neg htoken, hchar]
      exact (ih _ h' hs').further

theorem headerValueLoop (skip : ℕ) (h : P.Sane) (hs : P.state = .headerValue) (bs : Bytes) :
    (headerValueLoop skip P bs).Sane .headerValue := by
  induction bs generalizing skip P with
  | nil => cases skip <;> exact ⟨by simp [ParserLib.headerValueLoop], h, hs⟩
  | cons c bs ih =>
    cases skip with
    | succ skip => exact (ih skip h hs).further
    | zero =>
      have hvalue := h.locally
      rw [Parser.Local, hs] at hvalue
      have hnext := headerValueChar c h hs
      rw [ParserLib.headerValueLoop, if_neg (show ¬ (P.headerState = .connection ∨
        P.headerState = .transferEncoding) from not_or.mpr hvalue.1)]
      refine .ite ⟨by simp, h, hs⟩ (.ite ⟨by simp, h, hs⟩ (.ite ?_ ?_))
      · dsimp only
        split
        · exact (ih _ h hs).further
        · exact .ite (ih _ h hs).further (.ite (ih _ h hs).further ⟨by simp, h, hs⟩)
      · split
        · rename_i e he
          have hok : e ≠ .ok := fun h => error_headerValueChar (by rw [he, h])
          exact ⟨by simpa using hok, hnext.1, hnext.2⟩
        · exact (ih _ hnext.1 hnext.2).further

theorem errno_countHeaderSize {n : ℕ} (h : maxHeaderSize < (P.countHeaderSize n).nread) :
    (P.countHeaderSize n).httpErrno ≠ .ok := by
  rw [nread_countHeaderSize] at h
  unfold Parser.countHeaderSize
  dsimp only
  rw [if_pos h]
  simp [Parser.setErrno]

/-- Counting keeps the struct in order, or stops. -/
theorem counted {n : ℕ} {f : Parser → Case} (h : P.Sane) (hs : P.state = s)
    (hfree : s ≠ .chunkSizeStart)
    (hf : ∀ P', P'.Sane → P'.state = s → Safe (f P')) : Safe (counted P n f) := by
  unfold ParserLib.counted
  dsimp only
  split_ifs with hlarge
  · exact ⟨by simp, fun hv => absurd rfl hv, fun _ => errno_countHeaderSize hlarge⟩
  · rw [nread_countHeaderSize] at hlarge
    rw [countHeaderSize_eq (not_lt.mp hlarge)]
    exact hf _ ⟨bounded_reading h.bounded (not_lt.mp hlarge),
      local_reading h.locally (by rw [hs]; exact hfree)⟩ hs

theorem headerFieldEnd {r : Inner} (h : r.Sane .headerField) : Safe (headerFieldEnd r).last := by
  unfold ParserLib.headerFieldEnd
  split
  · exact counted (f := ParserLib.brk) h.parser h.state (by decide) fun P' h' _ => .brk h'
  · dsimp only
    refine counted h.parser h.state (by decide) fun P' h' _ => ?_
    exact .ite (.doing (.brk ⟨h'.bounded.enter _, trivial⟩)) (.fail (by decide))
  · rename_i hend
    exact .fail fun he => h.ending.2 (by rw [hend, he])
  · rename_i hend
    exact absurd hend h.ending.1

theorem headerValueEnd {r : Inner} (old : HeaderState) (h : r.Sane .headerValue) :
    Safe (headerValueEnd old r).last := by
  have hdone : (r.parser.enter .headerAlmostDone).Sane := ⟨h.parser.bounded.enter _, trivial⟩
  unfold ParserLib.headerValueEnd
  split
  · exact counted h.parser h.state (by decide) fun P' h' _ => .brk h'
  · dsimp only
    split_ifs with hcr hlarge
    · exact .doing (counted (s := .headerAlmostDone) hdone rfl (by decide) fun P' h' _ => .brk h')
    · exact ⟨by simp, fun hv => absurd rfl hv, fun _ => errno_countHeaderSize hlarge⟩
    · rw [nread_countHeaderSize] at hlarge
      rw [countHeaderSize_eq (not_lt.mp hlarge)]
      exact .doing (.headerAlmostDone (bounded_reading hdone.bounded (not_lt.mp hlarge)))
  · rename_i hend
    exact .fail fun he => h.ending.2 (by rw [hend, he])
  · rename_i hend
    exact absurd hend h.ending.1

/-! ### Whole passes, calls and runs -/

/-- The struct when the body of the loop is entered. -/
theorem bounded_next (h : P.Sane) (hok : P.next.httpErrno = .ok) :
    P.next.Bounded ∧ P.next.state = P.state ∧ (P.state ≠ .chunkSizeStart → P.next.Local) ∧
      (P.state = .chunkSizeStart → P.next.flags.chunked = true ∧ P.next.nread = 1) := by
  have hb := h.bounded
  unfold Parser.next at hok ⊢
  split_ifs at hok ⊢ with hparsing
  swap
  · refine ⟨hb, rfl, fun _ => h.locally, fun hs => ?_⟩
    rw [hs] at hparsing
    exact absurd rfl hparsing
  have hroom : (P.nread + 1 % 2 ^ 32) % 2 ^ 32 ≤ maxHeaderSize := by
    by_contra hlarge
    unfold Parser.countHeaderSize at hok
    dsimp only at hok
    rw [if_pos (not_le.mp hlarge)] at hok
    exact absurd hok (by simp [Parser.setErrno])
  rw [countHeaderSize_eq hroom]
  refine ⟨bounded_reading hb hroom, rfl, fun hs => ?_, fun hs => ?_⟩
  · exact local_reading h.locally hs
  · have hl := h.locally
    rw [Parser.Local, hs] at hl
    refine ⟨hl.1, ?_⟩
    show (P.nread + 1 % 2 ^ 32) % 2 ^ 32 = 1
    rw [hl.2]
    rfl

/-- **A pass through the loop** at any byte, with anything behind it. -/
theorem turn (ch : UInt8) (rest : Bytes) (h : P.Sane) (hok : P.next.httpErrno = .ok) :
    Safe (turn P.next ch rest).last := by
  obtain ⟨hb, hstate, hl, hstart⟩ := bounded_next h hok
  have hsane : P.state ≠ .chunkSizeStart → P.next.Sane := fun hs => ⟨hb, hl hs⟩
  by_cases hsingle : P.next.state.single = true
  · have hturn : ParserLib.turn P.next ch rest = ⟨[], 0, ParserLib.switch P.next ch⟩ := by
      cases hs : P.next.state <;> rw [hs] at hsingle <;>
        first | exact absurd hsingle (by decide) | simp only [ParserLib.turn, hs]
    rw [hturn]
    rw [← hstate] at hl hstart
    exact switch hb hl hstart hsingle
  · cases hs : P.next.state <;> rw [hs] at hsingle <;>
      simp only [ParserLib.turn, hs] <;> rw [← hstate, hs] at hl hsane
    case headerField =>
      exact headerFieldEnd (headerFieldLoop 0 (hsane (by decide)) hs _)
    case headerValue =>
      exact headerValueEnd _ (headerValueLoop 0 (hsane (by decide)) hs _)
    case bodyIdentity =>
      have hlocal := hl (by decide)
      rw [Parser.Local, hs] at hlocal
      exact bodyIdentity hb hs hlocal.1 hlocal.2
    case bodyIdentityEof => exact .brk (hsane (by decide))
    case chunkData =>
      have hlocal := hl (by decide)
      rw [Parser.Local, hs] at hlocal
      exact chunkData hb hs hlocal.1 hlocal.2.1 hlocal.2.2
    all_goals exact absurd rfl hsingle

end Safe

/-- Unless a call has ended with an errno, the struct is as it should be. -/
def Parser.Live (P : Parser) : Prop := P.httpErrno = .ok → P.Sane

/-- **A buffer**: the loop does not abort, neither in a pass nor for the marks left over. -/
theorem Parser.Sane.loop {R : Run} {o : Option Datum} {skip p : ℕ} (h : R.parser.Sane)
    (herr : R.parser.httpErrno = .ok) (hfit : R.Fit o) (bs : Bytes) :
    (loop S skip R p bs).verdict ≠ .abort ∧ (loop S skip R p bs).parser.Live := by
  induction bs generalizing R o skip p with
  | nil =>
    obtain ⟨x, hx⟩ := hfit.holds
    rw [loop_nil, if_pos ⟨hx.marked_le, herr⟩]
    refine ⟨by simp [Run.finish], fun _ => ?_⟩
    show (R.flush S).parser.Sane
    rw [parser_flush]
    exact h
  | cons c bs ih =>
    cases skip with
    | succ skip => exact ih h herr hfit
    | zero =>
      rw [ParserLib.loop]
      dsimp only
      by_cases hok : R.counted.httpErrno = .ok
      swap
      · rw [if_pos hok]
        exact ⟨by simp [Run.finish], fun hv => absurd hv hok⟩
      have hsafe := Safe.turn c bs h hok
      rw [if_neg (not_not.mpr hok)]
      rw [← counted_eq_next] at hsafe
      have hlive : (R.took S (turn R.counted c bs) c bs).parser.Live := by
        rw [parser_took]
        exact fun herr => hsafe.sane fun hv => hsafe.errno hv herr
      cases hv : (turn R.counted c bs).last.verdict with
      | next =>
        dsimp only
        obtain ⟨o', hfit'⟩ := hfit.took (S := S) (Safe.bounded_next h hok).2.1 hv
        -- a pass that goes on sets no errno
        have herr' := (reads_turn (.inl rfl) hv rfl).2.2.2
        refine ih ?_ ?_ hfit' <;> rw [parser_took]
        · exact hsafe.sane (by rw [hv]; simp)
        · exact herr'.trans hok
      | leave => exact ⟨by simp [Run.finish], hlive⟩
      | stop => exact ⟨by simp [Run.finish], hlive⟩
      | abort => exact absurd hv hsafe.verdict

/-- **A call**: no assertion fails, and the struct is as it should be if there is no errno. -/
theorem Parser.Live.execute (h : P.Live) (data : Bytes) :
    (httpParserExecute S P data).verdict ≠ .abort ∧ (httpParserExecute S P data).parser.Live := by
  unfold httpParserExecute
  split_ifs with herr hnil
  · exact ⟨by simp, h⟩
  · unfold httpParserEof
    split
    -- only the end of the stream inside a message is an error
    case h_6 => exact ⟨by simp, fun hv => absurd hv (by simp [Parser.setErrno])⟩
    all_goals exact ⟨by simp, h⟩
  · have hok := not_not.mp herr
    exact Parser.Sane.loop (R := P.start) (h hok) hok start_fit data

theorem sane_init (t : ParserType) : (httpParserInit t).Sane := by
  refine ⟨⟨Nat.zero_le _, Nat.zero_le _, Nat.zero_le _, Nat.zero_le _, Nat.zero_le _,
    Nat.zero_le _⟩, ?_⟩
  cases t <;> trivial

variable (S) in
/-- The struct behind some calls, however they have ended. -/
def calls (P : Parser) (bs : List Bytes) : Parser :=
  bs.foldl (fun P b => (httpParserExecute S P b).parser) P

theorem Parser.Live.calls (h : P.Live) (bs : List Bytes) : (calls S P bs).Live := by
  induction bs generalizing P with
  | nil => exact h
  | cons b bs ih => exact ih (h.execute b).2

/-- **No assertion ever fails**, and unless there is an errno no field leaves its bounds:
whatever the parser has been given, whole messages or not, and whatever comes next. -/
theorem never_aborts (S : Settings) (t : ParserType) (bs : List Bytes) (data : Bytes) :
    ((calls S (httpParserInit t) bs).httpErrno = .ok →
      (calls S (httpParserInit t) bs).Bounded) ∧
    (httpParserExecute S (calls S (httpParserInit t) bs) data).verdict ≠ .abort := by
  have hinit : (httpParserInit t).Live := fun _ => sane_init t
  have hlive : (calls S (httpParserInit t) bs).Live := hinit.calls bs
  exact ⟨fun hok => (hlive hok).bounded, (hlive.execute data).1⟩

end ParserLib

end Server
