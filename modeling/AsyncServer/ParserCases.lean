/-
What the cases of the switch keep.

A case of a single byte that goes on leaves the errno alone, does not count up, and has
`content_length` in 64 bits; and the marks are set and used one at a time: there is one
exactly in the states in which a datum is being read.

* `Keeps.switch` — for all cases but that of the end of a chunk, where there may be a mark
  or not;
* `headerFieldChar_frame`, `headerValueChar_frame` — what the inner loops may change.
-/
import AsyncServer.ParserExecute
import Mathlib.Data.List.GetD

namespace Server

open CString

namespace ParserLib

/-- The bounds that a pass through the loop keeps, when it goes on. -/
structure Parser.Le (P P' : Parser) : Prop where
  errno : P'.httpErrno = P.httpErrno
  nread : P'.nread ≤ P.nread
  length : P.contentLength ≤ ullongMax → P'.contentLength ≤ ullongMax

/-- The mark that there is before some actions, and the one behind them. -/
inductive Opens : Option Datum → List Action → Option Datum → Prop
  | nil {o : Option Datum} : Opens o [] o
  | mark {d : Datum} {as : List Action} {o : Option Datum} :
      Opens (some d) as o → Opens none (.mark d :: as) o
  | data {d : Datum} {s : State} {as : List Action} {o : Option Datum} :
      Opens none as o → Opens (some d) (.data d s :: as) o
  | notify {n : Notice} {s : State} {as : List Action} {o : Option Datum} :
      Opens none as o → Opens none (.notify n s :: as) o
  | headersComplete {m : HttpMethod} {i j k : ℕ} {as : List Action} {o : Option Datum} :
      Opens none as o → Opens none (.headersComplete m i j k :: as) o

/-- A case that goes on keeps the bounds, and leaves the mark that belongs to its state. -/
structure Keeps (o : Option Datum) (P : Parser) (t : Case) : Prop where
  le : t.verdict = .next → P.Le t.parser
  opens : t.verdict = .next → Opens o t.actions t.parser.state.openDatum

variable {P P' : Parser} {ch : UInt8} {rest : Bytes} {o o' : Option Datum} {t t' : Case}

theorem Parser.Le.trans {P'' : Parser} (h : P.Le P') (h' : P'.Le P'') : P.Le P'' :=
  ⟨h'.errno.trans h.errno, h'.nread.trans h.nread, fun hl => h'.length (h.length hl)⟩

theorem Opens.append {as bs : List Action} {o'' : Option Datum} (h : Opens o as o')
    (h' : Opens o' bs o'') : Opens o (as ++ bs) o'' := by
  induction h with
  | nil => exact h'
  | mark _ ih => exact .mark (ih h')
  | data _ ih => exact .data (ih h')
  | notify _ ih => exact .notify (ih h')
  | headersComplete _ ih => exact .headersComplete (ih h')

namespace Keeps

theorem brk (h : P.Le P') (ho : P'.state.openDatum = o) : Keeps o P (brk P') :=
  ⟨fun _ => h, fun _ => by subst ho; exact .nil⟩

theorem fail {e : Errno} : Keeps o P (fail P' e) :=
  ⟨fun h => absurd h (by simp [ParserLib.fail]), fun h => absurd h (by simp [ParserLib.fail])⟩

theorem abort : Keeps o P (abort P') :=
  ⟨fun h => absurd h (by simp [ParserLib.abort]), fun h => absurd h (by simp [ParserLib.abort])⟩

theorem leave : Keeps o P { t with verdict := .leave } :=
  ⟨fun h => absurd h (by simp), fun h => absurd h (by simp)⟩

theorem ite {c : Prop} [Decidable c] (h : Keeps o P t) (h' : Keeps o P t') :
    Keeps o P (if c then t else t') := by
  split_ifs
  exacts [h, h']

theorem doing {as : List Action} {q : Option Datum} (h : Keeps q P t) (ho : Opens o as q) :
    Keeps o P (t.doing as) :=
  ⟨h.le, fun hv => ho.append (h.opens hv)⟩

theorem mono {Q : Parser} (h : Keeps o Q t) (hle : P.Le Q) : Keeps o P t :=
  ⟨fun hv => hle.trans (h.le hv), h.opens⟩

theorem expect {ok : Bool} {e : Errno} {s : State} (h : s.openDatum = o) :
    Keeps o P (expect ok e P s) :=
  .ite (.brk ⟨rfl, le_rfl, id⟩ h) .fail

theorem completeMessage : Keeps none P (completeMessage P) := by
  refine .doing (.brk ⟨rfl, le_rfl, id⟩ ?_) (.notify .nil)
  show P.newMessage.openDatum = none
  unfold Parser.newMessage Parser.startState
  split_ifs <;> rfl

theorem messageDone : Keeps none P (messageDone P) := .ite .leave .completeMessage

theorem headersDone : Keeps none P (headersDone P ch) := by
  refine .ite .fail (.mono (Q := { P with nread := 0 }) ?_ ⟨rfl, Nat.zero_le _, id⟩)
  refine .ite .leave (.ite .completeMessage (.ite (.brk ⟨rfl, le_rfl, id⟩ rfl) (.ite ?_ ?_)))
  · exact .ite .fail (.brk ⟨rfl, le_rfl, id⟩ rfl)
  · exact .ite .completeMessage (.ite (.brk ⟨rfl, le_rfl, id⟩ rfl)
      (.ite .completeMessage (.brk ⟨rfl, le_rfl, id⟩ rfl)))

theorem headersAlmostDone : Keeps none P (headersAlmostDone P ch) := by
  refine .ite .fail (.ite ?_ (.ite .fail ?_))
  · exact .mono (messageDone.doing (.notify .nil)) ⟨rfl, le_rfl, id⟩
  · dsimp only
    exact .mono (headersDone.doing (.headersComplete .nil)) ⟨rfl, le_rfl, id⟩

theorem headerFieldStart : Keeps none P (headerFieldStart P ch) := by
  refine .ite (.brk ⟨rfl, le_rfl, id⟩ rfl) (.ite ?_ (.ite .fail ?_))
  · exact .mono headersAlmostDone ⟨rfl, le_rfl, id⟩
  · exact .doing (.brk ⟨rfl, le_rfl, id⟩ rfl) (.mark .nil)

theorem digitVal_le : digitVal ch ≤ ullongMax := by
  have := ch.toNat_lt
  simp only [digitVal, ullongMax]
  omega

theorem headerValueStart : Keeps none P (headerValueStart P ch) := by
  refine .doing (q := some .headerValue) ?_ (.mark .nil)
  dsimp only
  split
  case h_4 => exact .ite .fail (.ite .fail (.brk ⟨rfl, le_rfl, fun _ => digitVal_le⟩ rfl))
  all_goals exact .brk ⟨rfl, le_rfl, id⟩ rfl

theorem headerValueDiscardWs (h : P.state = .headerValueDiscardWs) :
    Keeps none P (headerValueDiscardWs P ch) :=
  .ite (.brk ⟨rfl, le_rfl, id⟩ (by rw [h]; rfl)) (.ite (.brk ⟨rfl, le_rfl, id⟩ rfl)
    (.ite (.brk ⟨rfl, le_rfl, id⟩ rfl) .headerValueStart))

theorem le_addFlag : P.Le (addFlag P) := by
  unfold addFlag
  split <;> exact ⟨rfl, le_rfl, id⟩

theorem headerValueLws : Keeps none P (headerValueLws P ch) := by
  refine .ite ?_ ?_
  · refine .mono headerValueStart ?_
    split_ifs <;> exact ⟨rfl, le_rfl, id⟩
  · exact .mono headerFieldStart ⟨le_addFlag.errno, le_addFlag.nread, le_addFlag.length⟩

theorem headerValueDiscardLws : Keeps none P (headerValueDiscardLws P ch) := by
  refine .ite (.brk ⟨rfl, le_rfl, id⟩ rfl) (.ite .fail ?_)
  exact .doing (.mono headerFieldStart ⟨le_addFlag.errno, le_addFlag.nread, le_addFlag.length⟩)
    (.mark (.data .nil))

theorem startReq (h : P.state = .startReq) : Keeps none P (startReq P ch) := by
  refine .ite (.brk ⟨rfl, le_rfl, id⟩ (by rw [h]; rfl)) (.ite .fail ?_)
  dsimp only
  split
  · exact .fail
  · exact .doing (.brk ⟨rfl, le_rfl, fun _ => le_rfl⟩ rfl) (.notify .nil)

theorem reqMethod (h : P.state = .reqMethod) : Keeps none P (reqMethod P ch) := by
  refine .ite .fail (.ite (.brk ⟨rfl, le_rfl, id⟩ rfl) (.ite ?_ (.ite ?_ .fail)))
  · exact .brk ⟨rfl, le_rfl, id⟩ (by simp [h, State.openDatum])
  · split
    · exact .fail
    · exact .brk ⟨rfl, le_rfl, id⟩ (by simp [h, State.openDatum])

/-- `parse_url_char` stays in the URL, or gives up. -/
theorem openDatum_parseUrlChar (s : State) :
    parseUrlChar s ch = .dead ∨ (parseUrlChar s ch).openDatum = some .url := by
  have hite : ∀ {c : Prop} [Decidable c] {u v : State}, u = .dead ∨ u.openDatum = some .url →
      v = .dead ∨ v.openDatum = some .url →
      (if c then u else v) = .dead ∨ (if c then u else v).openDatum = some .url := by
    intro c _ u v hu hv
    split_ifs
    exacts [hu, hv]
  have hserver : parseUrlChar.server ch = .dead ∨
      (parseUrlChar.server ch).openDatum = some .url :=
    hite (.inr rfl) (hite (.inr rfl) (hite (.inr rfl) (hite (.inr rfl) (.inl rfl))))
  have hquery : parseUrlChar.query ch = .dead ∨ (parseUrlChar.query ch).openDatum = some .url :=
    hite (.inr rfl) (hite (.inr rfl) (hite (.inr rfl) (.inl rfl)))
  refine hite (.inl rfl) (hite (.inl rfl) ?_)
  cases s with
  | reqServerWithAt => exact hite (.inl rfl) hserver
  | reqServerStart => exact hserver
  | reqServer => exact hserver
  | reqQueryStringStart => exact hquery
  | reqQueryString => exact hquery
  | reqSpacesBeforeUrl => exact hite (.inr rfl) (hite (.inr rfl) (.inl rfl))
  | reqSchema => exact hite (.inr rfl) (hite (.inr rfl) (.inl rfl))
  | reqSchemaSlash => exact hite (.inr rfl) (.inl rfl)
  | reqSchemaSlashSlash => exact hite (.inr rfl) (.inl rfl)
  | reqPath => exact hite (.inr rfl) (hite (.inr rfl) (hite (.inr rfl) (.inl rfl)))
  | reqFragmentStart => exact hite (.inr rfl) (hite (.inr rfl) (hite (.inr rfl) (.inl rfl)))
  | reqFragment => exact hite (.inr rfl) (hite (.inr rfl) (.inl rfl))
  | _ => exact .inl rfl

theorem urlChar : Keeps (some .url) P (urlChar P ch) := by
  unfold ParserLib.urlChar
  dsimp only
  split_ifs with h
  · exact .fail
  · exact .brk ⟨rfl, le_rfl, id⟩ ((openDatum_parseUrlChar _).resolve_left h)

theorem reqSpacesBeforeUrl (h : P.state = .reqSpacesBeforeUrl) :
    Keeps none P (reqSpacesBeforeUrl P ch) := by
  refine .ite (.brk ⟨rfl, le_rfl, id⟩ (by rw [h]; rfl)) (.doing ?_ (.mark .nil))
  refine .mono urlChar ?_
  split_ifs <;> exact ⟨rfl, le_rfl, id⟩

theorem reqSchema : Keeps (some .url) P (reqSchema P ch) := .ite .fail urlChar

theorem reqUrl : Keeps (some .url) P (reqUrl P ch) := by
  refine .ite (.doing (.brk ⟨rfl, le_rfl, id⟩ rfl) (.data .nil)) (.ite ?_ urlChar)
  refine .doing (q := none) (.brk ⟨rfl, le_rfl, id⟩ ?_) (.data .nil)
  dsimp only [Parser.enter]
  split_ifs <;> rfl

theorem reqHttpStart (h : P.state = .reqHttpStart) : Keeps none P (reqHttpStart P ch) :=
  .ite (.brk ⟨rfl, le_rfl, id⟩ (by rw [h]; rfl)) (.ite (.brk ⟨rfl, le_rfl, id⟩ rfl)
    (.ite (.brk ⟨rfl, le_rfl, id⟩ rfl) .fail))

theorem httpMajor {s : State} (hs : s.openDatum = o) : Keeps o P (httpMajor P ch s) :=
  .ite .fail (.brk ⟨rfl, le_rfl, id⟩ hs)

theorem httpMinor {s : State} (hs : s.openDatum = o) : Keeps o P (httpMinor P ch s) :=
  .ite .fail (.brk ⟨rfl, le_rfl, id⟩ hs)

theorem reqHttpEnd : Keeps none P (reqHttpEnd P ch) :=
  .ite (.brk ⟨rfl, le_rfl, id⟩ rfl) (.ite (.brk ⟨rfl, le_rfl, id⟩ rfl) .fail)

theorem startRes (h : P.state = .startRes) : Keeps none P (startRes P ch) :=
  .ite (.brk ⟨rfl, le_rfl, id⟩ (by rw [h]; rfl))
    (.ite (.doing (.brk ⟨rfl, le_rfl, fun _ => le_rfl⟩ rfl) (.notify .nil)) .fail)

theorem startReqOrRes (h : P.state = .startReqOrRes) : Keeps none P (startReqOrRes P ch) := by
  refine .ite (.brk ⟨rfl, le_rfl, id⟩ (by rw [h]; rfl)) (.ite ?_ ?_)
  · exact .doing (.brk ⟨rfl, le_rfl, fun _ => le_rfl⟩ rfl) (.notify .nil)
  · exact .mono (startReq rfl) ⟨rfl, le_rfl, fun _ => le_rfl⟩

theorem resOrRespH : Keeps none P (resOrRespH P ch) :=
  .ite (.brk ⟨rfl, le_rfl, id⟩ rfl) (.ite .fail (.brk ⟨rfl, le_rfl, id⟩ rfl))

theorem resFirstStatusCode (h : P.state = .resFirstStatusCode) :
    Keeps none P (resFirstStatusCode P ch) :=
  .ite (.ite (.brk ⟨rfl, le_rfl, id⟩ (by rw [h]; rfl)) .fail) (.brk ⟨rfl, le_rfl, id⟩ rfl)

theorem resStatus (h : P.state = .resStatus) : Keeps (some .status) P (resStatus P ch) :=
  .ite (.doing (.brk ⟨rfl, le_rfl, id⟩ rfl) (.data .nil))
    (.ite (.doing (.brk ⟨rfl, le_rfl, id⟩ rfl) (.data .nil))
      (.brk ⟨rfl, le_rfl, id⟩ (by rw [h]; rfl)))

theorem resStatusStart : Keeps none P (resStatusStart P ch) := by
  refine .doing (q := some .status) ?_ (.mark .nil)
  exact .ite (.mono (resStatus rfl) ⟨rfl, le_rfl, id⟩) (.brk ⟨rfl, le_rfl, id⟩ rfl)

theorem resStatusCode (h : P.state = .resStatusCode) : Keeps none P (resStatusCode P ch) := by
  refine .ite (.ite (.brk ⟨rfl, le_rfl, id⟩ rfl) (.ite ?_ .fail)) (.ite .fail ?_)
  · exact .mono resStatusStart ⟨rfl, le_rfl, id⟩
  · exact .brk ⟨rfl, le_rfl, id⟩ (by simp [h, State.openDatum])

theorem unhexVal_le {v : ℕ} (h : unhexVal ch = some v) : v ≤ 15 := by
  have hall : ∀ x ∈ unhex, x.toNat ≤ 15 := by simp [unhex]
  unfold unhexVal at h
  split_ifs at h
  obtain rfl := Option.some_inj.mp h
  rcases lt_or_ge ch.toNat unhex.length with hlt | hge
  · rw [List.getD_eq_getElem _ _ hlt]
    exact hall _ (List.getElem_mem hlt)
  · rw [List.getD_eq_default _ _ hge]
    decide

theorem chunkSizeStart : Keeps none P (chunkSizeStart P ch) := by
  refine .ite .abort ?_
  split
  · exact .fail
  · rename_i v hv
    exact .brk ⟨rfl, le_rfl, fun _ => (unhexVal_le hv).trans (by decide)⟩ rfl

theorem chunkSize (h : P.state = .chunkSize) : Keeps none P (chunkSize P ch) := by
  refine .ite .abort (.ite (.brk ⟨rfl, le_rfl, id⟩ rfl) ?_)
  split
  · exact .ite (.brk ⟨rfl, le_rfl, id⟩ rfl) .fail
  · refine .ite .fail (.brk ⟨rfl, le_rfl, fun _ => ?_⟩ (by simp [h, State.openDatum]))
    simp only [ullongMax]
    omega

theorem chunkParameters (h : P.state = .chunkParameters) : Keeps none P (chunkParameters P ch) :=
  .ite .abort (.ite (.brk ⟨rfl, le_rfl, id⟩ rfl) (.brk ⟨rfl, le_rfl, id⟩ (by rw [h]; rfl)))

theorem chunkSizeAlmostDone : Keeps none P (chunkSizeAlmostDone P ch) := by
  refine .ite .abort (.ite .fail (.doing (q := none) (.brk ?_ ?_) (.notify .nil)))
  · split_ifs <;> exact ⟨rfl, Nat.zero_le _, id⟩
  · split_ifs <;> rfl

theorem chunkDataDone : Keeps none P (chunkDataDone P ch) :=
  .ite .abort (.ite .fail (.doing (.brk ⟨rfl, Nat.zero_le _, id⟩ rfl) (.notify .nil)))

theorem headerAlmostDone : Keeps none P (headerAlmostDone P ch) := .expect rfl

/-- **The cases of a single byte**, that of the end of a chunk apart. -/
theorem switch (hs : P.state ≠ .chunkDataAlmostDone) :
    Keeps P.state.openDatum P (switch P ch) := by
  cases h : P.state <;> simp only [ParserLib.switch, h, State.openDatum]
  case chunkDataAlmostDone => exact absurd h hs
  case dead => exact .ite (.brk ⟨rfl, le_rfl, id⟩ (by rw [h]; rfl)) .fail
  all_goals first
    | exact .abort | exact .expect rfl
    | exact startReqOrRes h | exact resOrRespH | exact startRes h
    | exact httpMajor rfl | exact httpMinor rfl | exact resFirstStatusCode h | exact resStatusCode h
    | exact resStatusStart | exact resStatus h | exact startReq h | exact reqMethod h
    | exact reqSpacesBeforeUrl h | exact reqSchema | exact reqUrl | exact reqHttpStart h
    | exact reqHttpEnd | exact headerFieldStart | exact headerValueDiscardWs h
    | exact headerValueDiscardLws | exact headerValueStart | exact headerValueLws
    | exact headerAlmostDone | exact headersAlmostDone | exact headersDone | exact chunkSizeStart
    | exact chunkSize h | exact chunkParameters h | exact chunkSizeAlmostDone | exact chunkDataDone
    | exact messageDone

end Keeps

/-! ### Counting, and the inner loops -/

theorem countHeaderSize_eq {n : ℕ} (h : (P.nread + n % 2 ^ 32) % 2 ^ 32 ≤ maxHeaderSize) :
    P.countHeaderSize n = { P with nread := (P.nread + n % 2 ^ 32) % 2 ^ 32 } := by
  unfold Parser.countHeaderSize
  dsimp only
  rw [if_neg (not_lt.mpr h)]

theorem nread_countHeaderSize {n : ℕ} :
    (P.countHeaderSize n).nread = (P.nread + n % 2 ^ 32) % 2 ^ 32 := by
  unfold Parser.countHeaderSize
  dsimp only
  split_ifs <;> rfl

theorem state_countHeaderSize {n : ℕ} : (P.countHeaderSize n).state = P.state := by
  unfold Parser.countHeaderSize
  dsimp only
  split_ifs <;> rfl

theorem matching_frame (P : Parser) (s : Bytes) (c : UInt8) (full other : HeaderState) :
    ∃ i h, matching P s c full other = { P with index := i, headerState := h } := by
  unfold matching
  dsimp only
  split_ifs <;> exact ⟨_, _, rfl⟩

/-- The switch over a name moves nothing but what it matches. -/
theorem headerFieldChar_frame (h : headerFieldChar P ch = some P') :
    ∃ i s u, P' = { P with index := i, headerState := s, usesTransferEncoding := u } := by
  have hmatch : ∀ {s : Bytes} {c : UInt8} {full other : HeaderState} {P' : Parser},
      some (matching P s c full other) = some P' →
        ∃ i s u, P' = { P with index := i, headerState := s, usesTransferEncoding := u } := by
    intro s c full other P' h
    obtain ⟨i, s', hm⟩ := matching_frame P s c full other
    exact ⟨i, s', P.usesTransferEncoding, by rw [← Option.some_inj.mp h, hm]⟩
  cases hs : P.headerState <;> simp only [headerFieldChar, hs] at h
  case matchingTransferEncoding =>
    obtain ⟨i, s, hm⟩ := matching_frame P (bytes "transfer-encoding") (token ch)
      .transferEncoding .general
    rw [hm] at h
    obtain rfl := Option.some_inj.mp h
    split_ifs <;> exact ⟨_, _, _, rfl⟩
  case CON =>
    obtain rfl := Option.some_inj.mp h
    split_ifs <;> exact ⟨_, _, _, rfl⟩
  case connection | contentLength | transferEncoding | upgrade =>
    obtain rfl := Option.some_inj.mp h
    split_ifs <;> exact ⟨_, _, _, rfl⟩
  case general | C | CO =>
    obtain rfl := Option.some_inj.mp h
    exact ⟨_, _, _, rfl⟩
  case matchingConnection | matchingProxyConnection | matchingContentLength | matchingUpgrade =>
    exact hmatch h
  all_goals exact absurd h (by simp)

theorem tokenStart_frame (P : Parser) (c : UInt8) (found any : HeaderState) :
    ∃ h, tokenStart P c found any = { P with headerState := h } := by
  unfold tokenStart
  split_ifs <;> exact ⟨_, rfl⟩

theorem contentLengthChar_frame (P : Parser) (ch : UInt8) :
    ∃ h l, (contentLengthChar P ch).1 = { P with headerState := h, contentLength := l } ∧
      (P.contentLength ≤ ullongMax → l ≤ ullongMax) := by
  unfold contentLengthChar
  dsimp only
  split_ifs
  · exact ⟨_, _, rfl, id⟩
  · exact ⟨_, _, rfl, id⟩
  · exact ⟨_, _, rfl, id⟩
  · refine ⟨_, _, rfl, fun _ => ?_⟩
    simp only [ullongMax]
    omega

/-- The switch over a value moves the flags, the content length and what it matches. -/
theorem headerValueChar_frame (P : Parser) (ch : UInt8) :
    ∃ i h f l, (headerValueChar P ch).1 =
        { P with index := i, headerState := h, flags := f, contentLength := l } ∧
      (P.contentLength ≤ ullongMax → l ≤ ullongMax) := by
  have hmatch : ∀ (s : Bytes) (c : UInt8) (full other : HeaderState), ∃ i h f l,
      matching P s c full other =
          { P with index := i, headerState := h, flags := f, contentLength := l } ∧
        (P.contentLength ≤ ullongMax → l ≤ ullongMax) := by
    intro s c full other
    obtain ⟨i, h, hm⟩ := matching_frame P s c full other
    exact ⟨i, h, P.flags, P.contentLength, hm, id⟩
  have hstart : ∀ (c : UInt8) (found any : HeaderState), ∃ i h f l,
      tokenStart P c found any =
          { P with index := i, headerState := h, flags := f, contentLength := l } ∧
        (P.contentLength ≤ ullongMax → l ≤ ullongMax) := by
    intro c found any
    obtain ⟨h, hm⟩ := tokenStart_frame P c found any
    exact ⟨P.index, h, P.flags, P.contentLength, hm, id⟩
  have hlength : ∃ i h f l, (contentLengthChar P ch).1 =
        { P with index := i, headerState := h, flags := f, contentLength := l } ∧
      (P.contentLength ≤ ullongMax → l ≤ ullongMax) := by
    obtain ⟨h, l, hm, hl⟩ := contentLengthChar_frame P ch
    exact ⟨P.index, h, P.flags, l, hm, hl⟩
  cases hs : P.headerState <;> simp only [headerValueChar, hs, tokenChar, addFlag]
  case contentLength =>
    split_ifs
    exacts [⟨_, _, _, _, rfl, id⟩, hlength]
  case contentLengthNum => exact hlength
  case matchingTransferEncodingTokenStart | matchingConnectionTokenStart => exact hstart _ _ _
  case matchingTransferEncodingChunked | matchingConnectionKeepAlive | matchingConnectionClose
    | matchingConnectionUpgrade => exact hmatch _ _ _ _
  all_goals
    (try split_ifs) <;> exact ⟨_, _, _, _, rfl, id⟩

end ParserLib

end Server
