/-
What the parser understands of a header line.

* `lineFold_plain` — a line with a name of no interest changes nothing;
* `lineFold_length` — the digits of a content length are read as the number that they
  are, where there was none before;
* `lineFold_connection` — the tokens of a Connection header are found as `connectionScan`
  finds them.
-/
import AsyncServer.ParserLines
import AsyncServer.ConnectionHeader
import AsyncServer.HttpFraming

namespace Server

open CString Pieces

namespace ParserLib

variable {P Q : Parser} {ch : UInt8} {name value : Bytes}

/-! ### Names -/

/-- What `strcasecmp` finds equal, the table of tokens makes equal. -/
theorem map_token_eq_iff (hname : IsToken name) {s : Bytes}
    (hs : (0 : UInt8) ∉ s ∧ s.map tolower = s.map UInt8.toNat) :
    name.map token = s ↔ strcasecmp name s = .eq := by
  have hzero : (0 : UInt8) ∉ name := fun h => absurd (hname.2 0 h) (by decide)
  have hfold : ∀ {t : Bytes}, (0 : UInt8) ∉ t → fold t = t.map tolower := by
    intro t ht
    have := cstr_append ht []
    simp only [List.append_nil, show cstr [] = [] from rfl] at this
    rw [fold, this]
  have hmap : (name.map token).map UInt8.toNat = name.map tolower := by
    rw [List.map_map]
    exact List.map_congr_left fun c hc => (token_of_isTokenChar (hname.2 c hc)).2
  rw [strcasecmp_eq_iff, hfold hzero, hfold hs.1, hs.2, ← hmap]
  exact (List.map_injective_iff.mpr fun a b h => UInt8.toNat_inj.mp h).eq_iff.symm

/-- The names that the parser knows are written in small letters. -/
theorem lower_headerNames :
    ∀ r ∈ headerNames, (0 : UInt8) ∉ r.1 ∧ r.1.map tolower = r.1.map UInt8.toNat := by
  decide

/-- A name that does not begin with `transfer-encoding`, in either case. -/
def NoEncoding (name : Bytes) : Prop := ¬ bytes "transfer-encoding" <+: name.map token

instance : DecidablePred NoEncoding := fun _ => inferInstanceAs (Decidable (¬ _))

/-- **A name is read** as what it is, and nothing else is changed. -/
theorem nameFold_of_isToken {c : UInt8} {cs : Bytes} (hname : IsToken (c :: cs))
    (huses : P.usesTransferEncoding = false) :
    ∃ Qn, nameFold { P.enter .headerField with
        index := 0, headerState := firstHeaderState (token c) } cs = some Qn ∧
      NameAt ((c :: cs).map token) Qn ∧
      (∃ i s u, Qn = { P.enter .headerField with
        index := i, headerState := s, usesTransferEncoding := u }) ∧
      (NoEncoding (c :: cs) → Qn.usesTransferEncoding = false) := by
  have htokens : ∀ d ∈ cs, token d ≠ 0 :=
    fun d hd => (token_of_isTokenChar (hname.2 d (by simp [hd]))).1
  have hfirst := nameAt_first (P := { P.enter .headerField with
    index := 0, headerState := firstHeaderState (token c) })
    (token_of_isTokenChar (hname.2 c (by simp))).1 rfl rfl
  obtain ⟨Qn, hfold, hname, hspec⟩ := nameFold_spec hfirst htokens
  obtain ⟨i, s, u, hQn⟩ := nameFold_frame hfold
  refine ⟨Qn, hfold, hname, ⟨i, s, u, hQn⟩, fun hno => ?_⟩
  cases hu : Qn.usesTransferEncoding with
  | false => rfl
  | true =>
    rcases hspec hu with hold | ⟨-, hpre⟩
    · exact absurd hold (by simp [Parser.enter, huses])
    · exact absurd hpre hno

/-- The state behind a name, and the name. -/
theorem NameAt.of_strcasecmp (hat : NameAt (name.map token) P) (hname : IsToken name) :
    (∃ r ∈ headerNames, strcasecmp name r.1 = .eq ∧ P.headerState = r.2.2) ∨
      (∀ r ∈ headerNames, strcasecmp name r.1 ≠ .eq) ∧ P.headerState ∈ unknownStates := by
  refine hat.headerState.imp ?_ ?_
  · rintro ⟨r, hr, heq, hs⟩
    exact ⟨r, hr, (map_token_eq_iff hname (lower_headerNames r hr)).mp heq, hs⟩
  · rintro ⟨hne, hs⟩
    exact ⟨fun r hr heq => hne r hr ((map_token_eq_iff hname (lower_headerNames r hr)).mpr heq), hs⟩

theorem lineFold_nil {c : UInt8} {cs : Bytes} (h : nameFold { P.enter .headerField with
    index := 0, headerState := firstHeaderState (token c) } cs = some Q)
    (hlength : Q.headerState ≠ .contentLength) :
    lineFold P (c :: cs, []) = some ((addFlag Q).enter .headerFieldStart) :=
  Option.bind_eq_some_iff.mpr ⟨Q, h, if_neg hlength⟩

theorem lineFold_cons {c v : UInt8} {cs vs : Bytes} {P₁ : Parser} {as : List Action}
    (h : nameFold { P.enter .headerField with
      index := 0, headerState := firstHeaderState (token c) } cs = some Q)
    (hstart : headerValueStart Q v = (brk P₁).doing as) :
    lineFold P (c :: cs, v :: vs) =
      (valueFold P₁ vs).map fun P => (addFlag P).enter .headerFieldStart := by
  unfold lineFold
  dsimp only
  rw [h, Option.bind_some]
  simp only [hstart]
  exact if_pos rfl

/-! ### Lines of no interest -/

/-- A name that none of the five is. -/
def Unknown (name : Bytes) : Prop := ∀ r ∈ headerNames, strcasecmp name r.1 ≠ .eq

theorem valueFold_general (h : P.headerState = .general) (vs : Bytes) :
    valueFold P vs = some P := by
  induction vs with
  | nil => rfl
  | cons v vs ih =>
    have hstep : valueStep P v = some P := by
      unfold valueStep
      rw [headerValueChar_general h, h]
      rfl
    exact Option.bind_eq_some_iff.mpr ⟨P, hstep, ih⟩

/-- Behind a name nothing has been found. -/
theorem addFlag_unknown (h : P.headerState ∈ unknownStates) : addFlag P = P := by
  cases hs : P.headerState <;> rw [hs] at h <;>
    first | exact absurd h (by decide) | simp only [addFlag, hs]

/-- A value of no interest. -/
theorem headerValueStart_unknown (h : P.headerState ∈ unknownStates) : headerValueStart P ch =
    (brk { P.enter .headerValue with index := 0, headerState := .general }).doing
      [.mark .headerValue] := by
  cases hs : P.headerState <;> rw [hs] at h <;>
    first | exact absurd h (by decide) | simp only [headerValueStart, Parser.enter, hs]

/-- **A line with a name of no interest changes nothing.** -/
theorem lineFold_plain (value : Bytes) (hname : IsToken name) (hunknown : Unknown name)
    (hno : NoEncoding name) (huses : P.usesTransferEncoding = false) :
    ∃ i s, lineFold P (name, value) =
      some { P.enter .headerFieldStart with index := i, headerState := s } := by
  obtain ⟨c, cs, rfl⟩ := List.exists_cons_of_ne_nil hname.1
  obtain ⟨Qn, hfold, hat, ⟨i, s, u, hQn⟩, hu⟩ := nameFold_of_isToken hname huses
  have hstate : Qn.headerState ∈ unknownStates := by
    rcases hat.of_strcasecmp hname with ⟨r, hr, heq, -⟩ | ⟨-, hs⟩
    · exact absurd heq (hunknown r hr)
    · exact hs
  have huses' : u = P.usesTransferEncoding := by
    rw [huses, ← hu hno, hQn]
  cases value with
  | nil =>
    have hne : Qn.headerState ≠ .contentLength := fun h => absurd (h ▸ hstate) (by decide)
    refine ⟨i, s, ?_⟩
    rw [lineFold_nil hfold hne, addFlag_unknown hstate, hQn, huses']
    rfl
  | cons v vs =>
    refine ⟨0, .general, ?_⟩
    rw [lineFold_cons hfold (headerValueStart_unknown hstate), valueFold_general rfl,
      Option.map_some, addFlag_unknown (show HeaderState.general ∈ _ by decide), hQn, huses']
    rfl

/-- The state behind one of the five names. -/
theorem NameAt.known (hat : NameAt (name.map token) P) (hname : IsToken name)
    {r : Bytes × HeaderState × HeaderState} (hr : r ∈ headerNames)
    (heq : strcasecmp name r.1 = .eq) : P.headerState = r.2.2 := by
  rcases hat.of_strcasecmp hname with ⟨r', hr', heq', hs⟩ | ⟨hne, -⟩
  · have h := (map_token_eq_iff hname (lower_headerNames r hr)).mpr heq
    have h' := (map_token_eq_iff hname (lower_headerNames r' hr')).mpr heq'
    rw [hs]
    exact (by decide : ∀ r ∈ headerNames, ∀ r' ∈ headerNames, r.1 = r'.1 → r.2.2 = r'.2.2)
      r' hr' r hr (h'.symm.trans h)
  · exact absurd heq (hne r hr)

theorem noEncoding_of_strcasecmp (hname : IsToken name)
    {r : Bytes × HeaderState × HeaderState} (hr : r ∈ headerNames)
    (heq : strcasecmp name r.1 = .eq) (hne : r.1 ≠ bytes "transfer-encoding") :
    NoEncoding name := by
  unfold NoEncoding
  rw [(map_token_eq_iff hname (lower_headerNames r hr)).mpr heq]
  exact (by decide : ∀ r ∈ headerNames, r.1 ≠ bytes "transfer-encoding" →
    ¬ bytes "transfer-encoding" <+: r.1) r hr hne

/-! ### The content length -/

/-- The greatest length to which a digit may be added. -/
def lengthBound : ℕ := (ullongMax - 10) / 10

theorem isNum_iff {c : UInt8} : isNum c = true ↔ 48 ≤ c ∧ c ≤ 57 := by
  unfold isNum
  rw [Bool.and_eq_true, decide_eq_true_iff, decide_eq_true_iff]
  exact Iff.rfl

/-- One digit more. -/
theorem valueStep_digit (hs : P.headerState = .contentLengthNum) {c : UInt8}
    (hc : 48 ≤ c ∧ c ≤ 57) (hle : P.contentLength ≤ lengthBound) :
    valueStep P c = some { P with contentLength := 10 * P.contentLength + (c.toNat - 48) } := by
  have hblank : c ≠ byte ' ' := by
    rintro rfl
    exact absurd hc.1 (by decide)
  have hlt : P.contentLength * 10 + (c.toNat - 48) < 2 ^ 64 := by
    have := UInt8.le_iff_toNat_le.mp hc.2
    simp only [lengthBound, ullongMax] at hle
    have h57 : (57 : UInt8).toNat = 57 := rfl
    omega
  have hchar : contentLengthChar P c =
      ({ P with contentLength := 10 * P.contentLength + (c.toNat - 48) }, none) := by
    unfold contentLengthChar
    dsimp only
    rw [if_neg hblank, if_neg (by simp [isNum_iff.mpr hc]),
      if_neg (not_lt.mpr (show P.contentLength ≤ (ullongMax - 10) / 10 from hle)), digitVal,
      Nat.mod_eq_of_lt hlt, mul_comm, ← hs]
  unfold valueStep
  rw [if_neg (by rw [hs]; decide)]
  simp only [headerValueChar, hs, hchar, if_true]

/-- The digits of a number that is not too big. -/
theorem valueFold_digits {ds : Bytes} (hs : P.headerState = .contentLengthNum)
    (hds : ∀ c ∈ ds, 48 ≤ c ∧ c ≤ 57)
    (hle : ds.foldl (fun n c => 10 * n + (c.toNat - 48)) P.contentLength ≤ 10 * lengthBound) :
    valueFold P ds = some { P with
      contentLength := ds.foldl (fun n c => 10 * n + (c.toNat - 48)) P.contentLength } := by
  induction ds generalizing P with
  | nil => rfl
  | cons c ds ih =>
    have hmono : ∀ (ds : Bytes) (n : ℕ), n ≤ ds.foldl (fun n c => 10 * n + (c.toNat - 48)) n := by
      intro ds
      induction ds with
      | nil => exact fun n => le_rfl
      | cons c ds ih => exact fun n => le_trans (show n ≤ 10 * n + (c.toNat - 48) by omega) (ih _)
    have hone : 10 * P.contentLength + (c.toNat - 48) ≤ 10 * lengthBound :=
      (hmono ds _).trans hle
    obtain ⟨hc, hds⟩ := List.forall_mem_cons.mp hds
    refine Option.bind_eq_some_iff.mpr ⟨_, valueStep_digit hs hc (by omega), ?_⟩
    exact ih hs hds hle

/-- **A content length is read as the number that it is**, if there was none before. -/
theorem lineFold_length (hname : IsToken name)
    (heq : strcasecmp name (bytes "content-length") = .eq)
    (huses : P.usesTransferEncoding = false) (hflag : P.flags.contentlength = false) {n : ℕ}
    (hn : n ≤ 10 * lengthBound) :
    ∃ i s, lineFold P (name, digits n) = some { P.enter .headerFieldStart with
      index := i, headerState := s, contentLength := n,
      flags := { P.flags with contentlength := true } } := by
  obtain ⟨c, cs, rfl⟩ := List.exists_cons_of_ne_nil hname.1
  have hr : (bytes "content-length", HeaderState.matchingContentLength, HeaderState.contentLength) ∈
      headerNames := by decide
  obtain ⟨Qn, hfold, hat, ⟨i, s, u, hQn⟩, hu⟩ := nameFold_of_isToken hname huses
  have hstate : Qn.headerState = .contentLength := hat.known hname hr heq
  have huses' : u = P.usesTransferEncoding := by
    rw [huses, ← hu (noEncoding_of_strcasecmp hname hr heq (by decide)), hQn]
  have hdecimal := decimal_digits n
  unfold decimal at hdecimal
  split_ifs at hdecimal with hdigits
  obtain ⟨v, vs, hv⟩ := List.exists_cons_of_ne_nil hdigits.1
  rw [hv] at hdigits hdecimal ⊢
  have hvalue := Option.some_inj.mp hdecimal
  rw [List.foldl_cons, mul_zero, zero_add] at hvalue
  obtain ⟨hv, hvs⟩ := List.forall_mem_cons.mp hdigits.2
  set P₁ : Parser := { Qn.enter .headerValue with
    index := 0
    flags := { Qn.flags with contentlength := true }
    contentLength := v.toNat - 48
    headerState := .contentLengthNum } with hP₁
  have hstart : headerValueStart Qn v = (brk P₁).doing [.mark .headerValue] := by
    simp only [headerValueStart, Parser.enter, hstate]
    rw [if_neg (by simp [isNum_iff.mpr hv]), if_neg (by rw [hQn]; simp [Parser.enter, hflag])]
    rfl
  rw [lineFold_cons hfold hstart, valueFold_digits (P := P₁) rfl hvs (by rw [hvalue]; exact hn)]
  refine ⟨0, .contentLengthNum, ?_⟩
  rw [Option.map_some]
  show some ((addFlag _).enter .headerFieldStart) = _
  simp only [addFlag, hP₁, hvalue, hQn, huses']
  rfl

/-! ### The connection -/

/-- The state in which a word is matched, and that in which it has been. -/
def wordStates : ConnectionWord → HeaderState × HeaderState
  | .keepAlive => (.matchingConnectionKeepAlive, .connectionKeepAlive)
  | .close => (.matchingConnectionClose, .connectionClose)
  | .upgrade => (.matchingConnectionUpgrade, .connectionUpgrade)

/-- `header_state`, as `connectionScan` has it. -/
def scanState : Server.HeaderState → HeaderState
  | .general => .general
  | .matchingConnectionTokenStart => .matchingConnectionTokenStart
  | .matchingConnection w => (wordStates w).1
  | .matchingConnectionToken => .matchingConnectionToken
  | .connection w => (wordStates w).2

/-- Flags with those for the words that have been found. -/
def Flags.words (f : Flags) (g : ConnectionWord → Bool) : Flags :=
  { f with
    connectionKeepAlive := f.connectionKeepAlive || g .keepAlive
    connectionClose := f.connectionClose || g .close
    connectionUpgrade := f.connectionUpgrade || g .upgrade }

/-- The struct in the value of a Connection header. -/
def Parser.scanning (P : Parser) (s : ConnectionScan) : Parser :=
  { P with
    headerState := scanState s.headerState, index := s.index, flags := P.flags.words s.flags }

set_option maxRecDepth 8000 in
theorem isTokenChar_table : ∀ n < 256, token (UInt8.ofNat n) ≠ 0 → IsTokenChar (UInt8.ofNat n) := by
  decide

theorem isTokenChar_iff {c : UInt8} : IsTokenChar c ↔ token c ≠ 0 := by
  refine ⟨fun h => (token_of_isTokenChar h).1, fun h => ?_⟩
  have := isTokenChar_table c.toNat c.toNat_lt
  rw [UInt8.ofNat_toNat] at this
  exact this h

/-- Set the flag for a word. -/
def Flags.addWord (f : Flags) : ConnectionWord → Flags
  | .keepAlive => { f with connectionKeepAlive := true }
  | .close => { f with connectionClose := true }
  | .upgrade => { f with connectionUpgrade := true }

theorem words_setFlag (f : Flags) (s : ConnectionScan) (w : ConnectionWord) :
    f.words (s.setFlag w).flags = (f.words s.flags).addWord w := by
  cases w <;> simp [Flags.words, Flags.addWord, ConnectionScan.setFlag]

theorem words_none (f : Flags) : f.words (fun _ => false) = f := by
  simp [Flags.words]

theorem addFlag_of_word {w : ConnectionWord} (h : P.headerState = (wordStates w).2) :
    addFlag P = { P with flags := P.flags.addWord w } := by
  cases w <;> simp only [wordStates] at h <;> simp only [addFlag, h, Flags.addWord]

/-- The end of a value. -/
theorem addFlag_scanning (s : ConnectionScan) :
    addFlag (P.scanning s) = P.scanning s.finish := by
  unfold ConnectionScan.finish
  cases hs : s.headerState with
  | connection w =>
    rw [addFlag_of_word (w := w) (by simp only [Parser.scanning, hs, scanState])]
    simp only [Parser.scanning, words_setFlag]
    rfl
  | matchingConnection w =>
    cases w <;> simp only [addFlag, Parser.scanning, hs, scanState, wordStates]
  | _ => simp only [addFlag, Parser.scanning, hs, scanState]

theorem lower_ne_zero : lower ch ≠ 0 := by
  intro h
  have hor : ch.toNat ||| 32 = 0 := by
    rw [← toNat_lower]
    exact congrArg UInt8.toNat h
  have : 32 ≤ ch.toNat ||| 32 := Nat.right_le_or
  omega

theorem charAt_eq_iff {s : Bytes} {i : ℕ} {c : UInt8} (hc : c ≠ 0) :
    charAt s i = c ↔ s[i]? = some c := by
  unfold charAt
  rw [List.getD_eq_getElem?_getD]
  cases s[i]? with
  | none => simpa using fun h => hc h.symm
  | some d => simp

/-- Match one more byte of a word. -/
theorem matching_scanning (P : Parser) (ch : UInt8) {s : ConnectionScan} {w : ConnectionWord}
    (hs : s.headerState = .matchingConnection w) :
    matching (P.scanning s) w.text (lower ch) (wordStates w).2 .matchingConnectionToken =
      P.scanning (s.next ch) := by
  have hchar : (lower ch ≠ charAt w.text (s.index + 1)) ↔
      w.text[s.index + 1]? ≠ some (Server.lower ch) := by
    rw [ne_comm, ne_eq, charAt_eq_iff lower_ne_zero]
    rfl
  simp only [ConnectionScan.next, hs]
  unfold matching
  simp only [Parser.scanning, hchar]
  by_cases hmiss : w.text.length < s.index + 1 ∨ w.text[s.index + 1]? ≠ some (Server.lower ch)
  · rw [if_pos hmiss, if_pos hmiss]
    rfl
  rw [if_neg hmiss, if_neg hmiss]
  by_cases hlast : s.index + 1 = w.text.length - 1
  · rw [if_pos hlast]
    exact if_pos hlast
  · rw [if_neg hlast]
    simpa only [hs] using if_neg hlast

/-- The beginning of a token. -/
theorem tokenStart_scanning {s : ConnectionScan}
    (hs : s.headerState = .matchingConnectionTokenStart) :
    tokenStart (P.scanning s) (lower ch)
      (if lower ch = byte 'k' then .matchingConnectionKeepAlive
        else if lower ch = byte 'c' then .matchingConnectionClose
        else if lower ch = byte 'u' then .matchingConnectionUpgrade
        else .general) .matchingConnectionToken = P.scanning (s.next ch) := by
  have hlower : Server.lower ch = lower ch := rfl
  simp only [ConnectionScan.next, hs, ConnectionWord.starting, hlower]
  generalize lower ch = c
  unfold tokenStart
  by_cases hk : c = 107
  · subst hk
    simp only [if_true]
    rfl
  by_cases hc : c = 99
  · subst hc
    simp only [if_true]
    rfl
  by_cases hu : c = 117
  · subst hu
    simp only [if_true]
    rfl
  simp only [show byte 'k' = 107 from rfl, show byte 'c' = 99 from rfl,
    show byte 'u' = 117 from rfl, if_neg hk, if_neg hc, if_neg hu, isTokenChar_iff]
  by_cases htoken : token c ≠ 0
  · rw [if_pos htoken, if_pos htoken]
    rfl
  rw [if_neg htoken, if_neg htoken]
  by_cases hblank : c = 32 ∨ c = 9
  · rw [if_pos hblank]
    exact if_pos hblank
  · rw [if_neg hblank]
    exact if_neg hblank

/-- A word that has been found. -/
theorem connection_scanning (P : Parser) (ch : UInt8) {s : ConnectionScan} {w : ConnectionWord}
    (hs : s.headerState = .connection w) :
    (if ch = byte ',' then
      { addFlag (P.scanning s) with headerState := .matchingConnectionTokenStart, index := 0 }
    else if ch ≠ byte ' ' then { P.scanning s with headerState := .matchingConnectionToken }
    else P.scanning s) = P.scanning (s.next ch) := by
  simp only [ConnectionScan.next, hs]
  rw [addFlag_of_word (w := w) (by simp only [Parser.scanning, hs, scanState])]
  by_cases hcomma : ch = 44
  · rw [if_pos hcomma, if_pos (show ch = byte ',' from hcomma)]
    simp only [Parser.scanning, words_setFlag, scanState]
  rw [if_neg hcomma, if_neg (show ch ≠ byte ',' from hcomma)]
  by_cases hblank : ch = 32
  · rw [if_neg (not_not.mpr hblank), if_neg (not_not.mpr (show ch = byte ' ' from hblank))]
  · rw [if_pos hblank, if_pos (show ch ≠ byte ' ' from hblank)]
    simp only [Parser.scanning, scanState]

/-- **One byte more**, in the parser and in its reading as words. -/
theorem valueStep_scanning (s : ConnectionScan) :
    valueStep (P.scanning s) ch = some (P.scanning (s.next ch)) := by
  have hne : ¬ ((P.scanning s).headerState = .connection ∨
      (P.scanning s).headerState = .transferEncoding) := by
    simp only [Parser.scanning]
    cases s.headerState with
    | matchingConnection w => cases w <;> decide
    | connection w => cases w <;> decide
    | _ => decide
  have hchar : headerValueChar (P.scanning s) ch = (P.scanning (s.next ch), none) := by
    cases hs : s.headerState with
    | general =>
      have hstate : (P.scanning s).headerState = .general := by
        simp only [Parser.scanning, hs, scanState]
      simp only [ConnectionScan.next, hs]
      exact headerValueChar_general hstate
    | matchingConnectionTokenStart =>
      have hstate : (P.scanning s).headerState = .matchingConnectionTokenStart := by
        simp only [Parser.scanning, hs, scanState]
      simp only [headerValueChar, hstate]
      exact Prod.ext (tokenStart_scanning hs) rfl
    | matchingConnection w =>
      have hstate : (P.scanning s).headerState = (wordStates w).1 := by
        simp only [Parser.scanning, hs, scanState]
      have hmatch := matching_scanning P ch hs
      cases w <;> simp only [wordStates] at hstate <;> simp only [headerValueChar, hstate] <;>
        exact Prod.ext hmatch rfl
    | matchingConnectionToken =>
      have hstate : (P.scanning s).headerState = .matchingConnectionToken := by
        simp only [Parser.scanning, hs, scanState]
      simp only [headerValueChar, hstate, ConnectionScan.next, hs, tokenChar]
      refine Prod.ext ?_ rfl
      show (if ch = 44 then _ else _) = _
      split_ifs <;> simp only [Parser.scanning, scanState]
    | connection w =>
      have hstate : (P.scanning s).headerState = (wordStates w).2 := by
        simp only [Parser.scanning, hs, scanState]
      have hfound := connection_scanning P ch hs
      cases w <;> simp only [wordStates] at hstate <;> simp only [headerValueChar, hstate] <;>
        exact Prod.ext hfound rfl
  unfold valueStep
  rw [if_neg hne, hchar, if_pos rfl]


theorem valueFold_scanning (s : ConnectionScan) (vs : Bytes) :
    valueFold (P.scanning s) vs = some (P.scanning (vs.foldl ConnectionScan.next s)) := by
  induction vs generalizing s with
  | nil => rfl
  | cons v vs ih => exact Option.bind_eq_some_iff.mpr ⟨_, valueStep_scanning s, ih _⟩

/-- The first byte of a value. -/
theorem headerValueStart_connection (hs : P.headerState = .connection) :
    headerValueStart P ch =
      (brk ((P.enter .headerValue).scanning (.first ch))).doing [.mark .headerValue] := by
  have hfirst : scanState (ConnectionScan.first ch).headerState =
      if lower ch = byte 'k' then HeaderState.matchingConnectionKeepAlive
      else if lower ch = byte 'c' then .matchingConnectionClose
      else if lower ch = byte 'u' then .matchingConnectionUpgrade
      else .matchingConnectionToken := by
    have hlower : Server.lower ch = lower ch := rfl
    simp only [ConnectionScan.first, ConnectionWord.starting, hlower, show byte 'k' = 107 from rfl,
      show byte 'c' = 99 from rfl, show byte 'u' = 117 from rfl]
    split_ifs <;> rfl
  simp only [headerValueStart, Parser.enter, hs]
  rw [← hfirst]
  simp only [Parser.scanning, ConnectionScan.first, words_none]

/-- **The tokens of a Connection header** are found as `connectionScan` finds them. -/
theorem lineFold_connection (value : Bytes) (hname : IsToken name)
    (heq : strcasecmp name (bytes "connection") = .eq ∨
      strcasecmp name (bytes "proxy-connection") = .eq)
    (huses : P.usesTransferEncoding = false) :
    ∃ i s, lineFold P (name, value) = some { P.enter .headerFieldStart with
      index := i, headerState := s, flags := P.flags.words (connectionScan value) } := by
  obtain ⟨c, cs, rfl⟩ := List.exists_cons_of_ne_nil hname.1
  obtain ⟨r, hr, heq, hr', hencoding⟩ : ∃ r ∈ headerNames, strcasecmp (c :: cs) r.1 = .eq ∧
      r.2.2 = .connection ∧ r.1 ≠ bytes "transfer-encoding" := by
    rcases heq with heq | heq
    · exact ⟨(bytes "connection", .matchingConnection, .connection), by decide, heq, rfl, by decide⟩
    · exact ⟨(bytes "proxy-connection", .matchingProxyConnection, .connection), by decide, heq,
        rfl, by decide⟩
  obtain ⟨Qn, hfold, hat, ⟨i, s, u, hQn⟩, hu⟩ := nameFold_of_isToken hname huses
  have hstate : Qn.headerState = .connection := (hat.known hname hr heq).trans hr'
  have huses' : u = P.usesTransferEncoding := by
    rw [huses, ← hu (noEncoding_of_strcasecmp hname hr heq hencoding), hQn]
  cases value with
  | nil =>
    have hadd : addFlag Qn = Qn := by simp only [addFlag, hstate]
    refine ⟨i, s, ?_⟩
    rw [lineFold_nil hfold (by rw [hstate]; decide), hadd, hQn, huses', connectionScan, words_none]
    rfl
  | cons v vs =>
    set found := (vs.foldl ConnectionScan.next (.first v)).finish with hfound
    refine ⟨found.index, scanState found.headerState, ?_⟩
    rw [lineFold_cons hfold (headerValueStart_connection hstate), valueFold_scanning,
      Option.map_some, addFlag_scanning, ← hfound, hQn, huses']
    rfl

end ParserLib

end Server
