/-
The names of headers.

The parser looks for five names while it reads a header line, by a machine that compares
byte by byte (`header_state` and `index`).  `NameAt` says what the machine knows.

* `NameAt.step` — one byte more of a name;
* `nameFold_spec`, `NameAt.headerState` — the machine recognises the five names, in either
  case, and no other; but a name that only begins with `transfer-encoding` sets
  `uses_transfer_encoding` too.
-/
import AsyncServer.ParserReads

namespace Server

open CString Pieces

namespace ParserLib

variable {S : Settings} {P P' P'' Q : Parser} {ch : UInt8} {bs bs' rest : Bytes}
variable {out out' o : Stream} {l s : Bytes}

/-! ### Matching -/

theorem append_singleton_prefix_iff {c : UInt8} (hl : l <+: s) (hlt : l.length < s.length) :
    l ++ [c] <+: s ↔ charAt s l.length = c := by
  obtain ⟨t, rfl⟩ := hl
  cases t with
  | nil => simp at hlt
  | cons d t =>
    rw [List.prefix_append_right_inj]
    simp [charAt, eq_comm]

/-- The next byte of a string that is matched, the first of which is not counted. -/
theorem matching_spec (c : UInt8) (full other : HeaderState) (hi : P.index + 1 = l.length)
    (hl : l <+: s) (hlt : l.length < s.length) :
    (l ++ [c] = s ∧ matching P s c full other =
      { P with index := l.length, headerState := full }) ∨
    (l ++ [c] <+: s ∧ l.length + 1 < s.length ∧ matching P s c full other =
      { P with index := l.length }) ∨
    (¬ l ++ [c] <+: s ∧ matching P s c full other =
      { P with index := l.length, headerState := other }) := by
  unfold matching
  dsimp only
  rw [hi, append_singleton_prefix_iff hl hlt]
  by_cases hc : charAt s l.length = c
  · rw [if_neg (by rw [hc]; simp; omega)]
    by_cases hend : l.length = s.length - 1
    · refine .inl ⟨?_, by rw [if_pos hend]⟩
      exact ((append_singleton_prefix_iff hl hlt).mpr hc).eq_of_length (by simp; omega)
    · exact .inr (.inl ⟨hc, by omega, by rw [if_neg hend]⟩)
  · exact .inr (.inr ⟨hc, if_pos (.inr (Ne.symm hc))⟩)

/-! ### Names -/

/-- The names that the parser knows, with the state in which each is matched and that in
which it has been. -/
def headerNames : List (Bytes × HeaderState × HeaderState) :=
  [(bytes "connection", .matchingConnection, .connection),
   (bytes "proxy-connection", .matchingProxyConnection, .connection),
   (bytes "content-length", .matchingContentLength, .contentLength),
   (bytes "transfer-encoding", .matchingTransferEncoding, .transferEncoding),
   (bytes "upgrade", .matchingUpgrade, .upgrade)]

/-- What the parser knows of the bytes of a name so far, in lower case. -/
inductive NameAt (l : Bytes) (P : Parser) : Prop
  | general (hs : P.headerState = .general) (hl : ∀ r ∈ headerNames, ¬ l <+: r.1)
  | short (hl : (l, P.headerState) ∈ [(bytes "c", .C), (bytes "co", .CO), (bytes "con", .CON)])
      (hi : P.index + 1 = l.length)
  | matching (r : Bytes × HeaderState × HeaderState) (hr : r ∈ headerNames)
      (hs : P.headerState = r.2.1) (hi : P.index + 1 = l.length) (hl : l <+: r.1)
      (hlt : l.length < r.1.length) (honly : ∀ r' ∈ headerNames, l <+: r'.1 → r' = r)
  | full (r : Bytes × HeaderState × HeaderState) (hr : r ∈ headerNames)
      (hs : P.headerState = r.2.2) (hl : l = r.1)

theorem forall_mem_headerNames {p : Bytes × HeaderState × HeaderState → Prop} :
    (∀ r ∈ headerNames, p r) ↔
      p (bytes "connection", .matchingConnection, .connection) ∧
      p (bytes "proxy-connection", .matchingProxyConnection, .connection) ∧
      p (bytes "content-length", .matchingContentLength, .contentLength) ∧
      p (bytes "transfer-encoding", .matchingTransferEncoding, .transferEncoding) ∧
      p (bytes "upgrade", .matchingUpgrade, .upgrade) := by
  simp [headerNames]

/-- One of the names is not the beginning of another. -/
theorem eq_of_prefix_headerNames :
    ∀ r ∈ headerNames, ∀ r' ∈ headerNames, r.1 <+: r'.1 → r' = r := by
  decide

/-- The states in which the names are matched. -/
theorem headerFieldChar_matching (ch : UInt8) {r : Bytes × HeaderState × HeaderState}
    (hr : r ∈ headerNames) (hs : P.headerState = r.2.1) :
    ∃ u, headerFieldChar P ch =
        some { matching P r.1 (token ch) r.2.2 .general with usesTransferEncoding := u } ∧
      (u = true → P.usesTransferEncoding = true ∨
        (matching P r.1 (token ch) r.2.2 .general).headerState = .transferEncoding) := by
  have huses : ∀ (s : Bytes) (full : HeaderState),
      (matching P s (token ch) full .general).usesTransferEncoding = P.usesTransferEncoding := by
    intro s full
    obtain ⟨i, h, hm⟩ := matching_frame P s (token ch) full .general
    rw [hm]
  revert r
  simp only [forall_mem_headerNames]
  refine ⟨?_, ?_, ?_, ?_, ?_⟩ <;> intro hs <;> simp only [headerFieldChar, hs]
  case refine_4 =>
    by_cases hfull : (matching P (bytes "transfer-encoding") (token ch) .transferEncoding
        .general).headerState = .transferEncoding
    · rw [if_pos hfull]
      exact ⟨true, rfl, fun _ => .inr hfull⟩
    · rw [if_neg hfull]
      exact ⟨P.usesTransferEncoding, by rw [← huses], .inl⟩
  all_goals exact ⟨P.usesTransferEncoding, by rw [← huses], .inl⟩

theorem not_prefix_of_charAt {c : UInt8}
    (h : ∀ r ∈ headerNames, l <+: r.1 → charAt r.1 l.length ≠ c) :
    ∀ r ∈ headerNames, ¬ l ++ [c] <+: r.1 := by
  intro r hr hp
  have hl : l <+: r.1 := (List.prefix_append _ _).trans hp
  have hlt : l.length < r.1.length := by simpa using hp.length_le
  exact h r hr hl ((append_singleton_prefix_iff hl hlt).mp hp)

/-- The first three bytes, which two of the names have in common. -/
theorem NameAt.step_short (ch : UInt8)
    (hl : (l, P.headerState) ∈ [(bytes "c", .C), (bytes "co", .CO), (bytes "con", .CON)])
    (hi : P.index + 1 = l.length) :
    ∃ Q, headerFieldChar P ch = some Q ∧ NameAt (l ++ [token ch]) Q ∧
      Q.usesTransferEncoding = P.usesTransferEncoding := by
  simp only [List.mem_cons, Prod.mk.injEq, List.not_mem_nil, or_false] at hl
  rcases hl with ⟨rfl, hs⟩ | ⟨rfl, hs⟩ | ⟨rfl, hs⟩ <;> simp only [headerFieldChar, hs] <;>
    refine ⟨_, rfl, ?_, ?_⟩
  · by_cases hc : token ch = byte 'o'
    · rw [hc]
      exact .short (show (bytes "co", HeaderState.CO) ∈ _ by decide) (congrArg Nat.succ hi)
    · refine .general (by rw [decide_eq_false hc]; rfl)
        (not_prefix_of_charAt fun r hr hp => ?_)
      rw [(by decide : ∀ r ∈ headerNames, bytes "c" <+: r.1 →
        charAt r.1 (bytes "c").length = byte 'o') r hr hp]
      exact Ne.symm hc
  · rfl
  · by_cases hc : token ch = byte 'n'
    · rw [hc]
      exact .short (show (bytes "con", HeaderState.CON) ∈ _ by decide) (congrArg Nat.succ hi)
    · refine .general (by rw [decide_eq_false hc]; rfl)
        (not_prefix_of_charAt fun r hr hp => ?_)
      rw [(by decide : ∀ r ∈ headerNames, bytes "co" <+: r.1 →
        charAt r.1 (bytes "co").length = byte 'n') r hr hp]
      exact Ne.symm hc
  · rfl
  · by_cases hn : token ch = byte 'n'
    · rw [if_pos hn, hn]
      exact .matching (bytes "connection", .matchingConnection, .connection) (by decide) rfl
        (congrArg Nat.succ hi) (by decide) (by decide) (by decide)
    rw [if_neg hn]
    by_cases ht : token ch = byte 't'
    · rw [ht]
      exact .matching (bytes "content-length", .matchingContentLength, .contentLength) (by decide)
        rfl (congrArg Nat.succ hi) (by decide) (by decide) (by decide)
    · refine .general (by rw [decide_eq_false ht]; rfl)
        (not_prefix_of_charAt fun r hr hp => ?_)
      rcases (by decide : ∀ r ∈ headerNames, bytes "con" <+: r.1 →
        charAt r.1 (bytes "con").length = byte 'n' ∨
          charAt r.1 (bytes "con").length = byte 't') r hr hp with h | h <;> rw [h]
      exacts [Ne.symm hn, Ne.symm ht]
  · split_ifs <;> rfl

/-- **One byte more of a name.** -/
theorem NameAt.step (h : NameAt l P) (hch : token ch ≠ 0) :
    ∃ Q, headerFieldChar P ch = some Q ∧ NameAt (l ++ [token ch]) Q ∧
      (Q.usesTransferEncoding = true → P.usesTransferEncoding = true ∨
        l ++ [token ch] = bytes "transfer-encoding") := by
  have hbegin : ∀ {s : Bytes}, l ++ [token ch] <+: s → l <+: s :=
    fun h => (List.prefix_append _ _).trans h
  cases h with
  | general hs hl =>
    exact ⟨P, headerFieldChar_general hs, .general hs fun r hr hp => hl r hr (hbegin hp), .inl⟩
  | short hl hi =>
    obtain ⟨Q, hchar, hname, huses⟩ := NameAt.step_short ch hl hi
    exact ⟨Q, hchar, hname, fun h => .inl (huses ▸ h)⟩
  | matching r hr hs hi hl hlt honly =>
    obtain ⟨u, hchar, huses⟩ := headerFieldChar_matching ch hr hs
    refine ⟨_, hchar, ?_, fun hu => ?_⟩
    · rcases matching_spec (token ch) r.2.2 .general hi hl hlt with
        ⟨hend, hm⟩ | ⟨hpre, hlt', hm⟩ | ⟨hno, hm⟩ <;> rw [hm]
      · exact .full r hr rfl hend
      · exact .matching r hr hs (by simp) hpre (by simpa using hlt')
          fun r' hr' hp => honly r' hr' (hbegin hp)
      · refine .general rfl fun r' hr' hp => hno ?_
        rw [← honly r' hr' (hbegin hp)]
        exact hp
    · refine (huses hu).imp id fun hstate => ?_
      rcases matching_spec (token ch) r.2.2 .general hi hl hlt with
        ⟨hend, hm⟩ | ⟨hpre, hlt', hm⟩ | ⟨hno, hm⟩ <;> rw [hm] at hstate
      · rw [hend]
        exact (by decide : ∀ r ∈ headerNames, r.2.2 = .transferEncoding →
          r.1 = bytes "transfer-encoding") r hr hstate
      · exact absurd (hs.symm.trans hstate) ((by decide : ∀ r ∈ headerNames,
          r.2.1 ≠ .transferEncoding) r hr)
      · exact absurd hstate (by simp)
  | full r hr hs hl =>
    have hblank : ch ≠ byte ' ' := by
      rintro rfl
      exact hch (by decide)
    have hchar : headerFieldChar P ch = some { P with headerState := .general } := by
      revert r
      simp only [forall_mem_headerNames]
      refine ⟨?_, ?_, ?_, ?_, ?_⟩ <;> intro hs _ <;> simp only [headerFieldChar, hs, if_pos hblank]
    refine ⟨_, hchar, .general rfl fun r' hr' hp => ?_, .inl⟩
    have heq := eq_of_prefix_headerNames r hr r' hr' (hl ▸ hbegin hp)
    rw [heq, hl] at hp
    exact absurd hp.length_le (by simp)

/-- The machine for names, over some bytes. -/
def nameFold (P : Parser) (cs : Bytes) : Option Parser := cs.foldlM headerFieldChar P

/-- A byte of a value, in the machine for values. -/
def valueStep (P : Parser) (ch : UInt8) : Option Parser :=
  if P.headerState = .connection ∨ P.headerState = .transferEncoding then none
  else if (headerValueChar P ch).2 = none then some (headerValueChar P ch).1
  else none

/-- The machine for values, over some bytes. -/
def valueFold (P : Parser) (cs : Bytes) : Option Parser := cs.foldlM valueStep P

theorem nameAt_first {c : UInt8} (hc : token c ≠ 0) (hi : P.index = 0)
    (hs : P.headerState = firstHeaderState (token c)) : NameAt [token c] P := by
  generalize token c = d at hc hs
  unfold firstHeaderState at hs
  have hone : P.index + 1 = [d].length := by rw [hi]; rfl
  by_cases hC : d = byte 'c'
  · subst hC
    rw [if_pos rfl] at hs
    exact .short (by rw [hs]; decide) hone
  rw [if_neg hC] at hs
  by_cases hp : d = byte 'p'
  · subst hp
    rw [if_pos rfl] at hs
    exact .matching (bytes "proxy-connection", .matchingProxyConnection, .connection) (by decide) hs
      hone (by decide) (by decide) (by decide)
  rw [if_neg hp] at hs
  by_cases ht : d = byte 't'
  · subst ht
    rw [if_pos rfl] at hs
    exact .matching (bytes "transfer-encoding", .matchingTransferEncoding, .transferEncoding)
      (by decide) hs hone (by decide) (by decide) (by decide)
  rw [if_neg ht] at hs
  by_cases hu : d = byte 'u'
  · subst hu
    rw [if_pos rfl] at hs
    exact .matching (bytes "upgrade", .matchingUpgrade, .upgrade) (by decide) hs
      hone (by decide) (by decide) (by decide)
  rw [if_neg hu] at hs
  refine .general hs fun r hr hpre => ?_
  have hhead : charAt r.1 0 = d := by
    obtain ⟨t, ht⟩ := hpre
    rw [← ht]
    rfl
  have := (by decide : ∀ r ∈ headerNames, charAt r.1 0 ∈ bytes "cptu") r hr
  rw [hhead] at this
  simp only [bytes] at this
  simp_all

theorem nameFold_frame {cs : Bytes} (h : nameFold P cs = some Q) :
    ∃ i s u, Q = { P with index := i, headerState := s, usesTransferEncoding := u } := by
  induction cs generalizing P with
  | nil =>
    obtain rfl := Option.some_inj.mp h
    exact ⟨_, _, _, rfl⟩
  | cons c cs ih =>
    obtain ⟨Q₁, hchar, hrest⟩ := Option.bind_eq_some_iff.mp h
    obtain ⟨i₁, s₁, u₁, hQ₁⟩ := headerFieldChar_frame hchar
    obtain ⟨i, s, u, hQ⟩ := ih hrest
    exact ⟨i, s, u, by rw [hQ, hQ₁]⟩

/-- The machine for names does not get stuck, and knows what it has read. -/
theorem nameFold_spec {cs : Bytes} (h : NameAt l P) (hcs : ∀ c ∈ cs, token c ≠ 0) :
    ∃ Q, nameFold P cs = some Q ∧ NameAt (l ++ cs.map token) Q ∧
      (Q.usesTransferEncoding = true → P.usesTransferEncoding = true ∨
        (l.length < (bytes "transfer-encoding").length ∧
          bytes "transfer-encoding" <+: l ++ cs.map token)) := by
  induction cs generalizing l P with
  | nil => exact ⟨P, rfl, by simpa using h, .inl⟩
  | cons c cs ih =>
    obtain ⟨Q₁, hchar, hname, huses⟩ := h.step (hcs c (by simp))
    obtain ⟨Q, hfold, hend, huses'⟩ := ih hname fun c hc => hcs c (by simp [hc])
    have hlist : l ++ [token c] ++ cs.map token = l ++ (c :: cs).map token := by simp
    rw [hlist] at hend huses'
    refine ⟨Q, ?_, hend, fun hu => ?_⟩
    · rw [nameFold, List.foldlM_cons, hchar]
      exact hfold
    · rcases huses' hu with hu₁ | ⟨hlt, hpre⟩
      · refine (huses hu₁).imp id fun heq => ?_
        rw [← heq, ← hlist]
        exact ⟨by simp, List.prefix_append _ _⟩
      · exact .inr ⟨by simp only [List.length_append] at hlt; omega, hpre⟩

/-- The states behind a name that is none of the five. -/
def unknownStates : List HeaderState :=
  [.general, .C, .CO, .CON, .matchingConnection, .matchingProxyConnection,
   .matchingContentLength, .matchingTransferEncoding, .matchingUpgrade]

/-- What the machine ends in is the name of the five that has been read, if it is one. -/
theorem NameAt.headerState (h : NameAt l P) :
    (∃ r ∈ headerNames, l = r.1 ∧ P.headerState = r.2.2) ∨
      (∀ r ∈ headerNames, l ≠ r.1) ∧ P.headerState ∈ unknownStates := by
  cases h with
  | general hs hl =>
    refine .inr ⟨fun r hr heq => hl r hr (heq ▸ List.prefix_refl _), ?_⟩
    rw [hs]
    decide
  | short hl hi =>
    simp only [List.mem_cons, Prod.mk.injEq, List.not_mem_nil, or_false] at hl
    rcases hl with ⟨rfl, hs⟩ | ⟨rfl, hs⟩ | ⟨rfl, hs⟩ <;> rw [hs] <;> exact .inr (by decide)
  | matching r hr hs hi hl hlt honly =>
    refine .inr ⟨fun r' hr' heq => ?_, ?_⟩
    · rw [← honly r' hr' (heq ▸ List.prefix_refl _), heq] at hlt
      exact absurd hlt (lt_irrefl _)
    · rw [hs]
      exact (by decide : ∀ r ∈ headerNames, r.2.1 ∈ unknownStates) r hr
  | full r hr hs hl => exact .inl ⟨r, hr, hl, hs⟩

end ParserLib

end Server
