/-
The first lines of messages.

* `methodFold_eq`, `reads_method`, `method_recognised` — the turns from one method to
  another find the 34 methods of the table, and nothing else;
* `reads_requestLine` — method, target and version of a request.
-/
import AsyncServer.ParserLines

namespace Server

open CString Pieces

namespace ParserLib

variable {S : Settings} {P P' P'' Q : Parser} {ch : UInt8} {bs rest name url : Bytes}
variable {out : Stream} {m m' : HttpMethod}

/-- A byte at which nothing is done, and no datum is open. -/
theorem Reads.brk (h : P.Counting) (hs : P.state.single = true) (ho : P.state.openDatum = none)
    (ht : switch (P.reading (P.nread + 1)) ch = ParserLib.brk P')
    (hrest : Reads S P' bs P'' out) : Reads S P (ch :: bs) P'' out :=
  Reads.cons (tick_brk h hs ho ht) hrest

/-! ### Methods -/

/-- The method that the bytes so far are the beginning of, and how many they are. -/
def methodNext (r : HttpMethod × ℕ) (ch : UInt8) : Option (HttpMethod × ℕ) :=
  if ch = charAt (methodStrings r.1) r.2 then some (r.1, r.2 + 1)
  else (methodTurns.lookup (r.1, r.2, ch)).map fun m => (m, r.2 + 1)

/-- Several bytes. -/
def methodFold (r : HttpMethod × ℕ) (bs : Bytes) : Option (HttpMethod × ℕ) :=
  bs.foldlM methodNext r

theorem methodTurns_spec : ∀ row ∈ methodTurns,
    ((byte 'A' ≤ row.1.2.2 ∧ row.1.2.2 ≤ byte 'Z') ∨ row.1.2.2 = byte '-') ∧
      (methodStrings row.2).take (row.1.2.1 + 1) =
        (methodStrings row.1.1).take row.1.2.1 ++ [row.1.2.2] := by
  decide

theorem firstMethod_spec (h : firstMethod ch = some m) : (methodStrings m).take 1 = [ch] := by
  obtain ⟨l₁, l₂, hl, -⟩ := List.lookup_eq_some_iff.mp h
  have hall : ∀ row ∈ l₁ ++ (ch, m) :: l₂, (methodStrings row.2).take 1 = [row.1] := by
    rw [← hl]
    decide
  exact hall (ch, m) (by simp)

theorem zero_notMem_methodStrings (m : HttpMethod) : (0 : UInt8) ∉ methodStrings m := by
  cases m <;> decide

theorem blank_notMem_methodStrings (m : HttpMethod) : (32 : UInt8) ∉ methodStrings m := by
  cases m <;> decide

theorem charAt_eq_zero_iff {s : Bytes} (hs : (0 : UInt8) ∉ s) {i : ℕ} :
    charAt s i = 0 ↔ s.length ≤ i := by
  unfold charAt
  constructor
  · intro h
    by_contra hlt
    rw [List.getD_eq_getElem _ _ (not_le.mp hlt)] at h
    exact hs (h ▸ List.getElem_mem _)
  · exact fun h => List.getD_eq_default _ _ h

/-- One byte more of a method. -/
theorem methodNext_spec {i i' : ℕ} (hch : ch ≠ 0) (h : methodNext (m, i) ch = some (m', i')) :
    i' = i + 1 ∧ (methodStrings m').take i' = (methodStrings m).take i ++ [ch] := by
  unfold methodNext at h
  dsimp only at h
  split_ifs at h with hchar
  · obtain ⟨rfl, rfl⟩ := Prod.mk.inj (Option.some_inj.mp h)
    have hlt : i < (methodStrings m).length := by
      by_contra hge
      exact hch (hchar.trans ((charAt_eq_zero_iff (zero_notMem_methodStrings m)).mpr
        (not_lt.mp hge)))
    refine ⟨rfl, ?_⟩
    rw [List.take_add_one, List.getElem?_eq_getElem hlt, hchar, charAt,
      List.getD_eq_getElem _ _ hlt]
    rfl
  · obtain ⟨m₁, hlookup, heq⟩ := Option.map_eq_some_iff.mp h
    obtain ⟨rfl, rfl⟩ := Prod.mk.inj heq
    obtain ⟨l₁, l₂, hl, -⟩ := List.lookup_eq_some_iff.mp hlookup
    have hmem : ((m, i, ch), m₁) ∈ methodTurns := by
      rw [hl]
      simp
    exact ⟨rfl, (methodTurns_spec _ hmem).2⟩

/-- Whatever is taken for the beginning of a method is one. -/
theorem methodFold_eq {i i' : ℕ} (hbs : (0 : UInt8) ∉ bs)
    (h : methodFold (m, i) bs = some (m', i')) :
    i' = i + bs.length ∧ (methodStrings m').take i' = (methodStrings m).take i ++ bs := by
  induction bs generalizing m i with
  | nil =>
    obtain ⟨rfl, rfl⟩ := Prod.mk.inj (Option.some_inj.mp h)
    simp
  | cons ch bs ih =>
    obtain ⟨⟨m₁, i₁⟩, hnext, hrest⟩ := Option.bind_eq_some_iff.mp h
    obtain ⟨hch, hbs⟩ := not_or.mp (mt List.mem_cons.mpr hbs)
    obtain ⟨rfl, htake⟩ := methodNext_spec (Ne.symm hch) hnext
    obtain ⟨rfl, htake'⟩ := ih hbs hrest
    refine ⟨?_, ?_⟩
    · rw [List.length_cons]
      omega
    · rw [htake', htake, List.append_assoc, List.singleton_append]

/-- All methods of the table are found. -/
theorem methodFold_methodStrings : ∀ m ∈ httpMethodMap.map Prod.fst,
    ((methodStrings m).head?.bind firstMethod).bind (fun m₀ =>
      methodFold (m₀, 1) (methodStrings m).tail) = some (m, (methodStrings m).length) := by
  decide

/-- The struct with the method so far. -/
def Parser.withMethod (P : Parser) (r : HttpMethod × ℕ) : Parser :=
  { P with method := r.1, index := r.2 }

/-- The case `s_req_method`, at a byte of a method. -/
theorem reqMethod_eq (hch : ch ≠ 0 ∧ ch ≠ 32) : reqMethod P ch =
    ((methodNext (P.method, P.index) ch).map fun r => ParserLib.brk (P.withMethod r)).getD
      (fail P .invalidMethod) := by
  unfold reqMethod methodNext
  dsimp only
  rw [if_neg hch.1, if_neg fun h => hch.2 h.1]
  split_ifs with hchar hletter
  · rfl
  · cases methodTurns.lookup (P.method, P.index, ch) <;> rfl
  · cases hlookup : methodTurns.lookup (P.method, P.index, ch) with
    | none => rfl
    | some m =>
      obtain ⟨l₁, l₂, hl, -⟩ := List.lookup_eq_some_iff.mp hlookup
      have hmem : ((P.method, P.index, ch), m) ∈ methodTurns := by
        rw [hl]
        simp
      exact absurd (methodTurns_spec _ hmem).1 hletter

/-- A callback without data, if it is registered. -/
def notice (S : Settings) (n : Notice) : Stream :=
  if S.notify n then [.mark (.notify n)] else []

/-- A parser in front of a request. -/
structure Parser.Ready (P : Parser) : Prop where
  type : P.type = .request
  state : P.state = .startReq
  errno : P.httpErrno = .ok
  nread : P.nread = 0

theorem isAlpha_of_firstMethod (h : firstMethod ch = some m) :
    ¬ (ch = CR ∨ ch = LF) ∧ isAlpha ch = true := by
  obtain ⟨l₁, l₂, hl, -⟩ := List.lookup_eq_some_iff.mp h
  have hall : ∀ row ∈ l₁ ++ (ch, m) :: l₂, ¬ (row.1 = CR ∨ row.1 = LF) ∧ isAlpha row.1 = true := by
    rw [← hl]
    decide
  exact hall (ch, m) (by simp)

/-- The struct behind the first byte of a request. -/
def Parser.begun (P : Parser) (m : HttpMethod) (i : ℕ) : Parser :=
  { beginMessage P with method := m, index := i, state := .reqMethod }

theorem startReq_eq (h : firstMethod ch = some m) :
    startReq P ch = (ParserLib.brk (P.begun m 1)).doing [.notify .messageBegin .reqMethod] := by
  obtain ⟨hnl, halpha⟩ := isAlpha_of_firstMethod h
  unfold startReq
  rw [if_neg hnl, if_neg (by simp [halpha])]
  simp only [h]
  rfl

theorem tick_startReq (h : P.Counting) (hs : P.state = .startReq) (hm : firstMethod ch = some m) :
    tick S P ch =
      some ((P.begun m 1).reading (P.nread + 1), notice S .messageBegin) := by
  have hswitch : switch (P.reading (P.nread + 1)) ch =
      (ParserLib.brk ((P.begun m 1).reading (P.nread + 1))).doing
        [.notify .messageBegin .reqMethod] := by
    simp only [switch, Parser.reading, hs]
    exact startReq_eq hm
  rw [tick_switch h (by rw [hs]; rfl) hswitch rfl, hs]
  simp [Case.shows, ParserLib.brk, Case.doing, Action.shows, Action.adds, Action.opens,
    State.openDatum, openPiece, notice]

theorem switch_reqMethod (hs : P.state = .reqMethod) : switch P ch = reqMethod P ch := by
  simp only [switch, hs]

/-- **The bytes of a method.** -/
theorem reads_methodFold {r : HttpMethod × ℕ} (hs : P.state = .reqMethod)
    (he : P.httpErrno = .ok) (hroom : P.nread + bs.length ≤ maxHeaderSize)
    (hbs : (0 : UInt8) ∉ bs ∧ (32 : UInt8) ∉ bs)
    (h : methodFold (P.method, P.index) bs = some r) :
    Reads S P bs ((P.withMethod r).reading (P.nread + bs.length)) [] := by
  induction bs generalizing P with
  | nil =>
    obtain rfl := Option.some_inj.mp h
    exact Reads.nil
  | cons ch bs ih =>
    obtain ⟨r₁, hnext, hrest⟩ := Option.bind_eq_some_iff.mp h
    obtain ⟨hzero, hbs₀⟩ := not_or.mp (mt List.mem_cons.mpr hbs.1)
    obtain ⟨hblank, hbs₁⟩ := not_or.mp (mt List.mem_cons.mpr hbs.2)
    rw [List.length_cons] at hroom ⊢
    have hcount : P.Counting := ⟨he, by rw [hs]; rfl, by omega⟩
    have hswitch : switch (P.reading (P.nread + 1)) ch =
        ParserLib.brk ((P.withMethod r₁).reading (P.nread + 1)) := by
      rw [switch_reqMethod (P := P.reading (P.nread + 1)) hs,
        reqMethod_eq ⟨Ne.symm hzero, Ne.symm hblank⟩,
        show methodNext ((P.reading (P.nread + 1)).method, (P.reading (P.nread + 1)).index) ch =
          some r₁ from hnext]
      rfl
    refine Reads.brk hcount (by rw [hs]; rfl) (by rw [hs]; rfl) hswitch ?_
    have htail := ih (P := (P.withMethod r₁).reading (P.nread + 1)) hs he
      (by rw [nread_reading]; omega) ⟨hbs₀, hbs₁⟩ hrest
    rw [nread_reading, add_assoc, add_comm 1] at htail
    exact htail

/-- The blank behind a method. -/
theorem switch_method_end (hs : P.state = .reqMethod)
    (hend : charAt (methodStrings P.method) P.index = 0) :
    switch P 32 = ParserLib.brk ({ P with index := P.index + 1 }.enter .reqSpacesBeforeUrl) := by
  rw [switch_reqMethod hs, reqMethod]
  dsimp only
  rw [if_neg (by decide), if_pos ⟨rfl, hend⟩]

/-- **A method is read.** -/
theorem reads_method (h : P.Ready) (hm : m ∈ httpMethodMap.map Prod.fst) :
    ∃ i, Reads S P (methodStrings m ++ [32])
      (((P.begun m i).enter .reqSpacesBeforeUrl).reading ((methodStrings m).length + 1))
      (notice S .messageBegin) := by
  obtain ⟨m₀, hfirst, hfold⟩ := Option.bind_eq_some_iff.mp (methodFold_methodStrings m hm)
  obtain ⟨c, hhead, hfirst⟩ := Option.bind_eq_some_iff.mp hfirst
  obtain ⟨cs, hcs⟩ := List.head?_eq_some_iff.mp hhead
  have hlength : ∀ m : HttpMethod, (methodStrings m).length < 20 := by
    intro m
    cases m <;> decide
  have hroom := hlength m
  have hzero := zero_notMem_methodStrings m
  have hblank := blank_notMem_methodStrings m
  have hend : charAt (methodStrings m) (methodStrings m).length = 0 :=
    (charAt_eq_zero_iff hzero).mpr le_rfl
  have hmax : maxHeaderSize = 81920 := rfl
  have hlen : (methodStrings m).length = cs.length + 1 := by rw [hcs, List.length_cons]
  rw [hcs] at hzero hblank
  rw [hcs, List.tail_cons, ← hcs, hlen] at hfold
  rw [hlen] at hroom hend ⊢
  rw [List.mem_cons, not_or] at hzero hblank
  have hcount : P.Counting := ⟨h.errno, by rw [h.state]; rfl, by rw [h.nread]; omega⟩
  refine ⟨cs.length + 1 + 1, ?_⟩
  have hone := Reads.one (tick_startReq (S := S) hcount h.state hfirst)
  have hbytes := reads_methodFold (S := S)
    (P := (P.begun m₀ 1).reading (P.nread + 1)) rfl h.errno
    (by rw [nread_reading, h.nread]; omega) ⟨hzero.2, hblank.2⟩ hfold
  rw [nread_reading, h.nread, zero_add, add_comm 1] at hbytes
  rw [h.nread] at hone
  have hlast : Reads S ((P.begun m (cs.length + 1)).reading (cs.length + 1)) [32]
      (((P.begun m (cs.length + 1 + 1)).enter .reqSpacesBeforeUrl).reading (cs.length + 1 + 1))
      [] :=
    Reads.brk ⟨h.errno, rfl, by rw [nread_reading]; omega⟩ rfl rfl
      (switch_method_end (P := (P.begun m (cs.length + 1)).reading (cs.length + 1 + 1)) rfl hend)
      Reads.nil
  have hall := (hone.append hbytes).append hlast
  rwa [List.append_nil, List.append_nil, List.singleton_append, ← hcs] at hall

/-- A byte at which the pass goes on in `s_req_method`. -/
theorem verdict_reqMethod (h : (reqMethod P ch).verdict = .next) (hch : ch ≠ 32) : ch ≠ 0 ∧
    ∃ r, methodNext (P.method, P.index) ch = some r ∧
      reqMethod P ch = ParserLib.brk (P.withMethod r) := by
  have hzero : ch ≠ 0 := by
    rintro rfl
    rw [reqMethod, if_pos rfl] at h
    exact absurd h (by simp [fail])
  rw [reqMethod_eq ⟨hzero, hch⟩] at h ⊢
  cases hnext : methodNext (P.method, P.index) ch with
  | none =>
    rw [hnext] at h
    exact absurd h (by simp [fail])
  | some r => exact ⟨hzero, r, rfl, rfl⟩

/-- A blank is a byte of no method. -/
theorem verdict_method_end (h : (reqMethod P 32).verdict = .next) :
    charAt (methodStrings P.method) P.index = 0 := by
  by_contra hend
  have hne : (32 : UInt8) ≠ charAt (methodStrings P.method) P.index := by
    intro heq
    unfold charAt at heq hend
    by_cases hlt : P.index < (methodStrings P.method).length
    · rw [List.getD_eq_getElem _ _ hlt] at heq
      exact blank_notMem_methodStrings _ (heq ▸ List.getElem_mem _)
    · exact hend (List.getD_eq_default _ _ (not_lt.mp hlt))
  rw [reqMethod] at h
  dsimp only at h
  rw [if_neg (by decide), if_neg fun hb => hend hb.2, if_neg hne, if_neg (by decide)] at h
  exact absurd h (by simp [fail])

theorem sound_withMethod (h : P.Sound) (hlt : P.nread < maxHeaderSize) (r : HttpMethod × ℕ) :
    ((P.withMethod r).reading (P.nread + 1)).Sound :=
  ⟨h.errno, hlt, h.length⟩

/-- What has been parsed up to the blank behind a method is a method. -/
theorem methodFold_of_ticks {r' : Parser × Stream} (h : P.Sound) (hs : P.state = .reqMethod)
    (hbs : (32 : UInt8) ∉ bs) (hticks : ticks S P (bs ++ [32]) = some r') :
    (0 : UInt8) ∉ bs ∧ ∃ r, methodFold (P.method, P.index) bs = some r ∧
      charAt (methodStrings r.1) r.2 = 0 ∧ r'.1.method = r.1 := by
  induction bs generalizing P r' with
  | nil =>
    obtain ⟨r₁, htick, hnil⟩ := Option.bind_eq_some_iff.mp hticks
    obtain ⟨r₂, hr₂, rfl⟩ := Option.map_eq_some_iff.mp hnil
    obtain rfl := Option.some_inj.mp hr₂
    obtain ⟨hcount, hv, rfl⟩ := h.of_tick (by rw [hs]; rfl) (by rw [hs]; rfl) htick
    refine ⟨List.not_mem_nil, (P.method, P.index), rfl, ?_⟩
    rw [switch_reqMethod (P := P.reading (P.nread + 1)) hs] at hv
    have hend : charAt (methodStrings P.method) P.index = 0 :=
      verdict_method_end (P := P.reading (P.nread + 1)) hv
    refine ⟨hend, ?_⟩
    rw [switch_method_end (P := P.reading (P.nread + 1)) hs hend]
    rfl
  | cons ch bs ih =>
    obtain ⟨hblank, hbs⟩ := not_or.mp (mt List.mem_cons.mpr hbs)
    obtain ⟨r₁, htick, hrest⟩ := Option.bind_eq_some_iff.mp hticks
    obtain ⟨r₂, hr₂, rfl⟩ := Option.map_eq_some_iff.mp hrest
    obtain ⟨hcount, hv, rfl⟩ := h.of_tick (by rw [hs]; rfl) (by rw [hs]; rfl) htick
    rw [switch_reqMethod (P := P.reading (P.nread + 1)) hs] at hv hr₂
    obtain ⟨hzero, r, hnext, heq⟩ := verdict_reqMethod hv (Ne.symm hblank)
    rw [heq] at hr₂
    obtain ⟨hzeros, r', hfold, hend, hmethod⟩ :=
      ih (sound_withMethod h hcount.room r) hs hbs hr₂
    refine ⟨?_, r', Option.bind_eq_some_iff.mpr ⟨r, hnext, hfold⟩, hend, hmethod⟩
    exact fun h0 => (List.mem_cons.mp h0).elim (fun h0 => hzero h0.symm) hzeros

/-- The first byte of a request. -/
theorem verdict_startReq (h : (startReq P ch).verdict = .next) (hch : ch ≠ CR ∧ ch ≠ LF) :
    ∃ m, firstMethod ch = some m := by
  unfold startReq at h
  rw [if_neg (not_or.mpr hch)] at h
  split_ifs at h with halpha
  · exact absurd h (by simp [fail])
  · cases hm : firstMethod ch with
    | none =>
      simp only [hm] at h
      exact absurd h (by simp [fail])
    | some m => exact ⟨m, rfl⟩

theorem mem_httpMethodMap (h : methodStrings m ≠ []) : m ∈ httpMethodMap.map Prod.fst := by
  cases m <;> first | exact absurd rfl h | decide

/-- **Exactly the methods of the table are recognised**: behind a name and a blank. -/
theorem ticks_method_iff (h : P.Ready) (hsound : P.Sound) (hname : (32 : UInt8) ∉ name)
    (hhead : ∀ c ∈ name.head?, c ≠ CR ∧ c ≠ LF) :
    (∃ r, ticks S P (name ++ [32]) = some r ∧ r.1.method = m) ↔
      m ∈ httpMethodMap.map Prod.fst ∧ name = methodStrings m := by
  constructor
  · rintro ⟨r, hticks, rfl⟩
    cases name with
    | nil =>
      obtain ⟨r₁, htick, -⟩ := Option.bind_eq_some_iff.mp hticks
      obtain ⟨-, hv, -⟩ := hsound.of_tick (by rw [h.state]; rfl) (by rw [h.state]; rfl) htick
      simp only [switch, Parser.reading, h.state] at hv
      obtain ⟨m, hm⟩ := verdict_startReq hv ⟨by decide, by decide⟩
      exact absurd (hm.symm.trans (by decide : firstMethod 32 = none)) (by simp)
    | cons c cs =>
      obtain ⟨hblank, hcs⟩ := not_or.mp (mt List.mem_cons.mpr hname)
      obtain ⟨r₁, htick, hrest⟩ := Option.bind_eq_some_iff.mp hticks
      obtain ⟨r₂, hr₂, rfl⟩ := Option.map_eq_some_iff.mp hrest
      obtain ⟨hcount, hv, -⟩ := hsound.of_tick (by rw [h.state]; rfl) (by rw [h.state]; rfl) htick
      simp only [switch, Parser.reading, h.state] at hv
      obtain ⟨m₀, hfirst⟩ := verdict_startReq hv (hhead c rfl)
      rw [tick_startReq hcount h.state hfirst] at htick
      obtain rfl := Option.some_inj.mp htick
      have hsound₁ : ((P.begun m₀ 1).reading (P.nread + 1)).Sound :=
        ⟨h.errno, hcount.room, le_rfl⟩
      obtain ⟨hzero, r', hfold, hend, hmethod⟩ := methodFold_of_ticks hsound₁ rfl hcs hr₂
      obtain ⟨-, htake⟩ := methodFold_eq (m := m₀) (i := 1) hzero hfold
      have hlength := (charAt_eq_zero_iff (zero_notMem_methodStrings r'.1)).mp hend
      have heq : c :: cs = methodStrings r'.1 := by
        rw [List.take_of_length_le hlength, firstMethod_spec hfirst] at htake
        exact htake.symm
      rw [hmethod]
      exact ⟨mem_httpMethodMap (by rw [← heq]; simp), heq⟩
  · rintro ⟨hm, rfl⟩
    obtain ⟨i, o, hticks, -⟩ := reads_method (S := S) h hm
    exact ⟨_, hticks, rfl⟩

/-- **The methods that a request can have**, in blocks cut in any way. -/
theorem method_recognised {bs : List Bytes} (hbs : ∀ b ∈ bs, Block b)
    (hflat : bs.flatten = name ++ [32]) (hname : (32 : UInt8) ∉ name)
    (hhead : ∀ c ∈ name.head?, c ≠ CR ∧ c ≠ LF) :
    (∃ r, feed S (httpParserInit .request) bs = some r ∧ r.1.method = m) ↔
      m ∈ httpMethodMap.map Prod.fst ∧ name = methodStrings m := by
  have hsound := sound_init .request
  rw [← ticks_method_iff (S := S) (P := httpParserInit .request) ⟨rfl, rfl, rfl, rfl⟩
    hsound hname hhead, ← hflat]
  cases hticks : ticks S (httpParserInit .request) bs.flatten with
  | none =>
    rw [feed_eq_none hsound hbs hticks]
    simp
  | some r =>
    obtain ⟨es, hfeed, -, -⟩ := feed_eq hsound (fun b hb => (hbs b hb).1) hticks
    rw [hfeed]
    simp

/-- `MOVE`, in two blocks. -/
theorem move_recognised : ∃ r, feed requestSettings (httpParserInit .request)
    [bytes "MO", bytes "VE "] = some r ∧ r.1.method = .move := by
  have hflat : [bytes "MO", bytes "VE "].flatten = bytes "MOVE" ++ [32] := by decide
  exact (method_recognised (by unfold Block; decide) hflat (by decide)
    (by rintro c ⟨⟩; decide)).mpr ⟨by decide, by decide⟩

/-! ### Targets -/

/-- The states in which a target may end. -/
def targetStates : List State :=
  [.reqServer, .reqServerWithAt, .reqPath, .reqQueryStringStart, .reqQueryString,
   .reqFragmentStart, .reqFragment]

/-- Read a target, from its first byte on. -/
def urlFold (bs : Bytes) (s : State) : State := bs.foldl parseUrlChar s

theorem parseUrlChar_dead : parseUrlChar .dead ch = .dead := by
  unfold parseUrlChar
  split_ifs <;> rfl

theorem urlFold_dead : urlFold bs .dead = .dead := by
  induction bs with
  | nil => rfl
  | cons c bs ih =>
    show urlFold bs (parseUrlChar .dead c) = .dead
    rw [parseUrlChar_dead, ih]

/-- The states inside a target. -/
def State.inTarget (s : State) : Bool :=
  s ∈ [.reqSchema, .reqSchemaSlash, .reqSchemaSlashSlash, .reqServerStart] || s ∈ targetStates

theorem parseUrlChar_inTarget {s : State} (h : parseUrlChar s ch ≠ .dead) :
    (parseUrlChar s ch).inTarget = true ∧ ¬ (ch = byte ' ' ∨ ch = CR ∨ ch = LF) := by
  have hbyte : ¬ (ch = byte ' ' ∨ ch = CR ∨ ch = LF) := by
    intro hch
    refine h ?_
    unfold parseUrlChar
    refine if_pos ?_
    simp only [Bool.or_eq_true, decide_eq_true_iff, or_assoc]
    exact hch
  refine ⟨?_, hbyte⟩
  unfold parseUrlChar parseUrlChar.server parseUrlChar.query at h ⊢
  cases s <;> simp only at h ⊢ <;> split_ifs at h ⊢ <;> first | rfl | exact absurd rfl h

/-- A byte of a target. -/
theorem switch_inTarget (hs : P.state.inTarget = true)
    (h : parseUrlChar P.state ch ≠ .dead) :
    switch P ch = ParserLib.brk (P.enter (parseUrlChar P.state ch)) := by
  obtain ⟨-, hbyte⟩ := parseUrlChar_inTarget h
  have hurl : urlChar P ch = ParserLib.brk (P.enter (parseUrlChar P.state ch)) := by
    unfold urlChar
    exact if_neg h
  have hline : ¬ (ch = CR ∨ ch = LF) := fun hch => hbyte (.inr hch)
  have hblank : ¬ ch = byte ' ' := fun hch => hbyte (.inl hch)
  cases hstate : P.state <;> rw [hstate] at hs <;>
    first
    | exact absurd hs (by decide)
    | rw [← hstate, ← hurl]; simp only [switch, hstate, reqSchema, reqUrl, if_neg hbyte,
        if_neg hblank, if_neg hline]

/-- **The bytes of a target**, behind its first one. -/
theorem reads_urlFold (hs : P.state.inTarget = true) (he : P.httpErrno = .ok)
    (hroom : P.nread + bs.length ≤ maxHeaderSize) (h : urlFold bs P.state ≠ .dead) :
    Reads S P bs ((P.enter (urlFold bs P.state)).reading (P.nread + bs.length))
      (pieces S .url bs) := by
  induction bs generalizing P with
  | nil => exact Reads.nil
  | cons c bs ih =>
    have hc : parseUrlChar P.state c ≠ .dead := by
      intro hdead
      refine h ?_
      show urlFold bs (parseUrlChar P.state c) = .dead
      rw [hdead, urlFold_dead]
    have hcount : P.Counting := by
      refine ⟨he, ?_, ?_⟩
      · cases hstate : P.state <;> rw [hstate] at hs <;> first | rfl | exact absurd hs (by decide)
      · rw [List.length_cons] at hroom
        omega
    have hopen : P.state.openDatum = some .url ∧ P.state.single = true := by
      cases hstate : P.state <;> rw [hstate] at hs <;>
        first | exact ⟨rfl, rfl⟩ | exact absurd hs (by decide)
    have htick : tick S P c = some
        ((P.enter (parseUrlChar P.state c)).reading (P.nread + 1), piece S .url [c]) := by
      rw [tick_switch hcount hopen.2
        (switch_inTarget (P := P.reading (P.nread + 1)) hs hc) rfl, hopen.1]
      rfl
    rw [List.length_cons] at hroom ⊢
    have htail := ih (P := (P.enter (parseUrlChar P.state c)).reading (P.nread + 1))
      (parseUrlChar_inTarget hc).1 he (by rw [nread_reading]; omega) h
    rw [nread_reading, add_assoc, add_comm 1] at htail
    exact Reads.cons htick htail

/-- A target that the parser takes, of a method other than CONNECT. -/
def IsUrl (url : Bytes) : Prop := urlFold url .reqSpacesBeforeUrl ∈ targetStates

instance : DecidablePred IsUrl := fun _ => inferInstanceAs (Decidable (_ ∈ _))

/-- A path: the bytes of `IsTarget`, as far as they are of ASCII. -/
theorem isUrl_path {path : Bytes} (hhead : path.head? = some 47)
    (hpath : ∀ c ∈ path, (33 ≤ c ∧ c < 127) ∧ c ∉ bytes "?#") : IsUrl path := by
  obtain ⟨cs, rfl⟩ := List.head?_eq_some_iff.mp hhead
  have hchar : ∀ {c : UInt8}, (33 ≤ c ∧ c < 127) ∧ c ∉ bytes "?#" →
      parseUrlChar .reqPath c = .reqPath := by
    intro c hc
    have hall : ∀ n < 256, (33 ≤ UInt8.ofNat n ∧ UInt8.ofNat n < 127) ∧
        UInt8.ofNat n ∉ bytes "?#" → parseUrlChar .reqPath (UInt8.ofNat n) = .reqPath := by
      decide +kernel
    have := hall c.toNat c.toNat_lt
    rw [UInt8.ofNat_toNat] at this
    exact this hc
  have hcs : ∀ c ∈ cs, parseUrlChar .reqPath c = .reqPath := fun c hc =>
    hchar (hpath c (by simp [hc]))
  have hfold : urlFold cs .reqPath = .reqPath := by
    clear hhead hpath
    induction cs with
    | nil => rfl
    | cons c cs ih =>
      show urlFold cs (parseUrlChar .reqPath c) = .reqPath
      rw [hcs c (by simp), ih fun c hc => hcs c (by simp [hc])]
  show urlFold cs (parseUrlChar .reqSpacesBeforeUrl 47) ∈ targetStates
  rw [show parseUrlChar .reqSpacesBeforeUrl 47 = .reqPath from by decide, hfold]
  decide

/-- The blank behind a target. -/
theorem switch_target_end (hs : P.state ∈ targetStates) :
    switch P 32 = (ParserLib.brk (P.enter .reqHttpStart)).doing [.data .url .reqHttpStart] := by
  cases hstate : P.state <;> rw [hstate] at hs <;>
    first | exact absurd hs (by decide) | simp only [switch, hstate]; rfl

/-- **A target is read**, and the blank behind it. -/
theorem reads_target (hs : P.state = .reqSpacesBeforeUrl) (he : P.httpErrno = .ok)
    (hm : P.method ≠ .connect) (hroom : P.nread + (url.length + 1) ≤ maxHeaderSize)
    (hurl : IsUrl url) :
    Reads S P (url ++ [32])
      ((P.enter .reqHttpStart).reading (P.nread + (url.length + 1))) (whole S .url url) := by
  have hdead : ∀ s ∈ targetStates, s ≠ .dead := by decide
  cases url with
  | nil => exact absurd hurl (by decide)
  | cons c cs =>
    rw [List.length_cons] at hroom ⊢
    have hfold : urlFold cs (parseUrlChar .reqSpacesBeforeUrl c) ∈ targetStates := hurl
    have hc : parseUrlChar .reqSpacesBeforeUrl c ≠ .dead := by
      intro hc
      rw [hc, urlFold_dead] at hfold
      exact absurd hfold (by decide)
    obtain ⟨htarget, hbyte⟩ := parseUrlChar_inTarget hc
    set s := parseUrlChar .reqSpacesBeforeUrl c with hsdef
    have hswitch : switch (P.reading (P.nread + 1)) c =
        (ParserLib.brk ((P.enter s).reading (P.nread + 1))).doing [.mark .url] := by
      have hcase : switch (P.reading (P.nread + 1)) c =
          reqSpacesBeforeUrl (P.reading (P.nread + 1)) c := by
        simp only [switch, Parser.reading, hs]
      rw [hcase, reqSpacesBeforeUrl, if_neg fun hch => hbyte (.inl hch),
        if_neg (show (P.reading (P.nread + 1)).method ≠ .connect from hm), urlChar,
        show (P.reading (P.nread + 1)).state = .reqSpacesBeforeUrl from hs, ← hsdef]
      exact congrArg (Case.doing _) (if_neg hc)
    have hcount : P.Counting := ⟨he, by rw [hs]; rfl, by omega⟩
    have hfirst : tick S P c = some ((P.enter s).reading (P.nread + 1),
        piece S .url [] ++ piece S .url [c]) := by
      rw [tick_switch hcount (by rw [hs]; rfl) hswitch rfl, shows_of_mark rfl]
      rfl
    have hmiddle := reads_urlFold (S := S)
      (P := (P.enter s).reading (P.nread + 1)) htarget he (by rw [nread_reading]; omega)
      (hdead _ hfold)
    rw [nread_reading, add_assoc, add_comm 1] at hmiddle
    set s' := urlFold cs s with hs'def
    have hlast : Reads S ((P.enter s').reading (P.nread + (cs.length + 1))) [32]
        ((P.enter .reqHttpStart).reading (P.nread + (cs.length + 1 + 1)))
        (cut S .url) := by
      have hblank := switch_target_end
        (P := (P.enter s').reading (P.nread + (cs.length + 1) + 1)) hfold
      have hsingle : s'.single = true ∧ s'.openDatum = some .url ∧ s'.parsingHeader = true :=
        (by decide : ∀ s ∈ targetStates, s.single = true ∧ s.openDatum = some .url ∧
          s.parsingHeader = true) s' hfold
      have htick := tick_switch (S := S)
        (P := (P.enter s').reading (P.nread + (cs.length + 1)))
        ⟨he, hsingle.2.2, by rw [nread_reading]; omega⟩ hsingle.1 hblank rfl
      rw [shows_of_data rfl] at htick
      exact Reads.one htick
    exact ((Reads.one hfirst).append (hmiddle.append hlast)).congr join_whole

/-! ### Versions -/

/-- A byte that only leads to another state. -/
theorem Reads.enter (s' : State) {s : State} {n : ℕ} (he : P.httpErrno = .ok)
    (hroom : n < maxHeaderSize)
    (hs : s.parsingHeader = true ∧ s.single = true ∧ s.openDatum = none)
    (ht : ∀ Q : Parser, Q.state = s → switch Q ch = ParserLib.brk (Q.enter s'))
    (hrest : Reads S ((P.enter s').reading (n + 1)) bs P' out) :
    Reads S ((P.enter s).reading n) (ch :: bs) P' out :=
  Reads.brk ⟨he, hs.1, hroom⟩ hs.2.1 hs.2.2 (ht _ rfl) hrest

theorem digit_spec {d : ℕ} (h : d < 10) :
    isNum (UInt8.ofNat (48 + d)) = true ∧ digitVal (UInt8.ofNat (48 + d)) = d := by
  interval_cases d <;> decide

theorem httpMajor_eq {d : ℕ} (h : d < 10) (s : State) : httpMajor P (UInt8.ofNat (48 + d)) s =
    ParserLib.brk { P.enter s with httpMajor := d } := by
  obtain ⟨hnum, hval⟩ := digit_spec h
  rw [httpMajor, hnum, hval]
  rfl

theorem httpMinor_eq {d : ℕ} (h : d < 10) (s : State) : httpMinor P (UInt8.ofNat (48 + d)) s =
    ParserLib.brk { P.enter s with httpMinor := d } := by
  obtain ⟨hnum, hval⟩ := digit_spec h
  rw [httpMinor, hnum, hval]
  rfl

/-- **The version of a request is read.** -/
theorem reads_version {n major minor : ℕ} (he : P.httpErrno = .ok)
    (hroom : n + 10 ≤ maxHeaderSize) (hmajor : major < 10) (hminor : minor < 10) :
    Reads S ((P.enter .reqHttpStart).reading n)
      (bytes "HTTP/" ++ (digits major ++ bytes "." ++ digits minor) ++ crlf)
      ({ P.enter .headerFieldStart with httpMajor := major, httpMinor := minor }.reading (n + 10))
      [] := by
  have hwire : bytes "HTTP/" ++ (digits major ++ bytes "." ++ digits minor) ++ crlf =
      [72, 84, 84, 80, 47, UInt8.ofNat (48 + major), 46, UInt8.ofNat (48 + minor), 13, 10] := by
    rw [digits_of_lt hmajor, digits_of_lt hminor]
    rfl
  rw [hwire]
  let P₁ : Parser := { P with httpMajor := major }
  let P₂ : Parser := { P₁ with httpMinor := minor }
  refine Reads.enter .reqHttpH he (by omega) (by decide)
    (fun Q hQ => by simp only [switch, hQ]; rfl) ?_
  refine Reads.enter .reqHttpHT he (by omega) (by decide)
    (fun Q hQ => by simp only [switch, hQ]; rfl) ?_
  refine Reads.enter .reqHttpHTT he (by omega) (by decide)
    (fun Q hQ => by simp only [switch, hQ]; rfl) ?_
  refine Reads.enter .reqHttpHTTP he (by omega) (by decide)
    (fun Q hQ => by simp only [switch, hQ]; rfl) ?_
  refine Reads.enter .reqHttpMajor he (by omega) (by decide)
    (fun Q hQ => by simp only [switch, hQ]; rfl) ?_
  refine Reads.brk ⟨he, rfl, by rw [nread_reading]; omega⟩ rfl rfl
    (httpMajor_eq (P := (P.enter .reqHttpMajor).reading (n + 6)) hmajor .reqHttpDot) ?_
  refine Reads.enter (P := P₁) (n := n + 6) .reqHttpMinor he (by omega) (by decide)
    (fun Q hQ => by simp only [switch, hQ]; rfl) ?_
  refine Reads.brk ⟨he, rfl, by rw [nread_reading]; omega⟩ rfl rfl
    (httpMinor_eq (P := (P₁.enter .reqHttpMinor).reading (n + 8)) hminor .reqHttpEnd) ?_
  refine Reads.enter (P := P₂) (n := n + 8) .reqLineAlmostDone he (by omega) (by decide)
    (fun Q hQ => by simp only [switch, hQ]; rfl) ?_
  refine Reads.enter (P := P₂) .headerFieldStart he (by omega) (by decide)
    (fun Q hQ => by simp only [switch, hQ]; rfl) Reads.nil

/-- The struct behind the first line of a request. -/
def Parser.behindLine (P : Parser) (m : HttpMethod) (major minor i : ℕ) : Parser :=
  { (P.begun m i).enter .headerFieldStart with httpMajor := major, httpMinor := minor }

/-- The first line of a request. -/
def requestLine (name url : Bytes) (major minor : ℕ) : Bytes :=
  name ++ [32] ++ (url ++ [32]) ++ (bytes "HTTP/" ++ (digits major ++ bytes "." ++ digits minor) ++
    crlf)

/-- **The first line of a request is read.** -/
theorem reads_requestLine {major minor : ℕ} (h : P.Ready)
    (hm : m ∈ httpMethodMap.map Prod.fst ∧ m ≠ .connect) (hurl : IsUrl url) (hmajor : major < 10)
    (hminor : minor < 10)
    (hroom : (requestLine (methodStrings m) url major minor).length ≤ maxHeaderSize) :
    ∃ i, Reads S P (requestLine (methodStrings m) url major minor)
      ((P.behindLine m major minor i).reading
        (requestLine (methodStrings m) url major minor).length)
      (notice S .messageBegin ++ whole S .url url) := by
  obtain ⟨i, hmethod⟩ := reads_method (S := S) h hm.1
  have hlength : (requestLine (methodStrings m) url major minor).length =
      (methodStrings m).length + 1 + (url.length + 1) + 10 := by
    simp only [requestLine, digits_of_lt hmajor, digits_of_lt hminor, List.length_append]
    rfl
  rw [hlength] at hroom ⊢
  refine ⟨i, ?_⟩
  have htarget := reads_target (S := S)
    (P := ((P.begun m i).enter .reqSpacesBeforeUrl).reading ((methodStrings m).length + 1)) rfl
    h.errno hm.2 (by rw [nread_reading]; omega) hurl
  have hversion := reads_version (S := S) (P := P.begun m i) h.errno
    (n := (methodStrings m).length + 1 + (url.length + 1)) (by omega) hmajor hminor
  have hall := (hmethod.append htarget).append hversion
  rwa [List.append_nil] at hall

end ParserLib

end Server
