/-
Telling apart the responses on one connection.

`HttpResponse::toString` announces the length of a body, but writes no
content-length for a body of length 0.

* `frames_toString` — how the first of several responses is read;
* `messages_iff` — the responses are all read as they were written exactly when
  every one but the last has a body.
-/
import AsyncServer.HttpFraming

namespace Server

open CString

namespace HttpResponse

/-- The responses in question: keep-alive, with a status that allows a body, and
headers that neither break lines nor frame the message themselves. -/
structure Delimitable (res : HttpResponse) : Prop where
  webSocket : res.mWebSocket = false
  keepAlive : res.mKeepAlive = true
  status : 200 ≤ res.mStatus.code ∧ res.mStatus.code ≤ 599 ∧ res.mStatus.code ≠ 204 ∧
    res.mStatus.code ≠ 304
  unbroken : ∀ h ∈ res.mHeaders.entries, ∀ c ∈ h.1 ++ h.2, c ≠ 13 ∧ c ≠ 10
  version : ∀ c ∈ res.mVersion, c ≠ 13 ∧ c ≠ 10
  /-- There is no content-length, neither as a key nor as what a line reads. -/
  noLength : res.mHeaders.find (bytes "content-length") = none ∧
    ∀ h ∈ res.mHeaders.entries, ¬ SameName (lineField (h.1 ++ bytes ":" ++ h.2)).1
      (bytes "content-length")
  noEncoding : res.mHeaders.find (bytes "transfer-encoding") = none ∧
    ∀ h ∈ res.mHeaders.entries, ¬ SameName (lineField (h.1 ++ bytes ":" ++ h.2)).1
      (bytes "transfer-encoding")

/-- The lines of the stored headers that `toString` writes. -/
def storedLines (res : HttpResponse) : List Bytes :=
  (res.mHeaders.entries.filter fun h => strcasecmp h.1 (bytes "connection") ≠ .eq).map fun h =>
    h.1 ++ bytes ":" ++ h.2

/-- All lines of a keep-alive response. -/
def lines (res : HttpResponse) : List Bytes :=
  (bytes "HTTP/" ++ res.mVersion ++ bytes " " ++ bytes (ToString.toString res.mStatus.code) ++
    bytes " " ++ httpStatusToString res.mStatus) ::
  bytes "connection:keep-alive" ::
  (res.storedLines ++
    if res.mBody = [] then [] else [bytes "content-length:" ++ digits res.mBody.length])

/-- The response as it should be read. -/
def asWritten (res : HttpResponse) : WireMessage := ⟨res.lines, res.mBody⟩

variable {res : HttpResponse}

theorem headerLines_eq (h : res.mWebSocket = false) :
    res.headerLines = unlines res.storedLines := by
  rw [headerLines, storedLines, unlines, List.flatMap_map]
  induction res.mHeaders.entries with
  | nil => rfl
  | cons e es ih =>
    rw [List.flatMap_cons, ih, List.filter_cons, h]
    by_cases hname : strcasecmp e.1 (bytes "connection") = .eq
    · simp [hname]
    · simp [hname, crlf]

/-- **What `toString` writes**, as lines and a body. -/
theorem toString_eq_unlines (h : res.Delimitable) :
    res.toString = unlines res.lines ++ crlf ++ res.mBody := by
  have hconn : bytes "connection:keep-alive" = bytes "connection:" ++ bytes "keep-alive" := rfl
  rw [toString, lines, headerLines_eq h.webSocket, h.webSocket, h.keepAlive, h.noLength.1, hconn]
  by_cases hbody : res.mBody = []
  · simp [unlines, hbody, crlf]
  · simp [unlines, hbody, crlf, digits]

/-- A status code is written in digits, and a minus perhaps. -/
theorem cr_notMem_code (n : ℤ) : (13 : UInt8) ∉ bytes (ToString.toString n) := by
  cases n with
  | ofNat n => exact fun h => absurd (mem_digits (n := n) h).1 (by decide)
  | negSucc n =>
    have hsplit : bytes (ToString.toString (Int.negSucc n)) = bytes "-" ++ digits (n + 1) := by
      rw [digits, bytes, bytes, bytes, ← List.map_append, ← String.toList_append]
      rfl
    rw [hsplit, List.mem_append, not_or]
    exact ⟨by decide, fun h => absurd (mem_digits h).1 (by decide)⟩

theorem cr_notMem_reason (status : HttpStatus) : (13 : UInt8) ∉ httpStatusToString status := by
  have htexts : ∀ row ∈ httpStatusMap, (13 : UInt8) ∉ bytes row.2 := by decide +kernel
  rw [httpStatusToString]
  cases hl : httpStatusMap.lookup status.code with
  | none => decide
  | some text =>
    obtain ⟨pre, post, heq, -⟩ := List.lookup_eq_some_iff.mp hl
    exact htexts (_, text) (heq ▸ List.mem_append_right pre List.mem_cons_self)

/-- The status line. -/
def statusLine (res : HttpResponse) : Bytes :=
  bytes "HTTP/" ++ res.mVersion ++ bytes " " ++ bytes (ToString.toString res.mStatus.code) ++
    bytes " " ++ httpStatusToString res.mStatus

theorem statusLine_unbroken (h : (13 : UInt8) ∉ res.mVersion) :
    res.statusLine ≠ [] ∧ (13 : UInt8) ∉ res.statusLine := by
  simp only [statusLine, List.mem_append, not_or, ne_eq, List.append_eq_nil_iff]
  exact ⟨fun h0 => absurd h0.1.1.1.1.1 (by decide), ⟨⟨⟨⟨by decide, h⟩, by decide⟩,
    cr_notMem_code _⟩, by decide⟩, cr_notMem_reason _⟩

/-- The lines are whole lines. -/
theorem lines_unbroken (h : res.Delimitable) : ∀ l ∈ res.lines, l ≠ [] ∧ (13 : UInt8) ∉ l := by
  -- status line, connection line, stored lines, content-length line
  intro l hl
  rcases List.mem_cons.mp hl with rfl | hl
  · exact statusLine_unbroken fun h13 => (h.version 13 h13).1 rfl
  rcases List.mem_cons.mp hl with rfl | hl
  · exact ⟨by decide, by decide⟩
  rcases List.mem_append.mp hl with hl | hl
  · obtain ⟨e, he, rfl⟩ := List.mem_map.mp hl
    have hcr : (13 : UInt8) ∉ e.1 ++ e.2 := fun h13 =>
      (h.unbroken e (List.mem_of_mem_filter he) 13 h13).1 rfl
    refine ⟨fun h0 => ?_, ?_⟩
    · exact absurd (List.append_eq_nil_iff.mp (List.append_eq_nil_iff.mp h0).1).2 (by decide)
    · simp only [List.mem_append, not_or] at hcr ⊢
      exact ⟨⟨hcr.1, by decide⟩, hcr.2⟩
  · split at hl
    · exact absurd hl List.not_mem_nil
    · rw [List.mem_singleton.mp hl]
      refine ⟨fun h0 => absurd (List.append_eq_nil_iff.mp h0).1 (by decide), ?_⟩
      rw [List.mem_append, not_or]
      exact ⟨by decide, fun h13 => absurd (mem_digits h13).1 (by decide)⟩

/-- The length that the lines announce. -/
theorem contentLength_lines (h : res.Delimitable) :
    contentLength res.lines = if res.mBody = [] then none else some (digits res.mBody.length) := by
  have hconn :
      ¬ SameName (lineField (bytes "connection:keep-alive")).1 (bytes "content-length") := by
    decide
  have hstored : ∀ l ∈ res.storedLines, ¬ SameName (lineField l).1 (bytes "content-length") := by
    intro l hl
    obtain ⟨e, he, rfl⟩ := List.mem_map.mp hl
    exact h.noLength.2 e (List.mem_of_mem_filter he)
  have hcolon : (58 : UInt8) ∉ bytes "content-length" := by decide
  have hsplit : bytes "content-length:" = bytes "content-length" ++ [58] := by decide
  have hfield : lineField (bytes "content-length:" ++ digits res.mBody.length) =
      (bytes "content-length", digits res.mBody.length) := by
    rw [hsplit, List.append_assoc]
    exact lineField_append hcolon _
  have hskip : ((res.storedLines.map lineField).find? fun f =>
      SameName f.1 (bytes "content-length")) = none := by
    rw [List.find?_eq_none]
    intro f hf
    obtain ⟨l, hl, rfl⟩ := List.mem_map.mp hf
    simpa using hstored l hl
  -- neither the connection line nor a stored one is taken for it
  rw [contentLength, lines, List.tail_cons, List.map_cons,
    List.find?_cons_of_neg (by simpa using hconn), List.map_append, List.find?_append, hskip,
    Option.none_or]
  split_ifs with hbody
  · rfl
  · have hself : SameName (bytes "content-length") (bytes "content-length") := rfl
    rw [List.map_singleton, hfield, List.find?_cons_of_pos (by simpa using hself), Option.map_some]
    exact congrArg some (isClean_digits _).dropWhile_blank

/-- **How the first of several responses is read**: with a body, as it was written;
without one, the rest of the stream is taken for its body. -/
theorem frames_toString (h : res.Delimitable) (fuel : ℕ) (tail : Bytes) :
    frames (fuel + 1) (res.toString ++ tail) =
      if res.mBody = [] then some [⟨res.lines, tail⟩]
      else (frames fuel tail).map fun ms => res.asWritten :: ms := by
  have hhead : readHead [] (res.toString ++ tail) = some (res.lines, res.mBody ++ tail) := by
    rw [toString_eq_unlines h, List.append_assoc]
    exact readHead_unlines (lines_unbroken h) _
  have hne : res.toString ++ tail ≠ [] := by
    intro h0
    rw [h0] at hhead
    exact absurd hhead (by simp [readHead])
  rw [frames, if_neg hne, hhead, Option.bind_some]
  simp only [contentLength_lines h]
  by_cases hbody : res.mBody = []
  · rw [if_pos hbody, if_pos hbody, hbody]
    rfl
  · rw [if_neg hbody, if_neg hbody]
    simp only [decimal_digits, Option.bind_some]
    rw [if_neg (by rw [List.length_append]; omega), List.drop_left, List.take_left]
    rfl

theorem length_toString_pos (h : res.Delimitable) : 0 < res.toString.length := by
  rw [toString_eq_unlines h]
  simp [crlf, bytes]

theorem frames_iff {rs : List HttpResponse} (hrs : ∀ r ∈ rs, r.Delimitable) {fuel : ℕ}
    (hfuel : (rs.flatMap toString).length ≤ fuel) :
    frames fuel (rs.flatMap toString) = some (rs.map asWritten) ↔
      ∀ r ∈ rs.dropLast, r.mBody ≠ [] := by
  induction rs generalizing fuel with
  | nil => simp
  | cons r rs ih =>
    obtain ⟨hr, hrs⟩ := List.forall_mem_cons.mp hrs
    have hpos := length_toString_pos hr
    rw [List.flatMap_cons, List.length_append] at hfuel
    obtain ⟨fuel, rfl⟩ : ∃ k, fuel = k + 1 := ⟨fuel - 1, by omega⟩
    have hrest : frames fuel (rs.flatMap toString) = some (rs.map asWritten) ↔
        ∀ r ∈ rs.dropLast, r.mBody ≠ [] := ih hrs (by omega)
    rw [List.flatMap_cons, frames_toString hr]
    -- without a body the first message takes all the rest, so there must be no rest
    cases rs with
    | nil =>
      -- the last response may be without a body
      by_cases hbody : r.mBody = []
      · simp [asWritten, hbody]
      · simp [hbody]
    | cons r' rs =>
      rw [List.dropLast_cons_of_ne_nil (List.cons_ne_nil r' rs), List.forall_mem_cons, ← hrest]
      by_cases hbody : r.mBody = []
      · simp [hbody]
      · simp [hbody]

/-- **When keep-alive responses delimit themselves.** -/
theorem messages_iff {rs : List HttpResponse} (hrs : ∀ r ∈ rs, r.Delimitable) :
    messages (rs.flatMap toString) = some (rs.map asWritten) ↔
      ∀ r ∈ rs.dropLast, r.mBody ≠ [] :=
  frames_iff hrs le_rfl

/-- A keep-alive answer with one header. -/
def answer (body : Bytes) : HttpResponse :=
  ((create (bytes "1.1") true).setBody body).addHeader (bytes "Server") (bytes "a")

theorem answer_delimitable (body : Bytes) : (answer body).Delimitable := by
  have hentries : (answer body).mHeaders.entries = [(bytes "Server", bytes "a")] := rfl
  have hversion : (answer body).mVersion = bytes "1.1" := rfl
  refine ⟨rfl, rfl, ⟨?_, ?_, ?_, ?_⟩, ?_, ?_, ⟨rfl, ?_⟩, ⟨rfl, ?_⟩⟩
  · exact (by decide : (200 : ℤ) ≤ 200)
  · exact (by decide : (200 : ℤ) ≤ 599)
  · exact (by decide : (200 : ℤ) ≠ 204)
  · exact (by decide : (200 : ℤ) ≠ 304)
  · rw [hentries]
    decide
  · rw [hversion]
    decide
  · rw [hentries]
    decide
  · rw [hentries]
    decide

/-- Two answers, of which the last is empty. -/
theorem answers_read : messages ([answer (bytes "hi"), answer []].flatMap toString) =
    some ([answer (bytes "hi"), answer []].map asWritten) := by
  have hall : ∀ r ∈ [answer (bytes "hi"), answer []], r.Delimitable := by
    intro r hr
    rcases List.mem_pair.mp hr with rfl | rfl <;> exact answer_delimitable _
  refine (messages_iff hall).mpr fun r hr => ?_
  rw [show [answer (bytes "hi"), answer []].dropLast = [answer (bytes "hi")] from rfl,
    List.mem_singleton] at hr
  rw [hr]
  exact (by decide : bytes "hi" ≠ [])

/-- **An empty answer swallows the next one.** -/
theorem empty_answer_swallows : (∀ r ∈ [answer [], answer (bytes "hi")], r.Delimitable) ∧
    messages ([answer [], answer (bytes "hi")].flatMap toString) =
      some [⟨(answer []).lines, (answer (bytes "hi")).toString⟩] ∧
    messages ([answer [], answer (bytes "hi")].flatMap toString) ≠
      some ([answer [], answer (bytes "hi")].map asWritten) := by
  have hall : ∀ r ∈ [answer [], answer (bytes "hi")], r.Delimitable := by
    intro r hr
    rcases List.mem_pair.mp hr with rfl | rfl <;> exact answer_delimitable _
  have hread : messages ([answer [], answer (bytes "hi")].flatMap toString) =
      some [⟨(answer []).lines, (answer (bytes "hi")).toString⟩] := by
    rw [messages, List.flatMap_cons, List.flatMap_singleton]
    obtain ⟨k, hk⟩ : ∃ k, ((answer []).toString ++ (answer (bytes "hi")).toString).length = k + 1 :=
      ⟨_, rfl⟩
    rw [hk, frames_toString (answer_delimitable [])]
    rfl
  refine ⟨hall, hread, ?_⟩
  rw [hread]
  intro h
  exact absurd (congrArg List.length (Option.some_inj.mp h)) (by decide)

end HttpResponse

end Server
