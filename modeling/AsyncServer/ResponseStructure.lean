/-
The structure of a serialised response.

A response is built by the constructor and calls of its setters.  `toString` writes the
status line, a connection line of the flag, the stored headers but those named
`connection`, a content-length if none is stored and there is a body, and then the body
behind an empty line.

* `find_built` — the header map shows the last value added under a name;
* `toString_eq` — the text as lines and a body;
* `toString_structure` — read back at the first empty line and the line ends, the head has
  exactly these headers, and the rest is the body.
-/
import AsyncServer.ResponseFraming
import AsyncServer.Separator
import AsyncServer.ServletDispatch
import AsyncServer.UpdateLog

namespace Server

open CString UpdateLog

namespace HttpResponse

def setWebSocket (r : HttpResponse) (ws : Bool) : HttpResponse := { r with mWebSocket := ws }

/-- A call of any setter. -/
inductive Setter where
  | call (c : ResponseCall)
  | setWebSocket (ws : Bool)

/-- What the call does. -/
def Setter.apply (res : HttpResponse) : Setter → HttpResponse
  | .call c => c.apply res
  | .setWebSocket ws => res.setWebSocket ws

/-- A response after the constructor and several calls. -/
def built (version : Bytes) (keepAlive : Bool) (cs : List Setter) : HttpResponse :=
  cs.foldl Setter.apply (create version keepAlive)

/-- The header that a call adds. -/
def Setter.added : Setter → Option (Bytes × Bytes)
  | .call (.addHeader key value) => some (key, value)
  | _ => none

/-- What has been put into the header map.  Names count up to the case of letters. -/
def updates (cs : List Setter) : List (List ℕ × Option Bytes) :=
  (cs.filterMap Setter.added).map fun h => (fold h.1, some h.2)

/-- Version, header names and header values without CR, LF and NUL, and names without
colons. -/
structure CleanText (res : HttpResponse) : Prop where
  version : ∀ c ∈ res.mVersion, c ≠ 13 ∧ c ≠ 10 ∧ c ≠ 0
  name : ∀ h ∈ res.mHeaders.entries, ∀ c ∈ h.1, c ≠ 13 ∧ c ≠ 10 ∧ c ≠ 0 ∧ c ≠ 58
  value : ∀ h ∈ res.mHeaders.entries, ∀ c ∈ h.2, c ≠ 13 ∧ c ≠ 10 ∧ c ≠ 0

/-! ### What the calls leave in the header map -/

variable {version : Bytes} {keepAlive : Bool} {cs : List Setter} {res : HttpResponse}

theorem valueAt_apply (res : HttpResponse) (c : Setter) :
    OrderedMap.valueAt fold (c.apply res).mHeaders.entries =
      c.added.elim (OrderedMap.valueAt fold res.mHeaders.entries) fun h =>
        Function.update (OrderedMap.valueAt fold res.mHeaders.entries) (fold h.1) (some h.2) := by
  cases c with
  | setWebSocket ws => rfl
  | call c =>
    cases c with
    | addHeader key value => exact OrderedMap.valueAt_assign less_iff key value
    | _ => rfl

/-- **The header map shows what was added last.** -/
theorem valueAt_built (version : Bytes) (keepAlive : Bool) (cs : List Setter) :
    OrderedMap.valueAt fold (built version keepAlive cs).mHeaders.entries =
      lookup (updates cs) := by
  have hupdates : updates cs = cs.filterMap fun c => c.added.map fun h => (fold h.1, some h.2) :=
    List.map_filterMap
  rw [hupdates]
  refine lookup_filterMap (fun r : HttpResponse => OrderedMap.valueAt fold r.mHeaders.entries)
    (fun r c => ?_) rfl cs
  rw [valueAt_apply]
  cases c.added <;> rfl

theorem mem_entries_built (version : Bytes) (keepAlive : Bool) {name value : Bytes} :
    (∃ m, fold m = fold name ∧ (m, value) ∈ (built version keepAlive cs).mHeaders.entries) ↔
      Latest (updates cs) (fold name) value := by
  rw [← lookup_eq_some_iff, ← valueAt_built version keepAlive]
  exact (OrderedMap.valueAt_eq_some_iff less_iff).symm

/-- `find` fails where no header of the name has been added. -/
theorem find_built_eq_none {name : Bytes} :
    (built version keepAlive cs).mHeaders.find name = none ↔
      ∀ h ∈ cs.filterMap Setter.added, fold h.1 ≠ fold name := by
  have hputs : ∀ e ∈ updates cs, e.2 ≠ none := by
    intro e he
    obtain ⟨h, -, rfl⟩ := List.mem_map.mp he
    exact Option.some_ne_none _
  rw [OrderedMap.find_eq_valueAt less_iff, valueAt_built, lookup_eq_none_iff hputs, updates,
    List.forall_mem_map]

/-! ### The lines -/

/-- The empty line behind the head, with the end of the line before it. -/
def blankLine : Bytes := crlf ++ crlf

/-- The line of a header. -/
def lineOf (h : Bytes × Bytes) : Bytes := h.1 ++ 58 :: h.2

/-- The stored headers that `toString` writes. -/
def others (res : HttpResponse) : List (Bytes × Bytes) :=
  res.mHeaders.entries.filter fun h => strcasecmp h.1 (bytes "connection") ≠ .eq

/-- The headers that `toString` writes. -/
def fields (res : HttpResponse) : List (Bytes × Bytes) :=
  connectionHeader res.mKeepAlive :: (res.others ++
    if res.mBody ≠ [] ∧ res.mHeaders.find (bytes "content-length") = none
    then [lengthHeader res.mBody] else [])

/-- The head, line after line. -/
def headLines (res : HttpResponse) : List Bytes := res.statusLine :: res.fields.map lineOf

/-- **What `toString` writes**: the head, an empty line and the body. -/
theorem toString_eq (h : res.mWebSocket = false) :
    res.toString = unlines res.headLines ++ crlf ++ res.mBody := by
  have hline : ∀ e : Bytes × Bytes, lineOf e = e.1 ++ bytes ":" ++ e.2 := by
    intro e
    rw [List.append_assoc]
    rfl
  have hstored : res.storedLines = res.others.map lineOf :=
    List.map_congr_left fun e _ => (hline e).symm
  have hconn : bytes "connection:" = bytes "connection" ++ bytes ":" := rfl
  have hlength : bytes "content-length:" = bytes "content-length" ++ bytes ":" := rfl
  have hlen : res.mBody.length ≠ 0 ↔ res.mBody ≠ [] := not_congr List.length_eq_zero_iff
  rw [toString, headerLines_eq h, hstored, headLines, fields, h, hconn, hlength]
  simp only [hlen]
  by_cases hbody : res.mBody = []
  · simp [hbody, unlines, statusLine, connectionHeader, hline, crlf]
  · by_cases hfind : res.mHeaders.find (bytes "content-length") = none
    · simp [hbody, hfind, unlines, statusLine, connectionHeader, lengthHeader, hline, crlf, digits]
    · simp [hbody, hfind, unlines, statusLine, connectionHeader, hline, crlf]

theorem mem_fields {h : Bytes × Bytes} :
    h ∈ res.fields ↔ h = connectionHeader res.mKeepAlive ∨ h ∈ res.others ∨
      ((res.mBody ≠ [] ∧ res.mHeaders.find (bytes "content-length") = none) ∧
        h = lengthHeader res.mBody) := by
  rw [fields, List.mem_cons, List.mem_append]
  split_ifs with hlen
  · simp [hlen]
  · simp [hlen]

/-- The bytes of the headers. -/
theorem clean_fields (h : res.CleanText) : ∀ e ∈ res.fields,
    (∀ c ∈ e.1, c ≠ 13 ∧ c ≠ 0 ∧ c ≠ 58) ∧ (13 : UInt8) ∉ e.2 := by
  intro e he
  rcases mem_fields.mp he with rfl | he | ⟨-, rfl⟩
  · cases res.mKeepAlive <;> exact ⟨by decide, by decide⟩
  · have hmem := List.mem_of_mem_filter he
    refine ⟨fun c hc => ?_, fun h13 => (h.value e hmem 13 h13).1 rfl⟩
    obtain ⟨hcr, -, hnul, hcolon⟩ := h.name e hmem c hc
    exact ⟨hcr, hnul, hcolon⟩
  · have hname : ∀ c ∈ bytes "content-length", c ≠ 13 ∧ c ≠ 0 ∧ c ≠ 58 := by decide
    exact ⟨hname, fun h13 => absurd (mem_digits h13).1 (by decide)⟩

/-- The lines are whole lines. -/
theorem headLines_unbroken (h : res.CleanText) :
    ∀ l ∈ res.headLines, l ≠ [] ∧ (13 : UInt8) ∉ l := by
  intro l hl
  rcases List.mem_cons.mp hl with rfl | hl
  · exact statusLine_unbroken fun h13 => (h.version 13 h13).1 rfl
  · obtain ⟨e, he, rfl⟩ := List.mem_map.mp hl
    obtain ⟨hname, hvalue⟩ := clean_fields h e he
    rw [lineOf, List.mem_append, List.mem_cons, not_or, not_or]
    exact ⟨List.append_ne_nil_of_right_ne_nil _ (List.cons_ne_nil _ _),
      fun h13 => (hname 13 h13).1 rfl, by decide, hvalue⟩

/-- A reader gets the headers of the lines. -/
theorem lineField_headLines (h : res.CleanText) :
    res.headLines.tail.map lineField = res.fields := by
  rw [headLines, List.tail_cons, List.map_map]
  refine (List.map_congr_left fun e he => ?_).trans (List.map_id _)
  exact lineField_append (fun h58 => ((clean_fields h e he).1 58 h58).2.2 rfl) e.2

/-- Lines with their ends, up to the last one. -/
theorem unlines_eq {lines : List Bytes} (h : lines ≠ []) :
    unlines lines = crlf.intercalate lines ++ crlf := by
  induction lines with
  | nil => exact absurd rfl h
  | cons l lines ih =>
    cases lines with
    | nil => rw [List.intercalate_singleton, unlines, List.flatMap_singleton]
    | cons l' lines =>
      rw [List.intercalate_cons_cons, List.append_assoc, ← ih (List.cons_ne_nil _ _)]
      rfl

/-- **The head ends at the first empty line.** -/
theorem cut_head {lines : List Bytes} (hne : lines ≠ [])
    (h : ∀ l ∈ lines, l ≠ [] ∧ (13 : UInt8) ∉ l) (body : Bytes) :
    Separator.cut blankLine (crlf.intercalate lines ++ blankLine ++ body) =
      some (crlf.intercalate lines, body) := by
  have hblank : blankLine = 13 :: [10, 13, 10] := rfl
  induction lines with
  | nil => exact absurd rfl hne
  | cons l lines ih =>
    obtain ⟨⟨-, hl⟩, hlines⟩ := List.forall_mem_cons.mp h
    cases lines with
    | nil =>
      rw [List.intercalate_singleton, List.append_assoc, hblank, Separator.cut_skip hl,
        Separator.cut_here, Option.map_some, List.append_nil]
    | cons l' lines =>
      -- behind the line end there is another line, and no CR
      obtain ⟨hne', hl'⟩ := hlines l' List.mem_cons_self
      obtain ⟨c, t, rfl⟩ := List.exists_cons_of_ne_nil hne'
      have hc : ¬ 13 = c := fun hc => hl' (hc ▸ List.mem_cons_self)
      have hrest := ih (List.cons_ne_nil _ _) hlines
      rw [List.intercalate_cons_cons_left, hblank, List.append_assoc, List.cons_append] at hrest
      have h13 : ∀ u, ¬ 13 :: [10, 13, 10] <+: (13 : UInt8) :: 10 :: c :: u := by
        intro u hpre
        have htwo := (List.cons_prefix_cons.mp (List.cons_prefix_cons.mp hpre).2).2
        exact hc (List.cons_prefix_cons.mp htwo).1
      have h10 : ∀ u, ¬ 13 :: [10, 13, 10] <+: (10 : UInt8) :: u := fun u hpre =>
        absurd (List.cons_prefix_cons.mp hpre).1 (by decide)
      have hsplit : crlf.intercalate (l :: (c :: t) :: lines) =
          l ++ 13 :: 10 :: c :: crlf.intercalate (t :: lines) := by
        rw [List.intercalate_cons_cons, List.intercalate_cons_cons_left, List.append_assoc]
        rfl
      rw [hsplit, hblank, List.append_assoc, List.append_assoc, Separator.cut_skip hl,
        List.cons_append, List.cons_append, List.cons_append, Separator.cut_step (h13 _),
        Separator.cut_step (h10 _), hrest]
      rfl

/-! ### The headers -/

/-- The head has one connection line, of the flag; each other header that was added, once and
with the value added last, in the order of the names; and the length of the body, if there is
one and no content-length was added. -/
structure HeadOf (cs : List Setter) (keepAlive : Bool) (body : Bytes)
    (fields stored : List (Bytes × Bytes)) : Prop where
  lines : fields = connectionHeader keepAlive :: (stored ++
    if body ≠ [] ∧ ∀ h ∈ cs.filterMap Setter.added, fold h.1 ≠ fold (bytes "content-length")
    then [lengthHeader body] else [])
  connection : ∀ h ∈ fields, SameName h.1 (bytes "connection") → h = connectionHeader keepAlive
  last : ∀ name value, (∃ m, fold m = fold name ∧ (m, value) ∈ stored) ↔
    fold name ≠ fold (bytes "connection") ∧ Latest (updates cs) (fold name) value
  sorted : stored.Pairwise fun a b => CaseInsensitiveLess a.1 b.1
  distinct : fields.Pairwise fun a b => ¬ SameName a.1 b.1

/-- Names without NUL are the same up to the case of letters if `fold` is. -/
theorem sameName_iff {s t : Bytes} (hs : ∀ c ∈ s, c ≠ 0) (ht : ∀ c ∈ t, c ≠ 0) :
    SameName s t ↔ fold s = fold t := by
  have hself : ∀ u : Bytes, (∀ c ∈ u, c ≠ 0) → cstr u = u := fun u hu =>
    List.takeWhile_eq_self_iff.mpr fun c hc => decide_eq_true (hu c hc)
  rw [SameName, fold, fold, hself s hs, hself t ht]

theorem mem_others {h : Bytes × Bytes} :
    h ∈ res.others ↔ h ∈ res.mHeaders.entries ∧ fold h.1 ≠ fold (bytes "connection") := by
  rw [others, List.mem_filter, decide_eq_true_eq, ne_eq, strcasecmp_eq_iff]

/-- No two headers that `toString` writes have one name. -/
theorem distinct_fields (res : HttpResponse) :
    res.fields.Pairwise fun a b => fold a.1 ≠ fold b.1 := by
  refine List.pairwise_cons.mpr ⟨fun e he => ?_, List.pairwise_append.mpr ⟨?_, ?_, ?_⟩⟩
  · rcases List.mem_append.mp he with he | he
    · exact (mem_others.mp he).2.symm
    · split_ifs at he
      · rw [List.mem_singleton.mp he]
        exact (by decide : fold (bytes "connection") ≠ fold (bytes "content-length"))
      · exact absurd he List.not_mem_nil
  · exact (res.mHeaders.sorted.filter _).imp fun hlt => ((less_iff _ _).mp hlt).ne
  · split_ifs
    · exact List.pairwise_singleton _ _
    · exact List.Pairwise.nil
  · intro e he l hl
    split_ifs at hl with hlen
    · rw [List.mem_singleton.mp hl]
      have hapart := OrderedMap.find_eq_none.mp hlen.2 e (mem_others.mp he).1
      rw [less_iff, less_iff] at hapart
      exact lt_or_lt_iff_ne.mp hapart
    · exact absurd hl List.not_mem_nil

theorem headOf_built (h : (built version keepAlive cs).CleanText) :
    HeadOf cs (built version keepAlive cs).mKeepAlive (built version keepAlive cs).mBody
      (built version keepAlive cs).fields (built version keepAlive cs).others := by
  refine ⟨?_, ?_, ?_, (built version keepAlive cs).mHeaders.sorted.filter _, ?_⟩
  · simp only [fields, find_built_eq_none]
  · intro e he hsame
    rcases mem_fields.mp he with rfl | hmem | ⟨-, rfl⟩
    · rfl
    · have hnul : ∀ c ∈ e.1, c ≠ 0 := fun c hc => ((clean_fields h e he).1 c hc).2.1
      exact absurd ((sameName_iff hnul (by decide)).mp hsame) (mem_others.mp hmem).2
    · exact absurd hsame (by decide : ¬ SameName (bytes "content-length") (bytes "connection"))
  · intro name value
    rw [← mem_entries_built version keepAlive]
    constructor
    · rintro ⟨m, hm, hmem⟩
      obtain ⟨hentry, hother⟩ := mem_others.mp hmem
      exact ⟨hm ▸ hother, m, hm, hentry⟩
    · rintro ⟨hother, m, hm, hentry⟩
      exact ⟨m, hm, mem_others.mpr ⟨hentry, hm.symm ▸ hother⟩⟩
  · have hnul : ∀ e ∈ (built version keepAlive cs).fields, ∀ c ∈ e.1, c ≠ 0 := fun e he c hc =>
      ((clean_fields h e he).1 c hc).2.1
    refine (distinct_fields _).imp_of_mem fun {a b} ha hb hne hsame => ?_
    exact hne ((sameName_iff (hnul a ha) (hnul b hb)).mp hsame)

/-- **The structure of a serialised response.** -/
theorem toString_structure (version : Bytes) (keepAlive : Bool) (cs : List Setter)
    (hws : (built version keepAlive cs).mWebSocket = false)
    (hclean : (built version keepAlive cs).CleanText) :
    ∃ head stored, Separator.cut blankLine (built version keepAlive cs).toString =
        some (head, (built version keepAlive cs).mBody) ∧
      HeadOf cs (built version keepAlive cs).mKeepAlive (built version keepAlive cs).mBody
        ((Separator.split crlf head).tail.map lineField) stored := by
  have hlines : (built version keepAlive cs).headLines ≠ [] := List.cons_ne_nil _ _
  have hwhole := headLines_unbroken hclean
  refine ⟨crlf.intercalate (built version keepAlive cs).headLines,
    (built version keepAlive cs).others, ?_, ?_⟩
  · rw [toString_eq hws, unlines_eq hlines, List.append_assoc _ crlf crlf]
    exact cut_head hlines hwhole _
  · have hsplit : Separator.split crlf (crlf.intercalate (built version keepAlive cs).headLines) =
        (built version keepAlive cs).headLines := Separator.split_intercalate hlines fun l hl => (hwhole l hl).2
    rw [hsplit, lineField_headLines hclean]
    exact headOf_built hclean

/-- A response with a connection header of its own, a header added twice and a body. -/
def upgraded : List Setter :=
  [.setWebSocket true, .call (.addHeader (bytes "Connection") (bytes "upgrade")),
    .call (.addHeader (bytes "X-Id") (bytes "1")), .call (.setBody (bytes "he")),
    .call (.addHeader (bytes "x-id") (bytes "2")), .call (.setBody (bytes "llo")),
    .setWebSocket false]

theorem cleanText_upgraded : (built (bytes "1.1") true upgraded).CleanText :=
  ⟨by decide, by decide, by decide⟩

example : (built (bytes "1.1") true upgraded).toString =
    bytes "HTTP/1.1 200 OK\r\nconnection:keep-alive\r\nX-Id:2\r\n" ++
      bytes "content-length:5\r\n\r\nhello" := by
  decide

theorem structure_upgraded :
    ∃ head stored, Separator.cut blankLine (built (bytes "1.1") true upgraded).toString =
        some (head, (built (bytes "1.1") true upgraded).mBody) ∧
      HeadOf upgraded (built (bytes "1.1") true upgraded).mKeepAlive
        (built (bytes "1.1") true upgraded).mBody
        ((Separator.split crlf head).tail.map lineField) stored :=
  toString_structure (bytes "1.1") true upgraded rfl cleanText_upgraded

end HttpResponse

end Server
