/-
The grammar of HTTP/1.x requests.

`IsRequest m b` says that the byte string `b` is the request `m`: method, target
and version on the first line, header lines, and a body of the length that they
announce.  Requests with a transfer encoding are left out.

* `IsRequest.unique` — a byte string is one request only.
-/
import AsyncServer.HttpGrammar
import AsyncServer.HttpParser

namespace Server

open CString

/-- The name of a method on the wire. -/
def methodName (method : HttpMethod) : Option Bytes :=
  (httpMethodMap.lookup method).map fun names => bytes names.2

/-- The method with a name. -/
def methodNamed (name : Bytes) : Option HttpMethod :=
  (httpMethodMap.find? fun row => bytes row.2.2 = name).map Prod.fst

/-- No control characters and no blanks. -/
def IsTarget (url : Bytes) : Prop := url ≠ [] ∧ ∀ c ∈ url, 33 ≤ c ∧ c ≠ 127

/-- What may stand behind the colon of a header line. -/
def IsFieldText (text : Bytes) : Prop := ∀ c ∈ text, (32 ≤ c ∨ c = 9) ∧ c ≠ 127

/-- The header of a line: the blanks behind the colon are not part of its value. -/
def lineHeader (line : Bytes × Bytes) : Bytes × Bytes :=
  (line.1, line.2.dropWhile fun c => c = 32 || c = 9)

/-- The headers announce a body of this length, by a content-length if it is not
empty, and no transfer encoding. -/
structure Framed (headers : List (Bytes × Bytes)) (content : Bytes) : Prop where
  length : ∀ h ∈ headers, strcasecmp h.1 (bytes "content-length") = .eq →
    h.2 = digits content.length
  announced : content ≠ [] → ∃ h ∈ headers, strcasecmp h.1 (bytes "content-length") = .eq
  plain : ∀ h ∈ headers, strcasecmp h.1 (bytes "transfer-encoding") ≠ .eq

/-- First line, header lines, empty line and body. -/
def requestWire (name url : Bytes) (major minor : ℕ) (lines : List (Bytes × Bytes))
    (content : Bytes) : Bytes :=
  name ++ bytes " " ++ url ++ bytes " " ++ bytes "HTTP/" ++
    (digits major ++ bytes "." ++ digits minor) ++ crlf ++ headerBlock lines ++ crlf ++ content

/-- The byte string is the request. -/
inductive IsRequest : RequestMessage Bytes → Bytes → Prop
  | mk {method : HttpMethod} {name url : Bytes} {major minor : ℕ} {lines : List (Bytes × Bytes)}
      {content : Bytes} (hmethod : methodName method = some name) (hurl : IsTarget url)
      (hmajor : major < 10) (hminor : minor < 10)
      (hlines : ∀ l ∈ lines, IsToken l.1 ∧ IsFieldText l.2)
      (hframed : Framed (lines.map lineHeader) content) :
      IsRequest ⟨url, lines.map lineHeader, method, major, minor,
        if content = [] then [] else [content], []⟩
        (requestWire name url major minor lines content)

theorem IsClean.fieldText {v : Bytes} (h : IsClean v) : IsFieldText v :=
  fun c hc => ⟨.inl (h.1 c hc).1, (h.1 c hc).2⟩

/-- A clean value is what stands behind the colon. -/
theorem lineHeader_of_clean {l : Bytes × Bytes} (h : IsClean l.2) : lineHeader l = l :=
  Prod.ext rfl h.dropWhile_blank

/-! ### A byte string is one request only -/

theorem methodNamed_methodName {method : HttpMethod} {name : Bytes}
    (h : methodName method = some name) : methodNamed name = some method := by
  have hall : (methodName method).bind methodNamed = (methodName method).map fun _ => method := by
    cases method <;> decide
  rw [h] at hall
  exact hall

theorem blank_notMem_methodName {method : HttpMethod} {name : Bytes}
    (h : methodName method = some name) : (32 : UInt8) ∉ name := by
  have hall : (methodName method).all fun name => (32 : UInt8) ∉ name := by
    cases method <;> decide
  rw [h] at hall
  simpa using hall

theorem IsTarget.blank_notMem {url : Bytes} (h : IsTarget url) : (32 : UInt8) ∉ url :=
  fun h32 => absurd (h.2 32 h32).1 (by decide)

theorem IsFieldText.cr_notMem {text : Bytes} (h : IsFieldText text) : (13 : UInt8) ∉ text :=
  fun h13 => absurd (h 13 h13).1 (by decide)

theorem digits_of_lt {d : ℕ} (h : d < 10) : digits d = [UInt8.ofNat (48 + d)] := by
  interval_cases d <;> decide

theorem digits_inj {d d' : ℕ} (h : d < 10) (h' : d' < 10) (heq : digits d = digits d') :
    d = d' := by
  rw [digits_of_lt h, digits_of_lt h', List.singleton_inj] at heq
  have hnat := congrArg UInt8.toNat heq
  simp only [UInt8.toNat_ofNat'] at hnat
  omega

/-- The first line, and what comes behind it, are determined by the bytes. -/
theorem requestWire_inj {name name' url url' : Bytes} {major major' minor minor' : ℕ}
    {lines lines' : List (Bytes × Bytes)} {content content' : Bytes}
    (hname : (32 : UInt8) ∉ name) (hname' : (32 : UInt8) ∉ name')
    (hurl : (32 : UInt8) ∉ url) (hurl' : (32 : UInt8) ∉ url')
    (hmajor : major < 10) (hmajor' : major' < 10) (hminor : minor < 10) (hminor' : minor' < 10)
    (hlines : ∀ l ∈ lines, IsToken l.1 ∧ IsFieldText l.2)
    (hlines' : ∀ l ∈ lines', IsToken l.1 ∧ IsFieldText l.2)
    (h : requestWire name url major minor lines content =
      requestWire name' url' major' minor' lines' content') :
    name = name' ∧ url = url' ∧ major = major' ∧ minor = minor' ∧ lines = lines' ∧
      content = content' := by
  have hblank : bytes " " = [32] := rfl
  simp only [requestWire, hblank, List.append_assoc, List.cons_append, List.nil_append] at h
  -- name and target end at blanks, the numbers of the version have one digit each
  obtain ⟨rfl, hrest⟩ := split_inj hname hname' h
  obtain ⟨rfl, hversion⟩ := split_inj hurl hurl' hrest
  have hdigits := List.append_cancel_left hversion
  obtain ⟨hmaj, hdot⟩ := List.append_inj hdigits (by
    rw [digits_of_lt hmajor, digits_of_lt hmajor']
    rfl)
  obtain ⟨hmin, hend⟩ := List.append_inj (List.append_cancel_left hdot) (by
    rw [digits_of_lt hminor, digits_of_lt hminor']
    rfl)
  have hblock := List.append_cancel_left hend
  simp only [← List.append_assoc] at hblock
  obtain ⟨rfl, rfl⟩ := headerBlock_inj (fun l hl => (hlines l hl).1) (fun l hl => (hlines' l hl).1)
    (fun l hl => (hlines l hl).2.cr_notMem) (fun l hl => (hlines' l hl).2.cr_notMem) hblock
  exact ⟨rfl, rfl, digits_inj hmajor hmajor' hmaj, digits_inj hminor hminor' hmin, rfl, rfl⟩

/-- **A byte string is one request only.** -/
theorem IsRequest.unique {m m' : RequestMessage Bytes} {b : Bytes} (h : IsRequest m b)
    (h' : IsRequest m' b) : m = m' := by
  obtain ⟨hmethod, hurl, hmajor, hminor, hlines, -⟩ := h
  -- the index is a variable for the second derivation, and `hb` keeps what it is
  generalize hb : requestWire _ _ _ _ _ _ = b at h'
  obtain ⟨hmethod', hurl', hmajor', hminor', hlines', -⟩ := h'
  obtain ⟨rfl, rfl, rfl, rfl, rfl, rfl⟩ := requestWire_inj (blank_notMem_methodName hmethod)
    (blank_notMem_methodName hmethod') hurl.blank_notMem hurl'.blank_notMem hmajor hmajor' hminor
    hminor' hlines hlines' hb
  have heq := (methodNamed_methodName hmethod).symm.trans (methodNamed_methodName hmethod')
  rw [Option.some_inj.mp heq]

/-! ### What is assumed of `http_parser` -/

/-- On this input `http_parser` accepts requests of the grammar only, and reports a
request that it accepts, unfragmented. -/
structure HttpParser.Recognises {σ : Type*} (lib : HttpParser σ) (b : Bytes) : Prop where
  request : ∀ m, IsRequest m b →
    ∃ s, lib.execute lib.init b = (s, m.unfragmented.events, b.length)
  other : (∀ m, ¬ IsRequest m b) → (lib.execute lib.init b).2.2 ≠ b.length

end Server
