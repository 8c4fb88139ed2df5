/-
The pieces of HTTP/1.x messages on the wire.

* `IsToken`, `IsClean` — header names, and header values without control
  characters and without blanks at the ends;
* `headerBlock` — the header lines, each `name:value` with its line end;
* `headerBlock_inj` — lines of tokens and of values without CR are told apart
  from each other and from what follows their empty line;
* `fill_emittedLines` — a parser that stores the header lines of `toString` in
  their order gets the headers of the message, and the emitted ones.
-/
import AsyncServer.HttpMessage

namespace Server

open CString

/-- The line end. -/
def crlf : Bytes := bytes "\r\n"

/-- A number as `std::to_string` and `operator<<` write it. -/
def digits (n : ℕ) : Bytes := bytes (toString n)

/-- The bytes of which header names and methods are made. -/
def IsTokenChar (c : UInt8) : Prop :=
  (48 ≤ c ∧ c ≤ 57) ∨ (65 ≤ c ∧ c ≤ 90) ∨ (97 ≤ c ∧ c ≤ 122) ∨ c ∈ bytes "!#$%&'*+-.^_`|~"

instance : DecidablePred IsTokenChar := fun _ => inferInstanceAs (Decidable (_ ∨ _))

def IsToken (s : Bytes) : Prop := s ≠ [] ∧ ∀ c ∈ s, IsTokenChar c

instance : DecidablePred IsToken := fun _ => inferInstanceAs (Decidable (_ ∧ _))

/-- No control characters, no blank at either end. -/
def IsClean (v : Bytes) : Prop :=
  (∀ c ∈ v, 32 ≤ c ∧ c ≠ 127) ∧ v.head? ≠ some 32 ∧ v.getLast? ≠ some 32

instance : DecidablePred IsClean := fun _ => inferInstanceAs (Decidable (_ ∧ _ ∧ _))

/-- A clean value does not begin with a blank. -/
theorem IsClean.dropWhile_blank {v : Bytes} (h : IsClean v) :
    (v.dropWhile fun c => c = 32 || c = 9) = v := by
  cases v with
  | nil => rfl
  | cons c v =>
    have htab : ¬ c = 9 := fun h9 => absurd (h.1 c List.mem_cons_self).1 (by rw [h9]; decide)
    have hblank : ¬ c = 32 := fun h32 => h.2.1 (by rw [h32]; rfl)
    simp [htab, hblank]

/-- `name:value` and the line end. -/
def headerLine (h : Bytes × Bytes) : Bytes := h.1 ++ bytes ":" ++ h.2 ++ crlf

def headerBlock (headers : List (Bytes × Bytes)) : Bytes := headers.flatMap headerLine

@[simp] theorem headerBlock_nil : headerBlock [] = [] := rfl

@[simp] theorem headerBlock_cons (h : Bytes × Bytes) (hs : List (Bytes × Bytes)) :
    headerBlock (h :: hs) = headerLine h ++ headerBlock hs := rfl

@[simp] theorem headerBlock_append (hs hs' : List (Bytes × Bytes)) :
    headerBlock (hs ++ hs') = headerBlock hs ++ headerBlock hs' := List.flatMap_append

/-- The first occurrence of a byte splits a string in one way only. -/
theorem split_inj {a : UInt8} {x x' y y' : Bytes} (hx : a ∉ x) (hx' : a ∉ x')
    (h : x ++ a :: y = x' ++ a :: y') : x = x' ∧ y = y' := by
  induction x generalizing x' with
  | nil =>
    cases x' with
    | nil => exact ⟨rfl, List.tail_eq_of_cons_eq h⟩
    | cons c x' =>
      obtain ⟨rfl, -⟩ := List.cons_eq_cons.mp h
      exact absurd List.mem_cons_self hx'
  | cons c x ih =>
    cases x' with
    | nil =>
      obtain ⟨rfl, -⟩ := List.cons_eq_cons.mp h
      exact absurd List.mem_cons_self hx
    | cons c' x' =>
      rw [List.cons_append, List.cons_append] at h
      obtain ⟨rfl, htail⟩ := List.cons_eq_cons.mp h
      obtain ⟨rfl, rfl⟩ := ih (fun hm => hx (List.mem_cons_of_mem _ hm))
        (fun hm => hx' (List.mem_cons_of_mem _ hm)) htail
      exact ⟨rfl, rfl⟩

theorem IsToken.notMem {s : Bytes} (hs : IsToken s) {c : UInt8} (hc : ¬ IsTokenChar c) : c ∉ s :=
  fun h => hc (hs.2 c h)

theorem headerLine_eq (h : Bytes × Bytes) : headerLine h = h.1 ++ 58 :: (h.2 ++ 13 :: [10]) := by
  show h.1 ++ [58] ++ h.2 ++ [13, 10] = _
  simp

/-- The lines and what follows their empty line are determined by the bytes. -/
theorem headerBlock_inj {hs hs' : List (Bytes × Bytes)} {rest rest' : Bytes}
    (hname : ∀ h ∈ hs, IsToken h.1) (hname' : ∀ h ∈ hs', IsToken h.1)
    (hvalue : ∀ h ∈ hs, (13 : UInt8) ∉ h.2) (hvalue' : ∀ h ∈ hs', (13 : UInt8) ∉ h.2)
    (heq : headerBlock hs ++ crlf ++ rest = headerBlock hs' ++ crlf ++ rest') :
    hs = hs' ∧ rest = rest' := by
  have hcolon : ¬ IsTokenChar 58 := by decide
  -- a block without lines begins with CR, any other one with a token
  have hcr : ∀ (h : Bytes × Bytes) (hs : List (Bytes × Bytes)) (b b' : Bytes), IsToken h.1 →
      headerBlock [] ++ crlf ++ b ≠ headerBlock (h :: hs) ++ crlf ++ b' := by
    intro h hs b b' ht heq
    rw [headerBlock_cons, headerLine_eq] at heq
    cases hn : h.1 with
    | nil => exact ht.1 hn
    | cons c n =>
      rw [hn] at heq
      have hc : c = 13 := (List.cons_eq_cons.mp heq).1.symm
      exact absurd (ht.2 13 (by rw [hn, hc]; exact List.mem_cons_self)) (by decide)
  induction hs generalizing hs' with
  | nil =>
    cases hs' with
    | nil => exact ⟨rfl, List.append_cancel_left heq⟩
    | cons h' hs' =>
      exact absurd heq (hcr h' hs' _ _ (hname' h' List.mem_cons_self))
  | cons h hs ih =>
    cases hs' with
    | nil =>
      exact absurd heq.symm (hcr h hs _ _ (hname h List.mem_cons_self))
    | cons h' hs' =>
      simp only [headerBlock_cons, headerLine_eq, List.append_assoc, List.cons_append] at heq
      -- the name ends at the first colon, the value at the first CR
      obtain ⟨hn, heq⟩ := split_inj ((hname h List.mem_cons_self).notMem hcolon)
        ((hname' h' List.mem_cons_self).notMem hcolon) heq
      obtain ⟨hv, heq⟩ := split_inj (hvalue h List.mem_cons_self)
        (hvalue' h' List.mem_cons_self) heq
      obtain ⟨rfl, rfl⟩ := ih (fun h hm => hname h (List.mem_cons_of_mem _ hm))
        (fun h hm => hname' h (List.mem_cons_of_mem _ hm))
        (fun h hm => hvalue h (List.mem_cons_of_mem _ hm))
        (fun h hm => hvalue' h (List.mem_cons_of_mem _ hm))
        (by simpa using heq)
      exact ⟨by rw [Prod.ext hn hv], rfl⟩

/-- A number is written in digits. -/
theorem mem_digits {n : ℕ} {c : UInt8} (h : c ∈ digits n) : 48 ≤ c ∧ c ≤ 57 := by
  obtain ⟨d, hd, rfl⟩ := List.mem_map.mp h
  rw [Nat.toString_eq_repr, Nat.toList_repr] at hd
  have hdigit := Nat.isDigit_of_mem_toDigits (by decide) (by decide) hd
  simp only [Char.isDigit, Bool.and_eq_true, decide_eq_true_eq] at hdigit
  obtain ⟨hlo, hhi⟩ := hdigit
  have hlo' : 48 ≤ d.toNat := hlo
  have hhi' : d.toNat ≤ 57 := hhi
  rw [UInt8.le_iff_toNat_le, UInt8.le_iff_toNat_le, UInt8.toNat_ofNat']
  constructor
  · show 48 ≤ d.toNat % 256
    omega
  · show d.toNat % 256 ≤ 57
    omega

theorem isClean_digits (n : ℕ) : IsClean (digits n) := by
  refine ⟨fun c hc => ?_, fun h => ?_, fun h => ?_⟩
  · obtain ⟨hlo, hhi⟩ := mem_digits hc
    refine ⟨UInt8.le_trans (by decide : (32 : UInt8) ≤ 48) hlo, fun h => ?_⟩
    rw [h] at hhi
    exact absurd hhi (by decide)
  · exact absurd (mem_digits (List.mem_of_mem_head? h)).1 (by decide)
  · exact absurd (mem_digits (List.mem_of_getLast? h)).1 (by decide)

/-! ### The header lines of `toString` -/

/-- The headers that `toString` does not write itself: their names are tokens other
than those which frame a message, and their values are clean. -/
structure PlainHeaders (headers : MSS) : Prop where
  token : ∀ h ∈ headers.entries, IsToken h.1
  clean : ∀ h ∈ headers.entries, IsClean h.2
  notConnection : ∀ h ∈ headers.entries, strcasecmp h.1 (bytes "connection") ≠ .eq
  notLength : ∀ h ∈ headers.entries, strcasecmp h.1 (bytes "content-length") ≠ .eq
  notEncoding : ∀ h ∈ headers.entries, strcasecmp h.1 (bytes "transfer-encoding") ≠ .eq

/-- The emitted `connection` header. -/
def connectionHeader (keepAlive : Bool) : Bytes × Bytes :=
  (bytes "connection", bytes (if keepAlive then "keep-alive" else "close"))

/-- The emitted `content-length` header. -/
def lengthHeader (body : Bytes) : Bytes × Bytes := (bytes "content-length", digits body.length)

/-- All header lines that `toString` writes for a message. -/
def emittedLines (headers : MSS) (keepAlive : Bool) (body : Bytes) : List (Bytes × Bytes) :=
  connectionHeader keepAlive :: headers.entries ++ if body = [] then [] else [lengthHeader body]

theorem mem_emittedLines {headers : MSS} {keepAlive : Bool} {body : Bytes} {l : Bytes × Bytes} :
    l ∈ emittedLines headers keepAlive body ↔
      l = connectionHeader keepAlive ∨ l ∈ headers.entries ∨ (body ≠ [] ∧ l = lengthHeader body) := by
  rw [emittedLines, List.cons_append, List.mem_cons, List.mem_append]
  by_cases hbody : body = []
  · simp [hbody]
  · simp [hbody]

/-- The headers of a message and the emitted ones. -/
def withEmitted (headers : MSS) (keepAlive : Bool) (body : Bytes) : MSS :=
  let all := headers.assign (connectionHeader keepAlive).1 (connectionHeader keepAlive).2
  if body = [] then all else all.assign (lengthHeader body).1 (lengthHeader body).2

variable {headers : MSS}

theorem PlainHeaders.find_length (h : PlainHeaders headers) :
    headers.find (bytes "content-length") = none :=
  OrderedMap.find_eq_none.mpr fun e he => caseInsensitiveLess_or_iff.mpr (h.notLength e he)

/-- All lines have a token for a name, and a clean value. -/
theorem plain_emittedLines (h : PlainHeaders headers) (keepAlive : Bool) (body : Bytes) :
    ∀ l ∈ emittedLines headers keepAlive body, IsToken l.1 ∧ IsClean l.2 := by
  intro l hl
  rcases mem_emittedLines.mp hl with rfl | hl | ⟨-, rfl⟩
  · cases keepAlive
    · exact (by decide : IsToken (bytes "connection") ∧ IsClean (bytes "close"))
    · exact (by decide : IsToken (bytes "connection") ∧ IsClean (bytes "keep-alive"))
  · exact ⟨h.token l hl, h.clean l hl⟩
  · exact ⟨(by decide : IsToken (bytes "content-length")), isClean_digits _⟩

theorem distinct_emittedLines (h : PlainHeaders headers) (keepAlive : Bool) (body : Bytes) :
    OrderedMap.Distinct CaseInsensitiveLess (emittedLines headers keepAlive body) := by
  have hconn : ∀ e ∈ headers.entries,
      CaseInsensitiveLess (bytes "connection") e.1 ∨ CaseInsensitiveLess e.1 (bytes "connection") :=
    fun e he => (caseInsensitiveLess_or_iff.mpr (h.notConnection e he)).symm
  have hlen : ∀ e ∈ headers.entries,
      CaseInsensitiveLess e.1 (bytes "content-length") ∨
        CaseInsensitiveLess (bytes "content-length") e.1 :=
    fun e he => caseInsensitiveLess_or_iff.mpr (h.notLength e he)
  refine List.pairwise_cons.mpr ⟨fun e he => ?_, List.pairwise_append.mpr
    ⟨headers.distinct_entries, ?_, fun e he e' he' => ?_⟩⟩
  · rcases List.mem_append.mp he with he | he
    · exact hconn e he
    · split at he
      · exact absurd he List.not_mem_nil
      · rw [List.mem_singleton.mp he]
        show CaseInsensitiveLess (bytes "connection") (bytes "content-length") ∨ _
        exact .inl (by decide)
  · split
    · exact List.Pairwise.nil
    · exact List.pairwise_singleton _ _
  · split at he'
    · exact absurd he' List.not_mem_nil
    · rw [List.mem_singleton.mp he']
      exact hlen e he

/-- **The header lines of `toString`, stored in their order.** -/
theorem fill_emittedLines (h : PlainHeaders headers) (keepAlive : Bool) (body : Bytes) :
    OrderedMap.empty.fill (emittedLines headers keepAlive body) =
      withEmitted headers keepAlive body := by
  have hperm : (emittedLines headers keepAlive body).Perm
      (headers.entries ++ connectionHeader keepAlive ::
        if body = [] then [] else [lengthHeader body]) := List.perm_middle.symm
  rw [OrderedMap.fill_of_perm (distinct_emittedLines h keepAlive body) hperm, OrderedMap.fill_append,
    OrderedMap.fill_entries, withEmitted]
  split <;> rfl

/-- The lines for the stored headers, without those that `skip`. -/
theorem flatMap_headerLine (skip : Bytes × Bytes → Bool)
    (h : ∀ e ∈ headers.entries, skip e = false) :
    (headers.entries.flatMap fun e =>
      if skip e then [] else e.1 ++ bytes ":" ++ e.2 ++ bytes "\r\n") =
      headerBlock headers.entries := by
  refine List.flatMap_congr fun e he => ?_
  rw [h e he]
  rfl

/-- **What `toString` writes behind the first line.** -/
theorem emittedLines_eq (h : PlainHeaders headers) (keepAlive : Bool) (body : Bytes) :
    bytes "connection:" ++ bytes (if keepAlive then "keep-alive" else "close") ++ bytes "\r\n" ++
        headerBlock headers.entries ++
        (if body.length ≠ 0 then
          (if headers.find (bytes "content-length") = none
            then bytes "content-length:" ++ bytes (toString body.length) ++ bytes "\r\n"
            else []) ++ bytes "\r\n" ++ body
          else bytes "\r\n") =
      headerBlock (emittedLines headers keepAlive body) ++ crlf ++ body := by
  have hconn : bytes "connection:" = bytes "connection" ++ bytes ":" := rfl
  have hlength : bytes "content-length:" = bytes "content-length" ++ bytes ":" := rfl
  rw [if_pos h.find_length, emittedLines, hconn, hlength]
  by_cases hbody : body = []
  -- without a body there is no content-length line, only the empty line
  · subst hbody
    simp [connectionHeader, headerLine, crlf]
  · have hlen : body.length ≠ 0 := fun h0 => hbody (List.length_eq_zero_iff.mp h0)
    simp [connectionHeader, lengthHeader, headerLine, crlf, digits, hbody]

end Server
