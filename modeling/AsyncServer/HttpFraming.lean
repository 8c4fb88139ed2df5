/-
HTTP/1.1 message framing.

`messages` cuts a byte stream into messages as the receiver does: lines up to an
empty one, then a body of the length that a content-length line announces, or,
without one, everything up to the end of the connection.

* `decimal_digits` — a number is read back from its digits;
* `readHead_unlines` — lines without CR are read back up to the empty one.
-/
import AsyncServer.HttpGrammar

namespace Server

open CString

/-- A message as it is read: its first line and header lines, and its body. -/
structure WireMessage where
  lines : List Bytes
  body : Bytes
  deriving DecidableEq

/-- Read lines up to an empty one; `line` is what there is of the current one. -/
def readHead (line : Bytes) : Bytes → Option (List Bytes × Bytes)
  | [] => none
  | [_] => none
  | c :: d :: rest =>
    if c = 13 ∧ d = 10 then
      if line = [] then some ([], rest)
      else (readHead [] rest).map fun r => (line :: r.1, r.2)
    else readHead (line ++ [c]) (d :: rest)

/-- The name and the value of a header line. -/
def lineField (line : Bytes) : Bytes × Bytes :=
  (line.takeWhile (· ≠ 58), (line.dropWhile (· ≠ 58)).tail)

/-- Names are compared up to the case of letters. -/
def SameName (s t : Bytes) : Prop := s.map tolower = t.map tolower

instance : DecidableRel SameName := fun s _ => inferInstanceAs (Decidable (s.map tolower = _))

/-- A number in decimal digits. -/
def decimal (v : Bytes) : Option ℕ :=
  if v ≠ [] ∧ ∀ c ∈ v, 48 ≤ c ∧ c ≤ 57 then some (v.foldl (fun n c => 10 * n + (c.toNat - 48)) 0)
  else none

/-- The value of the first content-length line behind the first line. -/
def contentLength (lines : List Bytes) : Option Bytes :=
  ((lines.tail.map lineField).find? fun f => SameName f.1 (bytes "content-length")).map fun f =>
    f.2.dropWhile fun c => c = 32 || c = 9

/-- Read message after message, `fuel` at most; none if the stream ends inside one. -/
def frames : ℕ → Bytes → Option (List WireMessage)
  | 0, b => if b = [] then some [] else none
  | fuel + 1, b =>
    if b = [] then some []
    else (readHead [] b).bind fun r =>
      match contentLength r.1 with
      -- nothing announces a length: the body lasts as long as the connection
      | none => some [⟨r.1, r.2⟩]
      | some v => (decimal v).bind fun n =>
        if r.2.length < n then none
        else (frames fuel (r.2.drop n)).map fun ms => ⟨r.1, r.2.take n⟩ :: ms

@[simp] theorem frames_nil (fuel : ℕ) : frames fuel [] = some [] := by
  cases fuel <;> rfl

/-- The messages of a stream; each of them takes at least one byte. -/
def messages (b : Bytes) : Option (List WireMessage) := frames b.length b

theorem decimal_digits (n : ℕ) : decimal (digits n) = some n := by
  have hne : digits n ≠ [] := by
    intro h
    have hlen := congrArg List.length h
    rw [digits, bytes, List.length_map, Nat.toString_eq_repr, Nat.toList_repr] at hlen
    exact absurd (List.length_eq_zero_iff.mp hlen) Nat.toDigits_ne_nil
  -- the digits are bytes here and characters there
  have hfold : ∀ (l : List Char) (k : ℕ), (∀ c ∈ l, c.toNat < 256) →
      (l.map fun c => UInt8.ofNat c.toNat).foldl (fun n c => 10 * n + (c.toNat - 48)) k =
        Nat.ofDigitChars 10 l k := by
    intro l
    induction l with
    | nil =>
      intro k _
      simp
    | cons c l ih =>
      intro k hl
      have hc : (UInt8.ofNat c.toNat).toNat = c.toNat := by
        rw [UInt8.toNat_ofNat']
        exact Nat.mod_eq_of_lt (hl c List.mem_cons_self)
      rw [List.map_cons, List.foldl_cons, ih _ fun d hd => hl d (List.mem_cons_of_mem _ hd),
        Nat.ofDigitChars_cons, hc]
      rfl
  rw [decimal, if_pos ⟨hne, fun c hc => mem_digits hc⟩, digits, bytes, Nat.toString_eq_repr,
    Nat.toList_repr, hfold, Nat.ofDigitChars_ten_toDigits]
  intro c hc
  have hdigit := Nat.isDigit_of_mem_toDigits (by decide) (by decide) hc
  simp only [Char.isDigit, Bool.and_eq_true, decide_eq_true_eq] at hdigit
  have hhi : c.toNat ≤ 57 := hdigit.2
  omega

/-! ### Reading back lines -/

/-- Lines, each with its line end. -/
def unlines (lines : List Bytes) : Bytes := lines.flatMap fun l => l ++ crlf

theorem readHead_cons {c : UInt8} (hc : c ≠ 13) (line : Bytes) {rest : Bytes} (hrest : rest ≠ []) :
    readHead line (c :: rest) = readHead (line ++ [c]) rest := by
  obtain ⟨d, rest, rfl⟩ := List.exists_cons_of_ne_nil hrest
  rw [readHead, if_neg fun h => hc h.1]

theorem readHead_line {l : Bytes} (hl : (13 : UInt8) ∉ l) (line rest : Bytes) :
    readHead line (l ++ 13 :: 10 :: rest) =
      if line ++ l = [] then some ([], rest)
      else (readHead [] rest).map fun r => ((line ++ l) :: r.1, r.2) := by
  induction l generalizing line with
  | nil =>
    rw [List.nil_append, List.append_nil, readHead, if_pos ⟨rfl, rfl⟩]
  | cons c l ih =>
    have hc : c ≠ 13 := fun h => hl (h ▸ List.mem_cons_self)
    rw [List.cons_append, readHead_cons hc line (by simp),
      ih fun h => hl (List.mem_cons_of_mem _ h), List.append_assoc, List.singleton_append]

theorem readHead_unlines {lines : List Bytes} (h : ∀ l ∈ lines, l ≠ [] ∧ (13 : UInt8) ∉ l)
    (rest : Bytes) : readHead [] (unlines lines ++ crlf ++ rest) = some (lines, rest) := by
  induction lines with
  | nil => exact readHead_line (l := []) List.not_mem_nil [] rest
  | cons l lines ih =>
    obtain ⟨⟨hne, hcr⟩, htail⟩ := List.forall_mem_cons.mp h
    have hsplit : unlines (l :: lines) ++ crlf ++ rest =
        l ++ 13 :: 10 :: (unlines lines ++ crlf ++ rest) := by
      show l ++ [13, 10] ++ unlines lines ++ crlf ++ rest = _
      simp
    rw [hsplit, readHead_line hcr, ih htail, if_neg (by simpa using hne)]
    rfl

theorem lineField_append {name : Bytes} (hname : (58 : UInt8) ∉ name) (value : Bytes) :
    lineField (name ++ 58 :: value) = (name, value) := by
  have hpos : ∀ c ∈ name, decide (c ≠ 58) = true :=
    fun c hc => decide_eq_true fun h => hname (h ▸ hc)
  rw [lineField, List.takeWhile_append_of_pos hpos, List.dropWhile_append_of_pos hpos]
  simp

end Server
