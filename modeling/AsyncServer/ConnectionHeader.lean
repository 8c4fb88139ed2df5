/-
What the Connection headers of a message say.

A Connection header has a list of tokens, separated by commas.  The vendored
`http_parser` reads them byte by byte while it parses, and keeps what it has found
in its flags; `http_should_keep_alive` asks these and the version.

* `tokens` — the tokens of a value;
* `connectionScan` — the flags that `http_parser` sets for a value;
* `connectionScan_sound` — what it takes for a word is a token of the value; not the other
  way round, for after a byte that does not match it looks for a comma only from
  the next byte on.
-/
import AsyncServer.RequestGrammar
import Mathlib.Data.List.DropRight

namespace Server

open CString

/-! ### Tokens -/

/-- The white space around a token. -/
def isBlank (c : UInt8) : Bool := c = 32 || c = 9

/-- A list element, without the blanks around it and with small letters. -/
def token (seg : Bytes) : List ℕ := ((seg.dropWhile isBlank).rdropWhile isBlank).map tolower

/-- The tokens of a value. -/
def tokens (v : Bytes) : List (List ℕ) := (v.splitOn 44).map token

/-- A name up to the case of its letters. -/
def IsConnection (name : Bytes) : Prop := name.map tolower = (bytes "connection").map tolower

instance : DecidablePred IsConnection := fun _ => inferInstanceAs (Decidable (_ = _))

/-- Some Connection header has the token. -/
def Carries (headers : List (Bytes × Bytes)) (word : Bytes) : Prop :=
  ∃ h ∈ headers, IsConnection h.1 ∧ word.map tolower ∈ tokens h.2

instance (headers : List (Bytes × Bytes)) (word : Bytes) : Decidable (Carries headers word) :=
  inferInstanceAs (Decidable (∃ h ∈ headers, _ ∧ _))

/-! ### The vendored reading -/

/-- The words that `http_parser` looks for. -/
inductive ConnectionWord where
  | keepAlive
  | close
  | upgrade
  deriving DecidableEq

/-- `KEEP_ALIVE`, `CLOSE`, `UPGRADE`. -/
def ConnectionWord.text : ConnectionWord → Bytes
  | .keepAlive => bytes "keep-alive"
  | .close => bytes "close"
  | .upgrade => bytes "upgrade"

/-- `parser->header_state` inside the value of a Connection header. -/
inductive HeaderState where
  | general
  | matchingConnectionTokenStart
  | matchingConnection (w : ConnectionWord)
  | matchingConnectionToken
  | connection (w : ConnectionWord)
  deriving DecidableEq

/-- `header_state` and `index`, and the flags for the words. -/
structure ConnectionScan where
  headerState : HeaderState
  index : ℕ
  flags : ConnectionWord → Bool

/-- `LOWER`. -/
def lower (ch : UInt8) : UInt8 := ch ||| 0x20

/-- The word that a byte may be the first one of. -/
def ConnectionWord.starting (c : UInt8) : Option ConnectionWord :=
  if c = 107 then some .keepAlive else if c = 99 then some .close
  else if c = 117 then some .upgrade else none

namespace ConnectionScan

/-- `parser->flags |= ...`. -/
def setFlag (s : ConnectionScan) (w : ConnectionWord) : ConnectionScan :=
  { s with flags := Function.update s.flags w true }

/-- The first byte, in `s_header_value_start`. -/
def first (ch : UInt8) : ConnectionScan where
  headerState :=
    match ConnectionWord.starting (lower ch) with
    | some w => .matchingConnection w
    | none => .matchingConnectionToken
  index := 0
  flags := fun _ => false

/-- A later byte, in `s_header_value`. -/
def next (s : ConnectionScan) (ch : UInt8) : ConnectionScan :=
  let c := lower ch
  match s.headerState with
  | .general => s
  | .matchingConnectionTokenStart =>
    match ConnectionWord.starting c with
    | some w => { s with headerState := .matchingConnection w }
    | none =>
      if IsTokenChar c then { s with headerState := .matchingConnectionToken }
      else if c = 32 ∨ c = 9 then s
      else { s with headerState := .general }
  | .matchingConnection w =>
    let index := s.index + 1
    if w.text.length < index ∨ w.text[index]? ≠ some c then
      { s with headerState := .matchingConnectionToken, index := index }
    else if index = w.text.length - 1 then { s with headerState := .connection w, index := index }
    else { s with index := index }
  | .matchingConnectionToken =>
    if ch = 44 then { s with headerState := .matchingConnectionTokenStart, index := 0 } else s
  | .connection w =>
    if ch = 44 then
      { s.setFlag w with headerState := .matchingConnectionTokenStart, index := 0 }
    else if ch ≠ 32 then { s with headerState := .matchingConnectionToken }
    else s

/-- The end of the header, in `s_header_value_lws`. -/
def finish (s : ConnectionScan) : ConnectionScan :=
  match s.headerState with
  | .connection w => s.setFlag w
  | _ => s

end ConnectionScan

/-- The flags that the value of a Connection header sets. -/
def connectionScan : Bytes → ConnectionWord → Bool
  | [] => fun _ => false
  | ch :: v => (v.foldl ConnectionScan.next (.first ch)).finish.flags

/-- The flags after all headers. -/
def connectionFlags (headers : List (Bytes × Bytes)) (w : ConnectionWord) : Bool :=
  headers.any fun h => IsConnection h.1 && connectionScan h.2 w

/-- `http_should_keep_alive`, as far as it asks the headers. -/
def shouldKeepAlive (headers : List (Bytes × Bytes)) (httpMajor httpMinor : ℕ) : Bool :=
  if 0 < httpMajor ∧ 0 < httpMinor then !connectionFlags headers .close
  else connectionFlags headers .keepAlive

/-! ### What is taken for a word is a token -/

/-- A byte that is no separator belongs to the last piece. -/
theorem splitOn_concat_of_ne {α : Type*} [DecidableEq α] {a x : α} (hx : x ≠ a) :
    ∀ {l : List α} (done : List (List α)) {cur : List α}, l.splitOn a = done ++ [cur] →
      (l ++ [x]).splitOn a = done ++ [cur ++ [x]] := by
  intro l
  induction l with
  | nil =>
    intro done cur h
    rw [List.splitOn_nil] at h
    have hsplit : ([] : List (List α)) ++ [[]] = done ++ [cur] := h
    obtain ⟨rfl, hcur⟩ := List.append_inj' hsplit rfl
    obtain rfl : [] = cur := by simpa using hcur
    rw [List.nil_append, List.splitOn_eq_singleton (by simpa using hx.symm)]
    rfl
  | cons y l ih =>
    intro done cur h
    rw [List.splitOn_cons_eq_if_modifyHead] at h
    rw [List.cons_append, List.splitOn_cons_eq_if_modifyHead]
    split_ifs at h ⊢ with hy
    -- a separator: the first piece is empty, and the last one is in the tail
    · cases done with
      | nil => exact absurd (List.cons.inj h).2 (List.splitOn_ne_nil a l)
      | cons d ds =>
        obtain ⟨hd, htail⟩ := List.cons.inj h
        rw [ih ds htail, ← hd]
        rfl
    -- no separator: `y` comes to the first piece, which may be the last one
    · obtain ⟨q, qs, hq⟩ := List.exists_cons_of_ne_nil (List.splitOn_ne_nil a l)
      rw [hq, List.modifyHead_cons] at h
      cases done with
      | nil =>
        obtain ⟨rfl, rfl⟩ := List.cons.inj h
        rw [ih [] hq]
        rfl
      | cons d ds =>
        obtain ⟨rfl, rfl⟩ := List.cons.inj h
        rw [ih (q :: ds) hq]
        rfl

theorem splitOn_concat_self {α : Type*} [DecidableEq α] (a : α) (l : List α) :
    (l ++ [a]).splitOn a = l.splitOn a ++ [[]] := by
  rw [List.splitOn_append_cons_self, List.splitOn_nil]

/-- Blanks around a word do not matter. -/
theorem token_blanks {sp x sp' : Bytes} (hsp : ∀ c ∈ sp, isBlank c) (hsp' : ∀ c ∈ sp', isBlank c)
    (hx : ∀ c ∈ x, isBlank c = false) (hne : x ≠ []) : token (sp ++ x ++ sp') = x.map tolower := by
  have hhead : ∀ (y z : Bytes), y ≠ [] → (∀ c ∈ y, isBlank c = false) →
      (y ++ z).dropWhile isBlank = y ++ z := by
    intro y z hy hall
    obtain ⟨c, y, rfl⟩ := List.exists_cons_of_ne_nil hy
    rw [List.cons_append, List.dropWhile_cons_of_neg (by simp [hall c List.mem_cons_self])]
  rw [token, List.append_assoc, List.dropWhile_append_of_pos hsp, hhead x sp' hne hx,
    List.rdropWhile, List.reverse_append,
    List.dropWhile_append_of_pos (fun c hc => hsp' c (List.mem_reverse.mp hc))]
  have hrev := hhead x.reverse [] (by simpa using hne) fun c hc => hx c (List.mem_reverse.mp hc)
  rw [List.append_nil] at hrev
  rw [hrev, List.reverse_reverse]

set_option maxRecDepth 4000 in
/-- Setting the bit makes a capital letter small, and nothing else a letter or a hyphen. -/
theorem or_bit : ∀ n < 256, (32 ≤ n ∨ n = 9) → (n ||| 32 = 45 ∨ 97 ≤ n ||| 32 ∧ n ||| 32 ≤ 122) →
    (if 65 ≤ n ∧ n ≤ 90 then n + 32 else n) = n ||| 32 ∧ n ≠ 32 ∧ n ≠ 9 := by decide

set_option maxRecDepth 4000 in
theorem blank_bit :
    ∀ n < 256, (32 ≤ n ∨ n = 9) → n ||| 32 = 32 ∨ n ||| 32 = 9 → n = 32 ∨ n = 9 := by
  decide

theorem toNat_lower (ch : UInt8) : (lower ch).toNat = ch.toNat ||| 32 := by
  rw [lower, UInt8.toNat_or]
  rfl

/-- The bytes of a value, as numbers. -/
theorem toNat_fieldByte {ch : UInt8} (hch : 32 ≤ ch ∨ ch = 9) : 32 ≤ ch.toNat ∨ ch.toNat = 9 := by
  rcases hch with h | h
  · exact .inl (UInt8.le_iff_toNat_le.mp h)
  · exact .inr (by rw [h]; rfl)

theorem isBlank_of_lower {ch : UInt8} (hch : 32 ≤ ch ∨ ch = 9) (h : lower ch = 32 ∨ lower ch = 9) :
    isBlank ch := by
  have hbit : ch.toNat ||| 32 = 32 ∨ ch.toNat ||| 32 = 9 := by
    rw [← toNat_lower]
    rcases h with h | h <;> rw [h]
    · exact .inl rfl
    · exact .inr rfl
  rcases blank_bit ch.toNat ch.toNat_lt (toNat_fieldByte hch) hbit with h | h
  · rw [show ch = 32 from UInt8.toNat_inj.mp h]
    rfl
  · rw [show ch = 9 from UInt8.toNat_inj.mp h]
    rfl

/-- A byte that matches a word is a letter of it, or the hyphen. -/
theorem tolower_of_lower {ch c : UInt8} (hch : 32 ≤ ch ∨ ch = 9) {w : ConnectionWord}
    (hc : c ∈ w.text) (h : lower ch = c) : tolower ch = tolower c ∧ isBlank ch = false := by
  have htext : ∀ c ∈ w.text,
      (c.toNat = 45 ∨ 97 ≤ c.toNat ∧ c.toNat ≤ 122) ∧ tolower c = c.toNat := by
    cases w <;> decide
  obtain ⟨hrange, htolower⟩ := htext c hc
  have hor : c.toNat = ch.toNat ||| 32 := by rw [← h, toNat_lower]
  obtain ⟨hsmall, h32, h9⟩ := or_bit ch.toNat ch.toNat_lt (toNat_fieldByte hch) (hor ▸ hrange)
  refine ⟨by rw [htolower, hor]; exact hsmall, ?_⟩
  have hne : ∀ k : UInt8, ch.toNat ≠ k.toNat → ch ≠ k := fun k hk hck => hk (by rw [hck])
  simp [isBlank, hne 32 h32, hne 9 h9]

namespace ConnectionScan

/-- What the state says about the piece that is being read. -/
def Reading (s : ConnectionScan) (cur : Bytes) : Prop :=
  match s.headerState with
  | .general | .matchingConnectionToken => True
  | .matchingConnectionTokenStart => (∀ c ∈ cur, isBlank c) ∧ s.index = 0
  | .matchingConnection w => ∃ sp x, cur = sp ++ x ∧ (∀ c ∈ sp, isBlank c) ∧
      x.map lower = w.text.take (s.index + 1) ∧ s.index + 1 < w.text.length
  | .connection w => ∃ sp x sp', cur = sp ++ x ++ sp' ∧ (∀ c ∈ sp, isBlank c) ∧
      (∀ c ∈ sp', isBlank c) ∧ x.map lower = w.text

/-- What the state says about the bytes before. -/
def Reads (s : ConnectionScan) (p : Bytes) : Prop :=
  ∃ done cur, p.splitOn 44 = done ++ [cur] ∧ IsFieldText cur ∧
    (∀ w, s.flags w = true → w.text.map tolower ∈ done.map token) ∧ s.Reading cur

theorem starting_eq_some {c : UInt8} {w : ConnectionWord} (h : ConnectionWord.starting c = some w) :
    w.text.take 1 = [c] ∧ c ≠ 44 := by
  unfold ConnectionWord.starting at h
  split_ifs at h with h1 h2 h3
  all_goals
    obtain rfl := Option.some_inj.mp h
    first | rw [h1] | rw [h2] | rw [h3]
    decide

theorem lower_comma : lower 44 = 44 := by decide

/-- A word has more than one letter, and no comma. -/
theorem text_spec (w : ConnectionWord) : 1 < w.text.length ∧ (44 : UInt8) ∉ w.text := by
  cases w <;> decide

/-- A piece that is a word, with blanks around it. -/
theorem Reading.token {s : ConnectionScan} {cur : Bytes} (h : s.Reading cur) {w : ConnectionWord}
    (hs : s.headerState = .connection w) (hcur : IsFieldText cur) :
    Server.token cur = w.text.map tolower := by
  rw [Reading, hs] at h
  obtain ⟨sp, x, sp', rfl, hsp, hsp', hx⟩ := h
  have hbyte : ∀ c ∈ x, tolower c = tolower (lower c) ∧ isBlank c = false := by
    intro c hc
    have hmem : lower c ∈ w.text := hx ▸ List.mem_map_of_mem hc
    exact tolower_of_lower (hcur c (by simp [hc])).1 hmem rfl
  have hne : x ≠ [] := by
    rintro rfl
    have := (text_spec w).1
    rw [← hx] at this
    exact absurd this (by simp)
  rw [token_blanks hsp hsp' (fun c hc => (hbyte c hc).2) hne, ← hx, List.map_map]
  exact List.map_congr_left fun c hc => (hbyte c hc).1

section Step

variable {s s' : ConnectionScan} {p done cur : Bytes} {ch : UInt8}

/-- A byte of the piece that is being read. -/
theorem Reads.stay {done : List Bytes} (hsplit : p.splitOn 44 = done ++ [cur])
    (hcur : IsFieldText cur) (hch : (32 ≤ ch ∨ ch = 9) ∧ ch ≠ 127)
    (hflags : ∀ w, s.flags w = true → w.text.map tolower ∈ done.map token) (hne : ch ≠ 44)
    (hsame : s'.flags = s.flags) (hreading : s'.Reading (cur ++ [ch])) : s'.Reads (p ++ [ch]) := by
  refine ⟨done, cur ++ [ch], splitOn_concat_of_ne hne done hsplit, fun c hc => ?_, ?_, hreading⟩
  · rcases List.mem_append.mp hc with hc | hc
    · exact hcur c hc
    · exact List.mem_singleton.mp hc ▸ hch
  · rw [hsame]
    exact hflags

/-- A comma ends the piece. -/
theorem Reads.separate {done : List Bytes} (hsplit : p.splitOn 44 = done ++ [cur])
    (hflags : ∀ w, s.flags w = true → w.text.map tolower ∈ done.map token) (hch : ch = 44)
    (hset : ∀ w, s'.flags w = true → s.flags w = true ∨ token cur = w.text.map tolower)
    (hreading : s'.Reading []) : s'.Reads (p ++ [ch]) := by
  refine ⟨done ++ [cur], [], ?_, by simp [IsFieldText], fun w hw => ?_, hreading⟩
  · rw [hch, splitOn_concat_self, hsplit]
  · rw [List.map_append]
    rcases hset w hw with hold | hnew
    · exact List.mem_append_left _ (hflags w hold)
    · exact List.mem_append_right _ (by simp [hnew])

/-- **One byte more.** -/
theorem Reads.next (h : s.Reads p) (hch : (32 ≤ ch ∨ ch = 9) ∧ ch ≠ 127) :
    (s.next ch).Reads (p ++ [ch]) := by
  obtain ⟨done, cur, hsplit, hcur, hflags, hreading⟩ := h
  -- a state that says nothing about the piece is right after every byte
  have hfree : ∀ s' : ConnectionScan, s'.flags = s.flags →
      (∀ cur, s'.Reading cur) → s'.Reads (p ++ [ch]) := by
    intro s' hsame hall
    by_cases hcomma : ch = 44
    · exact Reads.separate hsplit hflags hcomma (fun w hw => .inl (hsame ▸ hw)) (hall _)
    · exact Reads.stay hsplit hcur hch hflags hcomma hsame (hall _)
  cases hs : s.headerState with
  | general =>
    simp only [ConnectionScan.next, hs]
    exact hfree s rfl fun cur => by simp [Reading, hs]
  | matchingConnectionTokenStart =>
    simp only [Reading, hs] at hreading
    simp only [ConnectionScan.next, hs]
    split
    · rename_i w hw
      obtain ⟨htake, hne⟩ := starting_eq_some hw
      have hcomma : ch ≠ 44 := fun h => hne (by rw [h, lower_comma])
      refine Reads.stay hsplit hcur hch hflags hcomma rfl
        ⟨cur, [ch], rfl, hreading.1, ?_, ?_⟩
      · rw [hreading.2, htake]
        rfl
      · rw [hreading.2]
        exact (text_spec w).1
    · split_ifs with htoken hblank
      · exact hfree _ rfl fun _ => trivial
      · have hcomma : ch ≠ 44 := by
          rintro rfl
          exact absurd hblank (by decide)
        refine Reads.stay hsplit hcur hch hflags hcomma rfl ?_
        simp only [Reading, hs]
        refine ⟨fun c hc => ?_, hreading.2⟩
        rcases List.mem_append.mp hc with hc | hc
        · exact hreading.1 c hc
        · exact List.mem_singleton.mp hc ▸ isBlank_of_lower hch.1 hblank
      · exact hfree _ rfl fun _ => trivial
  | matchingConnection w =>
    simp only [Reading, hs] at hreading
    obtain ⟨sp, x, rfl, hsp, hx, hlt⟩ := hreading
    simp only [ConnectionScan.next, hs]
    split_ifs with hmiss hlast
    · exact hfree _ rfl fun _ => trivial
    all_goals
      have hget : w.text[s.index + 1]? = some (lower ch) := not_not.mp (not_or.mp hmiss).2
      have hcomma : ch ≠ 44 := by
        rintro rfl
        rw [lower_comma] at hget
        exact (text_spec w).2 (List.mem_of_getElem? hget)
      have hmore : (x ++ [ch]).map lower = w.text.take (s.index + 1 + 1) := by
        rw [List.take_add_one, hget, List.map_append, hx]
        rfl
    · refine Reads.stay hsplit hcur hch hflags hcomma rfl
        ⟨sp, x ++ [ch], [], by simp, hsp, by simp, ?_⟩
      rw [hmore, List.take_of_length_le (by omega)]
    · refine Reads.stay hsplit hcur hch hflags hcomma rfl ?_
      simp only [Reading]
      exact ⟨sp, x ++ [ch], by simp, hsp, hmore, by omega⟩
  | matchingConnectionToken =>
    simp only [ConnectionScan.next, hs]
    split_ifs with hcomma
    · exact Reads.separate hsplit hflags hcomma (fun w hw => .inl hw) ⟨by simp, rfl⟩
    · exact hfree s rfl fun cur => by simp [Reading, hs]
  | connection w =>
    have htoken := hreading.token hs hcur
    simp only [Reading, hs] at hreading
    obtain ⟨sp, x, sp', rfl, hsp, hsp', hx⟩ := hreading
    simp only [ConnectionScan.next, hs]
    split_ifs with hcomma hblank
    · refine Reads.separate hsplit hflags hcomma (fun u hu => ?_) ⟨by simp, rfl⟩
      by_cases huw : u = w
      · exact .inr (huw ▸ htoken)
      · simp only [setFlag, Function.update_of_ne huw] at hu
        exact .inl hu
    · exact hfree _ rfl fun _ => trivial
    · refine Reads.stay hsplit hcur hch hflags hcomma rfl ?_
      simp only [Reading, hs]
      refine ⟨sp, x, sp' ++ [ch], by simp, hsp, fun c hc => ?_, hx⟩
      rcases List.mem_append.mp hc with hc | hc
      · exact hsp' c hc
      · rw [List.mem_singleton.mp hc, not_not.mp hblank]
        rfl

/-- The first byte. -/
theorem reads_first (hch : (32 ≤ ch ∨ ch = 9) ∧ ch ≠ 127) : (first ch).Reads [ch] := by
  have hempty : List.splitOn 44 ([] : Bytes) = [] ++ [[]] := List.splitOn_nil 44
  have hflags : ∀ w, (first ch).flags w = true → w.text.map tolower ∈ ([] : List Bytes).map token :=
    fun w hw => absurd hw (by simp [first])
  by_cases hcomma : ch = 44
  · refine Reads.separate (p := []) hempty hflags hcomma (fun w hw => .inl hw) ?_
    rw [hcomma]
    exact trivial
  · refine Reads.stay (p := []) hempty (by simp [IsFieldText]) hch hflags hcomma rfl ?_
    cases hw : ConnectionWord.starting (lower ch) with
    | none => simp only [Reading, first, hw]
    | some w =>
      simp only [Reading, first, hw]
      refine ⟨[], [ch], rfl, by simp, ?_, (text_spec w).1⟩
      rw [Nat.zero_add, (starting_eq_some hw).1]
      rfl

theorem reads_foldl {v : Bytes} (hv : IsFieldText v) : ∀ {s : ConnectionScan} {p : Bytes},
    s.Reads p → (v.foldl next s).Reads (p ++ v) := by
  induction v with
  | nil =>
    intro s p h
    rw [List.append_nil]
    exact h
  | cons ch v ih =>
    intro s p h
    obtain ⟨hch, hv⟩ := List.forall_mem_cons.mp hv
    rw [← List.singleton_append, ← List.append_assoc]
    exact ih hv (h.next hch)

end Step

end ConnectionScan

/-- **What `http_parser` takes for a word is a token of the value.** -/
theorem connectionScan_sound {v : Bytes} (hv : IsFieldText v) {w : ConnectionWord}
    (h : connectionScan v w = true) : w.text.map tolower ∈ tokens v := by
  cases v with
  | nil => exact absurd h (by simp [connectionScan])
  | cons ch v =>
    obtain ⟨hch, hv⟩ := List.forall_mem_cons.mp hv
    obtain ⟨done, cur, hsplit, hcur, hflags, hreading⟩ :=
      ConnectionScan.reads_foldl hv (ConnectionScan.reads_first hch)
    rw [tokens, ← List.singleton_append, hsplit, List.map_append]
    set s := v.foldl ConnectionScan.next (.first ch) with hs
    change s.finish.flags w = true at h
    unfold ConnectionScan.finish at h
    split at h
    -- at the end of a word its flag is set, and the word is the last piece
    · rename_i u hstate
      by_cases hwu : w = u
      · rw [hwu, ← hreading.token hstate hcur]
        exact List.mem_append_right _ List.mem_cons_self
      · simp only [ConnectionScan.setFlag, Function.update_of_ne hwu] at h
        exact List.mem_append_left _ (hflags w h)
    · exact List.mem_append_left _ (hflags w h)

/-- **What it says about the end of the connection, the tokens say as well**, as far as
`close` is concerned. -/
theorem carries_close {headers : List (Bytes × Bytes)} (hv : ∀ h ∈ headers, IsFieldText h.2)
    (h : connectionFlags headers .close = true) : Carries headers (bytes "close") := by
  obtain ⟨e, he, hscan⟩ := List.any_eq_true.mp h
  rw [Bool.and_eq_true, decide_eq_true_eq] at hscan
  exact ⟨e, he, hscan.1, connectionScan_sound (hv e he) hscan.2⟩

example : connectionScan (bytes "te, Close") .close = true := by decide

-- the comma after `c` is taken for a part of the word
example : connectionScan (bytes "c,close") .close = false := by decide

end Server
