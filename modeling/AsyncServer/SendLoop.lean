/-
The response send loop.

`handleClient` sends a response with

  `while(offset != size) { n = sock->send(c_str() + offset, size - offset); offset += n; }`

The offset is a `size_t`, the result is signed and is not looked at, and
`Socket::send` takes the length as an `int`.

* `asked_toNat` — the length that arrives in `::send`;
* `inOrder_advance` — a positive result keeps the loop in its buffer and what
  was accepted the first `offset` bytes;
* `delivers_iff` — the loop delivers the response exactly when this is shorter
  than 2^31 bytes and no send fails before it is complete.
-/
import AsyncServer.CString

namespace Server

/-- The send loop of `handleClient` at its test: the response, the `size_t`
counter, and the bytes that the socket has accepted so far (a history). -/
structure SendLoop where
  buf : Bytes
  offset : BitVec 64
  accepted : Bytes
  deriving DecidableEq

namespace SendLoop

variable {buf : Bytes} {res : ℕ → ℤ} {l : SendLoop}

/-- The loop before its first test. -/
def start (buf : Bytes) : SendLoop := ⟨buf, 0, []⟩

/-- `send_buf.size()`. -/
def size (l : SendLoop) : BitVec 64 := BitVec.ofNat 64 l.buf.length

/-- The loop test, `offset != send_buf.size()`. -/
def unfinished (l : SendLoop) : Bool := l.offset != l.size

/-- The length that `::send` is given: `size() - offset` goes through
`Socket::send`'s parameter `int size`, and from there back to a `size_t`. -/
def asked (l : SendLoop) : BitVec 64 := ((l.size - l.offset).setWidth 32).signExtend 64

/-- The socket has answered `n`: of the window it has taken the first `n` bytes,
none for `-1`, and `offset += n`. -/
def advance (l : SendLoop) (n : ℤ) : SendLoop :=
  { l with
    offset := l.offset + BitVec.ofInt 64 n
    accepted := l.accepted ++ (l.buf.drop l.offset.toNat).take n.toNat }

/-- The loop at its `i`-th test, when the calls before have answered `res 0`,
`res 1` and so on; `none` when it has ended before. -/
def sendRun (buf : Bytes) (res : ℕ → ℤ) : ℕ → Option SendLoop
  | 0 => some (start buf)
  | i + 1 => (sendRun buf res i).bind fun l =>
      if l.unfinished then some (l.advance (res i)) else none

/-- The `i`-th call of `sock->send` takes place, in the state `l`. -/
def Calls (buf : Bytes) (res : ℕ → ℤ) (i : ℕ) (l : SendLoop) : Prop :=
  sendRun buf res i = some l ∧ l.unfinished = true

/-- What `send` may answer: `-1`, or a count between 1 and the length asked
for. -/
def MayAnswer (l : SendLoop) (n : ℤ) : Prop := n = -1 ∨ 1 ≤ n ∧ n ≤ l.asked.toNat

/-- The window given to `send` lies inside `send_buf`. -/
def InWindow (l : SendLoop) : Prop :=
  l.offset.toNat ≤ l.buf.length ∧ l.offset.toNat + l.asked.toNat ≤ l.buf.length

/-- All results of a run are ones that `send` may give. -/
def Legit (buf : Bytes) (res : ℕ → ℤ) : Prop :=
  ∀ i l, Calls buf res i l → l.MayAnswer (res i)

/-- The loop delivers: at each test the bytes accepted are the first `offset`
bytes of the response, each call has its window inside the buffer, and after a
failed call there is no other. -/
structure Delivers (buf : Bytes) (res : ℕ → ℤ) : Prop where
  accepted : ∀ i l, sendRun buf res i = some l → l.accepted = buf.take l.offset.toNat
  window : ∀ i l, Calls buf res i l → l.InWindow
  stops : ∀ i l, Calls buf res i l → res i = -1 → ∀ l', ¬ Calls buf res (i + 1) l'

/-- No send fails before the results add up to the length of the response. -/
def NoEarlyFailure (buf : Bytes) (res : ℕ → ℤ) : Prop :=
  ∀ i, (∀ k ≤ i, ∑ j ∈ Finset.range k, res j < buf.length) → res i ≠ -1

/-! ### One call -/

@[simp] theorem advance_buf (n : ℤ) : (l.advance n).buf = l.buf := rfl

theorem size_toNat (h : l.buf.length < 2 ^ 63) : l.size.toNat = l.buf.length := by
  rw [size, BitVec.toNat_ofNat]
  omega

theorem unfinished_iff (h : l.buf.length < 2 ^ 63) :
    l.unfinished = true ↔ l.offset.toNat ≠ l.buf.length := by
  rw [unfinished, bne_iff_ne, ne_eq, ← BitVec.toNat_inj, size_toNat h]

theorem sub_offset_toNat (h : l.buf.length < 2 ^ 63) (ho : l.offset.toNat ≤ l.buf.length) :
    (l.size - l.offset).toNat = l.buf.length - l.offset.toNat := by
  rw [BitVec.toNat_sub, size_toNat h]
  omega

/-- The length is cut to 32 bits and read as a signed number. -/
theorem asked_toNat (h : l.buf.length < 2 ^ 63) (ho : l.offset.toNat ≤ l.buf.length) :
    l.asked.toNat = if (l.buf.length - l.offset.toNat) % 2 ^ 32 < 2 ^ 31
      then (l.buf.length - l.offset.toNat) % 2 ^ 32
      else 2 ^ 64 - 2 ^ 32 + (l.buf.length - l.offset.toNat) % 2 ^ 32 := by
  rw [asked, BitVec.signExtend, BitVec.toNat_ofInt, BitVec.toInt_eq_toNat_cond,
    BitVec.toNat_setWidth, sub_offset_toNat h ho]
  have hr := Nat.mod_lt (l.buf.length - l.offset.toNat) (show 0 < 2 ^ 32 by norm_num)
  split <;> split <;> omega

theorem asked_toNat_short (h : l.buf.length < 2 ^ 31) (ho : l.offset.toNat ≤ l.buf.length) :
    l.asked.toNat = l.buf.length - l.offset.toNat := by
  rw [asked_toNat (by omega) ho, if_pos (by omega)]
  omega

theorem offset_advance {n : ℤ} (hn : 0 ≤ n) (h : l.offset.toNat + n.toNat < 2 ^ 64) :
    (l.advance n).offset.toNat = l.offset.toNat + n.toNat := by
  show (l.offset + BitVec.ofInt 64 n).toNat = _
  rw [BitVec.toNat_add, BitVec.toNat_ofInt]
  omega

/-- The counter is inside the response and counts what has been accepted. -/
structure InOrder (l : SendLoop) : Prop where
  le : l.offset.toNat ≤ l.buf.length
  accepted : l.accepted = l.buf.take l.offset.toNat

theorem inOrder_start (buf : Bytes) : (start buf).InOrder where
  le := Nat.zero_le _
  accepted := rfl

/-- **A positive result keeps the loop in order** when the window was inside the
buffer. -/
theorem inOrder_advance {n : ℤ} (hl : l.InOrder) (h : l.buf.length < 2 ^ 63) (hn : 1 ≤ n)
    (hle : n ≤ l.asked.toNat) (hw : l.InWindow) :
    (l.advance n).InOrder ∧ (l.advance n).offset.toNat = l.offset.toNat + n.toNat := by
  obtain ⟨-, hin⟩ := hw
  have ho := offset_advance (l := l) (n := n) (by omega) (by omega)
  refine ⟨⟨?_, ?_⟩, ho⟩
  · rw [ho, advance_buf]
    omega
  -- the bytes accepted now follow those accepted before
  · rw [ho, advance_buf, List.take_add, ← hl.accepted]
    rfl

/-- After a failed send the counter is one lower, or the greatest `size_t`: the
loop goes on. -/
theorem unfinished_advance_failed (h : l.buf.length < 2 ^ 63)
    (ho : l.offset.toNat ≤ l.buf.length) : (l.advance (-1)).unfinished = true := by
  have hlen : (l.advance (-1)).buf.length < 2 ^ 63 := by
    rw [advance_buf]
    exact h
  refine (unfinished_iff hlen).mpr ?_
  -- adding -1 as a `size_t` is adding 2^64 - 1
  have hsub : (l.advance (-1)).offset.toNat = (l.offset.toNat + (2 ^ 64 - 1)) % 2 ^ 64 :=
    BitVec.toNat_add l.offset (BitVec.ofInt 64 (-1))
  rw [hsub, advance_buf]
  omega

/-! ### Runs -/

theorem sendRun_succ {i : ℕ} {l' : SendLoop} :
    sendRun buf res (i + 1) = some l' ↔ ∃ l, Calls buf res i l ∧ l.advance (res i) = l' := by
  rw [sendRun, Option.bind_eq_some_iff]
  constructor
  · rintro ⟨l, hl, h⟩
    split at h
    · exact ⟨l, ⟨hl, ‹_›⟩, Option.some_inj.mp h⟩
    · exact absurd h (by simp)
  · rintro ⟨l, ⟨hl, hu⟩, rfl⟩
    exact ⟨l, hl, if_pos hu⟩

theorem sendRun_buf : ∀ {i : ℕ} {l : SendLoop}, sendRun buf res i = some l → l.buf = buf := by
  intro i
  induction i with
  | zero =>
    intro l h
    rw [← Option.some_inj.mp h]
    rfl
  | succ i ih =>
    intro l' h
    obtain ⟨l, hcall, rfl⟩ := sendRun_succ.mp h
    exact (advance_buf (res i)).trans (ih hcall.1)

theorem not_calls_of_finished {n : ℕ} (hn : sendRun buf res n = some l)
    (hend : l.unfinished = false) (l' : SendLoop) : ¬ Calls buf res n l' := by
  rintro ⟨hl', hu⟩
  rw [Option.some_inj.mp (hl'.symm.trans hn), hend] at hu
  exact absurd hu (by decide)

/-- There is no call once a test has failed. -/
theorem Calls.lt_of_finished {n : ℕ} (hn : sendRun buf res n = some l)
    (hend : l.unfinished = false) : ∀ {i : ℕ} {l' : SendLoop}, Calls buf res i l' → i < n := by
  intro i
  induction i with
  | zero =>
    intro l' hcall
    refine Nat.pos_of_ne_zero ?_
    rintro rfl
    exact not_calls_of_finished hn hend l' hcall
  -- a call is preceded by another one, which is before the failed test
  | succ i ih =>
    intro l' hcall
    obtain ⟨l₀, hcall₀, -⟩ := sendRun_succ.mp hcall.1
    refine Nat.lt_of_le_of_ne (ih hcall₀) ?_
    rintro rfl
    exact not_calls_of_finished hn hend l' hcall

/-- While no send fails early, a short response is sent in order and the counter
is the sum of the results. -/
theorem sendRun_inOrder (hlegit : Legit buf res) (hlen : buf.length < 2 ^ 31)
    (hfail : NoEarlyFailure buf res) : ∀ {i : ℕ} {l : SendLoop}, sendRun buf res i = some l →
      l.InOrder ∧ (l.offset.toNat : ℤ) = ∑ j ∈ Finset.range i, res j ∧
        ∀ k < i, ∑ j ∈ Finset.range k, res j < buf.length := by
  intro i
  induction i with
  | zero =>
    intro l h
    rw [← Option.some_inj.mp h]
    exact ⟨inOrder_start buf, rfl, fun k hk => absurd hk (Nat.not_lt_zero k)⟩
  | succ i ih =>
    intro l' h
    obtain ⟨l, hcall, rfl⟩ := sendRun_succ.mp h
    obtain ⟨hord, hsum, hbefore⟩ := ih hcall.1
    have hbuf := sendRun_buf hcall.1
    have hne := (unfinished_iff (by rw [hbuf]; omega)).mp hcall.2
    have hle := hord.le
    rw [hbuf] at hne hle
    -- the loop is at its `i`-th call, so all the sums up to here are too small
    have hsums : ∀ k ≤ i, ∑ j ∈ Finset.range k, res j < buf.length := by
      intro k hk
      rcases Nat.lt_or_eq_of_le hk with hlt | rfl
      · exact hbefore k hlt
      · omega
    obtain hneg | ⟨hpos, hasked⟩ := hlegit i l hcall
    · exact absurd hneg (hfail i hsums)
    have hshort := asked_toNat_short (l := l) (by rw [hbuf]; exact hlen) (by rw [hbuf]; exact hle)
    have hwin : l.InWindow := ⟨by rw [hbuf]; exact hle, by rw [hshort, hbuf]; omega⟩
    obtain ⟨hord', ho'⟩ := inOrder_advance hord (by rw [hbuf]; omega) hpos hasked hwin
    refine ⟨hord', ?_, fun k hk => hsums k (by omega)⟩
    rw [ho', Finset.sum_range_succ, ← hsum]
    omega

/-- In a run that delivers, each call is answered by a positive count. -/
theorem Delivers.step (hd : Delivers buf res) (hlegit : Legit buf res)
    (hlen : buf.length < 2 ^ 63) {i : ℕ} {l : SendLoop} (hcall : Calls buf res i l) :
    1 ≤ res i ∧ res i ≤ l.asked.toNat ∧ ∃ l', sendRun buf res (i + 1) = some l' ∧
      l'.offset.toNat = l.offset.toNat + (res i).toNat := by
  have hbuf := sendRun_buf hcall.1
  have hwin := hd.window i l hcall
  have hin := hwin.2
  have hnext : sendRun buf res (i + 1) = some (l.advance (res i)) :=
    sendRun_succ.mpr ⟨l, hcall, rfl⟩
  obtain hneg | ⟨hpos, hasked⟩ := hlegit i l hcall
  · -- a failed call is followed by another one
    refine absurd ⟨hnext, ?_⟩ (hd.stops i l hcall hneg _)
    rw [hneg]
    exact unfinished_advance_failed (by rw [hbuf]; exact hlen) hwin.1
  · rw [hbuf] at hin
    exact ⟨hpos, hasked, _, hnext, offset_advance (by omega) (by omega)⟩

theorem Delivers.noEarlyFailure (hd : Delivers buf res) (hlegit : Legit buf res)
    (hlen : buf.length < 2 ^ 63) : NoEarlyFailure buf res := by
  -- as long as the sums are too small the loop is at a call, at the offset that is the sum
  have hcalls : ∀ i, (∀ k ≤ i, ∑ j ∈ Finset.range k, res j < buf.length) →
      ∃ l, Calls buf res i l ∧ (l.offset.toNat : ℤ) = ∑ j ∈ Finset.range i, res j := by
    intro i
    induction i with
    | zero =>
      intro hsums
      have h0 : (0 : ℤ) < buf.length := hsums 0 le_rfl
      refine ⟨start buf, ⟨rfl, (unfinished_iff hlen).mpr ?_⟩, rfl⟩
      show 0 ≠ buf.length
      omega
    | succ i ih =>
      intro hsums
      obtain ⟨l, hcall, hsum⟩ := ih fun k hk => hsums k (by omega)
      obtain ⟨hpos, -, l', hl', ho'⟩ := hd.step hlegit hlen hcall
      have hsum' : (l'.offset.toNat : ℤ) = ∑ j ∈ Finset.range (i + 1), res j := by
        rw [ho', Finset.sum_range_succ, ← hsum]
        omega
      have hlt := hsums (i + 1) le_rfl
      have hbuf := sendRun_buf hl'
      refine ⟨l', ⟨hl', (unfinished_iff (by rw [hbuf]; exact hlen)).mpr ?_⟩, hsum'⟩
      rw [hbuf]
      omega
  intro i hsums hneg
  obtain ⟨l, hcall, -⟩ := hcalls i hsums
  have := (hd.step hlegit hlen hcall).1
  omega

/-- A response of 2^31 bytes or more is not delivered: its first window is not
inside the buffer, or the loop comes to a rest that is a multiple of 2^32 and
asks for nothing. -/
theorem Delivers.short (hd : Delivers buf res) (hlegit : Legit buf res)
    (hlen : buf.length < 2 ^ 63) : buf.length < 2 ^ 31 := by
  by_contra hlong
  have hasked : ∀ i l, Calls buf res i l →
      l.asked.toNat = (buf.length - l.offset.toNat) % 2 ^ 32 ∧
        (buf.length - l.offset.toNat) % 2 ^ 32 < 2 ^ 31 := by
    intro i l hcall
    obtain ⟨ho, hin⟩ := hd.window i l hcall
    have hbuf := sendRun_buf hcall.1
    have h := asked_toNat (by rw [hbuf]; exact hlen) ho
    rw [hbuf] at h hin ho
    split at h
    · exact ⟨h, ‹_›⟩
    · omega
  have hfirst : Calls buf res 0 (start buf) := by
    refine ⟨rfl, (unfinished_iff hlen).mpr ?_⟩
    show 0 ≠ buf.length
    omega
  -- at least 2^32 bytes are left after each call, and yet the offset climbs
  have hclimb : ∀ i, ∃ l, Calls buf res i l ∧ i ≤ l.offset.toNat ∧
      l.offset.toNat + 2 ^ 32 ≤ buf.length := by
    intro i
    induction i with
    | zero =>
      obtain ⟨-, hmod⟩ := hasked 0 _ hfirst
      have h0 : (start buf).offset.toNat = 0 := rfl
      exact ⟨start buf, hfirst, by omega, by omega⟩
    | succ i ih =>
      obtain ⟨l, hcall, hi, hroom⟩ := ih
      obtain ⟨heq, hmod⟩ := hasked i l hcall
      obtain ⟨hpos, hle, l', hl', ho'⟩ := hd.step hlegit hlen hcall
      have hbuf := sendRun_buf hl'
      refine ⟨l', ⟨hl', (unfinished_iff (by rw [hbuf]; exact hlen)).mpr ?_⟩, ?_, ?_⟩
      · rw [hbuf]
        omega
      · omega
      · omega
  obtain ⟨l, -, hi, hroom⟩ := hclimb buf.length
  omega

/-- **Exactly the short responses without an early failure are delivered.** -/
theorem delivers_iff (hlen : buf.length < 2 ^ 63) (hlegit : Legit buf res) :
    Delivers buf res ↔ buf.length < 2 ^ 31 ∧ NoEarlyFailure buf res := by
  constructor
  · intro hd
    exact ⟨hd.short hlegit hlen, hd.noEarlyFailure hlegit hlen⟩
  · rintro ⟨hshort, hfail⟩
    have hrun := fun i l => sendRun_inOrder (i := i) (l := l) hlegit hshort hfail
    refine ⟨fun i l hl => ?_, fun i l hcall => ?_, fun i l hcall hneg => ?_⟩
    · rw [← sendRun_buf hl]
      exact (hrun i l hl).1.accepted
    · have hbuf := sendRun_buf hcall.1
      have hle := (hrun i l hcall.1).1.le
      refine ⟨hle, ?_⟩
      rw [asked_toNat_short (by rw [hbuf]; exact hshort) hle]
      omega
    · obtain ⟨hord, hsum, hbefore⟩ := hrun i l hcall.1
      have hbuf := sendRun_buf hcall.1
      have hne := (unfinished_iff (by rw [hbuf]; exact hlen)).mp hcall.2
      have hle := hord.le
      rw [hbuf] at hne hle
      refine absurd hneg (hfail i fun k hk => ?_)
      rcases Nat.lt_or_eq_of_le hk with hlt | rfl
      · exact hbefore k hlt
      · omega

/-- Four bytes taken two at a time. -/
theorem delivers_in_halves : Delivers [72, 84, 84, 80] fun _ => 2 := by
  have hend : sendRun [72, 84, 84, 80] (fun _ => 2) 2 = some ⟨[72, 84, 84, 80], 4, [72, 84, 84, 80]⟩ :=
    by decide
  have hlegit : Legit [72, 84, 84, 80] fun _ => 2 := by
    intro i l hcall
    have hi := Calls.lt_of_finished hend (by decide) hcall
    -- the two calls ask for four bytes and for two
    interval_cases i
    · rw [← Option.some_inj.mp hcall.1]
      exact Or.inr (by decide)
    · rw [← Option.some_inj.mp hcall.1]
      exact Or.inr (by decide)
  exact (delivers_iff (by decide) hlegit).mpr ⟨by decide, fun _ _ => (by decide : (2 : ℤ) ≠ -1)⟩

/-- **A failed send is not noticed**: with a response of one byte the counter
goes to the greatest `size_t`, the next call is given a window that starts
there, and its answer 2 makes the loop end as if the byte had been sent. -/
theorem failed_send_goes_on :
    Legit [65] (fun i => if i = 0 then -1 else 2) ∧
      ¬ Delivers [65] (fun i => if i = 0 then -1 else 2) := by
  have hend : sendRun [65] (fun i => if i = 0 then -1 else 2) 2 = some ⟨[65], 1, []⟩ := by decide
  refine ⟨fun i l hcall => ?_, fun hd => ?_⟩
  · have hi := Calls.lt_of_finished hend (by decide) hcall
    interval_cases i
    · exact Or.inl rfl
    · rw [← Option.some_inj.mp hcall.1]
      exact Or.inr (by decide)
  · have hcall : Calls [65] (fun i => if i = 0 then -1 else 2) 1 ⟨[65], -1, []⟩ :=
      ⟨by decide, by decide⟩
    exact absurd (hd.window 1 _ hcall).1 (by decide)

end SendLoop

end Server
