/-
Which bytes the parser is given.

`handleClient` has `recv` fill a buffer of 1024 zero bytes and gives the parser
`strlen(buf)` bytes of it, whatever number `recv` has returned.

* `cstr_recvMemory_iff` — that is the block itself exactly when the block holds
  no NUL byte, and does not fill the buffer or is followed by a NUL behind it;
* `given_eq_taken_iff` — so in every run the parser is given the blocks received
  exactly when they are all of that kind.
-/
import AsyncServer.Pipelining

namespace Server

open CString Transition

namespace HttpServer

variable {σ : Type*} (srv : HttpServer σ)

/-- What `execute(buf, strlen(buf))` is given of the memory from `buf` on. -/
def parserInput (memory : Bytes) : Bytes := cstr memory

/-- The parser is given `parserInput`, and must consume all of it. -/
theorem onRecv_parserInput (h : HttpHandler σ) (reqParser : HttpRequestParser σ) {n : ℤ}
    (hn : 0 < n) (memory : Bytes) :
    srv.onRecv h reqParser n memory =
      let (reqParser', t) := reqParser.execute srv.lib (parserInput memory)
      if t ≠ (parserInput memory).length then { h with pc := .close }
      else if reqParser'.isFinish then srv.respond h reqParser'.mData
      else { h with pc := .recv reqParser' } := by
  rw [onRecv, if_neg (not_le.mpr hn)]
  rfl

/-- The block that `recv` puts into the buffer is what the parser is given. -/
def ReadWhole (data beyond : Bytes) : Prop :=
  (0 : UInt8) ∉ data ∧ (data.length < 1024 ∨ cstr beyond = [])

variable {data : Bytes}

/-- **When the parser is given the block that was received.** -/
theorem cstr_recvMemory_iff (beyond : Bytes) :
    parserInput (recvMemory data beyond) = data ↔ ReadWhole data beyond := by
  constructor
  · intro h
    -- what `strlen` stops at is not part of the string
    have h0 : (0 : UInt8) ∉ data := h ▸ zero_notMem_cstr _
    refine ⟨h0, ?_⟩
    rw [parserInput, cstr_recvMemory_of_notMem h0, List.append_right_eq_self] at h
    by_cases hlt : data.length < 1024
    · exact .inl hlt
    · rw [if_neg hlt] at h
      exact .inr h
  · rintro ⟨h0, hbeyond⟩
    rw [parserInput, cstr_recvMemory_of_notMem h0, List.append_right_eq_self]
    split_ifs with hlt
    · rfl
    · exact hbeyond.resolve_left hlt

end HttpServer

/-! ### Runs of a connection -/

/-- A connection with two histories: the blocks that `recv` has returned, each
with the memory behind the buffer at that moment, and the bytes that `execute`
has been given. -/
structure Intake (σ : Type*) where
  conn : Connection σ
  taken : List (Bytes × Bytes)
  given : List Bytes

namespace Intake

variable {σ : Type*} {srv : HttpServer σ}

open HttpServer Connection

/-- The handler gets an answer to its call; a `recv` that returns 0 gives the
parser nothing, and none returns more than the buffer holds. -/
def step (srv : HttpServer σ) (s : Intake σ) : Act → Option (Intake σ)
  | .recv beyond =>
    match s.conn.input with
    | [] => none
    | data :: _ =>
      if 1024 < data.length then none
      -- the call goes to the handler, and the books are kept beside it
      else (Connection.step srv s.conn (.recv beyond)).map fun c =>
        if data = [] then { s with conn := c }
        else
          { conn := c
            taken := s.taken ++ [(data, beyond)]
            given := s.given ++ [parserInput (recvMemory data beyond)] }
  | .send n => (Connection.step srv s.conn (.send n)).map fun c => { s with conn := c }
  | .close => (Connection.step srv s.conn .close).map fun c => { s with conn := c }

/-- `handleClient` on a connection on which `input` arrives. -/
def start (srv : HttpServer σ) (fd : ℤ) (input : List Bytes) : Intake σ :=
  ⟨Connection.start srv fd input, [], []⟩

theorem given_step {s s' : Intake σ} {a : Act}
    (hs : s.given = s.taken.map fun x => parserInput (recvMemory x.1 x.2))
    (h : step srv s a = some s') :
    s'.given = s'.taken.map fun x => parserInput (recvMemory x.1 x.2) := by
  cases a with
  | recv beyond =>
    cases hin : s.conn.input with
    | nil =>
      simp only [step, hin] at h
      exact absurd h (by simp)
    | cons data rest =>
      simp only [step, hin] at h
      split at h
      · exact absurd h (by simp)
      obtain ⟨c, _, rfl⟩ := Option.map_eq_some_iff.mp h
      split
      · exact hs
      · show s.given ++ _ = (s.taken ++ _).map _
        rw [hs, List.map_append]
        rfl
  | send n =>
    obtain ⟨c, _, rfl⟩ := Option.map_eq_some_iff.mp h
    exact hs
  | close =>
    obtain ⟨c, _, rfl⟩ := Option.map_eq_some_iff.mp h
    exact hs

/-- **When the bytes parsed are the bytes received**: in every run, over any
number of requests, exactly when all the blocks received are without NUL bytes,
and those of 1024 bytes are followed by a NUL byte behind the buffer. -/
theorem given_eq_taken_iff {fd : ℤ} {input : List Bytes} {as : List Act}
    {s : Intake σ} (h : run (step srv) as (start srv fd input) = some s) :
    s.given = s.taken.map Prod.fst ↔ ∀ x ∈ s.taken, ReadWhole x.1 x.2 := by
  have hgiven := Reachable.run_invariant
    (I := fun s : Intake σ => s.given = s.taken.map fun x => parserInput (recvMemory x.1 x.2))
    (fun s a s' _ hs hstep => given_step hs hstep) rfl h
  rw [hgiven, List.map_inj_left]
  exact forall₂_congr fun x _ => cstr_recvMemory_iff x.2

/-- A request in one block. -/
theorem getRoot_given : ∃ s, run (step getRootServer) [.recv []]
      (start getRootServer 5 [getRootWire]) = some s ∧
    s.given = s.taken.map Prod.fst := by
  obtain ⟨s, hs, htaken⟩ : ∃ s, run (step getRootServer) [.recv []]
      (start getRootServer 5 [getRootWire]) = some s ∧
      s.taken = [(getRootWire, [])] := ⟨_, rfl, rfl⟩
  refine ⟨s, hs, (given_eq_taken_iff hs).mpr fun x hx => ?_⟩
  rw [htaken, List.mem_singleton] at hx
  subst hx
  exact ⟨by decide, .inl (by decide)⟩

/-- The head of a request with a body of five bytes. -/
def postHead : Bytes := bytes "POST / HTTP/1.1\r\nContent-Length: 5\r\n\r\n"

/-- A server whose parser knows this head, in a block of its own, and reports the
body bytes after it as they come. -/
def postServer : HttpServer ℕ where
  lib :=
    { init := 0
      execute k b :=
        (k + 1,
          if k = 0 then
            [.url (bytes "/"), .headerField (bytes "Content-Length"), .headerValue (bytes "5"),
              .headersComplete .post 1 1]
          else [.body b],
          b.length) }
  handle req res := (req, res)

/-- **A body block with a NUL byte is cut**: of `A\0B` the parser is given `A`, and
as it has consumed all it was given, the handler goes on. -/
theorem body_cut_at_nul : ∃ s, run (step postServer) [.recv [], .recv []]
      (start postServer 5 [postHead, [65, 0, 66]]) = some s ∧
    s.taken.map Prod.fst = [postHead, [65, 0, 66]] ∧ s.given = [postHead, [65]] :=
  ⟨_, rfl, rfl, by decide⟩

end Intake

end Server
