/-
Who closes which descriptor.

A handler that closes its descriptor once and then returns never acts on another
connection, however accepts and closes interleave: as long as it runs, its
number is its own (`Orderly`).  `TcpServer::handleClient` closes twice when
`recv` returns 0, and between the two calls `accept` may give the number away.

* `resume_spec` — what an answer does to a handler, of either kind;
* `ownDescriptor` — without an end of input at a `TcpServer` handler every handler
  closes its own descriptor, once;
* `stranger_closed` — with one it may close the descriptor of another
  connection.
-/
import AsyncServer.TcpServer
import AsyncServer.Pipelining

namespace Server

open Transition

variable {σ : Type*} {srv : HttpServer σ}

/-! ### One handler -/

namespace HttpServer

variable {h : HttpHandler σ}

@[simp] theorem sock_sendTest (req : HttpRequest) (loop : SendLoop) :
    (srv.sendTest h req loop).sock = h.sock := by
  unfold sendTest
  split_ifs <;> rfl

theorem op_sendTest_ne_none (req : HttpRequest) (loop : SendLoop) :
    (srv.sendTest h req loop).op ≠ none := by
  unfold sendTest
  split_ifs <;> exact Option.some_ne_none _

/-- `handleClient` keeps its socket and goes on to another call. -/
theorem onRecv_spec (reqParser : HttpRequestParser σ) (n : ℤ) (memory : Bytes) :
    (srv.onRecv h reqParser n memory).sock = h.sock ∧
      (srv.onRecv h reqParser n memory).op ≠ none := by
  unfold onRecv
  split_ifs with hn
  · exact ⟨rfl, Option.some_ne_none _⟩
  · simp only
    split_ifs
    · exact ⟨rfl, Option.some_ne_none _⟩
    · exact ⟨sock_sendTest _ _, op_sendTest_ne_none _ _⟩
    · exact ⟨rfl, Option.some_ne_none _⟩

end HttpServer

namespace Handler

/-- The handler is not on the way through the two calls of `close`. -/
def Straight : Handler σ → Prop
  | .tcp h => h.pc ≠ .close ∧ h.pc ≠ .closeAgain
  | .http _ => True

/-- The answer is no end of input for a `TcpServer` handler. -/
def NoEof : Handler σ → Answer → Prop
  | .tcp _, .recv n _ => n ≠ 0
  | _, _ => True

/-- What is to be shown of an answer that takes `h` to `h'`: the descriptor is the
same, and after `close`, and only then, the handler returns. -/
structure Resumed (h h' : Handler σ) : Prop where
  straight : h'.Straight
  fd : h'.fd = h.fd
  running : h.op ≠ none
  returns : h'.op = none ↔ h.op = some .close

theorem tcp_resumed {h h' : TcpHandler} {a : Answer} (hs : (Handler.tcp h : Handler σ).Straight)
    (hok : (Handler.tcp h : Handler σ).NoEof a) (hr : h.resume a = some h') :
    Resumed (.tcp h : Handler σ) (.tcp h') := by
  obtain ⟨sock, pc⟩ := h
  obtain ⟨hclose, hagain⟩ := hs
  cases a with
  | recv n memory =>
    simp only [TcpHandler.resume] at hr
    split_ifs at hr with hop
    rw [Option.some_inj] at hr
    subst hr
    have hpc : pc = .recv := by cases pc <;> simp_all [TcpHandler.op]
    subst hpc
    have hn : n ≠ 0 := hok
    -- both branches left lead to another call
    rw [TcpHandler.onRecv, if_neg hn]
    split_ifs with hneg
    · exact ⟨⟨TcpPc.noConfusion, TcpPc.noConfusion⟩, rfl, Option.some_ne_none _,
        iff_of_false (Option.some_ne_none _) (by simp [op, TcpHandler.op])⟩
    · exact ⟨⟨TcpPc.noConfusion, TcpPc.noConfusion⟩, rfl, Option.some_ne_none _,
        iff_of_false (Option.some_ne_none _) (by simp [op, TcpHandler.op])⟩
  | send n =>
    simp only [TcpHandler.resume] at hr
    split_ifs at hr with hop
    rw [Option.some_inj] at hr
    subst hr
    have hpc : pc = .send := by cases pc <;> simp_all [TcpHandler.op]
    subst hpc
    exact ⟨⟨TcpPc.noConfusion, TcpPc.noConfusion⟩, rfl, Option.some_ne_none _,
      iff_of_false (Option.some_ne_none _) (by simp [op, TcpHandler.op])⟩
  | close n =>
    simp only [TcpHandler.resume] at hr
    split_ifs at hr with hop
    rw [Option.some_inj] at hr
    subst hr
    have hpc : pc = .closeOnError := by cases pc <;> simp_all [TcpHandler.op]
    subst hpc
    exact ⟨⟨TcpPc.noConfusion, TcpPc.noConfusion⟩, rfl, Option.some_ne_none _,
      iff_of_true rfl rfl⟩

theorem http_resumed {h h' : HttpHandler σ} {a : Answer} (hr : h.resume srv a = some h') :
    Resumed (.http h) (.http h') := by
  cases a with
  | recv n memory =>
    simp only [HttpHandler.resume] at hr
    split at hr
    · rename_i p hp
      rw [Option.some_inj] at hr
      subst hr
      -- whatever it makes of the block, it comes to another call
      have hspec : (srv.onRecv h p n memory).sock = h.sock ∧
          (srv.onRecv h p n memory).op ≠ none := HttpServer.onRecv_spec p n memory
      obtain ⟨hsock, hop⟩ := hspec
      exact ⟨trivial, congrArg Socket.mSockfd hsock, by simp [op, HttpHandler.op, hp],
        iff_of_false hop (by simp [op, HttpHandler.op, hp])⟩
    · exact absurd hr (by simp)
  | send n =>
    simp only [HttpHandler.resume] at hr
    split at hr
    · rename_i req loop hp
      rw [Option.some_inj] at hr
      subst hr
      exact ⟨trivial, congrArg Socket.mSockfd (HttpServer.sock_sendTest _ _),
        by simp [op, HttpHandler.op, hp],
        iff_of_false (HttpServer.op_sendTest_ne_none _ _) (by simp [op, HttpHandler.op, hp])⟩
    · exact absurd hr (by simp)
  | close n =>
    simp only [HttpHandler.resume] at hr
    split at hr
    · rename_i hp
      rw [Option.some_inj] at hr
      subst hr
      exact ⟨trivial, rfl, by simp [op, HttpHandler.op, hp],
        iff_of_true rfl (by simp [op, HttpHandler.op, hp])⟩
    · exact absurd hr (by simp)

/-- **What an answer does to a handler.** -/
theorem resume_spec {h h' : Handler σ} {a : Answer} (hs : h.Straight) (hok : h.NoEof a)
    (hr : h.resume srv a = some h') : Resumed h h' := by
  cases h with
  | tcp h =>
    obtain ⟨t, ht, rfl⟩ := Option.map_eq_some_iff.mp hr
    exact tcp_resumed hs hok ht
  | http h =>
    obtain ⟨t, ht, rfl⟩ := Option.map_eq_some_iff.mp hr
    exact http_resumed ht

end Handler

/-! ### All handlers -/

namespace Host

variable {lis : ServerKind → ℤ} {s s' : Host σ}

/-- **Each handler closes its own descriptor, once**: it has returned exactly when
it has made its one call of `close`, and as long as it makes calls, the
descriptor is its own. -/
structure OwnDescriptor (s : Host σ) : Prop where
  once : ∀ (i : ℕ) (c : Client σ), s.clients[i]? = some c →
    c.closes ≤ 1 ∧ (c.handler.op = none ↔ c.closes = 1)
  owned : ∀ (i : ℕ) (c : Client σ), s.clients[i]? = some c → c.handler.op ≠ none →
    s.owner c.handler.fd = some (.client i)

/-- No `recv` of a `TcpServer` handler returns 0. -/
def NoEofAtTcp (s : Host σ) (a : Act) : Prop :=
  ∀ (i : ℕ) (b : Answer) (c : Client σ), a = .answer i b → s.clients[i]? = some c → c.handler.NoEof b

/-- What is kept: the listening sockets and the running handlers have their
descriptors, and no handler has closed without returning. -/
structure Orderly (lis : ServerKind → ℤ) (s : Host σ) : Prop where
  lisSock : ∀ k, (s.acceptor k).mLisSock = lis k
  listening : ∀ k, (s.acceptor k).pc ≠ .returned → s.owner (lis k) = some (.listener k)
  straight : ∀ (i : ℕ) (c : Client σ), s.clients[i]? = some c → c.handler.Straight
  closes : ∀ (i : ℕ) (c : Client σ), s.clients[i]? = some c → c.closes = if c.handler.op = none then 1 else 0
  owned : ∀ (i : ℕ) (c : Client σ), s.clients[i]? = some c → c.handler.op ≠ none →
    s.owner c.handler.fd = some (.client i)

theorem Orderly.descriptors (hs : Orderly lis s) : OwnDescriptor s where
  once i c hc := by
    rw [hs.closes i c hc]
    split_ifs with hop
    · exact ⟨le_rfl, iff_of_true hop rfl⟩
    · exact ⟨Nat.zero_le _, iff_of_false hop (by decide)⟩
  owned := hs.owned

theorem orderly_start (hlis : lis .tcp ≠ lis .http) : Orderly lis (start lis : Host σ) where
  lisSock _ := rfl
  listening k _ := by
    cases k with
    | tcp => exact if_pos rfl
    | http => exact (if_neg hlis.symm).trans (if_pos rfl)
  straight _ _ hc := absurd hc (by simp [start])
  closes _ _ hc := absurd hc (by simp [start])
  owned _ _ hc := absurd hc (by simp [start])

/-- A change of an accept loop that leaves it its socket, and running only if it
ran. -/
theorem Orderly.setAcceptor (hs : Orderly lis s) {k : ServerKind} {a : Acceptor}
    (hsock : a.mLisSock = lis k) (hpc : a.pc ≠ .returned → (s.acceptor k).pc ≠ .returned) :
    Orderly lis { s with acceptor := Function.update s.acceptor k a } where
  lisSock j := by
    rcases eq_or_ne j k with rfl | hj
    · exact (congrArg Acceptor.mLisSock (Function.update_self ..)).trans hsock
    · exact (congrArg Acceptor.mLisSock (Function.update_of_ne hj ..)).trans (hs.lisSock j)
  listening j hj := by
    rcases eq_or_ne j k with rfl | hne
    · exact hs.listening j (hpc (by simpa using hj))
    · exact hs.listening j (by simpa [Function.update_of_ne hne] using hj)
  straight := hs.straight
  closes := hs.closes
  owned := hs.owned

theorem op_create_ne_none (fd : ℤ) (k : ServerKind) :
    (Handler.create srv fd k).op ≠ none := by
  cases k <;> exact Option.some_ne_none _

/-- `accept` gives the new handler a number that is nobody's. -/
theorem Orderly.accepted (srv : HttpServer σ) (hs : Orderly lis s) {k : ServerKind} {fd : ℤ}
    (hfree : s.owner fd = none) :
    Orderly lis
      { s with
        owner := Function.update s.owner fd (some (.client s.clients.length))
        clients := s.clients ++ [⟨Handler.create srv fd k, 0⟩] } := by
  -- an entry of the new list is an old one or the one that was added
  have hentry : ∀ (i : ℕ) (c : Client σ), (s.clients ++ [⟨Handler.create srv fd k, 0⟩])[i]? = some c →
      s.clients[i]? = some c ∨ i = s.clients.length ∧ c = ⟨Handler.create srv fd k, 0⟩ := by
    intro i c hc
    rcases Nat.lt_or_ge i s.clients.length with hlt | hge
    · rw [List.getElem?_append_left hlt] at hc
      exact Or.inl hc
    · rw [List.getElem?_append_right hge, List.getElem?_singleton] at hc
      split_ifs at hc with h0
      exact Or.inr ⟨by omega, (Option.some_inj.mp hc).symm⟩
  refine ⟨hs.lisSock, fun j hj => ?_, fun i c hc => ?_, fun i c hc => ?_, fun i c hc hop => ?_⟩
  · have hlis := hs.listening j hj
    -- the number is free, and that of a listening socket is not
    have hne : lis j ≠ fd := by
      rintro rfl
      rw [hlis] at hfree
      exact absurd hfree (by simp)
    exact (Function.update_of_ne hne ..).trans hlis
  · obtain hc | ⟨-, rfl⟩ := hentry i c hc
    · exact hs.straight i c hc
    · cases k
      · exact ⟨TcpPc.noConfusion, TcpPc.noConfusion⟩
      · exact trivial
  · obtain hc | ⟨-, rfl⟩ := hentry i c hc
    · exact hs.closes i c hc
    · exact (if_neg (op_create_ne_none fd k)).symm
  · obtain hc | ⟨rfl, rfl⟩ := hentry i c hc
    · have hown := hs.owned i c hc hop
      have hne : c.handler.fd ≠ fd := by
        intro heq
        rw [heq, hfree] at hown
        exact absurd hown (by simp)
      exact (Function.update_of_ne hne ..).trans hown
    · have hfd : (Handler.create srv fd k).fd = fd := by cases k <;> rfl
      show Function.update s.owner fd _ (Handler.create srv fd k).fd = _
      rw [hfd, Function.update_self]

/-- The listening socket frees its own number. -/
theorem Orderly.closedListener (hs : Orderly lis s) {k : ServerKind}
    (hpc : (s.acceptor k).pc = .close) :
    Orderly lis
      { s with
        owner := Function.update s.owner (s.acceptor k).mLisSock none
        acceptor := Function.update s.acceptor k { s.acceptor k with pc := .returned } } := by
  have hmine : s.owner (lis k) = some (.listener k) :=
    hs.listening k (by rw [hpc]; exact AcceptPc.noConfusion)
  rw [hs.lisSock k]
  refine ⟨fun j => ?_, fun j hj => ?_, hs.straight, hs.closes, fun i c hc hop => ?_⟩
  · rcases eq_or_ne j k with rfl | hne
    · show (Function.update s.acceptor j _ j).mLisSock = lis j
      rw [Function.update_self]
      exact hs.lisSock j
    · exact (congrArg Acceptor.mLisSock (Function.update_of_ne hne ..)).trans (hs.lisSock j)
  · rcases eq_or_ne j k with rfl | hne
    · exact absurd (by simp) hj
    · have hlis := hs.listening j (by simpa [Function.update_of_ne hne] using hj)
      -- one number has one owner
      have hfd : lis j ≠ lis k := by
        intro heq
        rw [heq, hmine] at hlis
        exact hne (by simpa using hlis.symm)
      exact (Function.update_of_ne hfd ..).trans hlis
  · have hown := hs.owned i c hc hop
    have hfd : c.handler.fd ≠ lis k := by
      intro heq
      rw [heq, hmine] at hown
      exact absurd hown (by simp)
    exact (Function.update_of_ne hfd ..).trans hown

/-- A handler has got an answer: nobody else is touched. -/
theorem Orderly.answered (hs : Orderly lis s) {i : ℕ} {c : Client σ} {h : Handler σ}
    (hc : s.clients[i]? = some c) (hr : Handler.Resumed c.handler h) :
    Orderly lis (if c.handler.op = some .close then
        { s with
          owner := Function.update s.owner c.handler.fd none
          clients := s.clients.set i ⟨h, c.closes + 1⟩ }
      else { s with clients := s.clients.set i ⟨h, c.closes⟩ }) := by
  have hmine := hs.owned i c hc hr.running
  have hzero : c.closes = 0 := (hs.closes i c hc).trans (if_neg hr.running)
  have hlt : i < s.clients.length := (List.getElem?_eq_some_iff.mp hc).1
  -- only the entry of this client changes
  have hentry : ∀ (n j : ℕ) (d : Client σ), (s.clients.set i ⟨h, n⟩)[j]? = some d →
      j = i ∧ d = ⟨h, n⟩ ∨ j ≠ i ∧ s.clients[j]? = some d := by
    intro n j d hd
    rcases eq_or_ne j i with rfl | hne
    · rw [List.getElem?_set_self hlt] at hd
      exact Or.inl ⟨rfl, (Option.some_inj.mp hd).symm⟩
    · rw [List.getElem?_set_ne hne.symm] at hd
      exact Or.inr ⟨hne, hd⟩
  split_ifs with hclose
  -- its first `close`: the number is free again, and the handler returns
  · have hret := hr.returns.mpr hclose
    refine ⟨hs.lisSock, fun k hk => ?_, fun j d hd => ?_, fun j d hd => ?_, fun j d hd hop => ?_⟩
    · have hlis := hs.listening k hk
      have hfd : lis k ≠ c.handler.fd := by
        intro heq
        rw [heq, hmine] at hlis
        exact absurd hlis (by simp)
      exact (Function.update_of_ne hfd ..).trans hlis
    · obtain ⟨rfl, rfl⟩ | ⟨-, hd⟩ := hentry _ j d hd
      · exact hr.straight
      · exact hs.straight j d hd
    · obtain ⟨rfl, rfl⟩ | ⟨-, hd⟩ := hentry _ j d hd
      · rw [if_pos hret, hzero]
      · exact hs.closes j d hd
    · obtain ⟨rfl, rfl⟩ | ⟨hne, hd⟩ := hentry _ j d hd
      · exact absurd hret hop
      · have hown := hs.owned j d hd hop
        have hfd : d.handler.fd ≠ c.handler.fd := by
          intro heq
          rw [heq, hmine] at hown
          exact hne (by simpa using hown.symm)
        exact (Function.update_of_ne hfd ..).trans hown
  -- any other call: it keeps the number and goes on
  · have hrun : h.op ≠ none := fun h0 => hclose (hr.returns.mp h0)
    refine ⟨hs.lisSock, hs.listening, fun j d hd => ?_, fun j d hd => ?_, fun j d hd hop => ?_⟩
    · obtain ⟨rfl, rfl⟩ | ⟨-, hd⟩ := hentry _ j d hd
      · exact hr.straight
      · exact hs.straight j d hd
    · obtain ⟨rfl, rfl⟩ | ⟨-, hd⟩ := hentry _ j d hd
      · rw [if_neg hrun, hzero]
      · exact hs.closes j d hd
    · obtain ⟨rfl, rfl⟩ | ⟨-, hd⟩ := hentry _ j d hd
      · exact (congrArg s.owner hr.fd).trans hmine
      · exact hs.owned j d hd hop

/-- **What one action keeps.** -/
theorem orderly_step {a : Act} (hs : Orderly lis s) (hok : NoEofAtTcp s a)
    (h : step srv s a = some s') : Orderly lis s' := by
  cases a with
  | accept k fd =>
    simp only [step] at h
    split_ifs at h with hfree
    rw [Option.some_inj] at h
    subst h
    refine (Orderly.accepted srv hs (k := k) hfree.2).setAcceptor (hs.lisSock k) fun _ => ?_
    show (s.acceptor k).pc ≠ .returned
    rw [hfree.1]
    exact AcceptPc.noConfusion
  | acceptFails k =>
    simp only [step] at h
    split_ifs at h with hpc
    rw [Option.some_inj] at h
    subst h
    refine hs.setAcceptor (hs.lisSock k) fun _ => ?_
    rw [hpc]
    exact AcceptPc.noConfusion
  | stop k =>
    rw [step, Option.some_inj] at h
    subst h
    exact hs.setAcceptor (hs.lisSock k) fun hpc => hpc
  | closeListener k =>
    simp only [step] at h
    split_ifs at h with hpc
    rw [Option.some_inj] at h
    subst h
    exact hs.closedListener hpc
  | answer i a =>
    obtain ⟨c, hc, h⟩ := Option.bind_eq_some_iff.mp h
    obtain ⟨t, ht, rfl⟩ := Option.map_eq_some_iff.mp h
    have hr := Handler.resume_spec (hs.straight i c hc) (hok i a c rfl hc) ht
    exact hs.answered hc hr

/-- **Without an end of input at a `TcpServer` handler, each handler closes its own
descriptor once**, in every interleaving of accepts, answers and closes. -/
theorem ownDescriptor (hlis : lis .tcp ≠ lis .http)
    (hs : Reachable (step srv) NoEofAtTcp (start lis) s) : OwnDescriptor s :=
  (hs.invariant (I := Orderly lis) (orderly_start hlis)
    fun _ _ _ hI hok h => orderly_step hI hok h).descriptors

/-- The listening sockets of the runs below. -/
def listeners : ServerKind → ℤ
  | .tcp => 3
  | .http => 4

/-- A `TcpServer` handler whose `recv` fails closes its descriptor, and `accept`
gives the number to an `HttpServer` handler. -/
theorem ownDescriptor_reused : ∃ s, run (step Connection.getRootServer)
    [.accept .tcp 7, .answer 0 (.recv (-1) []), .answer 0 (.close 0), .accept .http 7]
    (start listeners) = some s ∧ OwnDescriptor s := by
  have hok : ∀ a ∈ [Act.accept .tcp 7, .answer 0 (.recv (-1) []), .answer 0 (.close 0),
      .accept .http 7], ∀ s : Host ℕ, NoEofAtTcp s a := by
    intro a ha s i b c heq _
    subst heq
    have hb : i = 0 ∧ b = .recv (-1) [] ∨ i = 0 ∧ b = .close 0 := by simpa using ha
    obtain ⟨-, rfl⟩ | ⟨-, rfl⟩ := hb
    · cases c.handler with
      | tcp h => exact (by decide : (-1 : ℤ) ≠ 0)
      | http h => exact trivial
    · cases c.handler <;> exact trivial
  have hlis : listeners .tcp ≠ listeners .http := by decide
  exact ⟨_, rfl, ownDescriptor hlis (show Reachable (step Connection.getRootServer) NoEofAtTcp
    (start listeners) _ from Reachable.of_run_admitted hok rfl)⟩

/-- **A handler closes the descriptor of another connection**: `recv` returns 0,
the handler closes number 7, `accept` returns 7 for the next connection, and the
handler is at its second `close`. -/
theorem stranger_closed : ∃ s, Reachable (step Connection.getRootServer) anyStep
    (start listeners) s ∧ s.owner 7 = some (.client 1) ∧
    (∃ c, s.clients[0]? = some c ∧ c.handler.op = some .close ∧ c.handler.fd = 7) ∧
    ¬ OwnDescriptor s := by
  refine ⟨_, Reachable.of_run (show run (step Connection.getRootServer)
    [.accept .tcp 7, .answer 0 (.recv 0 []), .answer 0 (.close 0), .accept .tcp 7]
    (start listeners) = some _ from rfl), rfl, ⟨_, rfl, rfl, rfl⟩, fun hown => ?_⟩
  have hclient := hown.owned 0 _ rfl (by decide)
  exact absurd hclient (by decide)

end Host

end Server
