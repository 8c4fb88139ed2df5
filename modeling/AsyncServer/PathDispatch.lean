/-
Whether a request reaches the servlet of its path.

`request_url_callback` hands the whole target to `setPath`, with the query and the
fragment; the fields for these two are never set.  `getServlet` then looks for a servlet
under what `getPath` gives.

* `getServlet_build` — a dispatcher shows what was registered last;
* `mPath_parsed` — the path of a parsed request is its target;
* `dispatchedByPath_iff` — so two targets with one path are dispatched alike only if they
  are the same, and by their path only if there is nothing behind it or no servlet is
  registered for it.
-/
import AsyncServer.Fragments
import AsyncServer.ServletDispatch
import AsyncServer.UpdateLog

namespace Server

open CString UpdateLog

/-- A question mark or a number sign. -/
def isMark (c : UInt8) : Bool := decide (c = 63 ∨ c = 35)

/-- The target without what starts at its first question mark or number sign. -/
def pathOf (target : Bytes) : Bytes := target.takeWhile fun c => !isMark c

namespace ServletDispatch

/-- A dispatcher after several calls of `addServlet`. -/
def build (regs : List (Bytes × Servlet)) : ServletDispatch :=
  regs.foldl (fun d e => d.addServlet e.1 e.2) create

/-- What has been put into `mDatas`: the servlet of the constructor, and then these. -/
def registrations (regs : List (Bytes × Servlet)) : List (Bytes × Option Servlet) :=
  (bytes "/", some defaultServlet) :: regs.map (Prod.map id some)

variable {regs : List (Bytes × Servlet)} {uri : Bytes}

theorem build_eq (regs : List (Bytes × Servlet)) :
    build regs = ⟨lookup (registrations regs), notFoundServlet⟩ := by
  induction regs using List.reverseRecOn with
  | nil => rfl
  | append_singleton regs e ih =>
    rw [build, List.foldl_append]
    change (build regs).addServlet e.1 e.2 = _
    have hlog : registrations (regs ++ [e]) = registrations regs ++ [(e.1, some e.2)] := by
      rw [registrations, registrations, List.map_append]
      rfl
    rw [ih, hlog, lookup_concat]
    rfl

/-- **A dispatcher shows what was registered last**, and otherwise `mNotFound`. -/
theorem getServlet_build :
    (build regs).getServlet uri = (lookup (registrations regs) uri).getD notFoundServlet := by
  rw [build_eq]
  rfl

/-- `slt` is the servlet last registered for `path`, or nothing is registered for it and
`slt` is `mNotFound`. -/
def IsServletOf (regs : List (Bytes × Servlet)) (path : Bytes) (slt : Servlet) : Prop :=
  (∀ slt', Latest (registrations regs) path slt' → slt = slt') ∧
    ((∀ slt', ¬ Latest (registrations regs) path slt') → slt = notFoundServlet)

theorem isServletOf_iff {slt : Servlet} :
    IsServletOf regs uri slt ↔ slt = (lookup (registrations regs) uri).getD notFoundServlet := by
  simp only [IsServletOf, ← lookup_eq_some_iff]
  cases lookup (registrations regs) uri with
  | none => simp
  | some slt' => simp

/-- A target that something is registered for has no question mark and no number sign. -/
theorem unmarked_of_lookup (hregs : ∀ e ∈ regs, ∀ c ∈ e.1, isMark c = false) {slt : Servlet}
    (h : lookup (registrations regs) uri = some slt) : ∀ c ∈ uri, isMark c = false := by
  obtain ⟨before, after, hlog, -⟩ := lookup_eq_some_iff.mp h
  have hmem : (uri, some slt) ∈ registrations regs :=
    hlog ▸ List.mem_append_right _ List.mem_cons_self
  rcases List.mem_cons.mp hmem with heq | hmem
  · rw [Prod.mk.injEq] at heq
    rw [heq.1]
    decide
  · obtain ⟨e, he, heq⟩ := List.mem_map.mp hmem
    have huri : e.1 = uri := congrArg Prod.fst heq
    exact huri ▸ hregs e he

/-- The other targets are not found. -/
theorem getServlet_of_mark (hregs : ∀ e ∈ regs, ∀ c ∈ e.1, isMark c = false)
    (h : ¬ ∀ c ∈ uri, isMark c = false) : (build regs).getServlet uri = notFoundServlet := by
  have hnone : lookup (registrations regs) uri = none :=
    Option.eq_none_iff_forall_ne_some.mpr fun slt hslt => h (unmarked_of_lookup hregs hslt)
  rw [getServlet_build, hnone]
  rfl

end ServletDispatch

/-! ### Two requests -/

open ServletDispatch

variable {σ : Type*} {regs : List (Bytes × Servlet)}

/-- The request that is parsed of a message whose URL comes in one piece. -/
def requestOf (init : σ) (m : RequestMessage Bytes) : HttpRequest :=
  HttpRequestParser.parsed init m.unfragmented.events

/-- **The path of a parsed request is its whole target.** -/
theorem mPath_parsed (init : σ) (m : RequestMessage Bytes) : (requestOf init m).mPath = m.url := by
  rw [requestOf, HttpRequestParser.parsed, HttpRequestParser.mPath_feed]
  rfl

/-- Both requests have one path, and reach the servlet of it. -/
structure DispatchedByPath (init : σ) (regs : List (Bytes × Servlet))
    (m₁ m₂ : RequestMessage Bytes) : Prop where
  path : (requestOf init m₁).mPath = (requestOf init m₂).mPath
  servlet : (build regs).getServlet (requestOf init m₁).mPath =
    (build regs).getServlet (requestOf init m₂).mPath
  last : IsServletOf regs (pathOf m₁.url) ((build regs).getServlet (requestOf init m₁).mPath)

theorem pathOf_eq_self {target : Bytes} (h : ∀ c ∈ target, isMark c = false) :
    pathOf target = target := by
  refine List.takeWhile_eq_self_iff.mpr fun c hc => ?_
  rw [h c hc]
  rfl

/-- **When dispatch depends on the path only**: the targets are the same, and nothing stands
behind the path, or no servlet is registered for it but `mNotFound` itself. -/
theorem dispatchedByPath_iff (init : σ) (hregs : ∀ e ∈ regs, ∀ c ∈ e.1, isMark c = false)
    (m₁ m₂ : RequestMessage Bytes) :
    DispatchedByPath init regs m₁ m₂ ↔
      m₁.url = m₂.url ∧
        ((∀ c ∈ m₁.url, isMark c = false) ∨
          ∀ slt, Latest (registrations regs) (pathOf m₁.url) slt → slt = notFoundServlet) := by
  have hlast : (∀ slt, Latest (registrations regs) (pathOf m₁.url) slt → slt = notFoundServlet) ↔
      IsServletOf regs (pathOf m₁.url) notFoundServlet :=
    ⟨fun h => ⟨fun slt hslt => (h slt hslt).symm, fun _ => rfl⟩,
      fun h slt hslt => (h.1 slt hslt).symm⟩
  rw [hlast]
  constructor
  · rintro ⟨hpath, -, hslt⟩
    rw [mPath_parsed, mPath_parsed] at hpath
    rw [mPath_parsed] at hslt
    refine ⟨hpath, or_iff_not_imp_left.mpr fun hmark => ?_⟩
    rwa [getServlet_of_mark hregs hmark] at hslt
  · rintro ⟨hurl, hslt⟩
    refine ⟨by rw [mPath_parsed, mPath_parsed, hurl], by rw [mPath_parsed, mPath_parsed, hurl], ?_⟩
    rw [mPath_parsed]
    by_cases hmark : ∀ c ∈ m₁.url, isMark c = false
    · rw [pathOf_eq_self hmark, isServletOf_iff, getServlet_build]
    · rw [getServlet_of_mark hregs hmark]
      exact hslt.resolve_left hmark

/-- A `GET` of a target, with nothing else in it. -/
def getOf (url : Bytes) : RequestMessage Bytes := ⟨url, [], .get, 1, 1, [], []⟩

/-- Without a query both requests reach the servlet of their path. -/
theorem dispatchedByPath_list :
    DispatchedByPath () [(bytes "/list", defaultServlet)] (getOf (bytes "/list"))
      (getOf (bytes "/list")) :=
  (dispatchedByPath_iff () (by decide) (getOf (bytes "/list")) (getOf (bytes "/list"))).mpr
    ⟨rfl, .inl (by decide)⟩

/-- Two queries of one path have two paths, and neither reaches its servlet. -/
theorem query_not_found :
    pathOf (bytes "/list?page=1") = pathOf (bytes "/list?page=2") ∧
      (∀ url ∈ [bytes "/list?page=1", bytes "/list?page=2"],
        (build [(bytes "/list", defaultServlet)]).getServlet (requestOf () (getOf url)).mPath =
          notFoundServlet) ∧
      ¬ DispatchedByPath () [(bytes "/list", defaultServlet)] (getOf (bytes "/list?page=1"))
        (getOf (bytes "/list?page=2")) := by
  refine ⟨by decide, ?_, fun h => ?_⟩
  · intro url hurl
    rw [mPath_parsed]
    refine getServlet_of_mark (by decide) ?_
    rw [getOf]
    revert url
    decide
  · have hpath := h.path
    rw [mPath_parsed, mPath_parsed] at hpath
    exact absurd hpath (by decide)

end Server
