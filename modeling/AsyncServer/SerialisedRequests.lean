/-
Requests of `HttpRequest::toString`, and the parser that `HttpRequestParser` really has.

* `plainWire_toString` — what `toString` writes of a request without query and fragment is
  a request that the parser takes as it stands, if it fits into the parser's limits;
* `requestParser_roundTrip` — such a request comes back.
-/
import AsyncServer.WholeBlocks

namespace Server

open CString RequestMessage ParserLib

namespace HttpRequest

variable {req : HttpRequest} {major minor : ℕ}

/-- The request is within the limits of the parser: a path of ASCII, no header name that it
would take for the beginning of another, a length that can be read, and a head that is not
too long. -/
structure Fits (req : HttpRequest) (major minor : ℕ) : Prop where
  path : ∀ c ∈ req.mPath, c < 127
  names : ∀ h ∈ req.mHeaders.entries, NoEncoding h.1
  body : req.mBody.length ≤ 10 * lengthBound
  head : (requestWire (methodStrings req.mMethod) req.mPath major minor
    (emittedLines req.mHeaders req.mKeepAlive req.mBody) []).length ≤ maxHeaderSize

theorem methodStrings_eq {m : HttpMethod} (hknown : m ∈ httpMethodMap.map Prod.fst)
    (hne : m ≠ .msearch) : httpMethodToString m = methodStrings m := by
  cases m with
  | msearch => exact absurd rfl hne
  | invalidMethod => exact absurd hknown (by decide)
  | _ => rfl

/-- The emitted lines announce the body. -/
theorem plainLines_emittedLines (h : req.Encodable major minor) (hfits : req.Fits major minor) :
    PlainLines (emittedLines req.mHeaders req.mKeepAlive req.mBody) req.mBody.length := by
  have hlines := plain_emittedLines h.plain req.mKeepAlive req.mBody
  have hconn : ∀ k, isLengthLine (connectionHeader k) = false := by decide
  have hentry : ∀ l ∈ req.mHeaders.entries, isLengthLine l = false := fun l hl => by
    simpa [isLengthLine] using h.plain.notLength l hl
  constructor
  · exact fun l hl => ⟨(hlines l hl).1, (hlines l hl).2.fieldText⟩
  · intro l hl
    rcases mem_emittedLines.mp hl with rfl | hl | ⟨-, rfl⟩
    · exact (by decide : NoEncoding (bytes "connection"))
    · exact hfits.names l hl
    · exact (by decide : NoEncoding (bytes "content-length"))
  · intro l hl
    rcases mem_emittedLines.mp hl with rfl | hl | ⟨-, rfl⟩
    · exact (by decide : strcasecmp (bytes "connection") (bytes "upgrade") ≠ .eq)
    · exact h.notUpgrade l hl
    · exact (by decide : strcasecmp (bytes "content-length") (bytes "upgrade") ≠ .eq)
  · intro l hl hlen
    rcases mem_emittedLines.mp hl with rfl | hl | ⟨-, rfl⟩
    · rw [hconn] at hlen
      exact absurd hlen (by simp)
    · rw [hentry l hl] at hlen
      exact absurd hlen (by simp)
    · rw [lineHeader_of_clean (isClean_digits _)]
      rfl
  · -- the length comes last, and once
    have hfirst : ∀ l ∈ connectionHeader req.mKeepAlive :: req.mHeaders.entries,
        isLengthLine l = false := List.forall_mem_cons.mpr ⟨hconn _, hentry⟩
    rw [emittedLines]
    refine List.pairwise_append.mpr ⟨?_, ?_, ?_⟩
    · exact List.pairwise_of_forall_mem_list fun l hl l' _ hboth => by
        rw [hfirst l hl] at hboth
        exact absurd hboth.1 (by simp)
    · split_ifs <;> simp
    · intro l hl l' _ hboth
      rw [hfirst l hl] at hboth
      exact absurd hboth.1 (by simp)

/-- **What `toString` writes is a plain request.** -/
theorem plainWire_toString (h : req.Encodable major minor) (hw : req.Writable)
    (hfits : req.Fits major minor) :
    ∃ keeps, PlainWire keeps (req.message major minor) req.toString := by
  obtain ⟨hquery, hfrag, hmethod⟩ := hw
  have hlines := plain_emittedLines h.plain req.mKeepAlive req.mBody
  have hmap : (emittedLines req.mHeaders req.mKeepAlive req.mBody).map lineHeader =
      emittedLines req.mHeaders req.mKeepAlive req.mBody :=
    (List.map_congr_left fun l hl => lineHeader_of_clean (hlines l hl).2).trans (List.map_id _)
  refine ⟨_, emittedLines req.mHeaders req.mKeepAlive req.mBody, req.mBody, ?_, ?_, ?_, rfl⟩
  · refine ⟨h.method, isUrl_path h.path.1 fun c hc => ?_, ⟨h.major.2, h.minor⟩,
      plainLines_emittedLines h hfits, fun hbody => ?_, hfits.body, hfits.head⟩
    · exact ⟨⟨((h.path.2 c hc).1).1, hfits.path c hc⟩, (h.path.2 c hc).2⟩
    · refine List.any_eq_true.mpr ⟨lengthHeader req.mBody, mem_emittedLines.mpr
        (.inr (.inr ⟨hbody, rfl⟩)), ?_⟩
      exact (by decide : decide (strcasecmp (bytes "content-length")
        (bytes "content-length") = .eq) = true)
  · rw [requestMessage, hmap]
    rfl
  · rw [toString_eq h, if_pos hquery, if_pos hfrag, methodStrings_eq h.method.1 hmethod,
      requestWire, show bytes " " = [32] from rfl]
    simp [message]

/-- **A request makes the round trip** through the vendored parser. -/
theorem requestParser_roundTrip (h : req.Encodable major minor) (hw : req.Writable)
    (hfits : req.Fits major minor) : RoundTrip requestParser req := by
  obtain ⟨keeps, hwire⟩ := plainWire_toString h hw hfits
  obtain ⟨s, hexec⟩ := execute_request hwire
  have hrequest := isRequest_toString h hw
  refine roundTrip_of_writable h hw ⟨fun m hm => ⟨s, ?_⟩, fun hno => absurd hrequest (hno _)⟩
  rw [hm.unique hrequest]
  exact hexec

/-- The request for `/index` comes back. -/
theorem indexPage_vendored : RoundTrip requestParser indexPage := by
  have hentries : indexPage.mHeaders.entries = [(bytes "Host", bytes "a")] := by decide
  refine requestParser_roundTrip indexPage_encodable ⟨rfl, rfl, by decide⟩
    ⟨by decide, fun h hh => ?_, by decide, by decide⟩
  rw [hentries, List.mem_singleton] at hh
  subst hh
  decide

end HttpRequest

end Server
