/-
Header maps are case-insensitive maps.

`CaseInsensitiveLess` compares the C strings of two names in lower case.  The header map of
a request, and its maps of cookies and parameters alike, keep one value for all spellings
of a name.

* `eqUpToCase_iff` — letter by letter, which names are one key;
* `get_called` — after any calls, a map gives the value that was added last under a name
  and not deleted since;
* `headers_caseInsensitive` — the order of the names, what `getHeader` returns, and whether
  `toString` writes a content-length of its own.
-/
import AsyncServer.HttpMessage
import AsyncServer.UpdateLog

namespace Server

open CString UpdateLog

/-! ### Names up to the case of letters -/

/-- The byte is one of `A` to `Z`. -/
def IsUpper (c : UInt8) : Prop := 65 ≤ c.toNat ∧ c.toNat ≤ 90

instance : DecidablePred IsUpper := fun _ => inferInstanceAs (Decidable (_ ∧ _))

/-- The same byte, or the two cases of an ASCII letter. -/
def SameLetter (a b : UInt8) : Prop :=
  a = b ∨ (IsUpper a ∧ b.toNat = a.toNat + 32) ∨ (IsUpper b ∧ a.toNat = b.toNat + 32)

instance : DecidableRel SameLetter := fun _ _ => inferInstanceAs (Decidable (_ ∨ _))

/-- Byte by byte the same up to case, in what is before the first NUL. -/
def EqUpToCase (s t : Bytes) : Prop := List.Forall₂ SameLetter (cstr s) (cstr t)

instance : DecidableRel EqUpToCase := fun _ _ => inferInstanceAs (Decidable (List.Forall₂ _ _ _))

theorem sameLetter_iff {a b : UInt8} : SameLetter a b ↔ tolower a = tolower b := by
  rw [SameLetter, IsUpper, IsUpper, tolower, tolower, ← UInt8.toNat_inj]
  split_ifs <;> omega

theorem eqUpToCase_iff {s t : Bytes} : EqUpToCase s t ↔ fold s = fold t := by
  have hletters : SameLetter = fun a b => tolower a = tolower b :=
    funext₂ fun _ _ => propext sameLetter_iff
  rw [EqUpToCase, hletters, fold, fold, ← List.forall₂_eq_eq_eq, List.forall₂_map_left_iff,
    List.forall₂_map_right_iff]

/-- **Which names are one key.** -/
theorem incomparable_iff {s t : Bytes} :
    ¬ CaseInsensitiveLess s t ∧ ¬ CaseInsensitiveLess t s ↔ EqUpToCase s t := by
  rw [eqUpToCase_iff, caseInsensitiveLess_iff, caseInsensitiveLess_iff, not_lt, not_lt]
  exact ⟨fun h => le_antisymm h.2 h.1, fun h => ⟨h.ge, h.le⟩⟩

/-- The comparison is a strict weak order. -/
instance : IsStrictWeakOrder Bytes CaseInsensitiveLess where
  incomp_trans s t u hst htu := by
    rw [incomparable_iff, eqUpToCase_iff] at *
    exact hst.trans htu

example : EqUpToCase (bytes "Content-Length") (bytes "CONTENT-length") := by decide

namespace HttpRequest

/-! ### Calls on a request -/

/-- A call that changes a request. -/
inductive Call where
  | setMethod (method : HttpMethod)
  | setVersion (version : Bytes)
  | setQuery (query : Bytes)
  | setPath (path : Bytes)
  | setFrag (frag : Bytes)
  | setBody (body : Bytes)
  | setKeepAlive (keepAlive : Bool)
  | setWebSocket (webSocket : Bool)
  | setTmpHeader (tmpheader : Bytes)
  | addHeader (key value : Bytes)
  | addCookie (key value : Bytes)
  | addParam (key value : Bytes)
  | delHeader (key : Bytes)
  | delCookie (key : Bytes)
  | delParam (key : Bytes)

/-- What the call does. -/
def Call.apply (r : HttpRequest) : Call → HttpRequest
  | .setMethod method => r.setMethod method
  | .setVersion version => r.setVersion version
  | .setQuery query => r.setQuery query
  | .setPath path => r.setPath path
  | .setFrag frag => r.setFrag frag
  | .setBody body => r.setBody body
  | .setKeepAlive keepAlive => r.setKeepAlive keepAlive
  | .setWebSocket webSocket => r.setWebSocket webSocket
  | .setTmpHeader tmpheader => r.setTmpHeader tmpheader
  | .addHeader key value => r.addHeader key value
  | .addCookie key value => r.addCookie key value
  | .addParam key value => r.addParam key value
  | .delHeader key => r.delHeader key
  | .delCookie key => r.delCookie key
  | .delParam key => r.delParam key

/-- A request after the constructor and several calls. -/
def called (version : Bytes) (keepAlive : Bool) (calls : List Call) : HttpRequest :=
  calls.foldl Call.apply (construct version keepAlive)

/-- One of the three maps. -/
inductive Field where
  | headers
  | cookies
  | params

/-- The map itself. -/
def mapOf (r : HttpRequest) : Field → MSS
  | .headers => r.mHeaders
  | .cookies => r.mCookies
  | .params => r.mParams

/-- Its getter. -/
def getFrom (r : HttpRequest) : Field → Bytes → Bytes → Bytes
  | .headers => r.getHeader
  | .cookies => r.getCookie
  | .params => r.getParam

theorem getFrom_eq (r : HttpRequest) (field : Field) (key dflt : Bytes) :
    r.getFrom field key dflt = MSS.get (r.mapOf field) key dflt := by
  cases field <;> rfl

/-- What a call does to a map: it gives a name a value, or takes it away. -/
def Call.update : Field → Call → Option (Bytes × Option Bytes)
  | .headers, .addHeader key value | .cookies, .addCookie key value
  | .params, .addParam key value => some (key, some value)
  | .headers, .delHeader key | .cookies, .delCookie key | .params, .delParam key =>
    some (key, none)
  | _, _ => none

/-- `value` was added under a name that is `key` up to case, and no call behind that added
or deleted such a name. -/
def LastAdded (field : Field) (calls : List Call) (key value : Bytes) : Prop :=
  ∃ before c name after, calls = before ++ c :: after ∧
    c.update field = some (name, some value) ∧ EqUpToCase name key ∧
    ∀ d ∈ after, ∀ e, d.update field = some e → ¬ EqUpToCase e.1 key

variable {version : Bytes} {keepAlive : Bool} {calls : List Call}

theorem valueAt_apply (field : Field) (r : HttpRequest) (c : Call) :
    OrderedMap.valueAt fold ((c.apply r).mapOf field).entries =
      (c.update field).elim (OrderedMap.valueAt fold (r.mapOf field).entries) fun e =>
        Function.update (OrderedMap.valueAt fold (r.mapOf field).entries) (fold e.1) e.2 := by
  cases c with
  | addHeader key value | addCookie key value | addParam key value =>
    cases field <;> first
      | exact OrderedMap.valueAt_assign less_iff key value
      | rfl
  | delHeader key | delCookie key | delParam key =>
    cases field <;> first
      | exact OrderedMap.valueAt_erase less_iff key
      | rfl
  | _ => cases field <;> rfl

/-- The updates with their names in lower case. -/
def foldedUpdate (field : Field) (c : Call) : Option (List ℕ × Option Bytes) :=
  (c.update field).map fun e => (fold e.1, e.2)

theorem valueAt_called (field : Field) (version : Bytes) (keepAlive : Bool) (calls : List Call) :
    OrderedMap.valueAt fold ((called version keepAlive calls).mapOf field).entries =
      lookup (calls.filterMap (foldedUpdate field)) := by
  refine lookup_filterMap (fun r : HttpRequest => OrderedMap.valueAt fold (r.mapOf field).entries)
    (fun r c => ?_) ?_ calls
  · rw [valueAt_apply, foldedUpdate]
    cases c.update field <;> rfl
  · cases field <;> rfl

theorem latest_iff (field : Field) {key value : Bytes} :
    Latest (calls.filterMap (foldedUpdate field)) (fold key) value ↔
      LastAdded field calls key value := by
  rw [latest_filterMap, LastAdded]
  constructor
  · rintro ⟨before, c, after, rfl, hc, hafter⟩
    obtain ⟨⟨name, v⟩, hup, heq⟩ := Option.map_eq_some_iff.mp hc
    obtain ⟨hname, rfl⟩ := Prod.mk.inj heq
    refine ⟨before, c, name, after, rfl, hup, eqUpToCase_iff.mpr hname, fun d hd e he hsame => ?_⟩
    refine hafter d hd (fold e.1, e.2) ?_ (eqUpToCase_iff.mp hsame)
    rw [foldedUpdate, he, Option.map_some]
  · rintro ⟨before, c, name, after, rfl, hup, hname, hafter⟩
    refine ⟨before, c, after, rfl, ?_, fun d hd e he hsame => ?_⟩
    · rw [foldedUpdate, hup, Option.map_some, eqUpToCase_iff.mp hname]
    · obtain ⟨e', he', rfl⟩ := Option.map_eq_some_iff.mp he
      exact hafter d hd e' he' (eqUpToCase_iff.mpr hsame)

/-- **What a map shows after any calls.** -/
theorem find_called (field : Field) {key value : Bytes} :
    ((called version keepAlive calls).mapOf field).find key = some value ↔
      LastAdded field calls key value := by
  rw [OrderedMap.find_eq_valueAt less_iff, valueAt_called, lookup_eq_some_iff, latest_iff]

theorem find_called_eq_none (field : Field) {key : Bytes} :
    ((called version keepAlive calls).mapOf field).find key = none ↔
      ∀ value, ¬ LastAdded field calls key value := by
  rw [Option.eq_none_iff_forall_ne_some]
  exact forall_congr' fun value => not_congr (find_called field)

/-- **What its getter returns**, for headers, cookies and parameters alike. -/
theorem get_called (field : Field) (key dflt : Bytes) :
    (∀ value, LastAdded field calls key value →
        (called version keepAlive calls).getFrom field key dflt = value) ∧
      ((∀ value, ¬ LastAdded field calls key value) →
        (called version keepAlive calls).getFrom field key dflt = dflt) := by
  refine ⟨fun value h => ?_, fun h => ?_⟩
  · rw [getFrom_eq, MSS.get, (find_called field).mpr h, Option.getD_some]
  · rw [getFrom_eq, MSS.get, (find_called_eq_none field).mpr h, Option.getD_none]

/-! ### What `toString` writes -/

/-- The request line, the connection line and the stored headers. -/
def head (r : HttpRequest) : Bytes :=
  httpMethodToString r.mMethod ++ bytes " " ++ r.mPath ++ bytes " " ++
    (if r.mQuery = [] then [] else bytes "?") ++ r.mQuery ++
    (if r.mFrag = [] then [] else bytes "#") ++ r.mFrag ++
    bytes "HTTP/" ++ r.mVersion ++ bytes "\r\n" ++
    (if r.mWebSocket then []
      else bytes "connection:" ++ bytes (if r.mKeepAlive then "keep-alive" else "close") ++
        bytes "\r\n") ++
    r.headerLines

/-- The content-length that `toString` adds. -/
def lengthLine (r : HttpRequest) : Bytes :=
  bytes "content-length:" ++ bytes (ToString.toString r.mBody.length) ++ bytes "\r\n"

/-- **What `toString` writes**: a length of its own, if there is a body and the search for a
stored one fails. -/
theorem toString_eq_head (r : HttpRequest) :
    r.toString = r.head ++
      (if r.mBody ≠ [] ∧ r.mHeaders.find (bytes "content-length") = none then r.lengthLine
        else []) ++ bytes "\r\n" ++ r.mBody := by
  have hhead : r.toString = r.head ++
      (if r.mBody.length ≠ 0 then
        (if r.mHeaders.find (bytes "content-length") = none then r.lengthLine else []) ++
          bytes "\r\n" ++ r.mBody
        else bytes "\r\n") := rfl
  rw [hhead]
  by_cases hbody : r.mBody = []
  · rw [if_neg fun h => h (List.length_eq_zero_iff.mpr hbody), if_neg fun h => h.1 hbody, hbody,
      List.append_nil, List.append_nil]
  · rw [if_pos (mt List.length_eq_zero_iff.mp hbody)]
    by_cases hfind : r.mHeaders.find (bytes "content-length") = none
    · rw [if_pos hfind, if_pos ⟨hbody, hfind⟩]
      simp only [List.append_assoc]
    · rw [if_neg hfind, if_neg fun h => hfind h.2]
      simp only [List.append_assoc, List.nil_append, List.append_nil]

/-- The header map of a request after several calls: `getHeader` returns the value added
last and not deleted since, or else the default; the search for a content-length finds it
in any case of its letters, and `toString` adds one where it was not found. -/
structure ShowsLast (calls : List Call) (r : HttpRequest) : Prop where
  added : ∀ key dflt value, LastAdded .headers calls key value → r.getHeader key dflt = value
  absent : ∀ key dflt, (∀ value, ¬ LastAdded .headers calls key value) →
    r.getHeader key dflt = dflt
  searched : ∀ value, r.mHeaders.find (bytes "content-length") = some value ↔
    LastAdded .headers calls (bytes "content-length") value
  stored : ∀ value, LastAdded .headers calls (bytes "content-length") value →
    r.toString = r.head ++ bytes "\r\n" ++ r.mBody
  computed : (∀ value, ¬ LastAdded .headers calls (bytes "content-length") value) →
    r.mBody ≠ [] → r.toString = r.head ++ r.lengthLine ++ bytes "\r\n" ++ r.mBody

theorem showsLast (version : Bytes) (keepAlive : Bool) (calls : List Call) :
    ShowsLast calls (called version keepAlive calls) where
  added key dflt := (get_called .headers key dflt).1
  absent key dflt := (get_called .headers key dflt).2
  searched _ := find_called .headers
  stored value h := by
    have hfind : (called version keepAlive calls).mHeaders.find (bytes "content-length") =
        some value := (find_called .headers).mpr h
    rw [toString_eq_head, if_neg (by simp [hfind]), List.append_nil]
  computed h hbody := by
    have hfind : (called version keepAlive calls).mHeaders.find (bytes "content-length") = none :=
      (find_called_eq_none .headers).mpr h
    rw [toString_eq_head, if_pos ⟨hbody, hfind⟩]

/-- **Header maps are case-insensitive maps.**  `CaseInsensitiveLess` is the sign of what
the loop over the bytes returns and a strict weak order, for which two names are equivalent
if and only if they are the same up to the case of letters; and a request shows, after the
constructor and any calls, what was added last. -/
theorem headers_caseInsensitive :
    (∀ s t, CaseInsensitiveLess s t ↔ strcasecmpLoop s t < 0) ∧
      IsStrictWeakOrder Bytes CaseInsensitiveLess ∧
      (∀ s t, ¬ CaseInsensitiveLess s t ∧ ¬ CaseInsensitiveLess t s ↔ EqUpToCase s t) ∧
      ∀ version keepAlive calls, ShowsLast calls (called version keepAlive calls) :=
  ⟨fun s t => (less_iff s t).trans (strcasecmpLoop_spec s t).1.symm, inferInstance,
    fun _ _ => incomparable_iff, showsLast⟩

end HttpRequest

end Server
