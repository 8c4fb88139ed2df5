/-
HTTP messages: `HttpRequest` and `HttpResponse`.

Strings are byte strings, and the header maps are ordered by
`CaseInsensitiveLess`, so that names differing in letter case only are one key.
The setters of a request overwrite, with one exception: `setBody` appends.
-/
import AsyncServer.CString
import AsyncServer.OrderedMap

namespace Server

open CString

/-- `HttpMethod`. -/
inductive HttpMethod
  | delete | get | head | post | put | connect | options | trace | copy | lock | mkcol
  | move | propfind | proppatch | search | unlock | bind | rebind | unbind | acl | report
  | mkactivity | checkout | merge | msearch | notify | subscribe | unsubscribe | patch
  | purge | mkcalendar | link | unlink | source | invalidMethod
  deriving DecidableEq

/-- `HTTP_METHOD_MAP`: each method with the name of its enumerator and its name on the
wire. -/
def httpMethodMap : List (HttpMethod × String × String) :=
  [(.delete, "DELETE", "DELETE"), (.get, "GET", "GET"), (.head, "HEAD", "HEAD"),
   (.post, "POST", "POST"), (.put, "PUT", "PUT"), (.connect, "CONNECT", "CONNECT"),
   (.options, "OPTIONS", "OPTIONS"), (.trace, "TRACE", "TRACE"), (.copy, "COPY", "COPY"),
   (.lock, "LOCK", "LOCK"), (.mkcol, "MKCOL", "MKCOL"), (.move, "MOVE", "MOVE"),
   (.propfind, "PROPFIND", "PROPFIND"), (.proppatch, "PROPPATCH", "PROPPATCH"),
   (.search, "SEARCH", "SEARCH"), (.unlock, "UNLOCK", "UNLOCK"), (.bind, "BIND", "BIND"),
   (.rebind, "REBIND", "REBIND"), (.unbind, "UNBIND", "UNBIND"), (.acl, "ACL", "ACL"),
   (.report, "REPORT", "REPORT"), (.mkactivity, "MKACTIVITY", "MKACTIVITY"),
   (.checkout, "CHECKOUT", "CHECKOUT"), (.merge, "MERGE", "MERGE"),
   (.msearch, "MSEARCH", "M-SEARCH"), (.notify, "NOTIFY", "NOTIFY"),
   (.subscribe, "SUBSCRIBE", "SUBSCRIBE"), (.unsubscribe, "UNSUBSCRIBE", "UNSUBSCRIBE"),
   (.patch, "PATCH", "PATCH"), (.purge, "PURGE", "PURGE"),
   (.mkcalendar, "MKCALENDAR", "MKCALENDAR"), (.link, "LINK", "LINK"),
   (.unlink, "UNLINK", "UNLINK"), (.source, "SOURCE", "SOURCE")]

/-- `httpMethodToString`: the name of the enumerator. -/
def httpMethodToString (method : HttpMethod) : Bytes :=
  bytes (((httpMethodMap.lookup method).map Prod.fst).getD "invalid_method")

/-- `HttpStatus`: an `enum class` may hold any `int` by a cast. -/
structure HttpStatus where
  code : ℤ
  deriving DecidableEq

/-- `HTTP_STATUS_MAP`, the codes with their texts. -/
def httpStatusMap : List (ℤ × String) :=
  [(100, "Continue"), (101, "Switching Protocols"), (102, "Processing"), (200, "OK"),
   (201, "Created"), (202, "Accepted"), (203, "Non-Authoritative Information"),
   (204, "No Content"), (205, "Reset Content"), (206, "Partial Content"), (207, "Multi-Status"),
   (208, "Already Reported"), (226, "IM Used"), (300, "Multiple Choices"),
   (301, "Moved Permanently"), (302, "Found"), (303, "See Other"), (304, "Not Modified"),
   (305, "Use Proxy"), (307, "Temporary Redirect"), (308, "Permanent Redirect"),
   (400, "Bad Request"), (401, "Unauthorized"), (402, "Payment Required"), (403, "Forbidden"),
   (404, "Not Found"), (405, "Method Not Allowed"), (406, "Not Acceptable"),
   (407, "Proxy Authentication Required"), (408, "Request Timeout"), (409, "Conflict"),
   (410, "Gone"), (411, "Length Required"), (412, "Precondition Failed"),
   (413, "Payload Too Large"), (414, "URI Too Long"), (415, "Unsupported Media Type"),
   (416, "Range Not Satisfiable"), (417, "Expectation Failed"), (421, "Misdirected Request"),
   (422, "Unprocessable Entity"), (423, "Locked"), (424, "Failed Dependency"),
   (426, "Upgrade Required"), (428, "Precondition Required"), (429, "Too Many Requests"),
   (431, "Request Header Fields Too Large"), (451, "Unavailable For Legal Reasons"),
   (500, "Internal Server Error"), (501, "Not Implemented"), (502, "Bad Gateway"),
   (503, "Service Unavailable"), (504, "Gateway Timeout"), (505, "HTTP Version Not Supported"),
   (506, "Variant Also Negotiates"), (507, "Insufficient Storage"), (508, "Loop Detected"),
   (510, "Not Extended"), (511, "Network Authentication Required")]

/-- `httpStatusToString`. -/
def httpStatusToString (s : HttpStatus) : Bytes :=
  bytes ((httpStatusMap.lookup s.code).getD "<unknown>")

/-- `CaseInsensitiveLess`. -/
def CaseInsensitiveLess (lhs rhs : Bytes) : Prop := strcasecmp lhs rhs = .lt

instance : DecidableRel CaseInsensitiveLess := fun lhs rhs =>
  inferInstanceAs (Decidable (strcasecmp lhs rhs = .lt))

theorem caseInsensitiveLess_iff {lhs rhs : Bytes} :
    CaseInsensitiveLess lhs rhs ↔ fold lhs < fold rhs := strcasecmp_lt_iff

/-- The comparison is one of the names in lower case. -/
theorem less_iff (lhs rhs : Bytes) : CaseInsensitiveLess lhs rhs ↔ fold lhs < fold rhs :=
  caseInsensitiveLess_iff

instance : IsStrictOrder Bytes CaseInsensitiveLess where
  irrefl s h := lt_irrefl (fold s) (caseInsensitiveLess_iff.mp h)
  trans _ _ _ h h' := caseInsensitiveLess_iff.mpr
    ((caseInsensitiveLess_iff.mp h).trans (caseInsensitiveLess_iff.mp h'))

/-- Two names are different keys of a header map exactly when they differ in
more than the case of letters. -/
theorem caseInsensitiveLess_or_iff {s t : Bytes} :
    CaseInsensitiveLess s t ∨ CaseInsensitiveLess t s ↔ strcasecmp s t ≠ .eq := by
  rw [caseInsensitiveLess_iff, caseInsensitiveLess_iff, ne_eq, strcasecmp_eq_iff]
  exact lt_or_lt_iff_ne

/-- The map type `MSS` of headers, cookies and parameters. -/
abbrev MSS := OrderedMap Bytes Bytes CaseInsensitiveLess

/-- What the getters of the three maps return. -/
def MSS.get (m : MSS) (key dflt : Bytes) : Bytes := (m.find key).getD dflt

/-! ### Requests -/

/-- `HttpRequest`. -/
structure HttpRequest where
  mMethod : HttpMethod
  mTmpHeader : Bytes
  mVersion : Bytes
  mQuery : Bytes
  mPath : Bytes
  mFrag : Bytes
  mBody : Bytes
  mKeepAlive : Bool
  mWebSocket : Bool
  mHeaders : MSS
  mCookies : MSS
  mParams : MSS

namespace HttpRequest

/-- The constructor with its default arguments. -/
def create : HttpRequest where
  mMethod := .get
  mTmpHeader := []
  mVersion := bytes "1.1"
  mQuery := []
  mPath := bytes "/"
  mFrag := []
  mBody := []
  mKeepAlive := false
  mWebSocket := false
  mHeaders := .empty
  mCookies := .empty
  mParams := .empty

/-- The constructor. -/
def construct (version : Bytes) (keepAlive : Bool) : HttpRequest :=
  { create with mVersion := version, mKeepAlive := keepAlive }

def setMethod (r : HttpRequest) (method : HttpMethod) : HttpRequest := { r with mMethod := method }

def setVersion (r : HttpRequest) (version : Bytes) : HttpRequest := { r with mVersion := version }

def setQuery (r : HttpRequest) (query : Bytes) : HttpRequest := { r with mQuery := query }

def setPath (r : HttpRequest) (path : Bytes) : HttpRequest := { r with mPath := path }

def setFrag (r : HttpRequest) (frag : Bytes) : HttpRequest := { r with mFrag := frag }

/-- Other than its siblings `setBody` appends. -/
def setBody (r : HttpRequest) (body : Bytes) : HttpRequest := { r with mBody := r.mBody ++ body }

def setKeepAlive (r : HttpRequest) (keepAlive : Bool) : HttpRequest :=
  { r with mKeepAlive := keepAlive }

def setWebSocket (r : HttpRequest) (webSocket : Bool) : HttpRequest :=
  { r with mWebSocket := webSocket }

def setTmpHeader (r : HttpRequest) (tmpheader : Bytes) : HttpRequest :=
  { r with mTmpHeader := tmpheader }

def getHeader (r : HttpRequest) (key dflt : Bytes) : Bytes := MSS.get r.mHeaders key dflt

def getCookie (r : HttpRequest) (key dflt : Bytes) : Bytes := MSS.get r.mCookies key dflt

def getParam (r : HttpRequest) (key dflt : Bytes) : Bytes := MSS.get r.mParams key dflt

def addHeader (r : HttpRequest) (key value : Bytes) : HttpRequest :=
  { r with mHeaders := r.mHeaders.assign key value }

def addCookie (r : HttpRequest) (key value : Bytes) : HttpRequest :=
  { r with mCookies := r.mCookies.assign key value }

def addParam (r : HttpRequest) (key value : Bytes) : HttpRequest :=
  { r with mParams := r.mParams.assign key value }

def delHeader (r : HttpRequest) (key : Bytes) : HttpRequest :=
  { r with mHeaders := r.mHeaders.erase key }

def delCookie (r : HttpRequest) (key : Bytes) : HttpRequest :=
  { r with mCookies := r.mCookies.erase key }

def delParam (r : HttpRequest) (key : Bytes) : HttpRequest :=
  { r with mParams := r.mParams.erase key }

/-- The lines for the stored headers. -/
def headerLines (r : HttpRequest) : Bytes :=
  r.mHeaders.entries.flatMap fun it =>
    if !r.mWebSocket && strcasecmp (bytes "connection") it.1 == .eq then []
    else it.1 ++ bytes ":" ++ it.2 ++ bytes "\r\n"

/-- `toString`. -/
def toString (r : HttpRequest) : Bytes :=
  httpMethodToString r.mMethod ++ bytes " " ++ r.mPath ++ bytes " " ++
    (if r.mQuery = [] then [] else bytes "?") ++ r.mQuery ++
    (if r.mFrag = [] then [] else bytes "#") ++ r.mFrag ++
    bytes "HTTP/" ++ r.mVersion ++ bytes "\r\n" ++
    (if r.mWebSocket then []
      else bytes "connection:" ++ bytes (if r.mKeepAlive then "keep-alive" else "close") ++
        bytes "\r\n") ++
    r.headerLines ++
    (if r.mBody.length ≠ 0 then
      (if r.mHeaders.find (bytes "content-length") = none
        then bytes "content-length:" ++ bytes (ToString.toString r.mBody.length) ++ bytes "\r\n"
        else []) ++ bytes "\r\n" ++ r.mBody
      else bytes "\r\n")

example : create.toString = bytes "GET / HTTP/1.1\r\nconnection:close\r\n\r\n" := by decide

end HttpRequest

/-! ### Responses -/

/-- `HttpResponse`. -/
structure HttpResponse where
  mStatus : HttpStatus
  mBody : Bytes
  mVersion : Bytes
  mTmpHeader : Bytes
  mKeepAlive : Bool
  mWebSocket : Bool
  mHeaders : MSS

namespace HttpResponse

/-- The constructor. -/
def create (version : Bytes) (keepAlive : Bool) : HttpResponse where
  mStatus := ⟨200⟩
  mBody := []
  mVersion := version
  mTmpHeader := []
  mKeepAlive := keepAlive
  mWebSocket := false
  mHeaders := .empty

def setStatus (r : HttpResponse) (status : HttpStatus) : HttpResponse := { r with mStatus := status }

def setVersion (r : HttpResponse) (version : Bytes) : HttpResponse := { r with mVersion := version }

/-- As for requests, `setBody` appends. -/
def setBody (r : HttpResponse) (body : Bytes) : HttpResponse := { r with mBody := r.mBody ++ body }

def setKeepAlive (r : HttpResponse) (keepAlive : Bool) : HttpResponse :=
  { r with mKeepAlive := keepAlive }

def setTmpHeader (r : HttpResponse) (tmpheader : Bytes) : HttpResponse :=
  { r with mTmpHeader := tmpheader }

def addHeader (r : HttpResponse) (key value : Bytes) : HttpResponse :=
  { r with mHeaders := r.mHeaders.assign key value }

/-- The lines for the stored headers. -/
def headerLines (r : HttpResponse) : Bytes :=
  r.mHeaders.entries.flatMap fun it =>
    if !r.mWebSocket && strcasecmp it.1 (bytes "connection") == .eq then []
    else it.1 ++ bytes ":" ++ it.2 ++ bytes "\r\n"

/-- `toString`. -/
def toString (r : HttpResponse) : Bytes :=
  bytes "HTTP/" ++ r.mVersion ++ bytes " " ++ bytes (ToString.toString r.mStatus.code) ++
    bytes " " ++ httpStatusToString r.mStatus ++ bytes "\r\n" ++
    (if r.mWebSocket then []
      else bytes "connection:" ++ bytes (if r.mKeepAlive then "keep-alive" else "close") ++
        bytes "\r\n") ++
    r.headerLines ++
    (if r.mBody.length ≠ 0 then
      (if r.mHeaders.find (bytes "content-length") = none
        then bytes "content-length:" ++ bytes (ToString.toString r.mBody.length) ++ bytes "\r\n"
        else []) ++ bytes "\r\n" ++ r.mBody
      else bytes "\r\n")

example : (create (bytes "1.1") true).toString =
    bytes "HTTP/1.1 200 OK\r\nconnection:keep-alive\r\n\r\n" := by decide

end HttpResponse

end Server
