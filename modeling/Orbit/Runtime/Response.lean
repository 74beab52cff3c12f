import Orbit.Lib.Find
import Orbit.Runtime.HttpFields

/-!
# Responses of the HTTP server

`runtime/http.c`: the staging of header lines (`orbit_response_header_line`, which the compiler
concatenates, and `orbit_response_add_headers`, which takes the block apart again) and the head that
`orbit_send_response` builds, by hand in a buffer of 512 bytes or by `snprintf`. Which responses get
the staged lines is decided by the emitter of calls in `compiler/emit/c_backend.orb`. Allocations
succeed.
-/

namespace Runtime.Response

open Http (Text isBlank trim)
open Lib.Text (chars intToString)

def crlf : Text := ['\r', '\n']

/-- A response. Its lengths are those of its strings. -/
structure OrbitResponse where
  status : Int
  contentType : Option Text
  body : Option Text
  bodyLen : Nat
  extraHeaders : Option Text
  extraHeadersLen : Nat
  status_int : -2 ^ 31 ≤ status ∧ status < 2 ^ 31
  body_len : bodyLen = (body.getD []).length
  headers_len : extraHeadersLen = (extraHeaders.getD []).length

/-- A value of the type `int`. -/
abbrev CInt := { n : Int // -2 ^ 31 ≤ n ∧ n < 2 ^ 31 }

def orbitResponseCreate (status : CInt) (contentType body : Option Text) : OrbitResponse where
  status := status
  contentType := contentType
  body := body
  bodyLen := (body.getD []).length
  extraHeaders := none
  extraHeadersLen := 0
  status_int := status.property
  body_len := rfl
  headers_len := rfl

/-- The wrappers, by the type of their content. -/
inductive Wrapper where
  | json
  | html
  | error
  deriving DecidableEq, Repr

def Wrapper.contentType : Wrapper → Text
  | .json => chars "application/json"
  | .html => chars "text/html"
  | .error => chars "text/plain"

/-- `orbit_response_json`, `orbit_response_html` and `orbit_response_error`. -/
def Wrapper.response (wrapper : Wrapper) (status : CInt) (body : Text) : OrbitResponse :=
  orbitResponseCreate status (some wrapper.contentType) (some body)

/-! ## Staging -/

/-- A staged line, the empty text when the pair is refused. -/
def orbitResponseHeaderLine (name value : Text) : Text :=
  if name = [] then []
  else if name.any fun c => c = ':' || c = '\r' || c = '\n' then []
  else if value.any fun c => c = '\r' || c = '\n' then []
  else name ++ [':', ' '] ++ value ++ crlf

/-- The staging local after some calls of `res.header`. -/
def stage (calls : List (Text × Text)) : Text :=
  calls.foldl (fun block call => block ++ orbitResponseHeaderLine call.1 call.2) []

def orbitResponseAddHeader (resp : OrbitResponse) (name value : Text) : OrbitResponse :=
  let line := name ++ [':', ' '] ++ value ++ crlf
  let headers := if resp.extraHeadersLen > 0 then resp.extraHeaders.getD [] ++ line else line
  { resp with
    extraHeaders := some headers
    extraHeadersLen := headers.length
    headers_len := rfl }

/-- The text without blanks at its end. -/
def trimEnd (t : Text) : Text := (t.reverse.dropWhile isBlank).reverse

def hasLineEnd (t : Text) : Bool := t.any fun c => c = '\r' || c = '\n'

/-- One line of a block: up to its colon and behind it. -/
def addLine (resp : OrbitResponse) (line : Text) : OrbitResponse :=
  let name := line.takeWhile (· ≠ ':')
  let value := (line.dropWhile (· ≠ ':')).drop 1
  if ':' ∈ line ∧ name ≠ [] ∧ hasLineEnd name = false ∧ hasLineEnd value = false then
    orbitResponseAddHeader resp (trimEnd name) (trim value)
  else resp

/-- The loop over the lines of a block. -/
def addLines : (fuel : Nat) → OrbitResponse → (p : Text) → OrbitResponse
  | 0, resp, _ => resp
  | fuel + 1, resp, p =>
    if p = [] then resp
    else
      match Lib.Find.indexOf crlf p with
      | none => addLine resp p
      | some eol => addLines fuel (addLine resp (p.take eol)) (p.drop (eol + 2))

def orbitResponseAddHeaders (resp : OrbitResponse) (block : Text) : OrbitResponse :=
  addLines (block.length + 1) resp block

/-! ## Numbers -/

def uint32 (n : Int) : Nat := (n % 2 ^ 32).toNat

/-- A `size_t` as an `int`. -/
def toInt32 (n : Nat) : Int := (n : Int).bmod (2 ^ 32)

/-- The digits of a magnitude, collected in `room` bytes of `tmp`; `none` stands for a byte too
many. -/
def magDigits : (room mag : Nat) → (tmp : Text) → Option Text
  | 0, mag, tmp => if mag = 0 then some tmp else none
  | room + 1, mag, tmp =>
    if mag = 0 then some tmp
    else magDigits room (mag / 10) (Char.ofNat ('0'.toNat + mag % 10) :: tmp)

def orbitAppendInt (v : Int) : Option Text :=
  let mag := if v < 0 then uint32 (uint32 (-(v + 1)) + 1) else uint32 v
  let sign := if v < 0 then ['-'] else []
  if mag = 0 then some (sign ++ ['0']) else (magDigits 10 mag []).map (sign ++ ·)

/-! ## The head -/

def reasonPhrases : List (Int × String) :=
  [(100, "Continue"), (101, "Switching Protocols"), (103, "Early Hints"),
   (200, "OK"), (201, "Created"), (202, "Accepted"), (203, "Non-Authoritative Information"),
   (204, "No Content"), (205, "Reset Content"), (206, "Partial Content"), (207, "Multi-Status"),
   (208, "Already Reported"), (226, "IM Used"),
   (300, "Multiple Choices"), (301, "Moved Permanently"), (302, "Found"), (303, "See Other"),
   (304, "Not Modified"), (307, "Temporary Redirect"), (308, "Permanent Redirect"),
   (400, "Bad Request"), (401, "Unauthorized"), (402, "Payment Required"), (403, "Forbidden"),
   (404, "Not Found"), (405, "Method Not Allowed"), (406, "Not Acceptable"),
   (408, "Request Timeout"), (409, "Conflict"), (410, "Gone"), (411, "Length Required"),
   (412, "Precondition Failed"), (413, "Content Too Large"), (414, "URI Too Long"),
   (415, "Unsupported Media Type"), (416, "Range Not Satisfiable"), (417, "Expectation Failed"),
   (418, "I'm a teapot"), (421, "Misdirected Request"), (422, "Unprocessable Entity"),
   (423, "Locked"), (424, "Failed Dependency"), (425, "Too Early"), (426, "Upgrade Required"),
   (428, "Precondition Required"), (429, "Too Many Requests"),
   (431, "Request Header Fields Too Large"), (451, "Unavailable For Legal Reasons"),
   (500, "Internal Server Error"), (501, "Not Implemented"), (502, "Bad Gateway"),
   (503, "Service Unavailable"), (504, "Gateway Timeout"), (505, "HTTP Version Not Supported"),
   (506, "Variant Also Negotiates"), (507, "Insufficient Storage"), (508, "Loop Detected"),
   (511, "Network Authentication Required")]

def orbitReasonPhrase (status : Int) : Text := ((reasonPhrases.lookup status).getD "").toList

/-- What `snprintf` leaves in a buffer of `cap` bytes, and what it returns. -/
def snprintf (cap : Nat) (text : Text) : Text × Nat := (text.take (cap - 1), text.length)

def orbitFormatHeader (cap : Nat) (resp : OrbitResponse) (reason ct : Text) (bodyLen : Nat) :
    Text × Nat :=
  snprintf cap
    (chars "HTTP/1.1 " ++ intToString resp.status ++ chars " " ++ reason ++
      chars "\r\nServer: Orbit\r\nContent-Type: " ++ ct ++ chars "\r\n" ++
      resp.extraHeaders.getD [] ++
      chars "Connection: keep-alive\r\nKeep-Alive: timeout=30, max=1000\r\nContent-Length: " ++
      intToString (toInt32 bodyLen) ++ chars "\r\n\r\n")

def headerSize : Nat := 512

/-- Pieces written one behind the other into the buffer; `none` stands for a byte behind it. -/
def putAll (h : Text) : List Text → Option Text
  | [] => some h
  | piece :: pieces =>
    if h.length + piece.length ≤ headerSize then putAll (h ++ piece) pieces else none

/-- The head by hand. -/
def fastHead (resp : OrbitResponse) (reason ct : Text) (bodyLen : Nat) : Option Text := do
  let status ← orbitAppendInt resp.status
  let length ← orbitAppendInt (toInt32 bodyLen)
  putAll []
    ([chars "HTTP/1.1 ", status, [' '], reason, chars "\r\nServer: Orbit\r\nContent-Type: ", ct] ++
      (if resp.extraHeadersLen > 0 then
        [['\r'], ['\n'], (resp.extraHeaders.getD []).take resp.extraHeadersLen,
          chars "Connection: keep-alive\r\nKeep-Alive: timeout=30, max=1000\r\nContent-Length: "]
      else
        [chars "\r\nConnection: keep-alive\r\nKeep-Alive: timeout=30, max=1000\r\nContent-Length: "]) ++
      [length, chars "\r\n\r\n"])

/-- The head by `snprintf`, in a second pass when it does not fit. -/
def slowHead (resp : OrbitResponse) (reason ct : Text) (bodyLen : Nat) : Text :=
  let first := orbitFormatHeader headerSize resp reason ct bodyLen
  if first.2 ≥ headerSize then (orbitFormatHeader (first.2 + 1) resp reason ct bodyLen).1
  else first.1

/-- The conditions of the fast path. -/
def isFast (resp : OrbitResponse) (reason ct : Text) : Bool :=
  reason.length ≤ 32 && ct.length ≤ 128 && resp.extraHeadersLen ≤ 128

/-- What is sent of a response: its head and its body. `allowed` is the answer of the limit on the
bytes of the lease. -/
def orbitSendResponse (allowed : Bool) (resp : OrbitResponse) : Option (Text × Text) :=
  let body := if allowed then resp.body.getD [] else chars "Kynx: Response Limit Exceeded\n"
  let bodyLen := if allowed then resp.bodyLen else body.length
  let resp := if allowed then resp else { resp with status := 500, status_int := by decide }
  let ct := if allowed then resp.contentType.getD (chars "text/plain") else chars "text/plain"
  let reason := orbitReasonPhrase resp.status
  if isFast resp reason ct then (fastHead resp reason ct bodyLen).map fun head => (head, body)
  else some (slowHead resp reason ct bodyLen, body)

/-! ## Header lines -/

/-- The pairs that are not refused. -/
def isAccepted (call : Text × Text) : Bool :=
  call.1 ≠ [] && call.1.all (fun c => c ≠ ':' && c ≠ '\r' && c ≠ '\n') &&
    call.2.all fun c => c ≠ '\r' && c ≠ '\n'

/-- The field of a pair: blanks at the end of a name and around a value are no part of them. -/
def fieldOf (call : Text × Text) : Text × Text := (trimEnd call.1, trim call.2)

def fieldLine (field : Text × Text) : Text := field.1 ++ [':', ' '] ++ field.2 ++ crlf

/-- A name that is not empty and has no colon and no line end, and a value without line ends. -/
structure IsField (field : Text × Text) : Prop where
  name_ne : field.1 ≠ []
  name : ':' ∉ field.1 ∧ hasLineEnd field.1 = false
  value : hasLineEnd field.2 = false

/-- The names of the fields that every head has before the staged ones, and behind them. -/
def namesBefore : List Text := [chars "Server", chars "Content-Type"]

def namesAfter : List Text := [chars "Connection", chars "Keep-Alive", chars "Content-Length"]

/-- A head is a status line and fields: its own ones and between them the accepted pairs in their
order. Its only empty line is at its end. -/
structure NoSplitting (calls : List (Text × Text)) (head : Text) : Prop where
  lines : ∃ statusLine before after,
    head = statusLine ++ crlf ++
      (before ++ (calls.filter isAccepted).map fieldOf ++ after).flatMap fieldLine ++ crlf ∧
    hasLineEnd statusLine = false ∧
    before.map Prod.fst = namesBefore ∧ after.map Prod.fst = namesAfter ∧
    ∀ field ∈ before ++ (calls.filter isAccepted).map fieldOf ++ after, IsField field
  blank : Http.findHeadEnd head = some (head.length - 4)

/-- The responses onto which the compiler flushes the staged lines. -/
def Wrapper.isFlushed : Wrapper → Bool
  | .json | .error => true
  | .html => false

/-- The response of a route that has staged some pairs. -/
def routeResponse (wrapper : Wrapper) (status : CInt) (body : Text) (calls : List (Text × Text)) :
    OrbitResponse :=
  let resp := wrapper.response status body
  if wrapper.isFlushed then orbitResponseAddHeaders resp (stage calls) else resp

end Runtime.Response

/-!
# The answer to a request

`orbit_handle_request` of `runtime/http.c` and `orbit_handle_request_full`, which
`compiler/emit/route_runtime.orb` emits: the request at the front of the receive buffer is parsed,
admitted and answered, and the connection is kept or closed. They differ in what they admit and
answer. No allocation fails.
-/

namespace Runtime.Http

/-- What is done with a buffer: the answer that is sent, the bytes that are consumed, and whether the
connection is kept. -/
structure Handled (ρ : Type) where
  sent : Option ρ
  consumed : Nat
  keepAlive : Bool

/-- The decision about the connection, on the buffer as it is after the parser. -/
def keepAlive (buffer : Text) : Bool :=
  !((Lib.Find.indexOf "Connection: close".toList (cString buffer)).isSome ||
    (Lib.Find.indexOf "connection: close".toList (cString buffer)).isSome)

section
variable {ρ : Type}

/-- A dispatcher with an admission gate, which closes the connection of what it denies. -/
def orbitHandleRequestFull (refusal : Perr → ρ) (gate : Received → Option ρ) (answer : Received → ρ)
    (lim : OrbitHttpLimits) (raw : Text) : Handled ρ :=
  let a := orbitHttpParseRequest lim raw
  match a.outcome with
  -- `orbit_http_reject` consumes the buffer
  | .refused code => ⟨some (refusal code), raw.length, false⟩
  | .more => ⟨none, 0, true⟩
  | .request req consumed =>
    let buffer := stored raw a.nulls
    let received := req.received raw buffer
    match gate received with
    | some denied => ⟨some denied, consumed, false⟩
    | none => ⟨some (answer received), consumed, keepAlive buffer⟩

end

/-- The answers of the default dispatcher. -/
inductive Reply where
  | refused (code : Perr)
  | pulse
  | pulseData
  | notFound
  deriving DecidableEq, Repr

def defaultReply (req : Received) : Reply :=
  if req.path = "/_pulse".toList then .pulse
  else if req.path = "/_pulse/data".toList then .pulseData
  else .notFound

def orbitHandleRequest (lim : OrbitHttpLimits) (raw : Text) : Handled Reply :=
  orbitHandleRequestFull .refused (fun _ => none) defaultReply lim raw

/-! ## What a request asks for -/

/-- The options of its `Connection` fields. -/
def connectionOptions (head : Text) : List Text :=
  (fieldValues "connection" head).flatMap fun value => (value.splitOn ',').map trim

/-- What stands behind the second space of the request line. -/
def requestVersion (head : Text) : Text :=
  let line := dropCr ((headLines head).headD [])
  (((line.dropWhile (· ≠ ' ')).drop 1).dropWhile (· ≠ ' ')).drop 1

/-- Connections of these versions end with their answer. -/
def isOldVersion (version : Text) : Bool :=
  version = [] || version = "HTTP/0.9".toList || version = "HTTP/1.0".toList

/-- A head with `Connection: close`, or of an old version and without `Connection: keep-alive`. -/
def wantsClose (head : Text) : Bool :=
  (connectionOptions head).any (isCaseless "close") ||
    isOldVersion (requestVersion head) && !(connectionOptions head).any (isCaseless "keep-alive")

/-- The request at the front of a buffer, which the gate admits, has the head. -/
def Admits {ρ : Type} (gate : Received → Option ρ) (lim : OrbitHttpLimits) (raw head : Text) :
    Prop :=
  ∃ e req consumed, findHeadEnd raw = some e ∧ head = raw.take (e + 4) ∧
    (orbitHttpParseRequest lim raw).outcome = .request req consumed ∧
    gate (req.received raw (stored raw (orbitHttpParseRequest lim raw).nulls)) = none

/-- The connection of an admitted request is closed if and only if its head asks for it. -/
def ClosesAsAsked {ρ : Type} (refusal : Perr → ρ) (gate : Received → Option ρ)
    (answer : Received → ρ) (lim : OrbitHttpLimits) (raw : Text) : Prop :=
  ∀ head, Admits gate lim raw head →
    ((orbitHandleRequestFull refusal gate answer lim raw).keepAlive = false ↔
      wantsClose head = true)

end Runtime.Http
