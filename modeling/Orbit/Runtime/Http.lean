import Orbit.Lib.Stream
import Orbit.Lib.Text

/-!
# Requests of the HTTP server

`runtime/http.c`: the limits and `orbit_http_parse_request_ex`. A byte is the character of its
code. The parser stores NULs into the receive buffer; the offsets at which it does are part of its
answer (`Answer.nulls`). Allocations succeed.
-/

namespace Runtime.Http

open Lib.Text (chars)

abbrev Text := List Char

abbrev nul : Char := '\x00'

/-! ## Limits -/

/-- The digits of a limit, `none` when one is bad or the number grows too large. -/
def limitDigits : Nat → Text → Option Nat
  | acc, [] => some acc
  | acc, c :: v =>
    if c < '0' ∨ '9' < c ∨ 214748364 * 10 + 9 < acc then none
    else limitDigits (acc * 10 + (c.toNat - '0'.toNat)) v

/-- The limit that the environment variable `v` sets. -/
def orbitHttpLimitEnv (v : Option Text) (dflt : Nat) : Nat :=
  match v with
  | none => dflt
  | some [] => dflt
  | some v =>
    match limitDigits 0 v with
    | none => dflt
    | some acc => if acc < 1 ∨ 2147483648 < acc then dflt else acc

theorem orbitHttpLimitEnv_pos (v : Option Text) {dflt : Nat} (h : 1 ≤ dflt) :
    1 ≤ orbitHttpLimitEnv v dflt := by
  unfold orbitHttpLimitEnv
  repeat' split
  all_goals omega

/-- No limit is zero. -/
structure OrbitHttpLimits where
  maxRequestLine : Nat
  maxHeaderBytes : Nat
  maxHeaders : Nat
  maxBody : Nat
  line_pos : 1 ≤ maxRequestLine
  header_pos : 1 ≤ maxHeaderBytes
  headers_pos : 1 ≤ maxHeaders
  body_pos : 1 ≤ maxBody

/-- The limits under the environment `env`. -/
def orbitHttpLimitsReload (env : String → Option Text) : OrbitHttpLimits where
  maxRequestLine := orbitHttpLimitEnv (env "ORBIT_HTTP_MAX_REQUEST_LINE") 8192
  maxHeaderBytes := orbitHttpLimitEnv (env "ORBIT_HTTP_MAX_HEADER_BYTES") 65536
  maxHeaders := orbitHttpLimitEnv (env "ORBIT_HTTP_MAX_HEADERS") 100
  maxBody := orbitHttpLimitEnv (env "ORBIT_HTTP_MAX_BODY") 1048576
  line_pos := orbitHttpLimitEnv_pos _ (by decide)
  header_pos := orbitHttpLimitEnv_pos _ (by decide)
  headers_pos := orbitHttpLimitEnv_pos _ (by decide)
  body_pos := orbitHttpLimitEnv_pos _ (by decide)

/-! ## The head -/

/-- `ORBIT_HTTP_PERR_*`. -/
inductive Perr where
  | chunked | line | headers | body | length
  deriving DecidableEq, Repr

/-- The first `c` at an offset from `start` up to `stop`. -/
def memchr (raw : Text) (c : Char) (start stop : Nat) : Option Nat :=
  (((raw.take stop).drop start).findIdx? (· = c)).map (start + ·)

/-- The first blank line, from the offset `p` of the text on. -/
def headEndFrom (p : Nat) : Text → Option Nat
  | [] => none
  | c :: q =>
    if c = '\r' then
      if q.length < 3 then none
      else if q.take 3 = ['\n', '\r', '\n'] then some p
      else headEndFrom (p + 1) q
    else headEndFrom (p + 1) q

def findHeadEnd (raw : Text) : Option Nat := headEndFrom 0 raw

/-- `strncasecmp` finds `word` at the front of the text. -/
def startsCaseless (word : String) (t : Text) : Bool :=
  (t.take word.toList.length).map Char.toLower = word.toList

/-- The digits of a length: their value, and how many were counted. It saturates. -/
def lengthDigits : Nat → Nat → Text → Nat × Nat
  | acc, digits, [] => (acc, digits)
  | acc, digits, c :: p =>
    if '0' ≤ c ∧ c ≤ '9' then
      let d := c.toNat - '0'.toNat
      if acc > (0x7FFFFFFFFFFFFFFF - d) / 10 then (0x7FFFFFFFFFFFFFFF, digits + 1)
      else lengthDigits (acc * 10 + d) (digits + 1) p
    else (acc, digits)

/-- What the scan of the header lines has seen. -/
structure HeadScan where
  clValue : Int
  clSeen : Bool
  clBad : Bool
  teChunked : Bool
  deriving DecidableEq, Repr

def isLengthBlank (c : Char) : Bool :=
  c = ' ' || c = '\t' || c = '\r' || c = '\x0b' || c = '\x0c'

/-- The value of a `Content-Length` line: the text behind the colon. -/
def scanLength (st : HeadScan) (p : Text) : HeadScan :=
  let p := p.dropWhile isLengthBlank
  let neg := p.head? = some '-'
  let p := if p.head? = some '-' ∨ p.head? = some '+' then p.drop 1 else p
  let r := lengthDigits 0 0 p
  let v : Int := if r.2 = 0 then 0 else if neg then -r.1 else r.1
  let st := if r.2 = 0 ∨ neg then { st with clBad := true } else st
  if ¬ st.clSeen then { st with clValue := v, clSeen := true }
  else if v ≠ st.clValue then { st with clBad := true }
  else st

/-- One line of the head, without its line end. -/
def scanLine (st : HeadScan) (line : Text) : HeadScan :=
  if line.length > 15 then
    let c0 := line.headD nul
    if (c0 = 't' ∨ c0 = 'T') ∧ line.length > 19 ∧ startsCaseless "transfer-encoding:" line then
      let v := (line.drop 18).dropWhile fun c => c = ' ' || c = '\t'
      if v.length ≥ 7 ∧ startsCaseless "chunked" v then { st with teChunked := true } else st
    else if (c0 = 'c' ∨ c0 = 'C') ∧ startsCaseless "content-length:" line then
      scanLength st (line.drop 15)
    else st
  else st

/-- The scan of the lines of a text; `line` is what was read of the line so far, backwards. -/
def scanLines : HeadScan → (line : Text) → Text → HeadScan
  | st, _, [] => st
  | st, line, c :: t =>
    if c = '\n' then scanLines (scanLine st line.reverse) [] t
    else scanLines st (c :: line) t

/-- The scan of a whole head, its blank line included. -/
def scanHead (head : Text) : HeadScan := scanLines ⟨-1, false, false, false⟩ [] head

def HeadScan.contentLength (st : HeadScan) : Nat :=
  if st.clSeen ∧ st.clValue > 0 then st.clValue.toNat else 0

section
variable (lim : OrbitHttpLimits) (raw : Text)

/-- The first line end, looked for in the bytes that the request line may take. -/
def lineEnd : Option Nat :=
  memchr raw '\n' 0
    (if raw.length < lim.maxRequestLine + 2 then raw.length else lim.maxRequestLine + 2)

/-- The request line is too long. -/
def lineTooLong : Bool :=
  match lineEnd lim raw with
  | some p =>
    let len := if p > 0 ∧ raw.getD (p - 1) nul = '\r' then p - 1 else p
    len > lim.maxRequestLine
  | none => raw.length > lim.maxRequestLine + 1

/-- The bytes of the header lines that are there: from the first line end up to the blank line, or
to the end of the buffer. -/
def headerStart : Nat :=
  match lineEnd lim raw with
  | some p => p + 1
  | none => raw.length

def headerStop : Nat := (findHeadEnd raw).getD raw.length

def headersTooLarge : Bool :=
  headerStop raw - headerStart lim raw > lim.maxHeaderBytes ||
    (findHeadEnd raw).isSome && headerStop raw - headerStart lim raw > 0 &&
      1 + ((raw.take (headerStop raw)).drop (headerStart lim raw)).count '\n' > lim.maxHeaders

/-- What is to be done with the buffer, by its head. -/
inductive Head where
  | more
  | refuse (code : Perr)
  /-- The blank line is at `headEnd`, and the whole body is there. -/
  | complete (headEnd contentLength : Nat)
  deriving DecidableEq, Repr

def readHead : Head :=
  if lineTooLong lim raw then .refuse .line
  else if headersTooLarge lim raw then .refuse .headers
  else
    match findHeadEnd raw with
    | none => .more
    | some e =>
      let st := scanHead (raw.take (e + 4))
      if st.teChunked then .refuse .chunked
      else if st.clBad then .refuse .length
      else if st.clSeen ∧ st.clValue > 0 ∧ st.clValue > lim.maxBody then .refuse .body
      else if raw.length < e + 4 + st.contentLength then .more
      else .complete e st.contentLength

/-! ## The request -/

/-- Bytes of the buffer, from `start` up to `stop`. -/
structure Slice where
  start : Nat
  stop : Nat
  deriving DecidableEq, Repr

def Slice.text (s : Slice) (raw : Text) : Text := (raw.take s.stop).drop s.start

/-- A request by its slices of the buffer. `method`, `path` and `query` stay there, each ended by a
NUL at its `stop`; `headers` and `body` are copied out. -/
structure OrbitRequest where
  method : Slice
  path : Slice
  query : Option Slice
  headers : Option Slice
  body : Slice
  deriving DecidableEq, Repr

inductive Outcome where
  | more
  | refused (code : Perr)
  | request (req : OrbitRequest) (consumed : Nat)
  deriving DecidableEq, Repr

/-- The answer of the parser, and the offsets at which it has stored a NUL, in order. -/
structure Answer where
  outcome : Outcome
  nulls : List Nat
  deriving DecidableEq, Repr

/-- The header lines, when there are any. -/
def headerSlice (e : Nat) : Option Slice :=
  match memchr raw '\n' 0 raw.length with
  | some line1 => if line1 + 1 < e then some ⟨line1 + 1, e⟩ else none
  | none => none

/-- The request line is cut at the first two spaces of the buffer, and the path at its `?`. -/
def splitRequest (e contentLength : Nat) : Answer :=
  let consumed := e + 4 + contentLength
  match memchr raw ' ' 0 raw.length with
  | none => ⟨.more, []⟩
  | some space =>
    let pathStart := space + 1
    let pathEnd := (memchr raw ' ' pathStart raw.length).getD pathStart
    let headers := headerSlice raw e
    let body := ⟨e + 4, consumed⟩
    match memchr raw '?' pathStart pathEnd with
    | some query =>
      ⟨.request ⟨⟨0, space⟩, ⟨pathStart, query⟩, some ⟨query + 1, pathEnd⟩, headers, body⟩ consumed,
        [space, query, pathEnd]⟩
    | none =>
      ⟨.request ⟨⟨0, space⟩, ⟨pathStart, pathEnd⟩, none, headers, body⟩ consumed,
        [space, pathEnd]⟩

def orbitHttpParseRequest : Answer :=
  match readHead lim raw with
  | .more => ⟨.more, []⟩
  | .refuse code => ⟨.refused code, []⟩
  | .complete e contentLength => splitRequest raw e contentLength

end

/-! ## The connection -/

/-- The buffer after the NULs are stored. -/
def stored (raw : Text) (nulls : List Nat) : Text := nulls.foldl (fun t i => t.set i nul) raw

/-- A string of C ends at its first NUL. -/
def cString (s : Text) : Text := s.takeWhile (· ≠ nul)

/-- What a handler reads of a request. -/
structure Received where
  method : Text
  path : Text
  query : Option Text
  headers : Option Text
  body : Text
  deriving DecidableEq, Repr

/-- The strings of a request: `raw` is the buffer as it was read, `after` with the NULs stored. -/
def OrbitRequest.received (req : OrbitRequest) (raw after : Text) : Received where
  method := cString (req.method.text raw)
  path := cString (req.path.text raw)
  query := req.query.map fun q => cString (q.text raw)
  headers := req.headers.map (·.text raw)
  body := req.body.text after

open Lib.Stream (Verdict)

/-- One turn of the server on its buffer. A request leaves the bytes behind it. -/
def serve (lim : OrbitHttpLimits) (raw : Text) : Verdict Char Received Perr :=
  let a := orbitHttpParseRequest lim raw
  match a.outcome with
  | .more => .more
  | .refused code => .stop code
  | .request req consumed =>
    let after := stored raw a.nulls
    .item (req.received raw after) (after.drop consumed)

end Runtime.Http
