import Orbit.Lib.Json
import Orbit.Runtime.HttpFields

/-!
# The HTTP client

What `orbit_http_client_fetch` of `runtime/http.c` does with a reply: the decisions about its body
(`http_content_length`, `http_is_chunked`) and the decoder of a chunked body. A reply is read by its
indices; `Fault.outside` stands for a read outside of it. Allocations succeed.
-/

namespace Runtime.Fetch

open Http (Text nul cString isBlank isCaseless startsCaseless)
open Lib.Decimal (isDigit)
open Lib.Json (hexValue)

/-! ## Integers -/

/-- The platforms: a `long` has 32 bits or 64. -/
structure Abi where
  longBits : Nat
  known : longBits = 32 ∨ longBits = 64

/-- An integer as a `long` keeps it. -/
def Abi.long (abi : Abi) (n : Int) : Int := n.bmod (2 ^ abi.longBits)

/-- An integer as a `size_t` keeps it. -/
def sizeT (n : Int) : Nat := (n % 2 ^ 64).toNat

/-! ## Heads -/

def headersEndFrom : (i : Nat) → Text → Option Nat
  | _, [] => none
  | i, c :: t =>
    if ['\r', '\n', '\r', '\n'].isPrefixOf (c :: t) then some (i + 4) else headersEndFrom (i + 1) t

def httpHeadersEnd (reply : Text) : Option Nat := headersEndFrom 0 reply

/-- The loop over the digits of a length. -/
def lengthNumber (abi : Abi) : (n : Int) → (digits : Nat) → Text → Int
  | n, _, [] => n
  | n, digits, c :: v =>
    if isDigit c then
      if digits + 1 > 10 then -1
      else lengthNumber abi (abi.long (n * 10 + (c.toNat - '0'.toNat))) (digits + 1) v
    else n

/-- The search for `content-length:` and a number behind it. -/
def httpContentLength (abi : Abi) : (head : Text) → Int
  | [] => -1
  | c :: t =>
    if startsCaseless "content-length:" (c :: t) then
      let v := ((c :: t).drop 15).dropWhile isBlank
      if v.head?.any isDigit then lengthNumber abi 0 0 v else httpContentLength abi t
    else httpContentLength abi t

/-- What may stand behind the coding. -/
def endsCoding (c : Char) : Bool :=
  c = ';' || c = ',' || c = ' ' || c = '\t' || c = '\r' || c = '\n'

/-- The search for `transfer-encoding:` and the coding behind it. -/
def httpIsChunked : (head : Text) → Bool
  | [] => false
  | c :: t =>
    if startsCaseless "transfer-encoding:" (c :: t) then
      let v := ((c :: t).drop 18).dropWhile isBlank
      startsCaseless "chunked" v && (v.drop 7).head?.all endsCoding
    else httpIsChunked t

/-- The head of a reply, with its empty line. -/
def fetchHead (reply : Text) : Option Text := (httpHeadersEnd reply).map reply.take

/-! ## Chunks -/

inductive Fault where
  | badChunk
  | tooBig
  | shortChunk
  /-- A read outside of the reply. -/
  | outside
  /-- No turns are left. -/
  | endless
  deriving DecidableEq, Repr

/-- The messages of the errors. -/
def Fault.text : Fault → String
  | .badChunk => "fetch: bad chunk"
  | .tooBig => "fetch: chunk too big"
  | .shortChunk => "fetch: short chunk"
  | .outside => ""
  | .endless => ""

def isEol (c : Char) : Bool := c = '\r' || c = '\n'

/-- Where the line at `p` ends. -/
def eolFrom (s : Text) (p : Nat) : Nat := p + ((s.drop p).takeWhile fun c => !isEol c).length

/-- The loop over the digits of a size line. -/
def sizeDigits (abi : Abi) : (digits : Nat) → (size : Int) → Text → Except Fault Int
  | _, size, [] => .ok size
  | digits, size, c :: q =>
    if c = ';' then .ok size
    else
      match hexValue c with
      | none => .error .badChunk
      | some v =>
        if digits ≥ 8 then .error .tooBig
        else sizeDigits abi (digits + 1) (abi.long (size * 16 + v)) q

def chunkSize (abi : Abi) (line : Text) : Except Fault Int :=
  if line.head? = some '+' ∨ line.head? = some '-' then .error .badChunk
  else sizeDigits abi 0 0 line

/-- The place behind the line end at `p`. -/
def lineEnd (s : Text) (p : Nat) : Except Fault Nat :=
  if p + 1 < s.length ∧ s[p]? = some '\r' ∧ s[p + 1]? = some '\n' then .ok (p + 2)
  else if p < s.length ∧ (s[p]? = some '\r' ∨ s[p]? = some '\n') then .ok (p + 1)
  else .error .badChunk

/-- The loop over the chunks from `p` on, with the data before them. -/
def chunksFrom (abi : Abi) (s : Text) : (fuel p : Nat) → (out : Text) → Except Fault Text
  | 0, _, _ => .error .endless
  | fuel + 1, p, out => do
    let eol := eolFrom s p
    let size ← chunkSize abi ((s.drop p).take (eol - p))
    let p ← lineEnd s eol
    if size = 0 then .ok out
    else if sizeT (s.length - p) < sizeT size then .error .shortChunk
    else if s.length < p + sizeT size ∨ p + size < 0 ∨ s.length < p + size then .error .outside
    else
      let next ← lineEnd s (p + size).toNat
      chunksFrom abi s fuel next (out ++ (s.drop p).take (sizeT size))

/-- The body of a reply. No object has `2 ^ 63` bytes. -/
structure Body where
  bytes : Text
  fits : bytes.length < 2 ^ 63

/-- The answer to a chunked reply. It is read up to its first NUL, as every text is. -/
def fetchChunked (abi : Abi) (body : Body) : Except Fault Text :=
  (chunksFrom abi body.bytes (body.bytes.length + 1) 0 []).map cString

/-! ## Header lines -/

/-- The texts behind the line ends of a head: the header lines start there. -/
def starts : Text → List Text
  | [] => []
  | '\r' :: '\n' :: t => t :: starts t
  | _ :: t => starts t

/-- A text up to its first line end. -/
def lineAt : Text → Text
  | [] => []
  | '\r' :: '\n' :: _ => []
  | c :: t => c :: lineAt t

/-- What follows the colon of a header line, when the name before it is `name`. -/
def fieldText (name : String) (line : Text) : Option Text :=
  if ':' ∈ line ∧ isCaseless name (line.takeWhile (· ≠ ':')) then
    some ((line.dropWhile (· ≠ ':')).drop 1)
  else none

/-- The values of the header lines of a name. -/
def fieldTexts (name : String) (head : Text) : List Text :=
  (starts head).filterMap fun t => fieldText name (lineAt t)

/-- The length that a value starts with. -/
def lengthOf (abi : Abi) (value : Text) : Option Int :=
  let v := value.dropWhile isBlank
  if v.head?.any isDigit then some (lengthNumber abi 0 0 v) else none

/-- The value names the chunked coding first. -/
def namesChunked (value : Text) : Bool :=
  let v := value.dropWhile isBlank
  startsCaseless "chunked" v && (v.drop 7).head?.all endsCoding

/-! ## Places -/

/-- A length is read at the start of the text. -/
def isLengthHit (t : Text) : Bool :=
  startsCaseless "content-length:" t && ((t.drop 15).dropWhile isBlank).head?.any isDigit

/-- A coding is read at the start of the text. -/
def isCodingHit (t : Text) : Bool := startsCaseless "transfer-encoding:" t

/-- The first place of a head at which something is read. -/
def firstHit (hit : Text → Bool) : Text → Option Text
  | [] => none
  | c :: t => if hit (c :: t) then some (c :: t) else firstHit hit t

/-- The decisions about a reply read the header lines of their own name and nothing else: they are
taken at the first of those lines, they are what its value says, and no byte behind the head
matters. -/
structure ReadsOwnLines (abi : Abi) (reply : Text) : Prop where
  length : ∀ head, fetchHead reply = some head →
    firstHit isLengthHit head = (starts head).find? isLengthHit ∧
      httpContentLength abi head =
        ((fieldTexts "content-length" head).findSome? (lengthOf abi)).getD (-1)
  coding : ∀ head, fetchHead reply = some head →
    firstHit isCodingHit head = (starts head).find? isCodingHit ∧
      httpIsChunked head = (fieldTexts "transfer-encoding" head).head?.any namesChunked
  body : ∀ head more, fetchHead reply = some head → fetchHead (reply ++ more) = some head

/-- Something is read inside a line, before any line at whose start it is. -/
def Stray (hit : Text → Bool) (head : Text) : Prop :=
  ∃ t, t <:+ head ∧ hit t = true ∧ t ∉ starts head ∧
    ∀ t' ∈ starts head, hit t' = true → t'.length < t.length

/-! ## Chunked bodies -/

/-- A number in hexadecimal. -/
def number (digits : Text) : Nat := digits.foldl (fun n c => 16 * n + (hexValue c).getD 0) 0

/-- The digits of a size line and what follows them on it. -/
structure SizeLine (digits ext : Text) : Prop where
  hex : ∀ c ∈ digits, (hexValue c).isSome
  ext_ok : ext = [] ∨ ext.head? = some ';'
  plain : ∀ c ∈ ext, isEol c = false

/-- `Chunked s data`: `s` begins with a chunked body of `data`, up to its chunk of size zero. -/
inductive Chunked : Text → Text → Prop
  | last {digits ext rest : Text} : SizeLine digits ext → digits ≠ [] → number digits = 0 →
    Chunked (digits ++ ext ++ '\r' :: '\n' :: rest) []
  | chunk {digits ext d rest data : Text} : SizeLine digits ext → number digits = d.length → d ≠ [] →
    Chunked rest data →
    Chunked (digits ++ ext ++ '\r' :: '\n' :: (d ++ '\r' :: '\n' :: rest)) (d ++ data)

/-- `LineEnd loose t rest`: `rest` is what follows the line end of `t`, a loose one if it is half
of one. -/
inductive LineEnd : Bool → Text → Text → Prop
  | crlf (rest : Text) : LineEnd false ('\r' :: '\n' :: rest) rest
  | lf (rest : Text) : LineEnd true ('\n' :: rest) rest
  | cr {rest : Text} : rest.head? ≠ some '\n' → LineEnd true ('\r' :: rest) rest

/-- `Lenient abi loose s data`: `s` is a body of `data` in chunks whose lines may end loosely, and
that may stop at a size line without digits; `loose` says whether it does either. -/
inductive Lenient (abi : Abi) : Bool → Text → Text → Prop
  | last {digits ext t rest : Text} {l : Bool} : SizeLine digits ext → digits.length ≤ 8 →
    number digits = 0 → LineEnd l t rest →
    Lenient abi (digits.isEmpty || l) (digits ++ ext ++ t) []
  | chunk {digits ext t d u rest data : Text} {l l' l'' : Bool} : SizeLine digits ext →
    digits.length ≤ 8 → number digits = d.length → d ≠ [] → d.length < 2 ^ (abi.longBits - 1) →
    LineEnd l t (d ++ u) → LineEnd l' u rest → Lenient abi l'' rest data →
    Lenient abi (l || l' || l'') (digits ++ ext ++ t) (d ++ data)

/-- What the decoder is to do: it succeeds on a chunked body only, with its data, and stays in the
reply. -/
structure Decodes (abi : Abi) (body : Body) : Prop where
  sound : ∀ answer, fetchChunked abi body = .ok answer → Chunked body.bytes answer
  inside : fetchChunked abi body ≠ .error .outside ∧ fetchChunked abi body ≠ .error .endless

end Runtime.Fetch
