import Orbit.Lib.Find
import Orbit.Runtime.Http

/-!
# Routes

How a request finds its handler: the check of the routes (`checkRouteBody` of
`compiler/front/sema.orb`), the chain of conditions that the backend emits (`generateRouterBlock` of
`compiler/emit/c_backend.orb`), and the matcher that the conditions call (`orbit_route_match` of
`runtime/http.c`).
-/

namespace Runtime.Router

open Http (Text)

/-- A route declaration: its method, and its path as it stands between the quotes. -/
structure Route where
  method : Text
  path : Text
  deriving DecidableEq, Repr

/-! ## The scans of a path -/

/-- The non-empty pieces between the slashes, in order: what the loops over `i` and `start` visit.
`seg` is the piece read so far, backwards. -/
def scanFrom (seg : Text) : Text → List Text
  | [] => if seg = [] then [] else [seg.reverse]
  | c :: t =>
    if c = '/' then (if seg = [] then [] else [seg.reverse]) ++ scanFrom [] t
    else scanFrom (c :: seg) t

def scanSegments (path : Text) : List Text := scanFrom [] path

def endsWithDots (seg : Text) : Bool := ['.', '.', '.'].isSuffixOf seg

/-- A `:name...` with a name. -/
def routeSegmentIsMulti (seg : Text) : Bool :=
  seg.length ≥ 5 && seg.head? = some ':' && endsWithDots seg

def routeHasMultiParams (path : Text) : Bool := (scanSegments path).any routeSegmentIsMulti

def contains (needle path : Text) : Bool := (Lib.Find.indexOf needle path).isSome

def routeHasParams (path : Text) : Bool :=
  contains ['/', ':'] path || contains ['/', '\x7b'] path || contains ['/', '*'] path

/-! ## The check -/

/-- The token of a path keeps its quotes. -/
def Route.token (r : Route) : Text := '"' :: (r.path ++ ['"'])

/-- The diagnostics of `checkRouteMultiCapture` on the `seg`-th of `total` segments. -/
inductive RouteError where
  | duplicate (r : Route)
  | emptyName (r : Route)
  | notFinal (r : Route) (name : Text)
  deriving DecidableEq, Repr

def checkSegment (r : Route) (total seg : Nat) (s : Text) : List RouteError :=
  if s.length ≥ 4 ∧ s.head? = some ':' ∧ endsWithDots s then
    if s.length - 4 = 0 then [.emptyName r]
    else if seg ≠ total then [.notFinal r ((s.drop 1).take (s.length - 4))]
    else []
  else []

def checkSegments (r : Route) (total : Nat) : Nat → List Text → List RouteError
  | _, [] => []
  | seg, s :: ss => checkSegment r total seg s ++ checkSegments r total (seg + 1) ss

def checkRouteMultiCapture (r : Route) : List RouteError :=
  let segs := scanSegments r.token
  checkSegments r segs.length 1 segs

/-- What is reported for the routes of a program. -/
def checkRoutes : (seen : List Route) → List Route → List RouteError
  | _, [] => []
  | seen, r :: rs =>
    (if r ∈ seen then [.duplicate r] else []) ++ checkRouteMultiCapture r ++
      checkRoutes (if r ∈ seen then seen else seen ++ [r]) rs

/-! ## The matcher -/

def ORBIT_MAX_PATH_PARAMS : Nat := 32

/-- The slots of `param_names` and `param_values`. -/
abbrev Slots := Nat → Text × Text

/-- A capture is stored as long as there is a slot. -/
def store (slots : Slots) (n : Nat) (name value : Text) : Slots :=
  if n < ORBIT_MAX_PATH_PARAMS then fun i => if i = n then (name, value) else slots i else slots

def isQueryMark (c : Char) : Bool := c = '?' || c = '#'

def skipSlashes (t : Text) : Text := t.dropWhile (· = '/')

/-- The text without the slashes at its end. -/
def trimSlashes (t : Text) : Text := (t.reverse.dropWhile (· = '/')).reverse

/-- The matcher from the segment after `pp` and `qp` on: the count of parameters of a match, and the
slots. -/
def matchFrom : (fuel : Nat) → (pp qp : Text) → (n : Nat) → Slots → Option Nat × Slots
  | 0, _, _, _, slots => (none, slots)
  | fuel + 1, pp, qp, n, slots =>
    let pp := skipSlashes pp
    let qp := skipSlashes qp
    let qp := if qp.head?.any isQueryMark then [] else qp
    if pp = [] ∧ qp = [] then (some n, slots)
    else if pp = [] ∨ qp = [] then (none, slots)
    else
      let p := pp.takeWhile (· ≠ '/')
      let pe := pp.dropWhile (· ≠ '/')
      let q := qp.takeWhile fun c => c ≠ '/' && !isQueryMark c
      let qe := qp.dropWhile fun c => c ≠ '/' && !isQueryMark c
      if p.head? = some ':' ∧ p.length > 4 ∧ endsWithDots p then
        if pe ≠ [] then (none, slots)
        else
          let value := trimSlashes (qp.takeWhile fun c => !isQueryMark c)
          if value = [] then (none, slots)
          else (some (n + 1), store slots n ((p.drop 1).take (p.length - 4)) value)
      else if p.head? = some ':' then
        if p.length < 2 then (none, slots)
        else matchFrom fuel pe qe (n + 1) (store slots n (p.drop 1) q)
      else if p.length ≥ 2 ∧ p.head? = some '\x7b' ∧ p.getLast? = some '\x7d' then
        if p.length = 2 then (none, slots)
        else matchFrom fuel pe qe (n + 1) (store slots n ((p.drop 1).take (p.length - 2)) q)
      else if p = ['*'] then matchFrom fuel pe qe n slots
      else if p ≠ q then (none, slots)
      else matchFrom fuel pe qe n slots

/-- The parts of a request that the chain reads and writes. -/
structure Request where
  method : Text
  path : Text
  paramCount : Nat
  params : Slots

/-- A parsed request has no parameters yet. -/
def Request.fresh (method path : Text) : Request := ⟨method, path, 0, fun _ => ([], [])⟩

/-- The parameters that a handler can read. -/
def Request.visible (req : Request) : List (Text × Text) :=
  (List.range (min req.paramCount ORBIT_MAX_PATH_PARAMS)).map req.params

def orbitRouteMatch (req : Request) (method pattern : Text) : Bool × Request :=
  let req := { req with paramCount := 0 }
  if req.method ≠ method then (false, req)
  else
    match matchFrom (pattern.length + 1) pattern req.path 0 req.params with
    | (some n, slots) => (true, { req with paramCount := n, params := slots })
    | (none, slots) => (false, { req with params := slots })

/-! ## The chain -/

/-- The condition of an arm, with what C reads of its literals. -/
inductive Condition where
  | same (path method : Text)
  | pattern (method path : Text)
  deriving DecidableEq, Repr

section
-- what C reads of a text between quotes
variable (literal : Text → Text)

/-- The arms of the chain, each with its route. -/
def generateRouterBlock (routes : List Route) : List (Condition × Route) :=
  (routes.filter fun r => routeHasParams r.path = false).map
      (fun r => (.same (literal r.path) r.method, r)) ++
    (routes.filter fun r => routeHasParams r.path && routeHasMultiParams r.path = false).map
      (fun r => (.pattern r.method (literal r.path), r)) ++
    (routes.filter fun r => routeHasMultiParams r.path).map
      (fun r => (.pattern r.method (literal r.path), r))

end

def Condition.eval (req : Request) : Condition → Bool × Request
  | .same path method => (req.path = path && req.method = method, req)
  | .pattern method path => orbitRouteMatch req method path

/-- The route whose handler runs, `none` for the 404, and the request it sees. -/
def runChain : List (Condition × Route) → Request → Option Route × Request
  | [], req => (none, req)
  | (c, r) :: arms, req =>
    match c.eval req with
    | (true, req) => (some r, req)
    | (false, req) => runChain arms req

def dispatch (literal : Text → Text) (routes : List Route) (req : Request) :
    Option Route × Request :=
  runChain (generateRouterBlock literal routes) req

end Runtime.Router

/-!
# What routes mean

A path is its non-empty pieces; a pattern is a list of segments, each a literal, a capture of one
piece, a wildcard or, at the end, a capture of the rest. A request goes to the first route that
matches among the static ones, else among those with parameters, else among those that capture the
rest (`choose`).
-/

namespace Runtime.Router

open Http (Text)

/-- The path of a request target: what stands before a query or a fragment. -/
def pathOf (t : Text) : Text := t.takeWhile fun c => !isQueryMark c

/-- The non-empty pieces of a path, each with the text from it on, the slashes at the end aside.
The flag says whether a piece may start. -/
def parts : Bool → Text → List (Text × Text)
  | _, [] => []
  | start, c :: t =>
    if c = '/' then parts true t
    else if start then ((c :: t).takeWhile (· ≠ '/'), trimSlashes (c :: t)) :: parts false t
    else parts false t

inductive Seg where
  | literal (s : Text)
  | capture (name : Text)
  | wildcard
  | rest (name : Text)
  /-- A capture without a name. -/
  | nameless
  deriving DecidableEq, Repr

def Seg.of (s : Text) : Seg :=
  if s.head? = some ':' ∧ s.length > 4 ∧ endsWithDots s then
    .rest ((s.drop 1).take (s.length - 4))
  else if s.head? = some ':' then if s.length < 2 then .nameless else .capture (s.drop 1)
  else if s.length ≥ 2 ∧ s.head? = some '\x7b' ∧ s.getLast? = some '\x7d' then
    if s.length = 2 then .nameless else .capture ((s.drop 1).take (s.length - 2))
  else if s = ['*'] then .wildcard
  else .literal s

def segments (pattern : Text) : List Seg := (parts true pattern).map fun p => Seg.of p.1

/-- The parameters that the pieces of a path give to a pattern. -/
def matchSegs : List Seg → List (Text × Text) → Option (List (Text × Text))
  | [], [] => some []
  | [.rest name], (_, value) :: _ => some [(name, value)]
  | .capture name :: ps, (s, _) :: qs => (matchSegs ps qs).map ((name, s) :: ·)
  | .wildcard :: ps, _ :: qs => matchSegs ps qs
  | .literal t :: ps, (s, _) :: qs => if t = s then matchSegs ps qs else none
  | _, _ => none

def Seg.isLiteral : Seg → Bool
  | .literal _ => true
  | _ => false

def Seg.isRest : Seg → Bool
  | .rest _ => true
  | _ => false

/-- Slashes behind a capture of the rest. -/
def restThenSlash (pattern : Text) : Bool :=
  (segments pattern).any Seg.isRest && pattern.getLast? = some '/'

/-- A segment that has a slot. -/
def Seg.isCapture : Seg → Bool
  | .capture _ => true
  | .rest _ => true
  | _ => false

section
variable (literal : Text → Text)

def Route.segs (r : Route) : List Seg := segments (literal r.path)

/-- The parameters of a route that matches. -/
def Route.captures (r : Route) (req : Request) : Option (List (Text × Text)) :=
  if r.method = req.method then matchSegs (r.segs literal) (parts true (pathOf req.path)) else none

def Route.isStatic (r : Route) : Bool := (r.segs literal).all Seg.isLiteral

def Route.isMulti (r : Route) : Bool := (r.segs literal).any Seg.isRest

/-- The first route of a kind that matches. -/
def firstOf (kind : Route → Bool) (routes : List Route) (req : Request) : Option Route :=
  routes.find? fun r => kind r && (r.captures literal req).isSome

def choose (routes : List Route) (req : Request) : Option Route :=
  (firstOf literal (Route.isStatic literal) routes req).or <|
    (firstOf literal (fun r => !r.isStatic literal && !r.isMulti literal) routes req).or <|
      firstOf literal (Route.isMulti literal) routes req

/-- The router does what the routes say: it runs the handler of the chosen route or answers 404, the
handler sees the parameters of its route and no others, and every route is of use. -/
structure Routes (routes : List Route) (req : Request) : Prop where
  chosen : (dispatch literal routes req).1 = choose literal routes req
  params : ∀ r, (dispatch literal routes req).1 = some r →
    r.captures literal req = some (dispatch literal routes req).2.visible
  alone : ∀ r ∈ routes, ∃ path,
    (dispatch literal [r] (Request.fresh r.method path)).1 = some r

/-! ## The patterns that the router reads as meant -/

/-- A list of segments that some path matches. -/
def fits : List Seg → Bool
  | [] => true
  | [.rest _] => true
  | .literal s :: segs => !s.any isQueryMark && fits segs
  | .capture _ :: segs => fits segs
  | .wildcard :: segs => fits segs
  | _ => false

/-- A route that its arm can serve. -/
def Route.usable (r : Route) : Bool :=
  routeHasParams r.path = false || restThenSlash (literal r.path) = false && fits (r.segs literal)

/-- The scans of the path put a route where its segments do, a static route is spelled without a
query, and there is a slot for each of its captures. -/
def Route.placed (r : Route) : Bool :=
  (routeHasParams r.path = !r.isStatic literal) && (routeHasMultiParams r.path = r.isMulti literal) &&
    (r.isStatic literal → (literal r.path).any isQueryMark = false) &&
    ((r.segs literal).filter Seg.isCapture).length ≤ ORBIT_MAX_PATH_PARAMS

/-- The route that is chosen and those whose arms stand in front of its own; without one, all. -/
def tried (routes : List Route) (req : Request) : List Route :=
  match choose literal routes req with
  | none => routes
  | some r => r :: ((generateRouterBlock literal routes).map Prod.snd).takeWhile (· ≠ r)

/-- The routes that match a request are placed, as far as the chain has to try them. -/
def Placed (routes : List Route) (req : Request) : Prop :=
  ∀ r ∈ tried literal routes req, (r.captures literal req).isSome ∨
    (routeHasParams r.path = false ∧ literal r.path = req.path ∧ r.method = req.method) →
      r.placed literal

end

end Runtime.Router
