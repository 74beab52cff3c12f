import Orbit.Runtime.Proof.RouterMatch

/-!
# Dispatch

The chain of conditions runs the handler of the first route in the order of the tiers
(`dispatch_spec`), each tier decided by the scans of the path. Where the scans put the routes that
are tried in the tiers of their segments, the router does what its routes say exactly when each
route is of use and the static route that matches is spelled as the request spells it
(`routes_iff`).

`orbit_route_match` is documented by the segments of its pattern (`documentedCaptures`): what it
returns, binds and counts is this exactly when the path does not match, or the pattern has no slash
behind a capture of the rest and no more captures than there are slots (`orbitRouteMatch_iff`).
-/

namespace Runtime.Router

open Http (Text)

/-! ## Segments -/

theorem matchSegs_length {segs : List Seg} {qs caps : List (Text × Text)}
    (h : matchSegs segs qs = some caps) : caps.length = (segs.filter Seg.isCapture).length := by
  induction segs generalizing qs caps with
  | nil =>
    cases qs with
    | nil => cases h; rfl
    | cons q qs => cases h
  | cons seg segs ih =>
    cases qs with
    | nil => rw [matchSegs_nil_right] at h; cases h
    | cons q qs =>
      cases seg with
      | nameless => cases h
      | wildcard => exact ih h
      | literal s =>
        rw [matchSegs] at h
        split at h
        · exact ih h
        · cases h
      | capture name =>
        obtain ⟨l, hl, rfl⟩ := Option.map_eq_some_iff.mp h
        rw [List.length_cons, ih hl]
        rfl
      | rest name =>
        cases segs with
        | nil => cases h; rfl
        | cons seg' segs => cases h

theorem matchSegs_fits {segs : List Seg} {qs caps : List (Text × Text)}
    (hq : ∀ q ∈ qs, q.1.any isQueryMark = false) (h : matchSegs segs qs = some caps) :
    fits segs = true := by
  induction segs generalizing qs caps with
  | nil => rfl
  | cons seg segs ih =>
    cases qs with
    | nil => rw [matchSegs_nil_right] at h; cases h
    | cons q qs =>
      have hqs : ∀ q ∈ qs, q.1.any isQueryMark = false :=
        fun q' hq' => hq q' (List.mem_cons_of_mem _ hq')
      cases seg with
      | nameless => cases h
      | wildcard => exact ih hqs h
      | literal s =>
        rw [matchSegs] at h
        split at h
        · next hs =>
          rw [fits, hs, hq q List.mem_cons_self, ih hqs h]
          rfl
        · cases h
      | capture name =>
        obtain ⟨l, hl, -⟩ := Option.map_eq_some_iff.mp h
        exact ih hqs hl
      | rest name =>
        cases segs with
        | nil => rfl
        | cons seg' segs => cases h

theorem Seg.of_literal {s w : Text} (h : Seg.of s = .literal w) : w = s := by
  rw [Seg.of] at h
  split at h
  · cases h
  · split at h
    · split at h <;> cases h
    · split at h
      · split at h <;> cases h
      · split at h
        · cases h
        · cases h; rfl

/-- Literal segments match the path that is spelled as they are. -/
theorem matchSegs_self {qs : List (Text × Text)}
    (h : (qs.map fun q => Seg.of q.1).all Seg.isLiteral = true) :
    matchSegs (qs.map fun q => Seg.of q.1) qs = some [] := by
  induction qs with
  | nil => rfl
  | cons q qs ih =>
    rw [List.map_cons, List.all_cons, Bool.and_eq_true] at h
    rw [List.map_cons]
    cases hseg : Seg.of q.1 with
    | literal w =>
      rw [matchSegs, if_pos (Seg.of_literal hseg)]
      exact ih h.2
    | nameless => rw [hseg] at h; cases h.1
    | wildcard => rw [hseg] at h; cases h.1
    | capture name => rw [hseg] at h; cases h.1
    | rest name => rw [hseg] at h; cases h.1

theorem mem_parts {b : Bool} {t : Text} {q : Text × Text} (h : q ∈ parts b t) :
    q.1 ≠ [] ∧ ∀ c ∈ q.1, c ≠ '/' ∧ c ∈ t := by
  induction t generalizing b with
  | nil => cases b <;> cases h
  | cons c t ih =>
    have hlater : ∀ {b}, q ∈ parts b t → q.1 ≠ [] ∧ ∀ d ∈ q.1, d ≠ '/' ∧ d ∈ c :: t := by
      intro b hq
      obtain ⟨hne, hmem⟩ := ih hq
      exact ⟨hne, fun d hd => ⟨(hmem d hd).1, List.mem_cons_of_mem _ (hmem d hd).2⟩⟩
    rw [parts] at h
    split at h
    · exact hlater h
    · next hc =>
      split at h
      · rcases List.mem_cons.mp h with rfl | hq
        · refine ⟨?_, fun d hd => ⟨by simpa using List.mem_takeWhile_imp hd,
            (List.takeWhile_prefix fun x => decide (x ≠ '/')).subset hd⟩⟩
          rw [List.takeWhile_cons_of_pos (by simpa using hc)]
          exact List.cons_ne_nil _ _
        · exact hlater hq
      · exact hlater h

theorem parts_plain {t : Text} {q : Text × Text} (h : q ∈ parts true (pathOf t)) :
    q.1.any isQueryMark = false := by
  rw [List.any_eq_false]
  intro c hc
  have := List.mem_takeWhile_imp ((mem_parts h).2 c hc).2
  simpa using this

theorem pathOf_plain {t : Text} (h : t.any isQueryMark = false) : pathOf t = t := by
  rw [List.any_eq_false] at h
  exact List.takeWhile_eq_self_iff.mpr fun c hc => by simpa using h c hc

/-- Every list of segments that fits has a path. -/
theorem exists_path {segs : List Seg} (h : fits segs = true)
    (hl : ∀ s, .literal s ∈ segs → s ≠ [] ∧ ∀ c ∈ s, c ≠ '/') :
    ∃ path, EndsPiece path ∧ path.any isQueryMark = false ∧
      (matchSegs segs (parts true path)).isSome := by
  induction segs with
  | nil => exact ⟨[], .inl rfl, rfl, rfl⟩
  | cons seg segs ih =>
    have hl' : ∀ s, .literal s ∈ segs → s ≠ [] ∧ ∀ c ∈ s, c ≠ '/' :=
      fun s hs => hl s (List.mem_cons_of_mem _ hs)
    have hpiece : ∀ (s : Text) {path : Text}, s ≠ [] → (∀ c ∈ s, c ≠ '/') → EndsPiece path →
        parts true ('/' :: (s ++ path)) = (s, trimSlashes (s ++ path)) :: parts true path :=
      fun s path hne hs hp => parts_piece hne hs hp
    have hx : ∀ c ∈ ['x'], c ≠ '/' := by
      intro c hc
      rw [List.mem_singleton.mp hc]
      decide
    cases seg with
    | nameless => cases h
    | literal s =>
      rw [fits, Bool.and_eq_true, Bool.not_eq_true'] at h
      obtain ⟨path, hends, hplain, hsome⟩ := ih h.2 hl'
      obtain ⟨hne, hs⟩ := hl s List.mem_cons_self
      refine ⟨'/' :: (s ++ path), .inr ⟨_, rfl⟩, ?_, ?_⟩
      · rw [List.any_cons, List.any_append, h.1, hplain]
        rfl
      · rw [hpiece s hne hs hends, matchSegs, if_pos rfl]
        exact hsome
    | wildcard =>
      obtain ⟨path, hends, hplain, hsome⟩ := ih h hl'
      refine ⟨'/' :: (['x'] ++ path), .inr ⟨_, rfl⟩, ?_, ?_⟩
      · rw [List.any_cons, List.any_append, hplain]
        rfl
      · rw [hpiece ['x'] (List.cons_ne_nil _ _) hx hends]
        exact hsome
    | capture name =>
      obtain ⟨path, hends, hplain, hsome⟩ := ih h hl'
      refine ⟨'/' :: (['x'] ++ path), .inr ⟨_, rfl⟩, ?_, ?_⟩
      · rw [List.any_cons, List.any_append, hplain]
        rfl
      · rw [hpiece ['x'] (List.cons_ne_nil _ _) hx hends, matchSegs, Option.isSome_map]
        exact hsome
    | rest name =>
      cases segs with
      | nil => exact ⟨['/', 'x'], .inr ⟨_, rfl⟩, rfl, rfl⟩
      | cons seg' segs => cases h

/-! ## The chain -/

theorem visible_take {slots slots' : Slots} {caps : List (Text × Text)}
    (h : Stored 0 slots caps slots') (method path : Text) :
    (Request.mk method path caps.length slots').visible = caps.take ORBIT_MAX_PATH_PARAMS := by
  refine List.ext_getElem? fun i => ?_
  simp only [Request.visible, List.getElem?_map, List.getElem?_take]
  by_cases hi : i < min caps.length ORBIT_MAX_PATH_PARAMS
  · have hmax : i < ORBIT_MAX_PATH_PARAMS := by omega
    have hcaps : i < caps.length := by omega
    rw [List.getElem?_range hi, if_pos hmax, Option.map_some, h i hmax, if_pos (Nat.zero_le _),
      Nat.sub_zero, List.getD_eq_getElem?_getD, List.getElem?_eq_getElem hcaps]
    rfl
  · rw [List.getElem?_eq_none (by rw [List.length_range]; omega)]
    split
    · rw [List.getElem?_eq_none (by omega)]
      rfl
    · rfl

/-- The arm of a route with parameters. -/
theorem orbitRouteMatch_spec (req : Request) (method pattern : Text) :
    (orbitRouteMatch req method pattern).2.method = req.method ∧
    (orbitRouteMatch req method pattern).2.path = req.path ∧
    (orbitRouteMatch req method pattern).1 =
      (decide (req.method = method) && (patternCaptures pattern req.path).isSome) ∧
    ∀ caps, (orbitRouteMatch req method pattern).1 = true →
      patternCaptures pattern req.path = some caps →
      (orbitRouteMatch req method pattern).2.visible = caps.take ORBIT_MAX_PATH_PARAMS := by
  rw [orbitRouteMatch]
  by_cases hm : req.method = method
  · subst hm
    obtain ⟨hcount, hstored⟩ := matchFrom_spec (pattern.length + 1) pattern req.path 0 req.params
      (Nat.lt_succ_self _)
    simp only [ne_eq, not_true_eq_false, if_false]
    rcases hres : matchFrom (pattern.length + 1) pattern req.path 0 req.params with ⟨count, slots⟩
    rw [hres] at hcount hstored
    cases hcaps : patternCaptures pattern req.path with
    | none =>
      rw [hcaps] at hcount
      cases hcount
      exact ⟨rfl, rfl, by simp, fun _ _ h => nomatch h⟩
    | some caps =>
      rw [hcaps] at hcount
      cases hcount
      refine ⟨rfl, rfl, by simp, fun l _ hl => ?_⟩
      cases hl
      have := visible_take (hstored caps hcaps) req.method req.path
      simpa using this
  · simp only [ne_eq, hm, not_false_eq_true, if_true]
    exact ⟨trivial, trivial, by simp, fun _ h => nomatch h⟩

theorem runChain_append (arms arms' : List (Condition × Route)) (req : Request) :
    runChain (arms ++ arms') req =
      match runChain arms req with
      | (some r, req) => (some r, req)
      | (none, req) => runChain arms' req := by
  induction arms generalizing req with
  | nil => rfl
  | cons arm arms ih =>
    rw [List.cons_append, runChain, runChain]
    rcases arm.1.eval req with ⟨_ | _, req'⟩
    · exact ih req'
    · rfl

section
variable (literal : Text → Text)

/-- The request of the arm of a static route. -/
def Route.spelled (r : Route) (req : Request) : Bool :=
  req.path = literal r.path && req.method = r.method

/-- The parameters that the arm of a route finds. -/
def Route.found (r : Route) (req : Request) : Option (List (Text × Text)) :=
  if r.method = req.method then patternCaptures (literal r.path) req.path else none

theorem runChain_same (rs : List Route) (req : Request) :
    runChain (rs.map fun r => (.same (literal r.path) r.method, r)) req =
      (rs.find? fun r => r.spelled literal req, req) := by
  induction rs with
  | nil => rfl
  | cons r rs ih =>
    rw [List.map_cons, runChain, Condition.eval, List.find?_cons, Route.spelled]
    cases (decide (req.path = literal r.path) && decide (req.method = r.method)) with
    | false => exact ih
    | true => rfl

theorem runChain_pattern (rs : List Route) (req : Request) :
    let run := runChain (rs.map fun r => (.pattern r.method (literal r.path), r)) req
    run.2.method = req.method ∧ run.2.path = req.path ∧
    run.1 = (rs.find? fun r => (r.found literal req).isSome) ∧
    ∀ r caps, run.1 = some r → r.found literal req = some caps →
      run.2.visible = caps.take ORBIT_MAX_PATH_PARAMS := by
  induction rs generalizing req with
  | nil => exact ⟨rfl, rfl, rfl, fun _ _ h => nomatch h⟩
  | cons r rs ih =>
    obtain ⟨hmethod, hpath, hres, hvis⟩ := orbitRouteMatch_spec req r.method (literal r.path)
    have hfound : (r.found literal req).isSome =
        (orbitRouteMatch req r.method (literal r.path)).1 := by
      rw [hres, Route.found]
      by_cases hm : r.method = req.method
      · rw [if_pos hm, hm]
        simp
      · rw [if_neg hm, decide_eq_false (fun h => hm h.symm)]
        rfl
    rcases hmatch : orbitRouteMatch req r.method (literal r.path) with ⟨_ | _, req'⟩
    · rw [hmatch] at hmethod hpath hfound
      obtain ⟨ihm, ihp, ihr, ihv⟩ := ih req'
      have hsame : ∀ r : Route, r.found literal req' = r.found literal req := by
        intro r
        rw [Route.found, Route.found, hmethod, hpath]
      simp only [hsame] at ihr ihv
      simp only [List.map_cons, runChain, Condition.eval, List.find?_cons, hfound, hmatch]
      exact ⟨ihm.trans hmethod, ihp.trans hpath, ihr, ihv⟩
    · rw [hmatch] at hmethod hpath hfound hvis
      simp only [List.map_cons, runChain, Condition.eval, List.find?_cons, hfound, hmatch]
      refine ⟨hmethod, hpath, trivial, fun r' caps hr hcaps => ?_⟩
      cases hr
      apply hvis caps rfl
      rw [Route.found] at hcaps
      split at hcaps
      · exact hcaps
      · cases hcaps

theorem found_congr (r : Route) {req req' : Request} (hm : req'.method = req.method)
    (hp : req'.path = req.path) : r.found literal req' = r.found literal req := by
  rw [Route.found, Route.found, hm, hp]

/-- The tiers of the chain. -/
def staticTier (routes : List Route) : List Route :=
  routes.filter fun r => routeHasParams r.path = false

def paramTier (routes : List Route) : List Route :=
  routes.filter fun r => routeHasParams r.path && routeHasMultiParams r.path = false

def multiTier (routes : List Route) : List Route :=
  routes.filter fun r => routeHasMultiParams r.path

/-- What a handler sees: the request as it came, or the parameters of its own route. -/
def Seen (r : Route) (req req' : Request) : Prop :=
  (req' = req ∧ r.spelled literal req ∧ routeHasParams r.path = false) ∨
    ∃ caps, r.found literal req = some caps ∧ req'.visible = caps.take ORBIT_MAX_PATH_PARAMS ∧
      (routeHasParams r.path || routeHasMultiParams r.path)

theorem seen_pattern {rs : List Route} {req req' : Request} {r : Route}
    (hm : req'.method = req.method) (hp : req'.path = req.path)
    (hrs : ∀ r ∈ rs, (routeHasParams r.path || routeHasMultiParams r.path) = true)
    (h : (runChain (rs.map fun r => (.pattern r.method (literal r.path), r)) req').1 = some r) :
    Seen literal r req (runChain (rs.map fun r => (.pattern r.method (literal r.path), r)) req').2 := by
  obtain ⟨-, -, hres, hvis⟩ := runChain_pattern literal rs req'
  have hfind := h
  rw [hres] at hfind
  have hsome := List.find?_some hfind
  obtain ⟨caps, hcaps⟩ := Option.isSome_iff_exists.mp hsome
  refine .inr ⟨caps, ?_, hvis r caps h hcaps, hrs r (List.mem_of_find?_eq_some hfind)⟩
  rw [← found_congr literal r hm hp]
  exact hcaps

/-- **The chain runs the first route in the order of the tiers of the scans, and its handler sees no
parameters but its own.** -/
theorem dispatch_spec (routes : List Route) (req : Request) :
    (dispatch literal routes req).1 =
      ((staticTier routes).find? fun r => r.spelled literal req).or
        (((paramTier routes).find? fun r => (r.found literal req).isSome).or
          ((multiTier routes).find? fun r => (r.found literal req).isSome)) ∧
    ∀ r, (dispatch literal routes req).1 = some r →
      Seen literal r req (dispatch literal routes req).2 := by
  rw [dispatch, generateRouterBlock, List.append_assoc, runChain_append, runChain_same]
  cases hs : (staticTier routes).find? fun r => r.spelled literal req with
  | some r =>
    rw [staticTier] at hs
    simp only [hs, Option.some_or]
    refine ⟨trivial, fun r' hr => ?_⟩
    cases hr
    have hmem := List.mem_filter.mp (List.mem_of_find?_eq_some hs)
    have hspelled : r.spelled literal req = true :=
      List.find?_some (p := fun r => Route.spelled literal r req) hs
    exact .inl ⟨rfl, hspelled, by simpa using hmem.2⟩
  | none =>
    rw [staticTier] at hs
    obtain ⟨hmethod, hpath, hres, -⟩ := runChain_pattern literal (paramTier routes) req
    have hparam : ∀ r ∈ paramTier routes,
        (routeHasParams r.path || routeHasMultiParams r.path) = true := by
      intro r hr
      have := (List.mem_filter.mp hr).2
      rw [Bool.and_eq_true] at this
      rw [this.1, Bool.true_or]
    have hmulti : ∀ r ∈ multiTier routes,
        (routeHasParams r.path || routeHasMultiParams r.path) = true := by
      intro r hr
      rw [(List.mem_filter.mp hr).2, Bool.or_true]
    have hseen : ∀ r, (runChain ((paramTier routes).map fun r =>
        (.pattern r.method (literal r.path), r)) req).1 = some r →
        Seen literal r req (runChain ((paramTier routes).map fun r =>
          (.pattern r.method (literal r.path), r)) req).2 :=
      fun r => seen_pattern literal rfl rfl hparam
    simp only [hs, Option.none_or, runChain_append]
    rw [← hres]
    simp only [← paramTier.eq_1, ← multiTier.eq_1]
    rcases hrun : runChain ((paramTier routes).map fun r => (.pattern r.method (literal r.path), r))
      req with ⟨_ | r, req'⟩
    · rw [hrun] at hmethod hpath
      obtain ⟨-, -, hres', -⟩ := runChain_pattern literal (multiTier routes) req'
      simp only [found_congr literal _ hmethod hpath] at hres'
      rw [hrun]
      exact ⟨hres', fun r => seen_pattern literal hmethod hpath hmulti⟩
    · rw [hrun]
      refine ⟨rfl, fun r' hr => ?_⟩
      cases hr
      have := hseen r (by rw [hrun])
      rw [hrun] at this
      exact this

/-! ## The routes and the chain -/

theorem captures_eq_found {r : Route} (h : restThenSlash (literal r.path) = false)
    (req : Request) : r.captures literal req = r.found literal req := by
  rw [Route.captures, Route.found, patternCaptures, h, if_neg Bool.false_ne_true]
  rfl

theorem found_captures {r : Route} {req : Request} {caps : List (Text × Text)}
    (h : r.found literal req = some caps) : r.captures literal req = some caps := by
  rw [Route.found] at h
  split at h
  · next hm =>
    rw [patternCaptures] at h
    split at h
    · cases h
    · rw [Route.captures, if_pos hm]
      exact h
  · cases h

theorem found_fits {r : Route} {req : Request} {caps : List (Text × Text)}
    (h : r.found literal req = some caps) :
    restThenSlash (literal r.path) = false ∧ fits (r.segs literal) = true := by
  rw [Route.found] at h
  split at h
  · rw [patternCaptures] at h
    split at h
    · cases h
    · next hrest => exact ⟨Bool.eq_false_iff.mpr hrest, matchSegs_fits (fun q => parts_plain) h⟩
  · cases h

theorem exists_found {r : Route} (h : restThenSlash (literal r.path) = false)
    (hf : fits (r.segs literal) = true) :
    ∃ path, (r.found literal (Request.fresh r.method path)).isSome := by
  obtain ⟨path, -, hplain, hsome⟩ := exists_path hf (by
    intro s hs
    obtain ⟨q, hq, hseg⟩ := List.mem_map.mp hs
    rw [Seg.of_literal hseg]
    exact ⟨(mem_parts hq).1, fun c hc => ((mem_parts hq).2 c hc).1⟩)
  refine ⟨path, ?_⟩
  rw [← captures_eq_found literal h, Route.captures]
  simp only [Request.fresh, pathOf_plain hplain, if_true]
  exact hsome

/-- **A route alone matches a path exactly when it is usable.** -/
theorem alone_iff (r : Route) :
    (∃ path, (dispatch literal [r] (Request.fresh r.method path)).1 = some r) ↔
      r.usable literal = true := by
  constructor
  · rintro ⟨path, h⟩
    rcases (dispatch_spec literal [r] _).2 r h with ⟨-, -, hs⟩ | ⟨caps, hcaps, -, -⟩
    · rw [Route.usable, hs]
      rfl
    · obtain ⟨hrest, hfits⟩ := found_fits literal hcaps
      rw [Route.usable, hrest, hfits]
      exact Bool.or_true _
  · intro h
    cases hp : routeHasParams r.path with
    | false =>
      refine ⟨literal r.path, ?_⟩
      rw [(dispatch_spec literal [r] _).1, staticTier, List.filter_cons_of_pos (by simpa using hp),
        List.find?_cons_of_pos (by simp [Route.spelled, Request.fresh])]
      rfl
    | true =>
      rw [Route.usable, hp, Bool.or_eq_true, Bool.and_eq_true, decide_eq_true_eq,
        decide_eq_true_eq] at h
      obtain ⟨hrest, hfits⟩ := h.resolve_left Bool.noConfusion
      obtain ⟨path, hfound⟩ := exists_found literal hrest hfits
      refine ⟨path, ?_⟩
      rw [(dispatch_spec literal [r] _).1, staticTier, List.filter_cons_of_neg (by simp [hp])]
      cases hm : routeHasMultiParams r.path with
      | false =>
        rw [paramTier, List.filter_cons_of_pos (by simp [hp, hm]), List.find?_cons, hfound]
        rfl
      | true =>
        rw [paramTier, List.filter_cons_of_neg (by simp [hm]), multiTier,
          List.filter_cons_of_pos (by simp [hm]), List.find?_cons, hfound]
        rfl

/-- Two searches that find what the other one looks for find the same. -/
theorem find?_both {p q : Route → Bool} {rs : List Route} {a b : Route} (ha : rs.find? p = some a)
    (hb : rs.find? q = some b) (hqa : q a = true) (hpb : p b = true) : a = b := by
  induction rs with
  | nil => cases ha
  | cons r rs ih =>
    by_cases hp : p r = true
    · rw [List.find?_cons_of_pos hp, Option.some.injEq] at ha
      subst ha
      rw [List.find?_cons_of_pos hqa] at hb
      exact Option.some.inj hb
    · by_cases hq : q r = true
      · rw [List.find?_cons_of_pos hq, Option.some.injEq] at hb
        subst hb
        exact absurd hpb hp
      · rw [List.find?_cons_of_neg hp] at ha
        rw [List.find?_cons_of_neg hq] at hb
        exact ih ha hb

/-- A tier that holds the first route of a kind finds a route, and no other one of that kind. -/
theorem tier_first (tier p : Route → Bool) {kind : Route → Bool} {routes : List Route}
    {req : Request} {c : Route} (hfirst : firstOf literal kind routes req = some c)
    (hc : tier c = true) (hp : p c = true) :
    ∃ r, (routes.filter tier).find? p = some r ∧ tier r = true ∧ p r = true ∧
      (kind r = true → (r.captures literal req).isSome = true → r = c) := by
  cases hfind : (routes.filter tier).find? p with
  | none =>
    rw [List.find?_filter, List.find?_eq_none] at hfind
    exact absurd (by rw [hc, hp]; rfl) (hfind c (List.mem_of_find?_eq_some hfirst))
  | some r =>
    refine ⟨r, rfl, (List.mem_filter.mp (List.mem_of_find?_eq_some hfind)).2,
      List.find?_some hfind, fun hkind hmatch => ?_⟩
    rw [List.find?_filter] at hfind
    exact find?_both hfind hfirst (by rw [hkind, hmatch]; rfl) (by rw [hc, hp]; rfl)

/-- The route that the static tier finds is one that matches. -/
theorem spelled_captures {r : Route} {req : Request} (hs : r.spelled literal req = true)
    (hstatic : r.isStatic literal = true) (hplain : (literal r.path).any isQueryMark = false) :
    r.captures literal req = some [] := by
  simp only [Route.spelled, Bool.and_eq_true, decide_eq_true_eq] at hs
  rw [Route.captures, if_pos hs.2.symm, hs.1, pathOf_plain hplain]
  exact matchSegs_self hstatic

theorem isMulti_not_isStatic {r : Route} (h : r.isMulti literal = true) :
    r.isStatic literal = false := by
  rw [Route.isMulti, List.any_eq_true] at h
  obtain ⟨seg, hmem, hrest⟩ := h
  rw [Route.isStatic, List.all_eq_false]
  refine ⟨seg, hmem, ?_⟩
  cases seg with
  | rest name => exact Bool.false_ne_true
  | literal s => cases hrest
  | capture name => cases hrest
  | wildcard => cases hrest
  | nameless => cases hrest

theorem Route.placed_iff {r : Route} : r.placed literal = true ↔
    routeHasParams r.path = !r.isStatic literal ∧ routeHasMultiParams r.path = r.isMulti literal ∧
    (r.isStatic literal = true → (literal r.path).any isQueryMark = false) ∧
    ((r.segs literal).filter Seg.isCapture).length ≤ ORBIT_MAX_PATH_PARAMS := by
  simp only [Route.placed, Bool.and_eq_true, decide_eq_true_eq, and_assoc]

theorem usable_found {r : Route} {req : Request} (hu : r.usable literal = true)
    (hp : routeHasParams r.path = true) : r.captures literal req = r.found literal req := by
  rw [Route.usable, hp, Bool.or_eq_true, Bool.and_eq_true, decide_eq_true_eq,
    decide_eq_true_eq] at hu
  exact captures_eq_found literal (hu.resolve_left Bool.noConfusion).1 req

/-- A placed route that the static tier finds is a static route that matches. -/
theorem static_matches {r : Route} {req : Request} (hr : r.placed literal = true)
    (hp : routeHasParams r.path = false) (hs : r.spelled literal req = true) :
    r.isStatic literal = true ∧ r.captures literal req = some [] := by
  obtain ⟨hstatic, -, hplain, -⟩ := (Route.placed_iff literal).mp hr
  rw [hp] at hstatic
  have hstat : r.isStatic literal = true := by simpa using hstatic
  exact ⟨hstat, spelled_captures literal hs hstat (hplain hstat)⟩

/-- The handler of a placed route sees the parameters of its route. -/
theorem seen_params {r : Route} {method path : Text} {req' : Request} (hr : r.placed literal = true)
    (h : Seen literal r (Request.fresh method path) req') :
    r.captures literal (Request.fresh method path) = some req'.visible := by
  rcases h with ⟨rfl, hs, hp⟩ | ⟨caps, hcaps, hvis, -⟩
  · exact (static_matches literal hr hp hs).2
  · have hsome := found_captures literal hcaps
    obtain ⟨-, -, -, hlen⟩ := (Route.placed_iff literal).mp hr
    have hmatch : matchSegs (r.segs literal) (parts true (pathOf path)) = some caps := by
      rw [Route.captures] at hsome
      split at hsome
      · exact hsome
      · cases hsome
    rw [← matchSegs_length hmatch] at hlen
    rw [hsome, hvis, List.take_of_length_le hlen]

theorem dispatch_mem {routes : List Route} {req : Request} {r : Route}
    (h : (dispatch literal routes req).1 = some r) : r ∈ routes := by
  rw [(dispatch_spec literal routes req).1, Option.or_eq_some_iff, Option.or_eq_some_iff] at h
  rcases h with h | ⟨-, h | ⟨-, h⟩⟩
  all_goals exact List.mem_of_mem_filter (List.mem_of_find?_eq_some h)

/-! ### The arms that are tried -/

/-- The arms of a route: those of its tiers. -/
theorem mem_arms {routes : List Route} {k : Condition} {r : Route} :
    (k, r) ∈ generateRouterBlock literal routes ↔ r ∈ routes ∧
      ((routeHasParams r.path = false ∧ k = .same (literal r.path) r.method) ∨
        ((routeHasParams r.path = true ∧ routeHasMultiParams r.path = false ∨
          routeHasMultiParams r.path = true) ∧ k = .pattern r.method (literal r.path))) := by
  simp only [generateRouterBlock, List.mem_append, List.mem_map, List.mem_filter, Prod.mk.injEq,
    Bool.and_eq_true, decide_eq_true_eq]
  constructor
  · rintro ((⟨r, ⟨hr, hp⟩, rfl, rfl⟩ | ⟨r, ⟨hr, hp⟩, rfl, rfl⟩) | ⟨r, ⟨hr, hm⟩, rfl, rfl⟩)
    · exact ⟨hr, .inl ⟨hp, rfl⟩⟩
    · exact ⟨hr, .inr ⟨.inl hp, rfl⟩⟩
    · exact ⟨hr, .inr ⟨.inr hm, rfl⟩⟩
  · rintro ⟨hr, ⟨hp, rfl⟩ | ⟨hp | hm, rfl⟩⟩
    · exact .inl (.inl ⟨r, ⟨hr, hp⟩, rfl, rfl⟩)
    · exact .inl (.inr ⟨r, ⟨hr, hp⟩, rfl, rfl⟩)
    · exact .inr ⟨r, ⟨hr, hm⟩, rfl, rfl⟩

/-- Whether the arm of a route takes the request. -/
def armTakes (req : Request) (arm : Condition × Route) : Bool :=
  match arm.1 with
  | .same _ _ => arm.2.spelled literal req
  | .pattern _ _ => (arm.2.found literal req).isSome

/-- The chain runs the route of the first arm that takes the request. -/
theorem dispatch_find (routes : List Route) (req : Request) :
    (dispatch literal routes req).1 =
      ((generateRouterBlock literal routes).find? (armTakes literal req)).map Prod.snd := by
  have hmap : ∀ (rs : List Route) (k : Route → Condition),
      ((rs.map fun r => (k r, r)).find? (armTakes literal req)).map Prod.snd =
        rs.find? fun r => armTakes literal req (k r, r) := by
    intro rs k
    rw [List.find?_map, Option.map_map]
    exact congrFun Option.map_id _
  rw [(dispatch_spec literal routes req).1, generateRouterBlock, List.find?_append,
    List.find?_append, Option.map_or, Option.map_or, hmap, hmap, hmap, Option.or_assoc]
  rfl

section
variable {routes : List Route} {req : Request} {c r : Route}

/-- A placed route has one arm. -/
theorem arm_unique (hc : c.placed literal = true) {k k' : Condition}
    (hk : (k, c) ∈ generateRouterBlock literal routes)
    (hk' : (k', c) ∈ generateRouterBlock literal routes) : k = k' := by
  obtain ⟨hstatic, hmulti, -, -⟩ := (Route.placed_iff literal).mp hc
  have hnot : routeHasParams c.path = false → routeHasMultiParams c.path = true → False := by
    intro hp hm
    rw [hp] at hstatic
    rw [hmulti] at hm
    rw [isMulti_not_isStatic literal hm] at hstatic
    cases hstatic
  obtain ⟨-, ⟨hp, rfl⟩ | ⟨hp, rfl⟩⟩ := (mem_arms literal).mp hk
  · obtain ⟨-, ⟨-, rfl⟩ | ⟨hp', rfl⟩⟩ := (mem_arms literal).mp hk'
    · rfl
    · rcases hp' with ⟨hp', -⟩ | hm
      · exact absurd (hp.symm.trans hp') (by decide)
      · exact absurd hm (hnot hp)
  · obtain ⟨-, ⟨hp', rfl⟩ | ⟨-, rfl⟩⟩ := (mem_arms literal).mp hk'
    · rcases hp with ⟨hp, -⟩ | hm
      · exact absurd (hp'.symm.trans hp) (by decide)
      · exact absurd hm (hnot hp')
    · rfl

/-- Where the arm of the chosen route takes the request, the route that runs has been tried. -/
theorem run_tried (hchoose : choose literal routes req = some c) (hc : c.placed literal = true)
    {k : Condition} (hk : (k, c) ∈ generateRouterBlock literal routes)
    (htakes : armTakes literal req (k, c) = true)
    (hrun : (dispatch literal routes req).1 = some r) :
    r ∈ tried literal routes req := by
  rw [dispatch_find, Option.map_eq_some_iff] at hrun
  obtain ⟨⟨k', r'⟩, hfind, rfl⟩ := hrun
  obtain ⟨-, before, behind, harms, hnone⟩ := List.find?_eq_some_iff_append.mp hfind
  rw [tried, hchoose]
  by_cases hrc : r' = c
  · rw [hrc]
    exact List.mem_cons_self
  · refine List.mem_cons_of_mem _ ?_
    have hbefore : ∀ r ∈ before.map Prod.snd, decide (r ≠ c) = true := by
      intro r hr
      obtain ⟨⟨k'', r''⟩, hmem, rfl⟩ := List.mem_map.mp hr
      rw [decide_eq_true_eq]
      rintro rfl
      have hin : (k'', r'') ∈ generateRouterBlock literal routes := by
        rw [harms]
        exact List.mem_append_left _ hmem
      have hno := hnone _ hmem
      rw [arm_unique literal hc hin hk, htakes] at hno
      cases hno
    rw [harms, List.map_append, List.map_cons, List.takeWhile_append_of_pos hbefore,
      List.takeWhile_cons_of_pos (by simpa using hrc)]
    exact List.mem_append_right _ List.mem_cons_self

/-- A route that runs matches the request. -/
theorem run_matches (hrun : (dispatch literal routes req).1 = some r) :
    (r.captures literal req).isSome ∨
      (routeHasParams r.path = false ∧ literal r.path = req.path ∧ r.method = req.method) := by
  rcases (dispatch_spec literal routes req).2 r hrun with ⟨-, hs, hp⟩ | ⟨caps, hcaps, -, -⟩
  · simp only [Route.spelled, Bool.and_eq_true, decide_eq_true_eq] at hs
    exact .inr ⟨hp, hs.1.symm, hs.2.symm⟩
  · rw [found_captures literal hcaps]
    exact .inl rfl

/-- A route that matches is chosen, or another one is. -/
theorem choose_ne_none (hr : r ∈ routes) (hsome : (r.captures literal req).isSome = true) :
    choose literal routes req ≠ none := by
  intro h
  simp only [choose, Option.or_eq_none_iff, firstOf, List.find?_eq_none, Bool.and_eq_true, not_and,
    Bool.not_eq_true'] at h
  obtain ⟨hstatic, hparam, hmulti⟩ := h
  have hs : r.isStatic literal = false := Bool.eq_false_iff.mpr fun hs => hstatic r hr hs hsome
  have hm : r.isMulti literal = false := Bool.eq_false_iff.mpr fun hm => hmulti r hr hm hsome
  exact hparam r hr ⟨hs, hm⟩ hsome

/-- The chosen route matches. -/
theorem choose_matches (h : choose literal routes req = some c) :
    c ∈ routes ∧ (c.captures literal req).isSome = true := by
  simp only [choose, Option.or_eq_some_iff, firstOf] at h
  rcases h with h | ⟨-, h | ⟨-, h⟩⟩
  all_goals
    have hboth := List.find?_some h
    rw [Bool.and_eq_true] at hboth
    exact ⟨List.mem_of_find?_eq_some h, hboth.2⟩

end


section
variable {routes : List Route} {method path : Text}
  (hplaced : Placed literal routes (Request.fresh method path))
include hplaced

/-- Without a route that matches there is none that runs. -/
theorem run_none (hchoose : choose literal routes (Request.fresh method path) = none) :
    (dispatch literal routes (Request.fresh method path)).1 = none := by
  rw [Option.eq_none_iff_forall_ne_some]
  intro r hrun
  have hr := dispatch_mem literal hrun
  have hplacedr : r.placed literal = true :=
    hplaced r (by rwa [tried, hchoose]) (run_matches literal hrun)
  have hseen := seen_params literal hplacedr ((dispatch_spec literal routes _).2 r hrun)
  exact choose_ne_none literal hr (by rw [hseen]; rfl) hchoose

/-- The chosen route is placed. -/
theorem chosen_placed {c : Route}
    (hchoose : choose literal routes (Request.fresh method path) = some c) :
    c.placed literal = true :=
  hplaced c (by rw [tried, hchoose]; exact List.mem_cons_self)
    (.inl (choose_matches literal hchoose).2)

/-- The route that runs in front of the chosen one, if that would run, is placed. -/
theorem run_placed {c r : Route}
    (hchoose : choose literal routes (Request.fresh method path) = some c) {k : Condition}
    (hk : (k, c) ∈ generateRouterBlock literal routes)
    (htakes : armTakes literal (Request.fresh method path) (k, c) = true)
    (hrun : (dispatch literal routes (Request.fresh method path)).1 = some r) :
    r.placed literal = true :=
  hplaced r (run_tried literal hchoose (chosen_placed literal hplaced hchoose) hk htakes hrun)
    (run_matches literal hrun)

/-- A static route that is chosen runs if the request spells it. -/
theorem run_static {c : Route} (hc : firstOf literal (Route.isStatic literal) routes
      (Request.fresh method path) = some c) (hspelled : literal c.path = path) :
    (dispatch literal routes (Request.fresh method path)).1 = some c := by
  have hchoose : choose literal routes (Request.fresh method path) = some c := by
    rw [choose, hc, Option.some_or]
  have hpc := chosen_placed literal hplaced hchoose
  obtain ⟨hcr, hsome⟩ := choose_matches literal hchoose
  have hboth := List.find?_some hc
  rw [Bool.and_eq_true] at hboth
  have hstatic : routeHasParams c.path = false := by
    rw [((Route.placed_iff literal).mp hpc).1, hboth.1]
    rfl
  have hmethod : c.method = method := by
    rw [Route.captures] at hsome
    split at hsome
    · assumption
    · cases hsome
  have htakes : c.spelled literal (Request.fresh method path) = true := by
    simp [Route.spelled, Request.fresh, hspelled, hmethod]
  have harm := (mem_arms literal).mpr ⟨hcr, .inl ⟨hstatic, rfl⟩⟩
  have hspec := (dispatch_spec literal routes (Request.fresh method path)).1
  obtain ⟨r, hfind, htier, hr, hfirst⟩ := tier_first literal
    (fun r => routeHasParams r.path = false)
    (fun r => r.spelled literal (Request.fresh method path)) hc (decide_eq_true hstatic) htakes
  rw [staticTier, hfind, Option.some_or] at hspec
  have hpr := run_placed literal hplaced hchoose harm htakes hspec
  obtain ⟨hrs, hrc⟩ := static_matches literal hpr (of_decide_eq_true htier) hr
  rw [hspec, hfirst hrs (by rw [hrc]; rfl)]

end

section
variable {routes : List Route} {method path : Text} {c : Route}
  (hplaced : ∀ r, (dispatch literal routes (Request.fresh method path)).1 = some r →
    r.placed literal = true)
  (hnone : firstOf literal (Route.isStatic literal) routes (Request.fresh method path) = none)
include hplaced

/-- What the arms of the routes with parameters find, and where the segments put it. -/
theorem pattern_matches {r : Route}
    (hrun : (dispatch literal routes (Request.fresh method path)).1 = some r)
    (hfound : (r.found literal (Request.fresh method path)).isSome = true) :
    (r.captures literal (Request.fresh method path)).isSome = true ∧
      routeHasParams r.path = !r.isStatic literal ∧
      routeHasMultiParams r.path = r.isMulti literal := by
  obtain ⟨caps, hcaps⟩ := Option.isSome_iff_exists.mp hfound
  obtain ⟨hrs, hrm, -, -⟩ := (Route.placed_iff literal).mp (hplaced r hrun)
  exact ⟨by rw [found_captures literal hcaps]; rfl, hrs, hrm⟩

include hnone

/-- Without a static route that matches, no arm of a static route takes the request. -/
theorem static_quiet : (staticTier routes).find? (fun r =>
    r.spelled literal (Request.fresh method path)) = none := by
  rw [Option.eq_none_iff_forall_ne_some]
  intro r hfind
  have hr := List.find?_some (p := fun r => Route.spelled literal r _) hfind
  obtain ⟨hmem, hp⟩ := List.mem_filter.mp (List.mem_of_find?_eq_some hfind)
  have hpr := hplaced r (by rw [(dispatch_spec literal routes _).1, hfind, Option.some_or])
  obtain ⟨hrs, hrc⟩ := static_matches literal hpr (by simpa using hp) hr
  rw [firstOf, List.find?_eq_none] at hnone
  exact hnone r hmem (by rw [hrs, hrc]; rfl)

/-- The first route with parameters that matches runs. -/
theorem run_param (hfirst : firstOf literal (fun r => !r.isStatic literal && !r.isMulti literal)
      routes (Request.fresh method path) = some c)
    (hc : routeHasParams c.path = true ∧ routeHasMultiParams c.path = false)
    (hfound : (c.found literal (Request.fresh method path)).isSome = true) :
    (dispatch literal routes (Request.fresh method path)).1 = some c := by
  have hspec := (dispatch_spec literal routes (Request.fresh method path)).1
  rw [static_quiet literal hplaced hnone, Option.none_or] at hspec
  obtain ⟨r, hfind, htier, hr, hsame⟩ := tier_first literal
    (fun r => routeHasParams r.path && routeHasMultiParams r.path = false)
    (fun r => (r.found literal (Request.fresh method path)).isSome) hfirst (by simp [hc]) hfound
  rw [paramTier, hfind, Option.some_or] at hspec
  rw [Bool.and_eq_true, decide_eq_true_eq] at htier
  obtain ⟨hrc, hrs, hrm⟩ := pattern_matches literal hplaced hspec hr
  have hkind : (!r.isStatic literal && !r.isMulti literal) = true := by
    rw [← hrs, ← hrm, htier.1, htier.2]
    rfl
  rw [hspec, hsame hkind hrc]

/-- The first route with a capture of the rest that matches runs, without one of the other kinds. -/
theorem run_multi (hnoparam : firstOf literal (fun r => !r.isStatic literal && !r.isMulti literal)
      routes (Request.fresh method path) = none)
    (hfirst : firstOf literal (Route.isMulti literal) routes (Request.fresh method path) = some c)
    (hc : routeHasMultiParams c.path = true)
    (hfound : (c.found literal (Request.fresh method path)).isSome = true) :
    (dispatch literal routes (Request.fresh method path)).1 = some c := by
  have hspec := (dispatch_spec literal routes (Request.fresh method path)).1
  rw [static_quiet literal hplaced hnone, Option.none_or] at hspec
  cases hfind : (paramTier routes).find? fun r =>
      (r.found literal (Request.fresh method path)).isSome with
  | some r =>
    rw [hfind, Option.some_or] at hspec
    have hr := List.find?_some (p := fun r => (Route.found literal r _).isSome) hfind
    obtain ⟨hmem, htier⟩ := List.mem_filter.mp (List.mem_of_find?_eq_some hfind)
    rw [Bool.and_eq_true, decide_eq_true_eq] at htier
    obtain ⟨hrc, hrs, hrm⟩ := pattern_matches literal hplaced hspec hr
    rw [firstOf, List.find?_eq_none] at hnoparam
    exact absurd (by rw [← hrs, ← hrm, htier.1, htier.2, hrc]; rfl) (hnoparam r hmem)
  | none =>
    rw [hfind, Option.none_or] at hspec
    obtain ⟨r, hfindm, htier, hr, hsame⟩ := tier_first literal
      (fun r => routeHasMultiParams r.path)
      (fun r => (r.found literal (Request.fresh method path)).isSome) hfirst hc hfound
    rw [multiTier, hfindm] at hspec
    obtain ⟨hrc, -, hrm⟩ := pattern_matches literal hplaced hspec hr
    rw [hspec, hsame (hrm.symm.trans htier) hrc]

end

/-- A route that is not static and is chosen runs. -/
theorem run_pattern {routes : List Route} {method path : Text}
    (hplaced : Placed literal routes (Request.fresh method path)) {c : Route}
    (hu : ∀ r ∈ routes, r.usable literal = true)
    (hnone : firstOf literal (Route.isStatic literal) routes (Request.fresh method path) = none)
    (hchoose : choose literal routes (Request.fresh method path) = some c) :
    (dispatch literal routes (Request.fresh method path)).1 = some c := by
  obtain ⟨hstatic, hmulti, -, -⟩ :=
    (Route.placed_iff literal).mp (chosen_placed literal hplaced hchoose)
  obtain ⟨hcr, hsome⟩ := choose_matches literal hchoose
  have hparam : routeHasParams c.path = true := by
    by_contra hp
    have hs : c.isStatic literal = true := by simpa [hstatic] using hp
    rw [firstOf, List.find?_eq_none] at hnone
    exact hnone c hcr (by rw [hs, hsome]; rfl)
  have hfound : (c.found literal (Request.fresh method path)).isSome = true := by
    rwa [← usable_found literal (hu c hcr) hparam]
  have harm : (Condition.pattern c.method (literal c.path), c) ∈
      generateRouterBlock literal routes := by
    refine (mem_arms literal).mpr ⟨hcr, .inr ⟨?_, rfl⟩⟩
    cases hm : routeHasMultiParams c.path with
    | false => exact .inl ⟨hparam, rfl⟩
    | true => exact .inr rfl
  have hrun : ∀ r, (dispatch literal routes (Request.fresh method path)).1 = some r →
      r.placed literal = true := fun r => run_placed literal hplaced hchoose harm hfound
  rw [choose, hnone, Option.none_or, Option.or_eq_some_iff] at hchoose
  rcases hchoose with hfirst | ⟨hnoparam, hfirst⟩
  · have hkind := List.find?_some hfirst
    simp only [Bool.and_eq_true, Bool.not_eq_true'] at hkind
    exact run_param literal hrun hnone hfirst ⟨hparam, hmulti.trans hkind.1.2⟩ hfound
  · have hkind := List.find?_some hfirst
    rw [Bool.and_eq_true] at hkind
    exact run_multi literal hrun hnone hnoparam hfirst (hmulti.trans hkind.1) hfound

end

def noteRoutes : List Route :=
  [⟨Lib.Text.chars "GET", Lib.Text.chars "/notes"⟩,
    ⟨Lib.Text.chars "GET", Lib.Text.chars "/notes/:id"⟩,
    ⟨Lib.Text.chars "GET", Lib.Text.chars "/files/:path..."⟩]

/-- What a pattern captures of a path. -/
def documentedCaptures (pattern path : Text) : Option (List (Text × Text)) :=
  matchSegs (segments pattern) (parts true (pathOf path))

/-- What `orbit_route_match` is to do with a request. -/
structure AsDocumented (req : Request) (method pattern : Text) : Prop where
  returns : (orbitRouteMatch req method pattern).1 = true ↔
    req.method = method ∧ (documentedCaptures pattern req.path).isSome
  binds : (orbitRouteMatch req method pattern).1 = true →
    ∀ caps, documentedCaptures pattern req.path = some caps →
      (orbitRouteMatch req method pattern).2.paramCount = min caps.length ORBIT_MAX_PATH_PARAMS ∧
        (orbitRouteMatch req method pattern).2.visible = caps.take ORBIT_MAX_PATH_PARAMS
  fails : (orbitRouteMatch req method pattern).1 = false →
    (orbitRouteMatch req method pattern).2.paramCount = 0

/-- What the matcher finds. -/
theorem patternCaptures_eq_some {pattern path : Text} {caps : List (Text × Text)} :
    patternCaptures pattern path = some caps ↔
      restThenSlash pattern = false ∧ documentedCaptures pattern path = some caps := by
  rw [patternCaptures]
  split
  · next hslash => simp [hslash]
  · next hslash => simp [Bool.eq_false_iff.mpr hslash, documentedCaptures]

/-! ## The count -/

theorem orbitRouteMatch_count (req : Request) (method pattern : Text) :
    (orbitRouteMatch req method pattern).2.paramCount =
      if (orbitRouteMatch req method pattern).1 = true then
        ((patternCaptures pattern req.path).map List.length).getD 0
      else 0 := by
  rw [orbitRouteMatch]
  by_cases hm : req.method = method
  · obtain ⟨hcount, -⟩ := matchFrom_spec (pattern.length + 1) pattern req.path 0 req.params
      (Nat.lt_succ_self _)
    simp only [ne_eq, hm, not_true_eq_false, if_false]
    rcases hres : matchFrom (pattern.length + 1) pattern req.path 0 req.params with ⟨count, slots⟩
    rw [hres] at hcount
    cases hcaps : patternCaptures pattern req.path with
    | none =>
      rw [hcaps] at hcount
      cases hcount
      rfl
    | some caps =>
      rw [hcaps] at hcount
      cases hcount
      exact Nat.zero_add _
  · simp [hm]

/-- What a path that matches as documented says of the pattern. -/
theorem AsDocumented.fits {req : Request} {method pattern : Text}
    (h : AsDocumented req method pattern) (hm : req.method = method)
    (hsome : (documentedCaptures pattern req.path).isSome) :
    restThenSlash pattern = false ∧
      ((segments pattern).filter Seg.isCapture).length ≤ ORBIT_MAX_PATH_PARAMS := by
  obtain ⟨-, -, hres, -⟩ := orbitRouteMatch_spec req method pattern
  have hcount := orbitRouteMatch_count req method pattern
  have htrue := h.returns.mpr ⟨hm, hsome⟩
  obtain ⟨caps, hcaps⟩ := Option.isSome_iff_exists.mp hsome
  obtain ⟨hmin, -⟩ := h.binds htrue caps hcaps
  rw [hcount, if_pos htrue] at hmin
  rw [hres, Bool.and_eq_true] at htrue
  obtain ⟨found, hfound⟩ := Option.isSome_iff_exists.mp htrue.2
  obtain ⟨hslash, hsame⟩ := patternCaptures_eq_some.mp hfound
  rw [hcaps, Option.some.injEq] at hsame
  subst hsame
  refine ⟨hslash, ?_⟩
  rw [hfound] at hmin
  have hlength := matchSegs_length hcaps
  change caps.length = min caps.length ORBIT_MAX_PATH_PARAMS at hmin
  omega

/-- **The matcher does what it is documented to do** exactly when the path does not match, or each
capture has a slot and none of the rest has a slash behind it. -/
theorem orbitRouteMatch_iff (req : Request) (method pattern : Text) :
    AsDocumented req method pattern ↔
      (req.method = method → (documentedCaptures pattern req.path).isSome →
        restThenSlash pattern = false ∧
          ((segments pattern).filter Seg.isCapture).length ≤ ORBIT_MAX_PATH_PARAMS) := by
  obtain ⟨-, -, hres, hvisible⟩ := orbitRouteMatch_spec req method pattern
  have hcount := orbitRouteMatch_count req method pattern
  constructor
  · exact fun h => h.fits
  · intro h
    refine ⟨?_, ?_, ?_⟩
    · rw [hres, Bool.and_eq_true, decide_eq_true_eq]
      refine and_congr_right fun hm => ⟨fun hsome => ?_, fun hsome => ?_⟩
      · obtain ⟨caps, hcaps⟩ := Option.isSome_iff_exists.mp hsome
        rw [(patternCaptures_eq_some.mp hcaps).2]
        rfl
      · obtain ⟨hslash, -⟩ := h hm hsome
        obtain ⟨caps, hcaps⟩ := Option.isSome_iff_exists.mp hsome
        rw [patternCaptures_eq_some.mpr ⟨hslash, hcaps⟩]
        rfl
    · intro htrue caps hcaps
      have hm : req.method = method := by
        rw [hres, Bool.and_eq_true, decide_eq_true_eq] at htrue
        exact htrue.1
      obtain ⟨hslash, hslots⟩ := h hm (by rw [hcaps]; rfl)
      have hfound := patternCaptures_eq_some.mpr ⟨hslash, hcaps⟩
      have hlength := matchSegs_length hcaps
      refine ⟨?_, hvisible caps htrue hfound⟩
      rw [hcount, if_pos htrue, hfound]
      change caps.length = min caps.length ORBIT_MAX_PATH_PARAMS
      omega
    · intro hfalse
      rw [hcount, hfalse]
      rfl

/-- A pattern of 33 captures and a path of 33 pieces. -/
theorem orbitRouteMatch_counts_past_slots :
    ¬ AsDocumented (Request.fresh ['G', 'E', 'T'] (List.replicate 33 ['/', 'x']).flatten)
      ['G', 'E', 'T'] (List.replicate 33 ['/', ':', 'a']).flatten := by
  intro h
  have hslots := (h.fits rfl (by decide)).2
  revert hslots
  decide

end Runtime.Router
