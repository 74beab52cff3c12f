import Orbit.Runtime.Proof.HttpHead

/-!
# Requests out of a buffer

The parser cuts the request line at the first two spaces of the whole buffer. What it reports lies
in the request, and it stores nothing behind it, exactly when those spaces are found in the request
line (`orbitHttpParseRequest_frame_iff`). As long as every request has two spaces, and no head comes
to the limit only with its blank line, the requests do not depend on how the stream is cut into
reads (`serve_segments`).
-/

namespace Runtime.Http

open Lib.Stream

/-! ## The frame -/

/-- The buffer starts with a request of `n` bytes. -/
def Holds (raw : Text) (n : Nat) : Prop :=
  ∃ e, HeadEndsAt raw e ∧ n = e + 4 + (scanHead (raw.take (e + 4))).contentLength ∧
    n ≤ raw.length

def Slice.Within (s : Slice) (stop : Nat) : Prop := s.start ≤ s.stop ∧ s.stop ≤ stop

/-- The slices of a request of `n` bytes lie in it, method and path in its first line, and the NULs
are stored there. -/
structure Framed (raw : Text) (n : Nat) (nulls : List Nat) (req : OrbitRequest) : Prop where
  nulls : ∀ i ∈ nulls, i < n
  line : ∀ line, memchr raw '\n' 0 raw.length = some line →
    req.method.Within line ∧ req.path.Within line
  query : ∀ q ∈ req.query, q.Within n
  headers : ∀ h ∈ req.headers, h.Within n
  body : req.body.Within n

/-- What the parser owes to a buffer. -/
structure Frame (raw : Text) (a : Answer) : Prop where
  request : ∀ n, Holds raw n → ∀ req consumed, a.outcome = .request req consumed →
    consumed = n ∧ Framed raw n a.nulls req
  unchanged : (∀ req consumed, a.outcome ≠ .request req consumed) → a.nulls = []

/-- The first space of the buffer is in the first line; and the next one, when there is one, in the
first `n` bytes, with the path up to it, or to its `?`, in the line. -/
def SpacesInLine (raw : Text) (n : Nat) : Prop :=
  ∀ line space, memchr raw '\n' 0 raw.length = some line →
    memchr raw ' ' 0 raw.length = some space → space < line ∧
      ∀ stop, memchr raw ' ' (space + 1) raw.length = some stop →
        stop < n ∧ (memchr raw '?' (space + 1) stop).getD stop ≤ line

section
variable {lim : OrbitHttpLimits} {raw : Text}

theorem Holds.unique {n m : Nat} (h : Holds raw n) (h' : Holds raw m) : n = m := by
  obtain ⟨e, he, hn, -⟩ := h
  obtain ⟨e', he', hm, -⟩ := h'
  have hee : e = e' := by
    have h1 := findHeadEnd_eq_some.mpr he
    rwa [findHeadEnd_eq_some.mpr he', Option.some.injEq, eq_comm] at h1
  rw [hn, hm, hee]

/-- The first line of a complete head ends in it. -/
theorem HeadEndsAt.line {e : Nat} (h : HeadEndsAt raw e) :
    ∃ line, memchr raw '\n' 0 raw.length = some line ∧ line ≤ e + 1 := by
  have hlen := h.le_length
  cases hline : memchr raw '\n' 0 raw.length with
  | none =>
    exact absurd h.getElem?.2 (memchr_eq_none.mp hline (e + 1) (Nat.zero_le _) (by omega))
  | some line =>
    refine ⟨line, rfl, Nat.le_of_not_lt fun hlt => ?_⟩
    obtain ⟨-, -, -, hmin⟩ := memchr_eq_some.mp hline
    exact hmin (e + 1) (Nat.zero_le _) hlt h.getElem?.2

theorem headerSlice_within {e : Nat} {s : Slice} (h : headerSlice raw e = some s) :
    s.Within e := by
  rw [headerSlice] at h
  split at h
  · split at h
    · cases h
      exact ⟨by simp only; omega, Nat.le_refl _⟩
    · cases h
  · cases h

/-- What a request is cut into. -/
theorem splitRequest_cases (raw : Text) (e cl : Nat) :
    (memchr raw ' ' 0 raw.length = none ∧ splitRequest raw e cl = ⟨.more, []⟩) ∨
      ∃ space pathEnd req, memchr raw ' ' 0 raw.length = some space ∧
        pathEnd = (memchr raw ' ' (space + 1) raw.length).getD (space + 1) ∧
        (splitRequest raw e cl).outcome = .request req (e + 4 + cl) ∧
        req.method = ⟨0, space⟩ ∧
        req.path = ⟨space + 1, (memchr raw '?' (space + 1) pathEnd).getD pathEnd⟩ ∧
        req.query = (memchr raw '?' (space + 1) pathEnd).map (fun q => ⟨q + 1, pathEnd⟩) ∧
        req.headers = headerSlice raw e ∧ req.body = ⟨e + 4, e + 4 + cl⟩ ∧
        (splitRequest raw e cl).nulls =
          space :: ((memchr raw '?' (space + 1) pathEnd).toList ++ [pathEnd]) := by
  cases hspace : memchr raw ' ' 0 raw.length with
  | none => exact .inl ⟨rfl, by simp only [splitRequest, hspace]⟩
  | some space =>
    obtain ⟨pathEnd, hend⟩ :
        ∃ p, p = (memchr raw ' ' (space + 1) raw.length).getD (space + 1) := ⟨_, rfl⟩
    cases hquery : memchr raw '?' (space + 1) pathEnd with
    | none =>
      exact .inr ⟨space, pathEnd, ⟨⟨0, space⟩, ⟨space + 1, pathEnd⟩, none, headerSlice raw e,
        ⟨e + 4, e + 4 + cl⟩⟩, rfl, hend, by simp [splitRequest, hspace, ← hend, hquery]⟩
    | some query =>
      exact .inr ⟨space, pathEnd, ⟨⟨0, space⟩, ⟨space + 1, query⟩, some ⟨query + 1, pathEnd⟩,
        headerSlice raw e, ⟨e + 4, e + 4 + cl⟩⟩, rfl, hend,
        by simp [splitRequest, hspace, ← hend, hquery]⟩

theorem pathEnd_le (raw : Text) (space : Nat) :
    space + 1 ≤ (memchr raw ' ' (space + 1) raw.length).getD (space + 1) := by
  cases hstop : memchr raw ' ' (space + 1) raw.length with
  | none => exact Nat.le_refl _
  | some stop => exact (memchr_eq_some.mp hstop).1

theorem framed_of_spaces {e cl : Nat} {req : OrbitRequest} {consumed : Nat}
    (he : HeadEndsAt raw e) (hsp : SpacesInLine raw (e + 4 + cl))
    (h : (splitRequest raw e cl).outcome = .request req consumed) :
    consumed = e + 4 + cl ∧
      Framed raw (e + 4 + cl) (splitRequest raw e cl).nulls req := by
  obtain ⟨line, hline, hle⟩ := he.line
  rcases splitRequest_cases raw e cl with ⟨-, hmore⟩ |
    ⟨space, pathEnd, req', hspace, hend, hout, hmethod, hpath, hquery, hheaders, hbody, hnulls⟩
  · rw [hmore] at h
    cases h
  rw [hout] at h
  cases h
  obtain ⟨hlt, hnext⟩ := hsp line space hline hspace
  have hpathEnd : space + 1 ≤ pathEnd := hend ▸ pathEnd_le raw space
  -- without a second space the path is empty, right behind the first one
  have hstop : pathEnd < e + 4 + cl ∧ (memchr raw '?' (space + 1) pathEnd).getD pathEnd ≤ line := by
    cases hsecond : memchr raw ' ' (space + 1) raw.length with
    | some stop =>
      rw [hsecond] at hend
      exact hend ▸ hnext stop hsecond
    | none =>
      rw [hsecond] at hend
      rw [Option.getD_none] at hend
      subst hend
      have : memchr raw '?' (space + 1) (space + 1) = none :=
        memchr_eq_none.mpr fun q _ _ => by omega
      rw [this, Option.getD_none]
      omega
  have hmark : ∀ q, memchr raw '?' (space + 1) pathEnd = some q → space + 1 ≤ q ∧ q < pathEnd :=
    fun q hq => ⟨(memchr_eq_some.mp hq).1, (memchr_eq_some.mp hq).2.1⟩
  refine ⟨rfl, ⟨?_, ?_, ?_, ?_, ?_⟩⟩
  · intro i hi
    rw [hnulls, List.mem_cons, List.mem_append, Option.mem_toList, List.mem_singleton] at hi
    rcases hi with rfl | hi | rfl
    · omega
    · have := hmark i hi
      omega
    · exact hstop.1
  · intro line' hline'
    rw [hline, Option.some.injEq] at hline'
    subst hline'
    rw [hmethod, hpath]
    refine ⟨⟨Nat.zero_le _, Nat.le_of_lt hlt⟩, ?_, hstop.2⟩
    cases hq : memchr raw '?' (space + 1) pathEnd with
    | none => exact hpathEnd
    | some q => exact (hmark q hq).1
  · intro q hq
    rw [hquery, Option.mem_def, Option.map_eq_some_iff] at hq
    obtain ⟨p, hp, rfl⟩ := hq
    have := hmark p hp
    exact ⟨this.2, Nat.le_of_lt hstop.1⟩
  · intro s hs
    rw [hheaders, Option.mem_def] at hs
    have := headerSlice_within hs
    exact ⟨this.1, by have := this.2; omega⟩
  · rw [hbody]
    exact ⟨Nat.le_add_right _ _, Nat.le_refl _⟩

theorem spaces_of_framed {e cl : Nat}
    (h : ∀ req consumed, (splitRequest raw e cl).outcome = .request req consumed →
      Framed raw (e + 4 + cl) (splitRequest raw e cl).nulls req) :
    SpacesInLine raw (e + 4 + cl) := by
  intro line space hline hspace
  rcases splitRequest_cases raw e cl with ⟨hnone, -⟩ |
    ⟨space', pathEnd, req, hspace', hend, hout, hmethod, hpath, -, -, -, hnulls⟩
  · rw [hspace] at hnone
    cases hnone
  rw [hspace, Option.some.injEq] at hspace'
  subst hspace'
  have hframed := h req _ hout
  obtain ⟨hm, hp⟩ := hframed.line line hline
  rw [hmethod] at hm
  rw [hpath] at hp
  have hne : space ≠ line := by
    rintro rfl
    have h1 := (memchr_eq_some.mp hline).2.2.1
    rw [(memchr_eq_some.mp hspace).2.2.1] at h1
    cases h1
  refine ⟨Nat.lt_of_le_of_ne hm.2 hne, fun stop hstop => ?_⟩
  rw [hstop, Option.getD_some] at hend
  subst hend
  refine ⟨hframed.nulls _ ?_, hp.2⟩
  rw [hnulls]
  simp

end

/-- **The parser stays in its request** exactly when the spaces that it looks for all over the
buffer are in the request line; of a head that is refused or incomplete nothing is asked. -/
theorem orbitHttpParseRequest_frame_iff (lim : OrbitHttpLimits) (raw : Text) :
    Frame raw (orbitHttpParseRequest lim raw) ↔
      ∀ n, Holds raw n → (∀ code, readHead lim raw ≠ .refuse code) → SpacesInLine raw n := by
  have hcomplete : ∀ {e cl}, readHead lim raw = .complete e cl →
      orbitHttpParseRequest lim raw = splitRequest raw e cl := by
    intro e cl h
    rw [orbitHttpParseRequest, h]
  constructor
  · intro hframe n hn hok
    obtain ⟨e, he, hlen, hle⟩ := hn
    cases hread : readHead lim raw with
    | refuse code => exact absurd hread (hok code)
    | more =>
      rcases readHead_cases lim raw with ⟨-, hr⟩ | ⟨-, -, hr⟩ | ⟨hnone, -⟩ | ⟨hline, hhead, -⟩
      · rw [hread] at hr
        cases hr
      · rw [hread] at hr
        cases hr
      · rw [findHeadEnd_eq_some.mpr he] at hnone
        cases hnone
      · rw [readHead_eq hline hhead he] at hread
        dsimp only at hread
        split_ifs at hread with h1 h2 h3 h4
        omega
    | complete e' cl =>
      obtain ⟨he', hcl, hle'⟩ := readHead_complete hread
      have hraw : Holds raw n := ⟨e, he, hlen, hle⟩
      have hn : n = e' + 4 + cl := hraw.unique ⟨e', he', by rw [hcl], hle'⟩
      subst hn
      refine spaces_of_framed fun req consumed hout => ?_
      have := (hframe.request _ ⟨e, he, hlen, hle⟩ req consumed (by rw [hcomplete hread, hout])).2
      rwa [hcomplete hread] at this
  · intro hsp
    cases hread : readHead lim raw with
    | refuse code =>
      have hans : orbitHttpParseRequest lim raw = ⟨.refused code, []⟩ := by
        rw [orbitHttpParseRequest, hread]
      rw [hans]
      exact ⟨fun _ _ _ _ h => (by cases h), fun _ => rfl⟩
    | more =>
      have hans : orbitHttpParseRequest lim raw = ⟨.more, []⟩ := by
        rw [orbitHttpParseRequest, hread]
      rw [hans]
      exact ⟨fun _ _ _ _ h => (by cases h), fun _ => rfl⟩
    | complete e cl =>
      obtain ⟨he, hcl, hle⟩ := readHead_complete hread
      have hholds : Holds raw (e + 4 + cl) := ⟨e, he, by rw [hcl], hle⟩
      have hspaces := hsp _ hholds fun code h => by rw [hread] at h; cases h
      rw [hcomplete hread]
      refine ⟨fun n hn req consumed hout => ?_, fun hno => ?_⟩
      · rw [hn.unique hholds]
        exact framed_of_spaces he hspaces hout
      · rcases splitRequest_cases raw e cl with ⟨-, hmore⟩ | ⟨space, pathEnd, req, -, -, hout, -⟩
        · rw [hmore]
        · exact absurd hout (hno req _)

/-- The limits when the environment sets none. -/
def defaultLimits : OrbitHttpLimits := orbitHttpLimitsReload fun _ => none

/-- A first line of one space takes the next request's method for the end of its path. -/
theorem orbitHttpParseRequest_leaves :
    ¬ Frame "GET /a\r\n\r\nGET /b HTTP/1.1\r\n\r\n".toList
      (orbitHttpParseRequest defaultLimits "GET /a\r\n\r\nGET /b HTTP/1.1\r\n\r\n".toList) := by
  intro h
  have hholds : Holds "GET /a\r\n\r\nGET /b HTTP/1.1\r\n\r\n".toList 10 :=
    ⟨6, findHeadEnd_eq_some.mp (by decide), by decide, by decide⟩
  have hframed := (h.request 10 hholds ⟨⟨0, 3⟩, ⟨4, 13⟩, none, none, ⟨10, 10⟩⟩ 10 (by decide)).2
  exact absurd (hframed.nulls 13 (by decide)) (by decide)

/-! ## Cuts of the stream -/

/-- A request of the buffer that is not refused has two spaces, and its head does not come to the
limit of the header bytes with its blank line only. -/
structure Fit (lim : OrbitHttpLimits) (raw : Text) : Prop where
  spaces : ∀ n, Holds raw n → (∀ code, readHead lim raw ≠ .refuse code) →
    ∃ space stop, space < stop ∧ stop < n ∧ raw[space]? = some ' ' ∧ raw[stop]? = some ' '
  header : HeaderClear lim raw

section
variable {lim : OrbitHttpLimits} {raw : Text} (t : Text)

/-- A NUL that is stored in the first bytes leaves the others alone. -/
theorem stored_append {nulls : List Nat} (h : ∀ i ∈ nulls, i < raw.length) :
    stored (raw ++ t) nulls = stored raw nulls ++ t := by
  induction nulls generalizing raw with
  | nil => rfl
  | cons i nulls ih =>
    have hi := h i List.mem_cons_self
    rw [stored, List.foldl_cons, List.set_append_left _ _ hi]
    exact ih fun j hj => by
      rw [List.length_set]
      exact h j (List.mem_cons_of_mem _ hj)

theorem length_stored (raw : Text) (nulls : List Nat) : (stored raw nulls).length = raw.length := by
  induction nulls generalizing raw with
  | nil => rfl
  | cons i nulls ih =>
    rw [stored, List.foldl_cons]
    exact (ih (raw.set i nul)).trans List.length_set

theorem Slice.text_append {s : Slice} (h : s.stop ≤ raw.length) :
    s.text (raw ++ t) = s.text raw := by
  rw [Slice.text, Slice.text, List.take_append_of_le_length h]

/-- With its two spaces in the bytes that are there, a request is cut alike with more behind. -/
theorem splitRequest_append {e cl space stop : Nat} (he : HeadEndsAt raw e) (hlt : space < stop)
    (hspace : raw[space]? = some ' ') (hstop : raw[stop]? = some ' ') :
    splitRequest (raw ++ t) e cl = splitRequest raw e cl := by
  have hlen : raw.length ≤ (raw ++ t).length := by
    rw [List.length_append]
    omega
  have hstopLen := lt_length hstop
  obtain ⟨line, hline, -⟩ := he.line
  have hline' := memchr_append t hline (Nat.lt_of_lt_of_le (memchr_eq_some.mp hline).2.1 hlen)
  have hheaders : headerSlice (raw ++ t) e = headerSlice raw e := by
    simp only [headerSlice, hline, hline']
  cases hfirst : memchr raw ' ' 0 raw.length with
  | none => exact absurd hspace (memchr_eq_none.mp hfirst space (Nat.zero_le _) (by omega))
  | some a =>
    obtain ⟨-, ha, -, hmin⟩ := memchr_eq_some.mp hfirst
    have hle : a ≤ space := Nat.le_of_not_lt fun h => hmin space (Nat.zero_le _) h hspace
    have hfirst' := memchr_append t hfirst (Nat.lt_of_lt_of_le ha hlen)
    cases hsecond : memchr raw ' ' (a + 1) raw.length with
    | none => exact absurd hstop (memchr_eq_none.mp hsecond stop (by omega) hstopLen)
    | some b =>
      obtain ⟨-, hb, -⟩ := memchr_eq_some.mp hsecond
      have hsecond' := memchr_append t hsecond (Nat.lt_of_lt_of_le hb hlen)
      have hquery : memchr (raw ++ t) '?' (a + 1) b = memchr raw '?' (a + 1) b := by
        cases hq : memchr raw '?' (a + 1) b with
        | none => exact memchr_append_none t hq (Nat.le_of_lt hb)
        | some q => exact memchr_append t hq (memchr_eq_some.mp hq).2.1
      simp only [splitRequest, hfirst, hfirst', hsecond, hsecond', Option.getD_some, hquery,
        hheaders]

/-- The slices of a request with two spaces lie in the bytes that are there. -/
theorem splitRequest_within {e cl space stop : Nat} (he : HeadEndsAt raw e)
    (hle : e + 4 + cl ≤ raw.length) (hlt : space < stop) (hspace : raw[space]? = some ' ')
    (hstop : raw[stop]? = some ' ') {req : OrbitRequest} {consumed : Nat}
    (h : (splitRequest raw e cl).outcome = .request req consumed) :
    consumed = e + 4 + cl ∧ (∀ i ∈ (splitRequest raw e cl).nulls, i < raw.length) ∧
      req.method.stop ≤ raw.length ∧ req.path.stop ≤ raw.length ∧
      (∀ q ∈ req.query, q.stop ≤ raw.length) ∧ (∀ s ∈ req.headers, s.stop ≤ raw.length) ∧
      req.body.stop ≤ raw.length := by
  rcases splitRequest_cases raw e cl with ⟨-, hmore⟩ |
    ⟨a, pathEnd, req', hfirst, hend, hout, hmethod, hpath, hquery, hheaders, hbody, hnulls⟩
  · rw [hmore] at h
    cases h
  rw [hout] at h
  cases h
  obtain ⟨-, ha, -, hmin⟩ := memchr_eq_some.mp hfirst
  have hle' : a ≤ space := Nat.le_of_not_lt fun h => hmin space (Nat.zero_le _) h hspace
  have hpathEnd : pathEnd < raw.length := by
    cases hsecond : memchr raw ' ' (a + 1) raw.length with
    | none => exact absurd hstop (memchr_eq_none.mp hsecond stop (by omega) (lt_length hstop))
    | some b =>
      rw [hsecond, Option.getD_some] at hend
      exact hend ▸ (memchr_eq_some.mp hsecond).2.1
  have hmark : ∀ q, memchr raw '?' (a + 1) pathEnd = some q → q < pathEnd :=
    fun q hq => (memchr_eq_some.mp hq).2.1
  refine ⟨rfl, ?_, ?_, ?_, ?_, ?_, ?_⟩
  · intro i hi
    rw [hnulls, List.mem_cons, List.mem_append, Option.mem_toList, List.mem_singleton] at hi
    rcases hi with rfl | hi | rfl
    · exact ha
    · exact Nat.lt_trans (hmark i hi) hpathEnd
    · exact hpathEnd
  · rw [hmethod]
    exact Nat.le_of_lt ha
  · rw [hpath]
    cases hq : memchr raw '?' (a + 1) pathEnd with
    | none => exact Nat.le_of_lt hpathEnd
    | some q => exact Nat.le_of_lt (Nat.lt_trans (hmark q hq) hpathEnd)
  · intro q hq
    rw [hquery, Option.mem_def, Option.map_eq_some_iff] at hq
    obtain ⟨p, -, rfl⟩ := hq
    exact Nat.le_of_lt hpathEnd
  · intro s hs
    rw [hheaders, Option.mem_def] at hs
    have := (headerSlice_within hs).2
    have := he.le_length
    omega
  · rw [hbody]
    exact hle

end

/-- A request that the server takes is cut from a complete head. -/
theorem serve_item {lim : OrbitHttpLimits} {raw rest : Text} {b : Received}
    (h : serve lim raw = .item b rest) :
    ∃ e cl req, readHead lim raw = .complete e cl ∧
      (splitRequest raw e cl).outcome = .request req (e + 4 + cl) ∧
      b = req.received raw (stored raw (splitRequest raw e cl).nulls) ∧
      rest = (stored raw (splitRequest raw e cl).nulls).drop (e + 4 + cl) := by
  rw [serve, orbitHttpParseRequest] at h
  cases hread : readHead lim raw with
  | more =>
    rw [hread] at h
    cases h
  | refuse code =>
    rw [hread] at h
    cases h
  | complete e cl =>
    rw [hread] at h
    dsimp only at h
    rcases splitRequest_cases raw e cl with ⟨-, hmore⟩ | ⟨space, pathEnd, req, -, -, hout, -⟩
    · rw [hmore] at h
      cases h
    · rw [hout] at h
      cases h
      exact ⟨e, cl, req, rfl, hout, rfl, rfl⟩

theorem serve_stop {lim : OrbitHttpLimits} {raw : Text} {code : Perr} :
    serve lim raw = .stop code ↔ readHead lim raw = .refuse code := by
  rw [serve, orbitHttpParseRequest]
  cases hread : readHead lim raw with
  | more => exact ⟨nofun, nofun⟩
  | refuse code' =>
    constructor <;>
    · intro h
      cases h
      rfl
  | complete e cl =>
    dsimp only
    rcases splitRequest_cases raw e cl with ⟨-, hmore⟩ | ⟨space, pathEnd, req, -, -, hout, -⟩
    · rw [hmore]
      exact ⟨nofun, nofun⟩
    · rw [hout]
      exact ⟨nofun, nofun⟩

theorem serve_complete {lim : OrbitHttpLimits} {raw : Text} {e cl : Nat} {req : OrbitRequest}
    {consumed : Nat} (h : readHead lim raw = .complete e cl)
    (hout : (splitRequest raw e cl).outcome = .request req consumed) :
    serve lim raw = .item (req.received raw (stored raw (splitRequest raw e cl).nulls))
      ((stored raw (splitRequest raw e cl).nulls).drop consumed) := by
  rw [serve, orbitHttpParseRequest, h]
  simp only [hout]

/-- A request leaves fewer bytes. -/
theorem serve_shrinks (lim : OrbitHttpLimits) : Shrinks (serve lim) := by
  intro raw b rest h
  obtain ⟨e, cl, req, hread, -, -, rfl⟩ := serve_item h
  obtain ⟨-, -, hle⟩ := readHead_complete hread
  rw [List.length_drop, length_stored]
  omega

theorem serve_nil (lim : OrbitHttpLimits) : serve lim [] = .more := by
  have hread : readHead lim [] = .more := by
    rcases readHead_cases lim [] with ⟨hline, -⟩ | ⟨hline, hhead, -⟩ | ⟨-, hr⟩ | ⟨-, -, e, he⟩
    · simp [lineTooLong, lineEnd, memchr] at hline
    · rw [(no_line (by simp [lineEnd, memchr]) hline).2] at hhead
      cases hhead
    · exact hr
    · exact absurd he.le_length (by simp)
  rw [serve, orbitHttpParseRequest, hread]

/-- The answers of the server on a prefix of a fit buffer stand. -/
theorem serve_stable {lim : OrbitHttpLimits} {raw : Text} (h : Fit lim raw) :
    Stable (serve lim) raw where
  item := by
    rintro p t b rest rfl hp
    obtain ⟨e, cl, req, hread, hout, rfl, rfl⟩ := serve_item hp
    obtain ⟨he, hcl, hle⟩ := readHead_complete hread
    have hread' := readHead_complete_append t hread
    obtain ⟨he', hcl', hle'⟩ := readHead_complete hread'
    obtain ⟨space, stop, hlt, hstop, hs1, hs2⟩ := h.spaces _ ⟨e, he', by rw [hcl'], hle'⟩
      fun code hcode => by rw [hread'] at hcode; cases hcode
    rw [List.getElem?_append_left (by omega)] at hs1 hs2
    have hsplit : splitRequest (p ++ t) _ cl = _ := splitRequest_append t he hlt hs1 hs2
    obtain ⟨-, hnulls, hmethod, hpath, hquery, hheaders, hbody⟩ :=
      splitRequest_within he hle hlt hs1 hs2 hout
    rw [serve_complete hread' (by rw [hsplit, hout]), hsplit, stored_append t hnulls,
      List.drop_append_of_le_length (by rw [length_stored]; exact hle)]
    congr 1
    rw [OrbitRequest.received, OrbitRequest.received, Slice.text_append t hmethod,
      Slice.text_append t hpath, Slice.text_append t (by rw [length_stored]; exact hbody)]
    congr 1
    · refine Option.map_congr fun q hq => ?_
      rw [Slice.text_append t (hquery q hq)]
    · refine Option.map_congr fun s hs => ?_
      rw [Slice.text_append t (hheaders s hs)]
  stop := by
    rintro p t code rfl hp
    exact serve_stop.mpr (readHead_refuse_append t h.header (serve_stop.mp hp))

/-- **The requests do not depend on the cuts**, as long as every request of the stream is fit. -/
theorem serve_segments (lim : OrbitHttpLimits) (chunks : List Text)
    (h : ∀ rest, Reaches (serve lim) chunks.flatten rest → Fit lim rest) :
    feed (serve lim) chunks [] = feed (serve lim) [chunks.flatten] [] :=
  feed_eq (serve_shrinks lim) (serve_nil lim) chunks fun rest hrest => serve_stable (h rest hrest)

/-- The same first line: its path is empty when the next request has not come yet. -/
theorem serve_cut :
    feed (serve defaultLimits) ["GET /a\r\n\r\n".toList, "GET /b HTTP/1.1\r\n\r\n".toList] [] ≠
      feed (serve defaultLimits) ["GET /a\r\n\r\nGET /b HTTP/1.1\r\n\r\n".toList] [] := by
  decide

theorem fit_of_head {lim : OrbitHttpLimits} {raw : Text} {e space stop : Nat}
    (he : findHeadEnd raw = some e) (hlt : space < stop) (hstop : stop < e)
    (hs1 : raw[space]? = some ' ') (hs2 : raw[stop]? = some ' ')
    (hsmall : e + 3 ≤ lim.maxHeaderBytes) : Fit lim raw where
  spaces := by
    rintro n ⟨e', he', rfl, -⟩ -
    rw [findHeadEnd_eq_some.mpr he', Option.some.injEq] at he
    subst he
    exact ⟨space, stop, hlt, by omega, hs1, hs2⟩
  header := by
    intro _ e' he' _
    rw [findHeadEnd_eq_some.mpr he', Option.some.injEq] at he
    subst he
    rw [headerBytes]
    exact .inl (by omega)

theorem fit_of_none {lim : OrbitHttpLimits} {raw : Text} (h : findHeadEnd raw = none) :
    Fit lim raw where
  spaces := by
    rintro n ⟨e, he, -⟩
    rw [findHeadEnd_eq_some.mpr he] at h
    cases h
  header := by
    intro _ e he
    rw [findHeadEnd_eq_some.mpr he] at h
    cases h

/-- Two requests that are cut in a blank line. -/
theorem serve_segments_pair :
    feed (serve defaultLimits)
        ["GET /a HTTP/1.1\r\n\r".toList, "\nGET /b HTTP/1.1\r\n\r\n".toList] [] =
      feed (serve defaultLimits)
        [["GET /a HTTP/1.1\r\n\r".toList, "\nGET /b HTTP/1.1\r\n\r\n".toList].flatten] [] := by
  refine serve_segments defaultLimits _ fun rest hrest => ?_
  have hfirst : serve defaultLimits
      ["GET /a HTTP/1.1\r\n\r".toList, "\nGET /b HTTP/1.1\r\n\r\n".toList].flatten =
        .item ⟨"GET".toList, "/a".toList, none, none, []⟩ "GET /b HTTP/1.1\r\n\r\n".toList := by
    decide
  have hsecond : serve defaultLimits "GET /b HTTP/1.1\r\n\r\n".toList =
      .item ⟨"GET".toList, "/b".toList, none, none, []⟩ [] := by decide
  have hlimit : 18 ≤ defaultLimits.maxHeaderBytes := by decide
  rcases hrest.next hfirst with rfl | hrest
  · exact @fit_of_head _ _ 15 3 6 (by decide) (by decide) (by decide)
      (by decide) (by decide) hlimit
  rcases hrest.next hsecond with rfl | hrest
  · exact @fit_of_head _ _ 15 3 6 (by decide) (by decide) (by decide)
      (by decide) (by decide) hlimit
  · rw [hrest.last (serve_nil _)]
    exact fit_of_none rfl

end Runtime.Http
