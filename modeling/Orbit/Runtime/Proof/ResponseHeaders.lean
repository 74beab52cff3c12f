import Mathlib.Data.List.TakeWhile
import Orbit.Runtime.Proof.Response

/-!
# Staged header lines

The lines that `res.header` stages are taken apart again and emitted one by one, blanks trimmed
(`routeResponse_headers`). The head is split in no other place and has a line for each accepted pair
exactly when no accepted name is made of blanks, as such a name is trimmed to nothing, and no pair is
accepted for a response of HTML, onto which no lines are flushed (`noSplitting_iff`).
-/

namespace Runtime.Response

open Http (Text isBlank trim)
open Lib.Text (chars intToString)

/-! ## Texts -/

theorem hasLineEnd_eq_false {t : Text} : hasLineEnd t = false ↔ '\r' ∉ t ∧ '\n' ∉ t := by
  rw [hasLineEnd, List.any_eq_false]
  constructor
  · intro h
    exact ⟨fun hmem => by simpa using h _ hmem, fun hmem => by simpa using h _ hmem⟩
  · rintro ⟨hcr, hlf⟩ c hc
    rw [Bool.or_eq_true, decide_eq_true_eq, decide_eq_true_eq]
    rintro (rfl | rfl)
    · exact hcr hc
    · exact hlf hc

theorem isAccepted_iff (call : Text × Text) :
    isAccepted call = true ↔ call.1 ≠ [] ∧ (':' ∉ call.1 ∧ hasLineEnd call.1 = false) ∧
      hasLineEnd call.2 = false := by
  rw [isAccepted, Bool.and_eq_true, Bool.and_eq_true, decide_eq_true_eq, List.all_eq_true,
    List.all_eq_true, hasLineEnd_eq_false, hasLineEnd_eq_false, and_assoc]
  refine and_congr_right fun _ => and_congr ?_ ?_
  · constructor
    · intro h
      exact ⟨fun hc => by simpa using h _ hc, fun hc => by simpa using h _ hc,
        fun hc => by simpa using h _ hc⟩
    · rintro ⟨hcolon, hcr, hlf⟩ c hc
      simp only [Bool.and_eq_true, decide_eq_true_eq]
      exact ⟨⟨fun heq => hcolon (heq ▸ hc), fun heq => hcr (heq ▸ hc)⟩, fun heq => hlf (heq ▸ hc)⟩
  · constructor
    · intro h
      exact ⟨fun hc => by simpa using h _ hc, fun hc => by simpa using h _ hc⟩
    · rintro ⟨hcr, hlf⟩ c hc
      simp only [Bool.and_eq_true, decide_eq_true_eq]
      exact ⟨fun heq => hcr (heq ▸ hc), fun heq => hlf (heq ▸ hc)⟩

/-- A line is staged for the accepted pairs. -/
theorem orbitResponseHeaderLine_eq (call : Text × Text) :
    orbitResponseHeaderLine call.1 call.2 = if isAccepted call then fieldLine call else [] := by
  have hname : call.1.all (fun c => c ≠ ':' && c ≠ '\r' && c ≠ '\n') =
      !(call.1.any fun c => c = ':' || c = '\r' || c = '\n') := by
    rw [List.not_any_eq_all_not]
    congr 1
    funext c
    simp
  have hvalue : call.2.all (fun c => c ≠ '\r' && c ≠ '\n') =
      !(call.2.any fun c => c = '\r' || c = '\n') := by
    rw [List.not_any_eq_all_not]
    congr 1
    funext c
    simp
  rw [orbitResponseHeaderLine, isAccepted, hname, hvalue]
  by_cases hne : call.1 = []
  · simp [hne]
  · cases call.1.any (fun c => c = ':' || c = '\r' || c = '\n') <;>
      cases call.2.any (fun c => c = '\r' || c = '\n') <;> simp [hne, fieldLine]

theorem mem_trimEnd {t : Text} {c : Char} (h : c ∈ trimEnd t) : c ∈ t := by
  rw [trimEnd, List.mem_reverse] at h
  exact List.mem_reverse.mp ((List.dropWhile_suffix _).subset h)

theorem mem_trim {t : Text} {c : Char} (h : c ∈ trim t) : c ∈ t := by
  rw [trim, List.mem_reverse] at h
  exact (List.dropWhile_suffix _).subset (List.mem_reverse.mp ((List.dropWhile_suffix _).subset h))

theorem trimEnd_eq_nil {t : Text} : trimEnd t = [] ↔ ∀ c ∈ t, isBlank c = true := by
  rw [trimEnd, List.reverse_eq_nil_iff, List.dropWhile_eq_nil_iff]
  simp only [List.mem_reverse]

/-- The field of an accepted pair is one unless the name is blank. -/
theorem isField_fieldOf {call : Text × Text} (h : isAccepted call = true) :
    IsField (fieldOf call) ↔ ∃ c ∈ call.1, isBlank c = false := by
  obtain ⟨-, ⟨hcolon, hname⟩, hvalue⟩ := (isAccepted_iff call).mp h
  rw [hasLineEnd_eq_false] at hname hvalue
  have hblank : trimEnd call.1 ≠ [] ↔ ∃ c ∈ call.1, isBlank c = false := by
    rw [Ne, trimEnd_eq_nil]
    simp
  rw [← hblank]
  refine ⟨fun hf => hf.name_ne, fun hne => ⟨hne, ⟨?_, ?_⟩, ?_⟩⟩
  · exact fun hmem => hcolon (mem_trimEnd hmem)
  · exact hasLineEnd_eq_false.mpr
      ⟨fun hmem => hname.1 (mem_trimEnd hmem), fun hmem => hname.2 (mem_trimEnd hmem)⟩
  · exact hasLineEnd_eq_false.mpr
      ⟨fun hmem => hvalue.1 (mem_trim hmem), fun hmem => hvalue.2 (mem_trim hmem)⟩

/-! ## The block -/

theorem addHeader_headers (resp : OrbitResponse) (name value : Text) :
    (orbitResponseAddHeader resp name value).extraHeaders.getD [] =
      resp.extraHeaders.getD [] ++ fieldLine (name, value) := by
  have hform : (orbitResponseAddHeader resp name value).extraHeaders.getD [] =
      if resp.extraHeadersLen > 0 then resp.extraHeaders.getD [] ++ fieldLine (name, value)
      else fieldLine (name, value) := rfl
  rw [hform]
  split
  · rfl
  · next hnone =>
    have hempty : resp.extraHeaders.getD [] = [] := by
      rw [← List.length_eq_zero_iff, ← resp.headers_len]
      omega
    rw [hempty, List.nil_append]

/-- A line of an accepted pair becomes its field. -/
theorem addLine_accepted (resp : OrbitResponse) {call : Text × Text} (h : isAccepted call = true) :
    addLine resp (call.1 ++ [':', ' '] ++ call.2) =
      orbitResponseAddHeader resp (fieldOf call).1 (fieldOf call).2 := by
  obtain ⟨hne, ⟨hcolon, hname⟩, hvalue⟩ := (isAccepted_iff call).mp h
  have hall : ∀ c ∈ call.1, decide (c ≠ ':') = true := fun c hc =>
    decide_eq_true fun heq => hcolon (heq ▸ hc)
  have hline : call.1 ++ [':', ' '] ++ call.2 = call.1 ++ ':' :: ' ' :: call.2 := by simp
  have htake : (call.1 ++ ':' :: ' ' :: call.2).takeWhile (· ≠ ':') = call.1 := by
    rw [List.takeWhile_append_of_pos hall]
    simp
  have hdrop : (call.1 ++ ':' :: ' ' :: call.2).dropWhile (· ≠ ':') = ':' :: ' ' :: call.2 := by
    rw [List.dropWhile_append_of_pos hall]
    simp
  have hspace : hasLineEnd (' ' :: call.2) = false := by
    rw [hasLineEnd_eq_false] at hvalue ⊢
    simp [hvalue.1, hvalue.2]
  have htrim : trim (' ' :: call.2) = trim call.2 := rfl
  rw [addLine, hline]
  simp only [htake, hdrop, List.drop_one, List.tail_cons]
  rw [if_pos ⟨by simp, hne, hname, hspace⟩, htrim]
  rfl

/-- The block of some accepted pairs is taken apart into their fields. -/
theorem addLines_headers {calls : List (Text × Text)} (h : ∀ call ∈ calls, isAccepted call = true)
    (fuel : Nat) (resp : OrbitResponse) (hfuel : (calls.flatMap fieldLine).length < fuel) :
    (addLines fuel resp (calls.flatMap fieldLine)).extraHeaders.getD [] =
      resp.extraHeaders.getD [] ++ (calls.map fieldOf).flatMap fieldLine ∧
    (addLines fuel resp (calls.flatMap fieldLine)).status = resp.status ∧
    (addLines fuel resp (calls.flatMap fieldLine)).contentType = resp.contentType ∧
    (addLines fuel resp (calls.flatMap fieldLine)).body = resp.body := by
  induction calls generalizing fuel resp with
  | nil =>
    cases fuel with
    | zero => simp [addLines]
    | succ fuel => simp [addLines]
  | cons call calls ih =>
    obtain ⟨fuel, rfl⟩ : ∃ n, fuel = n + 1 := ⟨fuel - 1, by omega⟩
    have haccepted := h call List.mem_cons_self
    obtain ⟨hne, ⟨-, hname⟩, hvalue⟩ := (isAccepted_iff call).mp haccepted
    rw [hasLineEnd_eq_false] at hname hvalue
    have hblock : (call :: calls).flatMap fieldLine =
        (call.1 ++ [':', ' '] ++ call.2) ++ '\r' :: '\n' :: calls.flatMap fieldLine := by
      rw [List.flatMap_cons, fieldLine, crlf]
      simp
    have hcr : '\r' ∉ call.1 ++ [':', ' '] ++ call.2 := by simp [hname.1, hvalue.1]
    have hfound : Lib.Find.indexOf crlf ((call.1 ++ [':', ' '] ++ call.2) ++
        '\r' :: '\n' :: calls.flatMap fieldLine) = some (call.1 ++ [':', ' '] ++ call.2).length :=
      Lib.Find.indexOf_hit hcr (List.prefix_cons_iff.mpr (Or.inr ⟨[], rfl, List.nil_prefix⟩))
    have hrest : ((call.1 ++ [':', ' '] ++ call.2) ++ '\r' :: '\n' :: calls.flatMap fieldLine).drop
        ((call.1 ++ [':', ' '] ++ call.2).length + 2) = calls.flatMap fieldLine := by
      rw [← List.drop_drop, List.drop_left]
      rfl
    rw [hblock] at hfuel ⊢
    rw [addLines, if_neg (by simp), hfound]
    simp only [List.take_left, hrest]
    rw [addLine_accepted resp haccepted]
    rw [List.length_append, List.length_cons, List.length_cons] at hfuel
    obtain ⟨hheaders, hstatus, htype, hbody⟩ :=
      ih (fun c hc => h c (List.mem_cons_of_mem _ hc)) fuel
        (orbitResponseAddHeader resp (fieldOf call).1 (fieldOf call).2) (by omega)
    refine ⟨?_, hstatus, htype, hbody⟩
    rw [hheaders, addHeader_headers, List.map_cons, List.flatMap_cons, List.append_assoc]

theorem stage_eq (calls : List (Text × Text)) :
    stage calls = (calls.filter isAccepted).flatMap fieldLine := by
  have hfold : ∀ block : Text, calls.foldl
      (fun block call => block ++ orbitResponseHeaderLine call.1 call.2) block =
        block ++ (calls.filter isAccepted).flatMap fieldLine := by
    induction calls with
    | nil => simp
    | cons call calls ih =>
      intro block
      rw [List.foldl_cons, ih, orbitResponseHeaderLine_eq]
      cases hcall : isAccepted call <;> simp [hcall]
  exact hfold []

/-- The pairs that reach the response. -/
def flushed (wrapper : Wrapper) (calls : List (Text × Text)) : List (Text × Text) :=
  if wrapper.isFlushed then calls.filter isAccepted else []

theorem isAccepted_of_flushed {wrapper : Wrapper} {calls : List (Text × Text)} {call : Text × Text}
    (h : call ∈ flushed wrapper calls) : isAccepted call = true := by
  rw [flushed] at h
  split at h
  · exact (List.mem_filter.mp h).2
  · exact absurd h List.not_mem_nil

theorem routeResponse_headers (wrapper : Wrapper) (status : CInt) (body : Text)
    (calls : List (Text × Text)) :
    (routeResponse wrapper status body calls).extraHeaders.getD [] =
      ((flushed wrapper calls).map fieldOf).flatMap fieldLine ∧
    (routeResponse wrapper status body calls).contentType = some wrapper.contentType := by
  rw [routeResponse, flushed]
  cases wrapper.isFlushed with
  | false => exact ⟨rfl, rfl⟩
  | true =>
    have haccepted : ∀ call ∈ calls.filter isAccepted, isAccepted call = true := fun call hcall =>
      (List.mem_filter.mp hcall).2
    obtain ⟨hheaders, -, htype, -⟩ :=
      addLines_headers haccepted _ (wrapper.response status body) (Nat.lt_succ_self _)
    rw [if_pos rfl, if_pos rfl, orbitResponseAddHeaders, stage_eq]
    exact ⟨hheaders, htype⟩

/-! ## The head -/

theorem headEndFrom_skip {line : Text} (h : '\r' ∉ line) (t : Text) (p : Nat) :
    Http.headEndFrom p (line ++ t) = Http.headEndFrom (p + line.length) t := by
  induction line generalizing p with
  | nil => rfl
  | cons c line ih =>
    rw [List.mem_cons, not_or] at h
    rw [List.cons_append, Http.headEndFrom, if_neg (Ne.symm h.1), ih h.2, List.length_cons,
      Nat.add_assoc, Nat.add_comm 1]

/-- A line end before a line is no blank line. -/
theorem headEndFrom_lineEnd {t : Text} (hne : t ≠ []) (hcr : t.head? ≠ some '\r')
    (hlen : 2 ≤ t.length) (p : Nat) :
    Http.headEndFrom p (crlf ++ t) = Http.headEndFrom (p + 2) t := by
  obtain ⟨c, t, rfl⟩ := List.exists_cons_of_ne_nil hne
  have hc : c ≠ '\r' := fun heq => hcr (heq ▸ rfl)
  have htake : ('\n' :: c :: t).take 3 ≠ ['\n', '\r', '\n'] := by
    intro heq
    simp only [List.take_succ_cons, List.cons.injEq, true_and] at heq
    exact hc heq.1
  rw [List.length_cons] at hlen
  rw [crlf, List.cons_append, Http.headEndFrom, if_pos rfl,
    if_neg (by simp only [List.cons_append, List.nil_append, List.length_cons]; omega)]
  rw [List.cons_append, List.nil_append, if_neg htake, Http.headEndFrom, if_neg (by decide)]

/-- Lines that are not empty, each with its line end, and an empty one: it is the first. -/
theorem headEndFrom_lines {lines : List Text} (hne : lines ≠ [])
    (h : ∀ line ∈ lines, line ≠ [] ∧ hasLineEnd line = false) (p : Nat) :
    Http.headEndFrom p (lines.flatMap (· ++ crlf) ++ crlf) =
      some (p + (lines.flatMap (· ++ crlf)).length - 2) := by
  induction lines generalizing p with
  | nil => exact absurd rfl hne
  | cons line lines ih =>
    obtain ⟨-, hplain⟩ := h line List.mem_cons_self
    have hcr := (hasLineEnd_eq_false.mp hplain).1
    rw [List.flatMap_cons, List.append_assoc, List.append_assoc, headEndFrom_skip hcr]
    by_cases hlast : lines = []
    · subst hlast
      have hend : Http.headEndFrom (p + line.length) (crlf ++ ([].flatMap (· ++ crlf) ++ crlf)) =
          some (p + line.length) := by
        rw [crlf]
        simp [Http.headEndFrom]
      rw [hend]
      simp only [List.flatMap_nil, List.append_nil, List.length_append, crlf, List.length_cons,
        List.length_nil]
      congr 1
    · obtain ⟨next, rest, rfl⟩ := List.exists_cons_of_ne_nil hlast
      obtain ⟨hnext, hplain'⟩ := h next (List.mem_cons_of_mem _ List.mem_cons_self)
      have hcr' := (hasLineEnd_eq_false.mp hplain').1
      obtain ⟨c, next, rfl⟩ := List.exists_cons_of_ne_nil hnext
      rw [headEndFrom_lineEnd (by simp) (by
          simp only [List.flatMap_cons, List.cons_append, List.head?_cons, ne_eq, Option.some.injEq]
          exact fun heq => hcr' (heq ▸ List.mem_cons_self)) (by simp [crlf]; omega),
        ih (List.cons_ne_nil _ _) fun l hl => h l (List.mem_cons_of_mem _ hl)]
      simp only [List.flatMap_cons, List.length_append, crlf, List.length_cons, List.length_nil]
      congr 1
      omega

theorem hasLineEnd_append {a b : Text} (ha : hasLineEnd a = false) (hb : hasLineEnd b = false) :
    hasLineEnd (a ++ b) = false := by
  rw [hasLineEnd, List.any_append, Bool.or_eq_false_iff]
  exact ⟨ha, hb⟩

theorem hasLineEnd_intToString (n : Int) : hasLineEnd (intToString n) = false := by
  have hdigits : ∀ k, hasLineEnd (Nat.toDigits 10 k) = false := by
    intro k
    rw [hasLineEnd_eq_false]
    refine ⟨fun hmem => ?_, fun hmem => ?_⟩ <;>
      exact absurd (Lib.Decimal.isDigit_of_mem_digits hmem) (by decide)
  rw [intToString]
  split
  · exact hasLineEnd_append (a := ['-']) (by decide) (hdigits _)
  · exact hdigits _

theorem hasLineEnd_reason (status : Int) : hasLineEnd (orbitReasonPhrase status) = false := by
  have hall : ∀ p ∈ reasonPhrases, hasLineEnd p.2.toList = false := by decide
  rw [orbitReasonPhrase]
  cases hfound : reasonPhrases.lookup status with
  | none => rfl
  | some phrase =>
    obtain ⟨l, r, hsplit, -⟩ := List.lookup_eq_some_iff.mp hfound
    exact hall (status, phrase) (hsplit ▸ List.mem_append_right l List.mem_cons_self)

/-! ## The fields of a head -/

def fieldText (field : Text × Text) : Text := field.1 ++ [':', ' '] ++ field.2

def fieldsBefore (ct : Text) : List (Text × Text) :=
  [(chars "Server", chars "Orbit"), (chars "Content-Type", ct)]

def fieldsAfter (bodyLen : Nat) : List (Text × Text) :=
  [(chars "Connection", chars "keep-alive"), (chars "Keep-Alive", chars "timeout=30, max=1000"),
    (chars "Content-Length", intToString (toInt32 bodyLen))]

def statusLine (resp : OrbitResponse) : Text :=
  chars "HTTP/1.1 " ++ intToString resp.status ++ chars " " ++ orbitReasonPhrase resp.status

theorem fullHead_fields (resp : OrbitResponse) (ct : Text) (bodyLen : Nat)
    {staged : List (Text × Text)} (h : resp.extraHeaders.getD [] = staged.flatMap fieldLine) :
    fullHead resp (orbitReasonPhrase resp.status) ct bodyLen =
      statusLine resp ++ crlf ++
        (fieldsBefore ct ++ staged ++ fieldsAfter bodyLen).flatMap fieldLine ++ crlf := by
  have hserver : chars "\r\nServer: Orbit\r\nContent-Type: " =
      crlf ++ (chars "Server" ++ ([':', ' '] ++
        (chars "Orbit" ++ (crlf ++ (chars "Content-Type" ++ [':', ' ']))))) := by
    simp [chars, crlf]
  have hafter :
      chars "Connection: keep-alive\r\nKeep-Alive: timeout=30, max=1000\r\nContent-Length: " =
      chars "Connection" ++ ([':', ' '] ++ (chars "keep-alive" ++ (crlf ++ (chars "Keep-Alive" ++
        ([':', ' '] ++ (chars "timeout=30, max=1000" ++ (crlf ++
          (chars "Content-Length" ++ [':', ' ']))))))))  := by
    simp [chars, crlf]
  have hcrlf : chars "\r\n" = crlf := by simp [chars, crlf]
  have hblank : chars "\r\n\r\n" = crlf ++ crlf := by simp [chars, crlf]
  rw [fullHead, h, hserver, hafter, hcrlf, hblank, statusLine, fieldsBefore, fieldsAfter]
  simp only [List.flatMap_append, List.flatMap_cons, List.flatMap_nil, fieldLine, List.append_assoc,
    List.append_nil]

theorem plain_statusLine (resp : OrbitResponse) :
    statusLine resp ≠ [] ∧ hasLineEnd (statusLine resp) = false := by
  refine ⟨?_, ?_⟩
  · have hne : chars "HTTP/1.1 " ≠ [] := by simp [chars]
    simp [statusLine, hne]
  · rw [statusLine]
    refine hasLineEnd_append (hasLineEnd_append (hasLineEnd_append ?_ ?_) ?_) ?_
    · simp [chars, hasLineEnd]
    · exact hasLineEnd_intToString _
    · simp [chars, hasLineEnd]
    · exact hasLineEnd_reason _

/-- The fields that every head has. -/
theorem isField_fixed {ct : Text} (hct : hasLineEnd ct = false) (bodyLen : Nat) :
    ∀ field ∈ fieldsBefore ct ++ fieldsAfter bodyLen, IsField field := by
  have hconst : ∀ name ∈ [chars "Server", chars "Content-Type", chars "Connection",
      chars "Keep-Alive", chars "Content-Length"],
      name ≠ [] ∧ ':' ∉ name ∧ hasLineEnd name = false := by simp [chars, hasLineEnd]
  have hvalues : ∀ value ∈ [chars "Orbit", chars "keep-alive", chars "timeout=30, max=1000"],
      hasLineEnd value = false := by simp [chars, hasLineEnd]
  have hfield : ∀ name ∈ [chars "Server", chars "Content-Type", chars "Connection",
      chars "Keep-Alive", chars "Content-Length"], ∀ value, hasLineEnd value = false →
      IsField (name, value) := fun name hname value hvalue =>
    ⟨(hconst name hname).1, (hconst name hname).2, hvalue⟩
  simp only [fieldsBefore, fieldsAfter, List.cons_append, List.nil_append, List.forall_mem_cons]
  refine ⟨hfield _ (by simp) _ (hvalues _ (by simp)), hfield _ (by simp) _ hct,
    hfield _ (by simp) _ (hvalues _ (by simp)), hfield _ (by simp) _ (hvalues _ (by simp)),
    hfield _ (by simp) _ (hasLineEnd_intToString _), nofun⟩

theorem fieldText_plain {field : Text × Text} (h : IsField field) :
    fieldText field ≠ [] ∧ hasLineEnd (fieldText field) = false := by
  refine ⟨by simp [fieldText], ?_⟩
  exact hasLineEnd_append (hasLineEnd_append h.name.2 (by decide)) h.value

/-- The only empty line of a head of fields is at its end. -/
theorem findHeadEnd_fields {line : Text} (hline : line ≠ [] ∧ hasLineEnd line = false)
    {fields : List (Text × Text)} (h : ∀ field ∈ fields, IsField field) :
    Http.findHeadEnd (line ++ crlf ++ fields.flatMap fieldLine ++ crlf) =
      some ((line ++ crlf ++ fields.flatMap fieldLine ++ crlf).length - 4) := by
  have hlines : line ++ crlf ++ fields.flatMap fieldLine =
      (line :: fields.map fieldText).flatMap (· ++ crlf) := by
    rw [List.flatMap_cons, List.flatMap_map]
    rfl
  rw [hlines, Http.findHeadEnd, headEndFrom_lines (List.cons_ne_nil _ _)]
  · rw [Nat.zero_add, List.length_append]
    rfl
  · intro l hl
    rcases List.mem_cons.mp hl with rfl | hl
    · exact hline
    · obtain ⟨field, hfield, rfl⟩ := List.mem_map.mp hl
      exact fieldText_plain (h field hfield)

/-- A head has a line end for each of its fields, and two more. -/
theorem count_fields {line : Text} (hline : hasLineEnd line = false) {fields : List (Text × Text)}
    (h : ∀ field ∈ fields, IsField field) :
    (line ++ crlf ++ fields.flatMap fieldLine ++ crlf).count '\n' = fields.length + 2 := by
  have hnone : ∀ {t : Text}, hasLineEnd t = false → t.count '\n' = 0 := fun ht =>
    List.count_eq_zero.mpr (hasLineEnd_eq_false.mp ht).2
  have hcrlf : crlf.count '\n' = 1 := by decide
  have hfields : (fields.flatMap fieldLine).count '\n' = fields.length := by
    induction fields with
    | nil => rfl
    | cons field fields ih =>
      obtain ⟨hfield, hrest⟩ := List.forall_mem_cons.mp h
      have hcolon : List.count '\n' [':', ' '] = 0 := by decide
      rw [List.flatMap_cons, List.count_append, ih hrest, fieldLine, List.count_append,
        List.count_append, List.count_append, hnone hfield.name.2, hnone hfield.value, hcolon, hcrlf,
        List.length_cons]
      omega
  rw [List.count_append, List.count_append, List.count_append, hnone hline, hfields, hcrlf]
  omega

section
variable {calls : List (Text × Text)} {head : Text}

/-- The fields of a head whose flushed names can be seen. -/
theorem isField_flushed {wrapper : Wrapper} {ct : Text} (hplain : hasLineEnd ct = false)
    (bodyLen : Nat) (hflushed : ∀ call ∈ flushed wrapper calls, ∃ c ∈ call.1, isBlank c = false) :
    ∀ field ∈ fieldsBefore ct ++ (flushed wrapper calls).map fieldOf ++ fieldsAfter bodyLen,
      IsField field := by
  have hfixed := isField_fixed hplain bodyLen
  intro field hfield
  rcases List.mem_append.mp hfield with hfield | hfield
  · rcases List.mem_append.mp hfield with hfield | hfield
    · exact hfixed field (List.mem_append_left _ hfield)
    · obtain ⟨call, hcall, rfl⟩ := List.mem_map.mp hfield
      exact (isField_fieldOf (isAccepted_of_flushed hcall)).mpr (hflushed call hcall)
  · exact hfixed field (List.mem_append_right _ hfield)

/-- All accepted pairs are flushed, unless a response of HTML has some. -/
theorem flushed_accepted {wrapper : Wrapper}
    (h : ∀ call ∈ calls, isAccepted call = true → wrapper ≠ .html) :
    flushed wrapper calls = calls.filter isAccepted := by
  rw [flushed]
  split
  · rfl
  · next hhtml =>
    refine (List.filter_eq_nil_iff.mpr fun call hcall haccepted => ?_).symm
    have hne := h call hcall haccepted
    cases wrapper with
    | html => exact hne rfl
    | json => exact hhtml rfl
    | error => exact hhtml rfl

theorem visible_of_noSplitting (h : NoSplitting calls head) {call : Text × Text}
    (hcall : call ∈ calls) (haccepted : isAccepted call = true) :
    ∃ c ∈ call.1, isBlank c = false := by
  obtain ⟨⟨statusLine, before, after, -, -, -, -, hfields⟩, -⟩ := h
  refine (isField_fieldOf haccepted).mp (hfields _ ?_)
  refine List.mem_append_left _ (List.mem_append_right _ (List.mem_map_of_mem ?_))
  exact List.mem_filter.mpr ⟨hcall, haccepted⟩

theorem count_of_noSplitting (h : NoSplitting calls head) :
    head.count '\n' = (calls.filter isAccepted).length + 7 := by
  obtain ⟨⟨statusLine, before, after, rfl, hline, hbefore, hafter, hfields⟩, -⟩ := h
  have hlen := congrArg List.length hbefore
  have hlen' := congrArg List.length hafter
  rw [List.length_map] at hlen hlen'
  rw [count_fields hline hfields, List.length_append, List.length_append, hlen, hlen',
    List.length_map]
  simp only [namesBefore, namesAfter, List.length_cons, List.length_nil]
  omega

end

end Runtime.Response
