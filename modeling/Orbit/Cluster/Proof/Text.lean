import Mathlib
import Orbit.Cluster.State
import Orbit.Lib.Decimal

/-!
# The state file as a record

The text `clusterBuildState` writes is the text of a `Record` whose two paths hold no quote, and
every read and edit of the text is the read or edit of the record: `Record.nodeInt_port`,
`Record.nodeInt_pid`, `Record.nodeCount`, `Record.setNodePid`, `Record.drainingContains`,
`Record.addDraining`. A key is found by its quotes: the parts between the quotes of the file are
known, and a needle that starts with a quote is compared with them part by part
(`Lib.Find.indexOf_parts`).
-/

namespace Cluster

open Lib.Find
open Lib.Text (chars intToString)

/-- What the state file records. -/
structure Record where
  service : Text
  portBase : Nat
  logDir : Text
  /-- Port and pid of node `i` at position `i`. -/
  nodes : List (Nat × Nat)
  draining : List Nat
  service_clean : '"' ∉ service
  logDir_clean : '"' ∉ logDir

/-! ## Decimal numbers -/

/-- The decimal digits of a number. -/
abbrev dec (n : Nat) : Text := Nat.toDigits 10 n

theorem intToString_natCast (n : Nat) : intToString (n : Int) = dec n := by
  simp [intToString]

theorem isDigit_of_mem_dec {c : Char} {n : Nat} (h : c ∈ dec n) : isDigit c = true :=
  Lib.Decimal.isDigit_of_mem_digits h

theorem not_mem_dec {c : Char} (n : Nat) (hc : isDigit c = false) : c ∉ dec n := by
  intro h
  rw [isDigit_of_mem_dec h] at hc
  cases hc

theorem dec_ne_nil (n : Nat) : dec n ≠ [] := Nat.toDigits_ne_nil

theorem foldl_dec (n : Nat) :
    (dec n).foldl (fun (num : Int) c => num * 10 + digitValue c) 0 = n :=
  Lib.Decimal.digitsValue_digits n

theorem dec_inj {m n : Nat} (h : dec m = dec n) : m = n := by
  have := foldl_dec m
  rw [h, foldl_dec] at this
  exact_mod_cast this.symm

theorem mem_intToString {c : Char} {j : Int} (h : c ∈ intToString j) :
    c = '-' ∨ isDigit c = true := by
  rw [intToString] at h
  split at h
  · rcases List.mem_cons.mp h with rfl | h
    · exact .inl rfl
    · exact .inr (isDigit_of_mem_dec h)
  · exact .inr (isDigit_of_mem_dec h)

theorem intToString_eq_dec {j : Int} {i : Nat} : intToString j = dec i ↔ j = i := by
  constructor
  · intro h
    by_cases hj : j < 0
    · rw [intToString, if_pos hj] at h
      have := isDigit_of_mem_dec (c := '-') (n := i) (h ▸ List.mem_cons_self)
      exact absurd this (by decide)
    · rw [intToString, if_neg hj] at h
      have := dec_inj h
      omega
  · rintro rfl
    exact intToString_natCast i

/-- A number that is followed by something else reads back. -/
theorem firstNumber_dec (n : Nat) {c : Char} (hc : isDigit c = false) (t : Text) :
    firstNumber (dec n ++ c :: t) = n := by
  obtain ⟨d, ds, hd⟩ := List.exists_cons_of_ne_nil (dec_ne_nil n)
  have hdig : ∀ x ∈ dec n, isDigit x = true := fun x hx => isDigit_of_mem_dec hx
  have h1 : (dec n ++ c :: t).dropWhile (fun x => !isDigit x) = dec n ++ c :: t := by
    rw [hd, List.cons_append, List.dropWhile_cons_of_neg]
    rw [hdig d (hd ▸ List.mem_cons_self)]
    simp
  have h2 : (dec n ++ c :: t).takeWhile isDigit = dec n := by
    rw [List.takeWhile_append_of_pos hdig, List.takeWhile_cons_of_neg (by simp [hc]),
      List.append_nil]
  rw [firstNumber, h1, h2, foldl_dec, if_neg (by simp [dec_ne_nil n])]

theorem dropWhile_dec (n : Nat) {c : Char} (hc : isDigit c = false) (t : Text) :
    (dec n ++ c :: t).dropWhile isDigit = c :: t := by
  rw [List.dropWhile_append_of_pos fun x hx => isDigit_of_mem_dec hx,
    List.dropWhile_cons_of_neg (by simp [hc])]

/-! ## Needles and parts -/

theorem quote_not_mem_dec (n : Nat) : '"' ∉ dec n := not_mem_dec n (by decide)

theorem chars_quoteColon : chars "\": " = '"' :: chars ": " := by unfold chars; decide

theorem idNeedle_eq (j : Int) :
    idNeedle j = '"' :: (chars "id" ++ '"' :: (chars ": " ++ (intToString j ++ [',']))) := by
  simp only [idNeedle, intNeedle, chars_quoteColon, List.cons_append, List.append_assoc]

theorem intNeedle_eq (key : Text) : intNeedle key = '"' :: (key ++ '"' :: chars ": ") := by
  rw [intNeedle, chars_quoteColon]

theorem drainingNeedle_eq : drainingNeedle = '"' :: (chars "draining" ++ '"' :: chars ": [") := by
  simp [chars, drainingNeedle]

/-- A number between a colon and a comma. -/
def field (n : Nat) : Text := chars ": " ++ (dec n ++ chars ", ")

theorem quote_not_mem_field (n : Nat) : '"' ∉ field n := by
  have h1 : '"' ∉ chars ": " := by unfold chars; decide
  have h2 : '"' ∉ chars ", " := by unfold chars; decide
  simp [field, h1, h2, quote_not_mem_dec n]

/-- A name is not a prefix of punctuation. -/
structure IsKey (a : Text) : Prop where
  quote : '"' ∉ a
  colon : ∀ t, ¬ a <+: chars ": " ++ t
  comma : ∀ t, ¬ a <+: chars ", " ++ t

theorem isKey_of {c : Char} {a : Text} (hq : '"' ∉ c :: a) (h1 : c ≠ ':') (h2 : c ≠ ',') :
    IsKey (c :: a) where
  quote := hq
  colon t h := by
    rw [show chars ": " = [':', ' '] by unfold chars; decide, List.cons_append] at h
    exact h1 (List.cons_prefix_cons.mp h).1
  comma t h := by
    rw [show chars ", " = [',', ' '] by unfold chars; decide, List.cons_append] at h
    exact h2 (List.cons_prefix_cons.mp h).1

theorem isKey_id : IsKey (chars "id") := by
  rw [show chars "id" = ['i', 'd'] by unfold chars; decide]
  exact isKey_of (by decide) (by decide) (by decide)

theorem isKey_port : IsKey (chars "port") := by
  rw [show chars "port" = ['p', 'o', 'r', 't'] by unfold chars; decide]
  exact isKey_of (by decide) (by decide) (by decide)

theorem isKey_pid : IsKey (chars "pid") := by
  rw [show chars "pid" = ['p', 'i', 'd'] by unfold chars; decide]
  exact isKey_of (by decide) (by decide) (by decide)

theorem isKey_draining : IsKey (chars "draining") := by
  rw [show chars "draining" = ['d', 'r', 'a', 'i', 'n', 'i', 'n', 'g'] by unfold chars; decide]
  exact isKey_of (by decide) (by decide) (by decide)

theorem IsKey.not_prefix_colon {a b t : Text} (h : IsKey a) : ¬ a ++ b <+: chars ": " ++ t :=
  fun hp => h.colon t ((List.prefix_append a b).trans hp)

/-! ## The entry of a node -/

/-- What stands after the last quote of an entry. -/
def lastPart (q : Nat) : Text := chars ": " ++ (dec q ++ ['\x7d'])

/-- The parts of an entry from its id on. -/
def entryParts (i p : Nat) : List Text := [chars "id", field i, chars "port", field p, chars "pid"]

theorem quote_not_mem_lastPart (q : Nat) : '"' ∉ lastPart q := by
  have h1 : '"' ∉ chars ": " := by unfold chars; decide
  simp [lastPart, h1, quote_not_mem_dec q]

/-- The text of node `i`, as the parts between its quotes. -/
theorem nodeText_parts (i p q : Nat) :
    nodeText i p q = '\x7b' :: '"' :: parts '"' (entryParts i p) (lastPart q) := by
  have h1 : chars "\x7b\"id\": " = '\x7b' :: '"' :: (chars "id" ++ '"' :: chars ": ") := by
    unfold chars; decide
  have h2 : chars ", \"port\": " = chars ", " ++ '"' :: (chars "port" ++ '"' :: chars ": ") := by
    unfold chars; decide
  have h3 : chars ", \"pid\": " = chars ", " ++ '"' :: (chars "pid" ++ '"' :: chars ": ") := by
    unfold chars; decide
  have h4 : chars "\x7d" = ['\x7d'] := by unfold chars; decide
  simp only [nodeText, parts, entryParts, field, lastPart, intToString_natCast, h1, h2, h3, h4,
    List.append_assoc, List.cons_append]

/-- A key other than `port` and `pid` passes an entry whose id it does not name. -/
theorem passes_entry {a b t : Text} {i p : Nat} (ha : IsKey a)
    (hid : a = chars "id" → ¬ b <+: field i ++ '"' :: parts '"' [chars "port", field p, chars "pid"] t)
    (hport : a ≠ chars "port") (hpid : a ≠ chars "pid") (hlast : ∃ u, t = chars ": " ++ u) :
    ¬ a ++ '"' :: b <+: parts '"' (entryParts i p) t ∧
      Passes '"' (a ++ '"' :: b) (entryParts i p) t := by
  have hfield : ∀ n l, '"' ∉ a → ¬ a ++ '"' :: b <+: parts '"' (field n :: l) t := by
    intro n l _
    rw [parts, field, List.append_assoc]
    exact ha.not_prefix_colon
  obtain ⟨u, rfl⟩ := hlast
  refine ⟨not_prefix_of_ne ha.quote isKey_id.quote ?_, isKey_id.quote, hfield i _ ha.quote,
    quote_not_mem_field i, not_prefix_of_ne ha.quote isKey_port.quote (.inl hport),
    isKey_port.quote, hfield p _ ha.quote, quote_not_mem_field p,
    not_prefix_of_ne ha.quote isKey_pid.quote (.inl hpid), isKey_pid.quote, ha.not_prefix_colon,
    trivial⟩
  by_cases h : a = chars "id"
  · exact .inr (hid h)
  · exact .inl h

/-- The id of an entry is compared as a whole number. -/
theorem id_prefix {i : Nat} {j : Int} {t : Text} :
    chars ": " ++ (intToString j ++ [',']) <+: field i ++ t ↔ j = i := by
  have hc : isDigit ',' = false := by decide
  have hj : ',' ∉ intToString j := fun h => by
    rcases mem_intToString h with h | h
    · exact absurd h (by decide)
    · rw [hc] at h
      cases h
  rw [field, show chars ", " = [',', ' '] by unfold chars; decide, List.append_assoc,
    List.prefix_append_right_inj, List.append_assoc, List.cons_append,
    prefix_sep hj (not_mem_dec i hc), intToString_eq_dec]
  exact ⟨fun h => h.1, fun h => ⟨h, List.nil_prefix⟩⟩

theorem lastPart_append (q : Nat) (t : Text) :
    ∃ u, lastPart q ++ t = chars ": " ++ u := ⟨_, by rw [lastPart, List.append_assoc]⟩

/-- A needle that passes an entry is found after it, if at all. -/
theorem nodeText_pass {n t : Text} {i p q : Nat}
    (h0 : ¬ n <+: parts '"' (entryParts i p) (lastPart q ++ t))
    (h : Passes '"' n (entryParts i p) (lastPart q ++ t)) :
    indexOf ('"' :: n) (nodeText i p q ++ t) =
      (indexOf ('"' :: n) t).map (· + (nodeText i p q).length) := by
  have hbrace : '"' ∉ ['\x7b'] := by decide
  have hsplit : nodeText i p q ++ t =
      ['\x7b'] ++ '"' :: parts '"' (entryParts i p) (lastPart q ++ t) := by
    rw [nodeText_parts, parts_append]
    simp
  rw [hsplit, indexOf_pass hbrace h0, indexOf_parts h, indexOf_skip (quote_not_mem_lastPart q),
    Option.map_map, Option.map_map, nodeText_parts]
  congr 1
  funext x
  have hlen : (parts '"' (entryParts i p) (lastPart q)).length =
      (parts '"' (entryParts i p) []).length + (lastPart q).length := by
    rw [← List.length_append, ← parts_append, List.nil_append]
  simp only [Function.comp_apply, List.length_cons, List.length_nil, hlen]
  omega

theorem idNeedle_pass {t : Text} {i p q : Nat} {j : Int} (hij : j ≠ i) :
    indexOf (idNeedle j) (nodeText i p q ++ t) =
      (indexOf (idNeedle j) t).map (· + (nodeText i p q).length) := by
  rw [idNeedle_eq]
  have h := passes_entry (a := chars "id") (b := chars ": " ++ (intToString j ++ [','])) (i := i)
    (p := p)
    (t := lastPart q ++ t) isKey_id (fun _ => mt id_prefix.mp hij) (by unfold chars; decide)
    (by unfold chars; decide) (lastPart_append q t)
  exact nodeText_pass h.1 h.2

theorem drainingNeedle_pass {t : Text} {i p q : Nat} :
    indexOf drainingNeedle (nodeText i p q ++ t) =
      (indexOf drainingNeedle t).map (· + (nodeText i p q).length) := by
  rw [drainingNeedle_eq]
  have h := passes_entry (a := chars "draining") (b := chars ": [") (i := i) (p := p)
    (t := lastPart q ++ t) isKey_draining (fun h => absurd h (by unfold chars; decide))
    (by unfold chars; decide) (by unfold chars; decide) (lastPart_append q t)
  exact nodeText_pass h.1 h.2

/-! ## Reading an entry -/

/-- The entry of node `j` stands in the file after `A` and before `B`, and is the one the search
for its id finds. -/
structure Located (content : Text) (j p q : Nat) (A B : Text) : Prop where
  text : content = A ++ '"' :: parts '"' (entryParts j p) (lastPart q ++ B)
  found : indexOf (idNeedle j) content = some A.length

section
variable {content A B : Text} {j p q : Nat}

/-- A key found in the part of the file from a position on. -/
theorem indexOfFrom_eq {content A t : Text} {needle : Text} (h : content = A ++ t) (ht : t ≠ []) :
    clusterIndexOfFrom content needle A.length = (indexOf needle t).map (A.length + ·) := by
  have hlen : ¬ content.length ≤ A.length := by
    have := List.length_pos_of_ne_nil ht
    rw [h, List.length_append]
    omega
  rw [clusterIndexOfFrom, if_neg hlen, h, List.drop_left]

/-- The needle `"id": ` is not found again within the entry. -/
theorem Located.nextId (h : Located content j p q A B) {n : Nat}
    (hn : clusterIndexOfFrom content (intNeedle (chars "id")) (A.length + 1) = some n) :
    A.length + (parts '"' (entryParts j p) []).length < n := by
  have ht : content = (A ++ ['"']) ++ parts '"' (entryParts j p) (lastPart q ++ B) := by
    rw [h.text, List.append_assoc, List.singleton_append]
  have hpos : A.length + 1 = (A ++ ['"']).length := by simp
  have hfield : ∀ m l, ¬ chars "id" ++ '"' :: chars ": " <+:
      parts '"' (field m :: l) (lastPart q ++ B) := by
    intro m l
    rw [parts, field, List.append_assoc]
    exact isKey_id.not_prefix_colon
  have hpass : Passes '"' (chars "id" ++ '"' :: chars ": ") (entryParts j p) (lastPart q ++ B) := by
    obtain ⟨u, hu⟩ := lastPart_append q B
    refine ⟨isKey_id.quote, hfield j _, quote_not_mem_field j,
      not_prefix_of_ne isKey_id.quote isKey_port.quote (.inl (by unfold chars; decide)),
      isKey_port.quote, hfield p _, quote_not_mem_field p,
      not_prefix_of_ne isKey_id.quote isKey_pid.quote (.inl (by unfold chars; decide)),
      isKey_pid.quote, ?_, trivial⟩
    rw [parts, hu]
    exact isKey_id.not_prefix_colon
  have hne : parts '"' (entryParts j p) (lastPart q ++ B) ≠ [] := by simp [entryParts, parts]
  rw [hpos, indexOfFrom_eq ht hne, intNeedle_eq, indexOf_parts hpass, Option.map_map,
    Option.map_eq_some_iff] at hn
  obtain ⟨m, -, rfl⟩ := hn
  simp only [Function.comp_apply, List.length_append, List.length_singleton]
  omega

/-- What `clusterNodeInt` reads when its key stands in the entry. -/
theorem Located.nodeInt (h : Located content j p q A B) {key M R : Text}
    (ht : content = (A ++ M) ++ (intNeedle key ++ R))
    (hk : clusterIndexOfFrom content (intNeedle key) A.length = some (A ++ M).length)
    (hM : M.length ≤ (parts '"' (entryParts j p) []).length) :
    clusterNodeInt content j key = firstNumber R := by
  have hdrop : content.drop ((A ++ M).length + (intNeedle key).length) = R := by
    rw [ht, ← List.append_assoc, ← List.length_append, List.drop_left]
  rw [clusterNodeInt]
  simp only [h.found, hk, hdrop]
  cases hn : clusterIndexOfFrom content (intNeedle (chars "id")) (A.length + 1) with
  | none => rfl
  | some n =>
    have hnext := h.nextId hn
    have hlate : ¬ n < (A ++ M).length := by
      rw [List.length_append]
      omega
    exact if_neg hlate

/-- The text of the entry up to its port. -/
def portLead (j : Nat) : Text := '"' :: (chars "id" ++ '"' :: field j)

/-- The text of the entry up to its pid. -/
def pidLead (j p : Nat) : Text := portLead j ++ '"' :: (chars "port" ++ '"' :: field p)

theorem Located.text_port (h : Located content j p q A B) : content = (A ++ portLead j) ++
    (intNeedle (chars "port") ++
      (dec p ++ (chars ", " ++ '"' :: (chars "pid" ++ '"' :: (lastPart q ++ B))))) := by
  rw [h.text, intNeedle_eq]
  simp only [entryParts, parts, portLead, field, List.append_assoc, List.cons_append]

theorem Located.text_pid (h : Located content j p q A B) : content = (A ++ pidLead j p) ++
    (intNeedle (chars "pid") ++ (dec q ++ '\x7d' :: B)) := by
  rw [h.text, intNeedle_eq]
  simp only [entryParts, parts, pidLead, portLead, lastPart, field, List.append_assoc,
    List.cons_append, List.nil_append]

/-- The first key of the entry that `a` can be is the one after the id. -/
theorem Located.from (h : Located content j p q A B) (needle : Text) :
    clusterIndexOfFrom content needle A.length =
      (indexOf needle ('"' :: parts '"' (entryParts j p) (lastPart q ++ B))).map (A.length + ·) :=
  indexOfFrom_eq h.text (by simp)

theorem Located.find_port (h : Located content j p q A B) :
    clusterIndexOfFrom content (intNeedle (chars "port")) A.length =
      some (A ++ portLead j).length := by
  have h1 : ¬ chars "port" ++ '"' :: chars ": " <+:
      parts '"' (entryParts j p) (lastPart q ++ B) :=
    not_prefix_of_ne isKey_port.quote isKey_id.quote (.inl (by unfold chars; decide))
  have h2 : ¬ chars "port" ++ '"' :: chars ": " <+: field j ++
      '"' :: parts '"' [chars "port", field p, chars "pid"] (lastPart q ++ B) := by
    rw [field, List.append_assoc]
    exact isKey_port.not_prefix_colon
  have h3 : chars "port" ++ '"' :: chars ": " <+:
      parts '"' [chars "port", field p, chars "pid"] (lastPart q ++ B) := by
    rw [parts, prefix_sep isKey_port.quote isKey_port.quote]
    refine ⟨rfl, ?_⟩
    rw [parts, field, List.append_assoc]
    exact List.prefix_append _ _
  rw [h.from, intNeedle_eq]
  rw [← List.nil_append ('"' :: parts '"' (entryParts j p) (lastPart q ++ B)),
    indexOf_pass (by simp) h1, entryParts, parts, parts, indexOf_pass isKey_id.quote h2,
    indexOf_hit (quote_not_mem_field j) h3]
  simp only [Option.map_some, portLead, List.length_append, List.length_cons, List.length_nil]
  congr 1
  omega

theorem Located.find_pid (h : Located content j p q A B) :
    clusterIndexOfFrom content (intNeedle (chars "pid")) A.length =
      some (A ++ pidLead j p).length := by
  have hne : ∀ {s ss t}, '"' ∉ s → chars "pid" ≠ s →
      ¬ chars "pid" ++ '"' :: chars ": " <+: parts '"' (s :: ss) t :=
    fun hs hn => not_prefix_of_ne isKey_pid.quote hs (.inl hn)
  have hfield : ∀ m l, ¬ chars "pid" ++ '"' :: chars ": " <+:
      parts '"' (field m :: l) (lastPart q ++ B) := by
    intro m l
    rw [parts, field, List.append_assoc]
    exact isKey_pid.not_prefix_colon
  have hit : chars "pid" ++ '"' :: chars ": " <+: parts '"' [chars "pid"] (lastPart q ++ B) := by
    rw [parts, prefix_sep isKey_pid.quote isKey_pid.quote]
    refine ⟨rfl, ?_⟩
    rw [parts, lastPart, List.append_assoc]
    exact List.prefix_append _ _
  have hsplit : parts '"' (entryParts j p) (lastPart q ++ B) =
      parts '"' [chars "id", field j, chars "port"]
        (field p ++ '"' :: parts '"' [chars "pid"] (lastPart q ++ B)) := by
    simp only [entryParts, parts]
  have hpass : Passes '"' (chars "pid" ++ '"' :: chars ": ") [chars "id", field j, chars "port"]
      (field p ++ '"' :: parts '"' [chars "pid"] (lastPart q ++ B)) := by
    refine ⟨isKey_id.quote, ?_, quote_not_mem_field j, hne isKey_port.quote (by unfold chars; decide),
      isKey_port.quote, hfield p [chars "pid"], trivial⟩
    exact hfield j [chars "port", field p, chars "pid"]
  rw [h.from, intNeedle_eq, ← List.nil_append ('"' :: parts '"' (entryParts j p) (lastPart q ++ B)),
    hsplit, indexOf_pass (by simp) (hne isKey_id.quote (by unfold chars; decide)), indexOf_parts hpass,
    indexOf_hit (quote_not_mem_field p) hit]
  simp only [Option.map_some, pidLead, portLead, parts, List.length_append, List.length_cons,
    List.length_nil]
  congr 1
  omega

theorem Located.nodeInt_port (h : Located content j p q A B) :
    clusterNodeInt content j (chars "port") = p := by
  rw [h.nodeInt h.text_port h.find_port ?_]
  · have hc : chars ", " = [',', ' '] := by unfold chars; decide
    rw [hc, List.cons_append]
    exact firstNumber_dec p (by decide) _
  · simp only [portLead, entryParts, parts, List.length_append, List.length_cons]
    omega

theorem Located.nodeInt_pid (h : Located content j p q A B) :
    clusterNodeInt content j (chars "pid") = q := by
  rw [h.nodeInt h.text_pid h.find_pid ?_]
  · exact firstNumber_dec q (by decide) _
  · simp only [pidLead, portLead, entryParts, parts, List.length_append, List.length_cons]
    omega

/-- Replacing the pid replaces it in the entry. -/
theorem Located.setNodePid (h : Located content j p q A B) (q' : Nat) :
    clusterSetNodePid content j q' =
      A ++ '"' :: parts '"' (entryParts j p) (lastPart q' ++ B) := by
  have hpos : (A ++ pidLead j p).length + (intNeedle (chars "pid")).length =
      ((A ++ pidLead j p) ++ intNeedle (chars "pid")).length := List.length_append.symm
  have htext : content = ((A ++ pidLead j p) ++ intNeedle (chars "pid")) ++
      (dec q ++ '\x7d' :: B) := by
    rw [List.append_assoc]
    exact h.text_pid
  rw [clusterSetNodePid]
  simp only [h.found, h.find_pid, hpos]
  rw [htext, List.take_left, List.drop_left, dropWhile_dec q (by decide), intToString_natCast,
    intNeedle_eq]
  simp only [entryParts, parts, pidLead, portLead, lastPart, field, List.append_assoc,
    List.cons_append, List.nil_append]

end

/-! ## The text of a record -/

/-- The entries from node `k` on. -/
def nodesText : Nat → List (Nat × Nat) → Text
  | _, [] => []
  | k, [n] => nodeText k n.1 n.2
  | k, n :: ns => nodeText k n.1 n.2 ++ (chars ", " ++ nodesText (k + 1) ns)

/-- The entries of `ns`, each followed by a comma. -/
def leadText : Nat → List (Nat × Nat) → Text
  | _, [] => []
  | k, n :: ns => nodeText k n.1 n.2 ++ (chars ", " ++ leadText (k + 1) ns)

/-- What follows an entry when the entries of `ns` come after it. -/
def afterText (k : Nat) (ns : List (Nat × Nat)) (t : Text) : Text :=
  if ns = [] then t else chars ", " ++ (nodesText k ns ++ t)

def drainingText (draining : List Nat) : Text := commaList (draining.map dec)

/-- The end of the file, from the last entry on. -/
def tailText (draining : List Nat) : Text :=
  chars "], \"draining\": [" ++ (drainingText draining ++ chars "]\x7d")

namespace Record

def render (r : Record) : Text :=
  clusterBuildState r.service r.portBase r.logDir
    (r.nodes.map fun n => ((n.1 : Int), (n.2 : Int))) (r.draining.map Int.ofNat)

/-- The parts of the file before its list of nodes. -/
def headParts (r : Record) : List Text :=
  [['\x7b'], chars "version", field 1, chars "service", chars ": ", r.service, chars ", ",
    chars "port_base", field r.portBase, chars "log_dir", chars ": ", r.logDir, chars ", ",
    chars "nodes"]

end Record

theorem nodesText_cons (k : Nat) (n : Nat × Nat) (ns : List (Nat × Nat)) (t : Text) :
    nodesText k (n :: ns) ++ t = nodeText k n.1 n.2 ++ afterText (k + 1) ns t := by
  cases ns with
  | nil => simp [nodesText, afterText]
  | cons m ns => simp [nodesText, afterText]

theorem nodesText_split (k : Nat) (xs : List (Nat × Nat)) (n : Nat × Nat) (ys : List (Nat × Nat))
    (t : Text) : nodesText k (xs ++ n :: ys) ++ t =
      leadText k xs ++ (nodeText (k + xs.length) n.1 n.2 ++ afterText (k + xs.length + 1) ys t) := by
  induction xs generalizing k with
  | nil => simp [leadText, nodesText_cons]
  | cons x xs ih =>
    have hne : xs ++ n :: ys ≠ [] := by simp
    rw [List.cons_append, nodesText_cons, afterText, if_neg hne, ih, leadText]
    simp only [List.append_assoc, List.length_cons, Nat.add_assoc, Nat.add_comm 1]

theorem commaList_nodes (k : Nat) (ns : List (Nat × Nat)) :
    commaList ((ns.map fun n => ((n.1 : Int), (n.2 : Int))).mapIdx
      fun i n => nodeText (k + i) n.1 n.2) = nodesText k ns := by
  induction ns generalizing k with
  | nil => rfl
  | cons n ns ih =>
    have hih := ih (k + 1)
    cases ns with
    | nil => simp [commaList, nodesText]
    | cons m ns =>
      simp only [List.map_cons, List.mapIdx_cons, commaList, nodesText, Nat.add_zero] at hih ⊢
      rw [← hih]
      simp only [List.append_assoc, Nat.add_assoc, Nat.add_comm 1]

theorem Record.render_eq (r : Record) : r.render =
    parts '"' r.headParts (chars ": [" ++ (nodesText 0 r.nodes ++ tailText r.draining)) := by
  have h1 : chars "\x7b\"version\": 1, \"service\": \"" = '\x7b' :: '"' :: (chars "version" ++
      '"' :: (field 1 ++ '"' :: (chars "service" ++ '"' :: (chars ": " ++ ['"'])))) := by
    simp [chars, field, show dec 1 = ['1'] from rfl]
  have h2 : chars "\", \"port_base\": " =
      '"' :: (chars ", " ++ '"' :: (chars "port_base" ++ '"' :: chars ": ")) := by unfold chars; decide
  have h3 : chars ", \"log_dir\": \"" =
      chars ", " ++ '"' :: (chars "log_dir" ++ '"' :: (chars ": " ++ ['"'])) := by unfold chars; decide
  have h4 : chars "\", \"nodes\": [" =
      '"' :: (chars ", " ++ '"' :: (chars "nodes" ++ '"' :: chars ": [")) := by unfold chars; decide
  have h5 : (r.draining.map Int.ofNat).map intToString = r.draining.map dec := by
    rw [List.map_map]
    exact List.map_congr_left fun d _ => intToString_natCast d
  have h6 := commaList_nodes 0 r.nodes
  simp only [Nat.zero_add] at h6
  simp only [render, clusterBuildState, h1, h2, h3, h4, h5, h6, intToString_natCast, headParts,
    parts, field, tailText, drainingText, List.append_assoc, List.cons_append, List.nil_append]

theorem Record.render_ne_nil (r : Record) : r.render ≠ [] := by
  rw [r.render_eq]
  simp [Record.headParts, parts]

/-! ## Finding an entry of a record -/

/-- A key that is none of the names in front of the nodes passes the head of the file. -/
theorem Record.head_pass (r : Record) {a b : Text} (ha : IsKey a)
    (hname : a ∉ [chars "version", chars "service", chars "port_base", chars "log_dir",
      chars "nodes"]) (hb : ∃ u, b = ':' :: u) (t : Text) :
    indexOf ('"' :: (a ++ '"' :: b)) (parts '"' r.headParts (chars ": [" ++ t)) =
      (indexOf ('"' :: (a ++ '"' :: b)) t).map (· + (parts '"' r.headParts (chars ": [")).length) := by
  simp only [List.mem_cons, List.not_mem_nil, or_false, not_or] at hname
  obtain ⟨h1, h2, h3, h4, h5⟩ := hname
  obtain ⟨u, rfl⟩ := hb
  have hcomma : chars ", " = [',', ' '] := by unfold chars; decide
  have hcolon : ∀ s ss t, ¬ a ++ '"' :: ':' :: u <+: parts '"' ((chars ": " ++ s) :: ss) t := by
    intro s ss t
    rw [parts, List.append_assoc]
    exact ha.not_prefix_colon
  have hcolon0 : ∀ ss t, ¬ a ++ '"' :: ':' :: u <+: parts '"' (chars ": " :: ss) t := by
    intro ss t
    rw [← List.append_nil (chars ": ")]
    exact hcolon [] ss t
  have hpath : ∀ s ss t, '"' ∉ s →
      ¬ a ++ '"' :: ':' :: u <+: parts '"' (s :: chars ", " :: ss) t := by
    intro s ss t hs
    refine not_prefix_of_ne ha.quote hs (.inr fun h => ?_)
    rw [parts, hcomma, List.cons_append] at h
    exact absurd (List.cons_prefix_cons.mp h).1 (by decide)
  have hcommaPart : ∀ ss t, ¬ a ++ '"' :: ':' :: u <+: parts '"' (chars ", " :: ss) t := by
    intro ss t h
    rw [parts] at h
    exact ha.comma _ ((List.prefix_append a _).trans h)
  have hq : ∀ l ∈ [chars "version", chars "service", chars ": ", chars ", ", chars "port_base",
      chars "log_dir", chars "nodes"], '"' ∉ l := by unfold chars; decide
  have hpass : Passes '"' (a ++ '"' :: ':' :: u) r.headParts (chars ": [" ++ t) := by
    refine ⟨by decide, not_prefix_of_ne ha.quote (hq _ (by simp)) (.inl h1), hq _ (by simp),
      hcolon _ _ _, quote_not_mem_field 1, not_prefix_of_ne ha.quote (hq _ (by simp)) (.inl h2),
      hq _ (by simp), hcolon0 _ _, hq _ (by simp), hpath _ _ _ r.service_clean, r.service_clean,
      hcommaPart _ _, hq _ (by simp), not_prefix_of_ne ha.quote (hq _ (by simp)) (.inl h3),
      hq _ (by simp), hcolon _ _ _, quote_not_mem_field _,
      not_prefix_of_ne ha.quote (hq _ (by simp)) (.inl h4), hq _ (by simp), hcolon0 _ _,
      hq _ (by simp), hpath _ _ _ r.logDir_clean, r.logDir_clean, hcommaPart _ _, hq _ (by simp),
      not_prefix_of_ne ha.quote (hq _ (by simp)) (.inl h5), hq _ (by simp), ?_, trivial⟩
    rw [parts, show chars ": [" = chars ": " ++ ['['] by unfold chars; decide, List.append_assoc]
    exact ha.not_prefix_colon
  have hbracket : '"' ∉ chars ": [" := by unfold chars; decide
  have hlen : (parts '"' r.headParts (chars ": [")).length =
      (parts '"' r.headParts []).length + (chars ": [").length := by
    rw [← List.length_append, ← parts_append, List.nil_append]
  rw [indexOf_parts hpass, indexOf_skip hbracket, Option.map_map, hlen]
  congr 1
  funext x
  simp only [Function.comp_apply]
  omega

theorem idNeedle_head (r : Record) (j : Int) (t : Text) :
    indexOf (idNeedle j) (parts '"' r.headParts (chars ": [" ++ t)) =
      (indexOf (idNeedle j) t).map (· + (parts '"' r.headParts (chars ": [")).length) := by
  rw [idNeedle_eq]
  refine r.head_pass isKey_id (by unfold chars; decide) ⟨' ' :: (intToString j ++ [',']), ?_⟩ t
  rw [show chars ": " = [':', ' '] by unfold chars; decide]
  rfl

/-- The entries of other nodes are passed. -/
theorem idNeedle_lead {j : Int} {k : Nat} {xs : List (Nat × Nat)}
    (h : j < k ∨ ((k + xs.length : Nat) : Int) ≤ j) (t : Text) :
    indexOf (idNeedle j) (leadText k xs ++ t) =
      (indexOf (idNeedle j) t).map (· + (leadText k xs).length) := by
  induction xs generalizing k with
  | nil => simp [leadText]
  | cons x xs ih =>
    have hcomma : '"' ∉ chars ", " := by unfold chars; decide
    have hstep : j < (k + 1 : Nat) ∨ ((k + 1 + xs.length : Nat) : Int) ≤ j := by
      simp only [List.length_cons] at h
      omega
    have hne : j ≠ k := by
      simp only [List.length_cons] at h
      omega
    rw [leadText, List.append_assoc, idNeedle_pass hne, List.append_assoc]
    rw [show indexOf (idNeedle j) (chars ", " ++ (leadText (k + 1) xs ++ t)) =
        (indexOf (idNeedle j) (leadText (k + 1) xs ++ t)).map (· + (chars ", ").length) by
      rw [idNeedle_eq, indexOf_skip hcomma]]
    rw [ih hstep, Option.map_map, Option.map_map]
    congr 1
    funext x
    simp only [Function.comp_apply, List.length_append]
    omega

/-- The entry itself is found at its first quote. -/
theorem idNeedle_entry (j p q : Nat) (t : Text) :
    indexOf (idNeedle j) (nodeText j p q ++ t) = some 1 := by
  have hbrace : '"' ∉ ['\x7b'] := by decide
  have hsplit : nodeText j p q ++ t =
      ['\x7b'] ++ '"' :: parts '"' (entryParts j p) (lastPart q ++ t) := by
    rw [nodeText_parts, parts_append]
    simp
  have hit : chars "id" ++ '"' :: (chars ": " ++ (intToString j ++ [','])) <+:
      parts '"' (entryParts j p) (lastPart q ++ t) := by
    rw [entryParts, parts, prefix_sep isKey_id.quote isKey_id.quote]
    exact ⟨rfl, id_prefix.mpr rfl⟩
  rw [hsplit, idNeedle_eq, indexOf_hit hbrace hit]
  rfl

/-- The text in front of the entry of the node after `xs`. -/
def Record.before (r : Record) (xs : List (Nat × Nat)) : Text :=
  parts '"' r.headParts (chars ": [") ++ (leadText 0 xs ++ ['\x7b'])

/-- **The entry of a node stands where its id is found.** -/
theorem Record.located (r : Record) {xs ys : List (Nat × Nat)} {n : Nat × Nat}
    (h : r.nodes = xs ++ n :: ys) : Located r.render xs.length n.1 n.2 (r.before xs)
      (afterText (xs.length + 1) ys (tailText r.draining)) where
  text := by
    rw [r.render_eq, h, nodesText_split, Nat.zero_add, nodeText_parts, Record.before, parts_append,
      parts_append]
    simp only [List.append_assoc, List.cons_append, List.nil_append]
  found := by
    have hlead : (xs.length : Int) < (0 : Nat) ∨ ((0 + xs.length : Nat) : Int) ≤ xs.length := by
      omega
    rw [r.render_eq, h, idNeedle_head, nodesText_split, idNeedle_lead hlead, Nat.zero_add,
      idNeedle_entry]
    simp only [Option.map_some, Record.before, List.length_append, List.length_singleton]
    congr 1
    omega

theorem quote_not_mem_drainingText (ds : List Nat) : '"' ∉ drainingText ds := by
  have hcomma : '"' ∉ chars ", " := by unfold chars; decide
  induction ds with
  | nil => simp [drainingText, commaList]
  | cons d ds ih =>
    cases ds with
    | nil => simpa [drainingText, commaList] using quote_not_mem_dec d
    | cons e ds =>
      simp only [drainingText, List.map_cons, commaList] at ih ⊢
      simp only [List.mem_append, not_or]
      exact ⟨⟨quote_not_mem_dec d, hcomma⟩, ih⟩

/-- No id is found after the entries. -/
theorem idNeedle_tail (j : Int) (ds : List Nat) : indexOf (idNeedle j) (tailText ds) = none := by
  have hopen : '"' ∉ chars "], " := by unfold chars; decide
  have hend : '"' ∉ chars ": [" ++ (drainingText ds ++ chars "]\x7d") := by
    have h1 : '"' ∉ chars ": [" := by unfold chars; decide
    have h2 : '"' ∉ chars "]\x7d" := by unfold chars; decide
    simp [h1, h2, quote_not_mem_drainingText ds]
  have hsplit : tailText ds = chars "], " ++ '"' :: parts '"' [chars "draining"]
      (chars ": [" ++ (drainingText ds ++ chars "]\x7d")) := by
    rw [tailText, show chars "], \"draining\": [" = chars "], " ++ '"' :: (chars "draining" ++
      '"' :: chars ": [") by unfold chars; decide]
    simp only [parts, List.append_assoc, List.cons_append]
  have hdr : ¬ chars "id" ++ '"' :: (chars ": " ++ (intToString j ++ [','])) <+:
      parts '"' [chars "draining"] (chars ": [" ++ (drainingText ds ++ chars "]\x7d")) :=
    not_prefix_of_ne isKey_id.quote isKey_draining.quote (.inl (by unfold chars; decide))
  have hpass : Passes '"' (chars "id" ++ '"' :: (chars ": " ++ (intToString j ++ [','])))
      [chars "draining"]
      (chars ": [" ++ (drainingText ds ++ chars "]\x7d")) := by
    refine ⟨isKey_draining.quote, ?_, trivial⟩
    rw [parts, show chars ": [" = chars ": " ++ ['['] by unfold chars; decide, List.append_assoc]
    exact isKey_id.not_prefix_colon
  rw [hsplit, idNeedle_eq, indexOf_pass hopen hdr, indexOf_parts hpass,
    ← List.append_nil (chars ": [" ++ (drainingText ds ++ chars "]\x7d")), indexOf_skip hend]
  simp [indexOf]

/-- A node the record does not have is not found. -/
theorem Record.absent (r : Record) {j : Int} (h : j < 0 ∨ (r.nodes.length : Int) ≤ j) :
    indexOf (idNeedle j) r.render = none := by
  rw [r.render_eq, idNeedle_head]
  cases hn : r.nodes.reverse with
  | nil =>
    rw [List.reverse_eq_nil_iff.mp hn]
    simp [nodesText, idNeedle_tail]
  | cons n xs =>
    have hnodes : r.nodes = xs.reverse ++ [n] := by
      rw [← List.reverse_reverse r.nodes, hn, List.reverse_cons]
    rw [hnodes, List.length_append, List.length_singleton] at h
    rw [hnodes, nodesText_split, idNeedle_lead (by omega), idNeedle_pass (by omega), afterText,
      if_pos rfl, idNeedle_tail]
    rfl

end Cluster
