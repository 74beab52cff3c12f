import Orbit.Cluster.Proof.Record

/-!
# What the state file says after edits

The text of `clusterBuildState`, after any sequence of `clusterSetNodePid` and `clusterAddDraining`,
is read as the fields after the same changes, exactly when no path holds a quote and there are at
most 1024 nodes (`fields_iff`).
-/

namespace Cluster

open Lib.Find
open Lib.Text (chars intToString)

/-- What the operations of the state file are about. Node `i` is at position `i`, with its port and
its pid. -/
structure Fields where
  service : Text
  portBase : Nat
  logDir : Text
  nodes : List (Nat × Nat)
  draining : List Nat
  deriving DecidableEq, Repr

inductive Edit where
  | setNodePid (id pid : Nat)
  | addDraining (id : Nat)
  deriving DecidableEq, Repr

namespace Fields

/-- The file as it is first written. -/
def text (f : Fields) : Text :=
  clusterBuildState f.service f.portBase f.logDir
    (f.nodes.map fun n => ((n.1 : Int), (n.2 : Int))) (f.draining.map Int.ofNat)

def setNodePid (f : Fields) (id pid : Nat) : Fields :=
  { f with nodes := f.nodes.modify id fun n => (n.1, pid) }

def addDraining (f : Fields) (id : Nat) : Fields :=
  if id ∈ f.draining then f else { f with draining := f.draining ++ [id] }

def apply (f : Fields) : Edit → Fields
  | .setNodePid id pid => f.setNodePid id pid
  | .addDraining id => f.addDraining id

/-- A number of node `id`, or -1 where there is no such node. -/
def number (f : Fields) (part : Nat × Nat → Nat) : Int → Int
  | .ofNat id => (f.nodes[id]?.map fun n => (part n : Int)).getD (-1)
  | .negSucc _ => -1

end Fields

/-- The same edits of the text. -/
def Edit.onText (content : Text) : Edit → Text
  | .setNodePid id pid => clusterSetNodePid content id pid
  | .addDraining id => clusterAddDraining content id

/-- The reads of a text give the fields. -/
structure ReadsAs (content : Text) (f : Fields) : Prop where
  service : clusterFieldStr content (chars "service") = f.service
  logDir : clusterFieldStr content (chars "log_dir") = f.logDir
  count : clusterNodeCount content = f.nodes.length
  port : ∀ id, clusterNodeInt content id (chars "port") = f.number Prod.fst id
  pid : ∀ id, clusterNodeInt content id (chars "pid") = f.number Prod.snd id
  draining : ∀ id, clusterDrainingContains content id = true ↔ ∃ j ∈ f.draining, id = (j : Nat)

/-- Every read but that of the pid of node `j` is the same. -/
structure SameBut (j : Nat) (content content' : Text) : Prop where
  service : clusterFieldStr content' (chars "service") = clusterFieldStr content (chars "service")
  logDir : clusterFieldStr content' (chars "log_dir") = clusterFieldStr content (chars "log_dir")
  count : clusterNodeCount content' = clusterNodeCount content
  port : ∀ id, clusterNodeInt content' id (chars "port") = clusterNodeInt content id (chars "port")
  pid : ∀ id : Int, id ≠ j →
    clusterNodeInt content' id (chars "pid") = clusterNodeInt content id (chars "pid")
  draining : ∀ id, clusterDrainingContains content' id = clusterDrainingContains content id

/-! ## The two paths -/

theorem fieldStr_of_found {content key A v B : Text}
    (h : content = A ++ (keyNeedle key ++ (' ' :: '"' :: (v ++ '"' :: B))))
    (hfind : indexOf (keyNeedle key) content = some A.length) (hv : '"' ∉ v) :
    clusterFieldStr content key = v := by
  have hdrop : content.drop (A.length + (keyNeedle key).length) = ' ' :: '"' :: (v ++ '"' :: B) := by
    rw [h, ← List.append_assoc, ← List.length_append, List.drop_left]
  rw [clusterFieldStr, hfind]
  dsimp only
  rw [hdrop, List.dropWhile_cons_of_pos (by decide), List.dropWhile_cons_of_neg (by decide),
    List.drop_one, List.tail_cons, List.takeWhile_append_of_pos, List.takeWhile_cons_of_neg (by simp),
    List.append_nil]
  intro c hc
  rw [decide_eq_true_eq]
  rintro rfl
  exact hv hc

theorem keyNeedle_eq (key : Text) : keyNeedle key = '"' :: (key ++ '"' :: [':']) := by
  rw [keyNeedle, show chars "\":" = '"' :: [':'] by unfold chars; decide]

/-- A key behind the parts `ss`, none of which it matches, and the part `s`. -/
theorem fieldStr_of_parts {content key v s rest : Text} (ss : List Text) (hs : '"' ∉ s)
    (h : content = parts '"' ss (s ++ '"' :: (key ++ '"' :: (chars ": " ++ '"' :: (v ++ '"' :: rest)))))
    (hpass : Passes '"' (key ++ '"' :: [':']) ss
      (s ++ '"' :: (key ++ '"' :: (chars ": " ++ '"' :: (v ++ '"' :: rest)))))
    (hv : '"' ∉ v) : clusterFieldStr content key = v := by
  have hcolon : chars ": " = [':', ' '] := by unfold chars; decide
  refine fieldStr_of_found (A := parts '"' ss s) (B := rest) ?_ ?_ hv
  · rw [h, parts_append, keyNeedle_eq, hcolon, ← List.append_nil s, parts_append]
    simp
  · have hlen : (parts '"' ss s).length = (parts '"' ss []).length + s.length := by
      rw [← List.length_append, ← parts_append, List.nil_append]
    have hit : key ++ '"' :: [':'] <+: key ++ '"' :: (chars ": " ++ '"' :: (v ++ '"' :: rest)) := by
      rw [hcolon]
      exact ⟨' ' :: '"' :: (v ++ '"' :: rest), by simp⟩
    rw [h, keyNeedle_eq, indexOf_parts hpass, indexOf_hit hs hit, Option.map_some, hlen,
      Nat.add_comm]

namespace Record
variable (r : Record)

theorem fieldStr_service : clusterFieldStr r.render (chars "service") = r.service := by
  have hkey : IsKey (chars "service") := by
    rw [show chars "service" = ['s', 'e', 'r', 'v', 'i', 'c', 'e'] by unfold chars; decide]
    exact isKey_of (by decide) (by decide) (by decide)
  have hq : '"' ∉ chars "version" := by unfold chars; decide
  refine fieldStr_of_parts [['\x7b'], chars "version"] (quote_not_mem_field 1) r.render_eq
    ⟨by decide, ?_, hq, ?_, trivial⟩ r.service_clean
  · exact not_prefix_of_ne hkey.quote hq (.inl (by unfold chars; decide))
  · rw [parts, field, List.append_assoc]
    exact hkey.not_prefix_colon

theorem fieldStr_logDir : clusterFieldStr r.render (chars "log_dir") = r.logDir := by
  have hkey : IsKey (chars "log_dir") := by
    rw [show chars "log_dir" = ['l', 'o', 'g', '_', 'd', 'i', 'r'] by unfold chars; decide]
    exact isKey_of (by decide) (by decide) (by decide)
  have hq : ∀ l ∈ [chars "version", chars "service", chars ": ", chars ", ", chars "port_base"],
      '"' ∉ l := by unfold chars; decide
  have hcomma : chars ", " = [',', ' '] := by unfold chars; decide
  refine fieldStr_of_parts [['\x7b'], chars "version", field 1, chars "service", chars ": ",
      r.service, chars ", ", chars "port_base"] (quote_not_mem_field r.portBase) r.render_eq
    ⟨by decide, not_prefix_of_ne hkey.quote (hq _ (by simp)) (.inl (by unfold chars; decide)),
      hq _ (by simp), ?_, quote_not_mem_field 1,
      not_prefix_of_ne hkey.quote (hq _ (by simp)) (.inl (by unfold chars; decide)),
      hq _ (by simp), ?_, hq _ (by simp), ?_, r.service_clean, ?_, hq _ (by simp),
      not_prefix_of_ne hkey.quote (hq _ (by simp)) (.inl (by unfold chars; decide)),
      hq _ (by simp), ?_, trivial⟩ r.logDir_clean
  · rw [parts, field, List.append_assoc]
    exact hkey.not_prefix_colon
  · rw [parts]
    exact hkey.not_prefix_colon
  · refine not_prefix_of_ne hkey.quote r.service_clean (.inr fun h => ?_)
    rw [parts, hcomma, List.cons_append] at h
    exact absurd (List.cons_prefix_cons.mp h).1 (by decide)
  · intro h
    rw [parts] at h
    exact hkey.comma _ ((List.prefix_append _ _).trans h)
  · rw [parts, field, List.append_assoc]
    exact hkey.not_prefix_colon

end Record

/-! ## All reads -/

theorem not_mem_fieldStr (content key : Text) : '"' ∉ clusterFieldStr content key := by
  rw [clusterFieldStr]
  split
  · exact List.not_mem_nil
  · intro h
    have := List.mem_takeWhile_imp h
    rw [decide_eq_true_eq] at this
    exact this rfl

theorem nodeCount_go_le (content : Text) (fuel n : Nat) :
    clusterNodeCount.go content fuel n ≤ n + fuel := by
  induction fuel generalizing n with
  | zero => exact Nat.le_refl n
  | succ fuel ih =>
    rw [clusterNodeCount.go]
    split
    · omega
    · have := ih (n + 1)
      omega

namespace Fields
variable (f : Fields)

/-- The paths hold no quote, and the count of the nodes does not stop before their end. -/
def Plain : Prop := '"' ∉ f.service ∧ '"' ∉ f.logDir ∧ f.nodes.length ≤ 1024

variable {f}

/-- Fields with plain paths are a record. -/
def Plain.record (h : f.Plain) : Record where
  service := f.service
  portBase := f.portBase
  logDir := f.logDir
  nodes := f.nodes
  draining := f.draining
  service_clean := h.1
  logDir_clean := h.2.1

theorem Plain.apply (h : f.Plain) (e : Edit) : (f.apply e).Plain := by
  cases e with
  | setNodePid id pid =>
    refine ⟨h.1, h.2.1, ?_⟩
    rw [Fields.apply, setNodePid, List.length_modify]
    exact h.2.2
  | addDraining id =>
    rw [Fields.apply, addDraining]
    split
    · exact h
    · exact h

/-- An edit of the text is the edit of the fields. -/
theorem Plain.onText (h : f.Plain) (e : Edit) : Edit.onText f.text e = (f.apply e).text := by
  cases e with
  | setNodePid id pid =>
    by_cases hid : id < f.nodes.length
    · exact h.record.render_setPid hid pid
    · have hsame : f.apply (.setNodePid id pid) = f := by
        rw [Fields.apply, setNodePid, List.modify_eq_self (Nat.le_of_not_lt hid)]
      have habsent : indexOf (idNeedle id) f.text = none :=
        h.record.absent (.inr (by exact_mod_cast Nat.le_of_not_lt hid))
      rw [hsame, Edit.onText, clusterSetNodePid, habsent]
  | addDraining id =>
    have hrec := h.record.render_addDraining id
    by_cases hmem : id ∈ f.draining
    · rw [Record.addDraining, if_pos (show id ∈ h.record.draining from hmem)] at hrec
      rw [Fields.apply, addDraining, if_pos hmem]
      exact hrec
    · rw [Record.addDraining, if_neg (show id ∉ h.record.draining from hmem)] at hrec
      rw [Fields.apply, addDraining, if_neg hmem]
      exact hrec

theorem Plain.number (h : f.Plain) {key : Text} {part : Nat × Nat → Nat}
    (hread : ∀ (j : Nat) n, f.nodes[j]? = some n → clusterNodeInt f.text j key = part n) (id : Int) :
    clusterNodeInt f.text id key = f.number part id := by
  have habsent : id < 0 ∨ (f.nodes.length : Int) ≤ id → clusterNodeInt f.text id key = -1 := by
    intro hid
    rw [clusterNodeInt, show indexOf (idNeedle id) f.text = none from h.record.absent hid]
  cases id with
  | negSucc n => exact habsent (.inl (by omega))
  | ofNat j =>
    rw [Fields.number]
    cases hj : f.nodes[j]? with
    | none =>
      rw [List.getElem?_eq_none_iff] at hj
      exact habsent (.inr (Int.ofNat_le.mpr hj))
    | some n => exact hread j n hj

theorem minus_not_mem_drainingText (ds : List Nat) : '-' ∉ drainingText ds := by
  induction ds with
  | nil => simp [drainingText, commaList]
  | cons d ds ih =>
    cases ds with
    | nil => simpa [drainingText, commaList] using not_mem_dec d (by decide)
    | cons e ds =>
      rw [drainingText_cons]
      simp [not_mem_dec d (c := '-') (by decide), ih]

/-- **The text of plain fields is read as the fields.** -/
theorem Plain.readsAs (h : f.Plain) : ReadsAs f.text f where
  service := h.record.fieldStr_service
  logDir := h.record.fieldStr_logDir
  count := by
    rw [show clusterNodeCount f.text = f.nodes.length from h.record.nodeCount h.2.2]
  port := h.number fun _ _ hj => h.record.nodeInt_port hj
  pid := h.number fun _ _ hj => h.record.nodeInt_pid hj
  draining := fun id => by
    cases id with
    | ofNat j =>
      rw [show clusterDrainingContains f.text (Int.ofNat j) = true ↔ j ∈ f.draining from
        h.record.drainingContains j]
      exact ⟨fun hj => ⟨j, hj, rfl⟩, fun ⟨i, hi, he⟩ => by rwa [Int.ofNat.inj he]⟩
    | negSucc n =>
      refine ⟨fun hread => ?_, fun ⟨i, _, he⟩ => by cases he⟩
      have hsub : clusterDrainingSub f.text = drainingText f.draining := h.record.drainingSub
      have hneg : intToString (Int.negSucc n) = '-' :: dec (n + 1) := by
        rw [intToString, if_pos (by omega)]
        rfl
      rw [clusterDrainingContains, hsub, hneg, listsNumber_iff (by simp)] at hread
      obtain ⟨p, hprefix, -⟩ := hread
      have hmem : '-' ∈ (drainingText f.draining).drop p := hprefix.subset List.mem_cons_self
      exact absurd (List.mem_of_mem_drop hmem) (minus_not_mem_drainingText _)

/-- Fields that are read are plain. -/
theorem plain_of_readsAs {content : Text} (h : ReadsAs content f) : f.Plain := by
  refine ⟨h.service ▸ not_mem_fieldStr _ _, h.logDir ▸ not_mem_fieldStr _ _, ?_⟩
  have hcount : clusterNodeCount content ≤ 0 + 1024 := nodeCount_go_le content 1024 0
  have := h.count
  omega

theorem number_setNodePid (j pid : Nat) {part : Nat × Nat → Nat} {id : Int}
    (h : id ≠ (j : Nat) ∨ ∀ n : Nat × Nat, part (n.1, pid) = part n) :
    (f.setNodePid j pid).number part id = f.number part id := by
  cases id with
  | negSucc n => rfl
  | ofNat i =>
    simp only [number, setNodePid, List.getElem?_modify]
    by_cases hij : j = i
    · subst hij
      have hpart : ∀ n : Nat × Nat, part (n.1, pid) = part n := h.resolve_left (by simp)
      cases f.nodes[j]? with
      | none => rfl
      | some n => simp [hpart n]
    · cases f.nodes[i]? with
      | none => rfl
      | some n => simp [hij]

/-- **Setting a pid changes no other read.** -/
theorem Plain.setNodePid_sameBut (h : f.Plain) (j pid : Nat) :
    SameBut j f.text (clusterSetNodePid f.text j pid) := by
  have hr := h.readsAs
  have hr' := (h.apply (.setNodePid j pid)).readsAs
  rw [← h.onText] at hr'
  exact {
    service := hr'.service.trans hr.service.symm
    logDir := hr'.logDir.trans hr.logDir.symm
    count := by
      have hlen : (f.setNodePid j pid).nodes.length = f.nodes.length := List.length_modify ..
      exact (hr'.count.trans hlen).trans hr.count.symm
    port := fun id => (hr'.port id).trans
      ((number_setNodePid j pid (.inr fun _ => rfl)).trans (hr.port id).symm)
    pid := fun id hid => (hr'.pid id).trans
      ((number_setNodePid j pid (.inl hid)).trans (hr.pid id).symm)
    draining := fun id => Bool.eq_iff_iff.mpr ((hr'.draining id).trans (hr.draining id).symm) }

/-- **Draining a node twice is draining it once.** -/
theorem Plain.addDraining_twice (h : f.Plain) (j : Nat) :
    clusterAddDraining (clusterAddDraining f.text j) j = clusterAddDraining f.text j := by
  have honce : clusterAddDraining f.text j = (f.addDraining j).text := h.onText (.addDraining j)
  have hmem : j ∈ (f.addDraining j).draining := by
    rw [addDraining]
    split
    · assumption
    · simp
  have hlisted := ((h.apply (.addDraining j)).readsAs.draining j).mpr ⟨j, hmem, rfl⟩
  rw [honce, clusterAddDraining]
  exact if_pos hlisted

theorem Plain.foldl (h : f.Plain) (edits : List Edit) : (edits.foldl Fields.apply f).Plain ∧
    edits.foldl Edit.onText f.text = (edits.foldl Fields.apply f).text := by
  induction edits generalizing f with
  | nil => exact ⟨h, rfl⟩
  | cons e edits ih =>
    rw [List.foldl_cons, List.foldl_cons, h.onText]
    exact ih (h.apply e)

end Fields

/-- **The state text is a record** through every sequence of edits, exactly when no path holds a
quote and there are at most 1024 nodes. -/
theorem fields_iff (f : Fields) :
    (∀ edits : List Edit,
      ReadsAs (edits.foldl Edit.onText f.text) (edits.foldl Fields.apply f) ∧
      (∀ j pid : Nat, SameBut j (edits.foldl Edit.onText f.text)
        (clusterSetNodePid (edits.foldl Edit.onText f.text) j pid)) ∧
      ∀ j : Nat, clusterAddDraining (clusterAddDraining (edits.foldl Edit.onText f.text) j) j =
        clusterAddDraining (edits.foldl Edit.onText f.text) j) ↔
    '"' ∉ f.service ∧ '"' ∉ f.logDir ∧ f.nodes.length ≤ 1024 := by
  constructor
  · intro h
    exact Fields.plain_of_readsAs (h []).1
  · intro h edits
    obtain ⟨hplain, htext⟩ := Fields.Plain.foldl h edits
    rw [htext]
    exact ⟨hplain.readsAs, hplain.setNodePid_sameBut, hplain.addDraining_twice⟩

/-- A quote in the log directory ends the path early. -/
theorem logDir_quote : clusterFieldStr
    (Fields.text ⟨chars "s", 80, chars "a\"b", [(80, 7)], []⟩) (chars "log_dir") ≠ chars "a\"b" := by
  decide +kernel

end Cluster
