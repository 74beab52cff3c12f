import Mathlib
import Orbit.Cluster.World
import Orbit.Cluster.Proof.Record

/-!
# No orphans

`Good` says which outcomes of a step keep the nodes recorded: a probe does not call a running node
dead, a failed write leaves the file as it was and is not one of a restart, the forced stop of
`down` and the stop with which `up` cleans up end the node they are sent to. Under these outcomes
every command keeps `Tracked` (`up_tracked`, `drain_tracked`, `restart_tracked`, `down_tracked`), so
every reachable state has no orphan.
-/

namespace Cluster

open Lib (Prog)
open Lib.Prog
open Lib.Text (chars intToString)

/-- The outcomes of the steps of a call under which no node is lost. -/
def Good (c : Call) (w : World) : (o : Op) → Res o → World → Prop
  | .write content note, ok, w' => Step w (.write content note) ok w' ∧
      (ok = false → w'.file = w.file ∧ ∀ env, c ≠ .restart env)
  | .kill pid mode, result, w' => Step w (.kill pid mode) result w' ∧
      (mode = 2 → result = 0 → pid ∉ w'.alive) ∧
      (mode = 1 → ∀ env, c = .up env → pid ∉ w'.alive) ∧
      (mode = 0 → c = .down → pid ∉ w'.alive)
  | o, r, w' => Step w o r w'

/-- The paths that `up` writes to the file hold no quote. -/
def Call.Clean : Call → Prop
  | .up env => '"' ∉ env.cwd ∧ '"' ∉ upLogDir env
  | _ => True

/-- The file is the text of `r`, and every node that is alive is in it. -/
structure Kept (r : Record) (w : World) : Prop where
  file : w.file = r.render
  alive : ∀ pid ∈ w.alive, ∃ n ∈ r.nodes, (n.2 : Int) = pid
  pos : ∀ pid ∈ w.alive, 0 < pid

/-- What holds between the commands. -/
def Tracked (w : World) : Prop :=
  w.file = [] ∧ w.alive = ∅ ∨ ∃ r, r.nodes.length ≤ 64 ∧ Kept r w

/-- A property of worlds that no quiet step breaks. -/
def Stable (P : World → Prop) : Prop := ∀ w w', w.Quiet w' → P w → P w'

/-- Every run of `p` from `w` in a call of `c` ends as `Q` says. -/
abbrev Ends (c : Call) {α : Type} (Q : α → World → Prop) (p : Command α) (w : World) : Prop :=
  Prog.Holds (fun _ _ => True) (Good c) Q p w

theorem Kept.stable (r : Record) : Stable (Kept r) :=
  fun _ _ hq h => ⟨hq.file.trans h.file, fun pid hp => h.alive pid (hq.alive hp),
    fun pid hp => h.pos pid (hq.alive hp)⟩

theorem Tracked.stable : Stable Tracked := by
  rintro w w' hq (⟨hf, ha⟩ | ⟨r, hlen, hk⟩)
  · refine .inl ⟨hq.file.trans hf, ?_⟩
    have := hq.alive
    rw [ha] at this
    exact Set.subset_empty_iff.mp this
  · exact .inr ⟨r, hlen, Kept.stable r _ _ hq hk⟩

theorem Kept.noOrphan {r : Record} {w : World} (h : Kept r w) (hlen : r.nodes.length ≤ 64) :
    w.NoOrphan := by
  intro pid hp
  obtain ⟨n, hn, rfl⟩ := h.alive pid hp
  obtain ⟨i, hi, rfl⟩ := List.getElem_of_mem hn
  refine ⟨i, ?_, ?_⟩
  · rw [h.file, r.nodeCount (by omega)]
    exact hi
  · rw [h.file]
    exact r.nodeInt_pid (List.getElem?_eq_getElem hi)

theorem Tracked.noOrphan {w : World} (h : Tracked w) : w.NoOrphan := by
  rcases h with ⟨-, ha⟩ | ⟨r, hlen, hk⟩
  · intro pid hp
    rw [ha] at hp
    exact hp.elim
  · exact hk.noOrphan hlen

/-! ## Steps that write nothing -/

section Quiet
variable {c : Call} {P : World → Prop} {w : World}

theorem ends_err (hP : Stable P) (h : P w) (t : Text) : Ends c (fun _ w => P w) (err t) w :=
  ⟨trivial, fun _ _ he => hP _ _ he h⟩

/-- A command that fails writes to standard error and ends. -/
theorem ends_fail (hP : Stable P) (h : P w) (t u : Text) {α : Type} (a : α) :
    Ends c (fun _ w => P w) (err t >>= fun _ => err u >>= fun _ => pure a) w :=
  Holds.bind (ends_err hP h t) fun _ _ h => Holds.bind (ends_err hP h u) fun _ _ h => h

theorem ends_sleep (hP : Stable P) (h : P w) (s : Nat) : Ends c (fun _ w => P w) (sleep s) w :=
  ⟨trivial, fun _ _ he => hP _ _ he h⟩

theorem ends_read (hP : Stable P) (h : P w) :
    Ends c (fun content w => content = w.file ∧ P w) read w :=
  ⟨trivial, fun _ _ he => ⟨he.1.trans he.2.file.symm, hP _ _ he.2 h⟩⟩

theorem ends_kill (hP : Stable P) (h : P w) (pid : Int) (mode : Nat) :
    Ends c (fun result w => P w ∧ (result ≠ 1 → result = 0) ∧
      (mode = 2 → result = 0 → pid ∉ w.alive) ∧
      (mode = 1 → ∀ env, c = .up env → pid ∉ w.alive) ∧ (mode = 0 → c = .down → pid ∉ w.alive))
      (kill pid mode) w := by
  refine ⟨trivial, fun result w' he => ⟨hP _ _ he.1.2 h, fun hne => ?_, he.2⟩⟩
  rcases he.1.1 with h0 | ⟨-, h1⟩
  · exact h0
  · exact absurd h1 hne

theorem ends_waitAlive (hP : Stable P) (h : P w) (pid : Int) (secs : Nat) :
    Ends c (fun _ w => P w) (clusterWaitAlive pid secs) w := by
  induction secs generalizing w with
  | zero =>
    rw [clusterWaitAlive]
    exact Holds.bind (ends_kill hP h pid 2) fun _ _ hk => hk.1
  | succ secs ih =>
    rw [clusterWaitAlive]
    refine Holds.bind (ends_kill hP h pid 2) fun result w hk => ?_
    split
    · exact hk.1
    · exact Holds.bind (ends_sleep hP hk.1 1) fun _ _ hs => ih hs

/-- A node that is waited for is dead when the wait says so. -/
theorem ends_waitDead (hP : Stable P) (h : P w) (pid : Int) (secs : Nat) :
    Ends c (fun dead w => P w ∧ (dead = true → pid ∉ w.alive)) (clusterWaitDead pid secs) w := by
  induction secs generalizing w with
  | zero =>
    rw [clusterWaitDead]
    refine Holds.bind (ends_kill hP h pid 2) fun result w hk => ?_
    exact ⟨hk.1, fun hd => hk.2.2.1 rfl (by simpa using hd)⟩
  | succ secs ih =>
    rw [clusterWaitDead]
    refine Holds.bind (ends_kill hP h pid 2) fun result w hk => ?_
    split
    · next hd => exact ⟨hk.1, fun _ => hk.2.2.1 rfl (by simpa using hd)⟩
    · exact Holds.bind (ends_sleep hP hk.1 1) fun _ _ hs => ih hs

theorem ends_confirmAlive (hP : Stable P) (h : P w) (pid : Int) :
    Ends c (fun _ w => P w) (clusterConfirmAlive pid) w := by
  rw [clusterConfirmAlive]
  refine Holds.bind (ends_waitAlive hP h pid 10) fun alive w ha => ?_
  split
  · exact ha
  · refine Holds.bind (ends_sleep hP ha 2) fun _ w hs => ?_
    exact Holds.bind (ends_kill hP hs pid 2) fun _ _ hk => hk.1

/-- A pid that is not alive stays so, as long as nothing is started. -/
theorem Stable.and_dead (hP : Stable P) (pid : Int) : Stable fun w => P w ∧ pid ∉ w.alive :=
  fun _ _ hq h => ⟨hP _ _ hq h.1, fun hp => h.2 (hq.alive hp)⟩

/-- The stops `up` cleans up with end every node of the list. -/
theorem ends_killList {env : Env} (hP : Stable P) (h : P w) (pids : List Int)
    (hpos : ∀ pid ∈ pids, 0 < pid) :
    Ends (.up env) (fun _ w => P w ∧ ∀ pid ∈ pids, pid ∉ w.alive) (clusterKillList 1 pids) w := by
  induction pids generalizing w P with
  | nil =>
    rw [clusterKillList]
    exact ⟨h, by simp⟩
  | cons pid pids ih =>
    rw [clusterKillList]
    have hpid : 0 < pid := hpos pid List.mem_cons_self
    simp only [hpid, if_true]
    refine Holds.bind (ends_kill hP h pid 1) fun _ w hk => ?_
    have hdead := hk.2.2.2.1 rfl env rfl
    refine Holds.mono (ih (hP.and_dead pid) ⟨hk.1, hdead⟩ fun q hq => hpos q (.tail _ hq)) ?_
    rintro _ w ⟨⟨hw, hd⟩, hrest⟩
    refine ⟨hw, ?_⟩
    simp only [List.mem_cons, forall_eq_or_imp]
    exact ⟨hd, hrest⟩

end Quiet

/-! ## `cluster drain` -/

theorem ends_write {c : Call} {w : World} {P : World → Prop} {content : Text} {note : Note}
    (hfail : (∀ env, c ≠ .restart env) → P w)
    (hok : ∀ w', w'.file = content → w'.alive ⊆ w.alive → P w') (hP : Stable P) :
    Ends c (fun _ w => P w) (write content note) w := by
  refine ⟨trivial, fun ok w' he => ?_⟩
  rcases he.1.1 with ⟨-, hfile⟩ | ⟨rfl, -⟩
  · exact hok w' hfile he.1.2
  · obtain ⟨hfile, hc⟩ := he.2 rfl
    exact hP _ _ ⟨hfile, he.1.2⟩ (hfail hc)

theorem Kept.addDraining {r : Record} {w w' : World} (h : Kept r w) {j : Nat}
    (hfile : w'.file = clusterAddDraining w.file j) (halive : w'.alive ⊆ w.alive) :
    Kept (r.addDraining j) w' where
  file := by rw [hfile, h.file, r.render_addDraining]
  alive pid hp := by
    obtain ⟨n, hn, hpid⟩ := h.alive pid (halive hp)
    refine ⟨n, ?_, hpid⟩
    rw [Record.addDraining]
    split
    · exact hn
    · exact hn
  pos pid hp := h.pos pid (halive hp)

theorem Tracked.addDraining {w w' : World} (h : Tracked w) (hne : w.file ≠ []) {id : Int}
    {key : Text} (hid : clusterNodeInt w.file id key ≠ -1)
    (hfile : w'.file = clusterAddDraining w.file id) (halive : w'.alive ⊆ w.alive) :
    Tracked w' := by
  rcases h with ⟨hf, -⟩ | ⟨r, hlen, hk⟩
  · exact absurd hf hne
  · rw [hk.file] at hid
    obtain ⟨j, n, rfl, -⟩ := r.exists_of_nodeInt hid
    refine .inr ⟨r.addDraining j, ?_, hk.addDraining hfile halive⟩
    rw [Record.addDraining]
    split
    · exact hlen
    · exact hlen

/-- What a call reads is the file until it writes. -/
theorem Stable.and_file {P : World → Prop} (hP : Stable P) (content : Text) :
    Stable fun w => P w ∧ content = w.file :=
  fun _ _ hq h => ⟨hP _ _ hq h.1, h.2.trans hq.file.symm⟩

theorem drain_tracked (env : Env) {w : World} (h : Tracked w) :
    Ends (.drain env) (fun _ w => Tracked w) (clusterDrain env) w := by
  rw [clusterDrain]
  split
  · exact Holds.bind (ends_err Tracked.stable h _) fun _ _ h => h
  refine Holds.bind (ends_read Tracked.stable h) ?_
  rintro content w ⟨hread, h⟩
  split
  · exact Holds.bind (Holds.bind (ends_err Tracked.stable h _) fun _ _ h => h) fun _ _ h => h
  next hne =>
  dsimp only
  split
  · exact ends_fail Tracked.stable h _ _ _
  next hknown =>
  have hS := Tracked.stable.and_file content
  have hwrite : ∀ w, Tracked w ∧ content = w.file → Ends (.drain env) (fun _ w => Tracked w)
      (write (clusterAddDraining content (clusterParseInt (env.arg 3)))
        (.draining (clusterParseInt (env.arg 3)))) w := by
    rintro w ⟨hw, rfl⟩
    refine ends_write (fun _ => hw) (fun w' hf ha => ?_) Tracked.stable
    have hport : clusterNodeInt w.file (clusterParseInt (env.arg 3)) (chars "port") ≠ -1 :=
      fun hp => hknown (by simp [hp])
    exact hw.addDraining hne hport hf ha
  refine Holds.bind (ends_kill hS ⟨h, hread⟩ _ 2) ?_
  rintro result w ⟨hw, -⟩
  split
  · refine Holds.bind (hwrite w hw) fun ok w hw => ?_
    split
    · exact ends_fail Tracked.stable hw _ _ _
    · exact hw
  refine Holds.bind (ends_kill hS hw _ 1) ?_
  rintro result w ⟨hw, -⟩
  split
  · exact ends_fail Tracked.stable hw.1 _ _ _
  refine Holds.bind (hwrite w hw) fun ok w hw => ?_
  split
  · exact ends_fail Tracked.stable hw _ _ _
  · exact hw

/-! ## `cluster restart` -/

theorem ends_restartStop {c : Call} {P : World → Prop} {w : World} (hP : Stable P) (h : P w)
    (pid : Int) :
    Ends c (fun stopped w => P w ∧ (stopped = true → pid ∉ w.alive)) (restartStop pid) w := by
  rw [restartStop]
  refine Holds.bind (ends_kill hP h pid 2) ?_
  rintro result w ⟨hw, hzero, hprobe, -⟩
  split
  · refine Holds.bind (ends_kill hP hw pid 1) fun _ w hk => ?_
    refine Holds.bind (ends_waitDead hP hk.1 pid 10) fun dead w hd => ?_
    split
    · refine Holds.bind (ends_kill hP hd.1 pid 0) fun _ w hf => ?_
      exact Holds.bind (ends_waitDead hP hf.1 pid 5) fun _ _ hq => hq
    · next hdead => exact ⟨hd.1, fun _ => hd.2 (by simpa using hdead)⟩
  · next hone => exact ⟨hw, fun _ => hprobe rfl (hzero (by simpa using hone))⟩

/-- Every node that is alive is in the record, apart from the one just started, and node `i` is
not alive. -/
structure Starting (r : Record) (i : Nat) (newPid : Int) (w : World) : Prop where
  file : w.file = r.render
  alive : ∀ pid ∈ w.alive, pid = newPid ∨
    ∃ j n, j ≠ i ∧ r.nodes[j]? = some n ∧ (n.2 : Int) = pid
  pos : ∀ pid ∈ w.alive, 0 < pid

theorem Starting.stable (r : Record) (i : Nat) (newPid : Int) : Stable (Starting r i newPid) :=
  fun _ _ hq h => ⟨hq.file.trans h.file, fun pid hp => h.alive pid (hq.alive hp),
    fun pid hp => h.pos pid (hq.alive hp)⟩

theorem Kept.starting {r : Record} {w w' : World} (h : Kept r w) {i : Nat} {n : Nat × Nat}
    (hn : r.nodes[i]? = some n) (hdead : (n.2 : Int) ∉ w.alive) {newPid : Int} (hpos : 0 < newPid)
    (hfile : w'.file = w.file) (halive : w'.alive ⊆ insert newPid w.alive) :
    Starting r i newPid w' where
  file := hfile.trans h.file
  alive pid hp := by
    rcases halive hp with rfl | hp
    · exact .inl rfl
    · right
      obtain ⟨m, hm, rfl⟩ := h.alive pid hp
      obtain ⟨j, hj, rfl⟩ := List.getElem_of_mem hm
      refine ⟨j, r.nodes[j], ?_, List.getElem?_eq_getElem hj, rfl⟩
      rintro rfl
      rw [List.getElem?_eq_getElem hj, Option.some.injEq] at hn
      rw [hn] at hp
      exact hdead hp
  pos pid hp := by
    rcases halive hp with rfl | hp
    · exact hpos
    · exact h.pos pid hp

/-- Once its pid is written the new node is recorded, and the others still are. -/
theorem Starting.setPid {r : Record} {i p : Nat} {w w' : World} (h : Starting r i p w)
    (hi : i < r.nodes.length) (hfile : w'.file = clusterSetNodePid w.file i p)
    (halive : w'.alive ⊆ w.alive) : Kept (r.setPid i p) w' where
  file := by rw [hfile, h.file, r.render_setPid hi]
  alive pid hp := by
    have hlen : (r.setPid i p).nodes.length = r.nodes.length := by simp [Record.setPid]
    rcases h.alive pid (halive hp) with rfl | ⟨j, n, hij, hn, rfl⟩
    · refine ⟨(r.setPid i p).nodes[i], List.getElem_mem _, ?_⟩
      simp [Record.setPid]
    · refine ⟨n, List.mem_of_getElem? (i := j) ?_, rfl⟩
      simp [Record.setPid, hij.symm, hn]
  pos pid hp := h.pos pid (halive hp)

/-- The file holds a record of `len` nodes that has every node that is alive. -/
def KeptOf (len : Nat) (w : World) : Prop := ∃ r, r.nodes.length = len ∧ Kept r w

theorem KeptOf.stable (len : Nat) : Stable (KeptOf len) := by
  rintro w w' hq ⟨r, hlen, hk⟩
  exact ⟨r, hlen, Kept.stable r _ _ hq hk⟩

theorem ends_spawn {c : Call} {w : World} {node : Nat} {cmd log : Text} :
    Ends c (fun pid w' => Step w (.spawn node cmd log) pid w') (spawn node cmd log) w :=
  ⟨trivial, fun _ _ he => he⟩

theorem ends_restartStart (env : Env) {r : Record} {w : World} {i : Nat} {n : Nat × Nat}
    (h : Kept r w) (hn : r.nodes[i]? = some n) (hdead : (n.2 : Int) ∉ w.alive)
    (runBin runLogDir : Text) (port : Int) :
    Ends (.restart env) (fun _ w => KeptOf r.nodes.length w)
      (restartStart runBin runLogDir r.render i port) w := by
  have hi : i < r.nodes.length := (List.getElem?_eq_some_iff.mp hn).1
  have hS := KeptOf.stable r.nodes.length
  have hwrite : ∀ {p : Nat} {w}, Starting r i p w → Ends (.restart env)
      (fun _ w => KeptOf r.nodes.length w)
      (write (clusterSetNodePid r.render i p) (.pid i p)) w := by
    intro p w hw
    refine ends_write (fun hc => absurd rfl (hc env)) (fun w' hf ha => ?_) hS
    refine ⟨r.setPid i p, by simp [Record.setPid], hw.setPid hi ?_ ha⟩
    rw [hf, hw.file]
  rw [restartStart]
  refine Holds.bind ends_spawn fun newPid w' he => ?_
  rcases he with ⟨rfl, hq⟩ | ⟨hpos, -, hfile, halive⟩
  · exact ends_fail hS ⟨r, rfl, Kept.stable r _ _ hq h⟩ _ _ _
  · obtain ⟨p, rfl⟩ := Int.eq_ofNat_of_zero_le hpos.le
    have hstart : Starting r i p w' := h.starting hn hdead hpos hfile halive
    rw [if_neg (Int.not_le.mpr hpos)]
    refine Holds.bind (ends_confirmAlive (Starting.stable r i p) hstart _) fun alive w hw => ?_
    split
    · refine Holds.bind (hwrite hw) fun _ w hw => ?_
      exact ends_fail hS hw _ _ _
    · refine Holds.bind (hwrite hw) fun ok w hw => ?_
      split
      · exact ends_fail hS hw _ _ _
      · exact hw

theorem ends_restartNodes (env : Env) {len : Nat} (runBin runLogDir : Text) (todo i : Nat)
    {w : World} (h : KeptOf len w) (hlen : i + todo ≤ len) :
    Ends (.restart env) (fun _ w => KeptOf len w) (restartNodes runBin runLogDir todo i) w := by
  induction todo generalizing i w with
  | zero =>
    rw [restartNodes]
    exact h
  | succ todo ih =>
    rw [restartNodes]
    refine Holds.bind (ends_read (KeptOf.stable len) h) ?_
    rintro content w ⟨rfl, h⟩
    split
    · exact ih (i + 1) h (by omega)
    dsimp only
    obtain ⟨r, rfl, hk⟩ := h
    have hi : i < r.nodes.length := by omega
    have hn := List.getElem?_eq_getElem hi
    rw [hk.file, r.nodeInt_pid hn]
    split
    · exact ends_fail (KeptOf.stable _) ⟨r, rfl, hk⟩ _ _ _
    refine Holds.bind (ends_restartStop (Kept.stable r) hk _) ?_
    rintro stopped w ⟨hk, hdead⟩
    split
    · exact ends_fail (KeptOf.stable _) ⟨r, rfl, hk⟩ _ _ _
    next hstop =>
    refine Holds.bind (ends_restartStart env hk hn (hdead (by simpa using hstop)) _ _ _) ?_
    rintro (_ | code) w hw
    · exact ih (i + 1) hw (by omega)
    · exact hw

theorem restart_tracked (env : Env) {w : World} (h : Tracked w) :
    Ends (.restart env) (fun _ w => Tracked w) (clusterRestart env) w := by
  rw [clusterRestart]
  split
  · exact Holds.bind (ends_err Tracked.stable h _) fun _ _ h => h
  refine Holds.bind (ends_read Tracked.stable h) ?_
  rintro content w ⟨rfl, h⟩
  split
  · exact Holds.bind (Holds.bind (ends_err Tracked.stable h _) fun _ _ h => h) fun _ _ h => h
  next hne =>
  dsimp only
  split
  · exact ends_fail Tracked.stable h _ _ _
  rcases h with ⟨hf, -⟩ | ⟨r, hlen, hk⟩
  · exact absurd hf hne
  have hcount : clusterNodeCount w.file = r.nodes.length := by
    rw [hk.file, r.nodeCount (by omega)]
  refine Holds.mono (ends_restartNodes env _ _ _ _ ⟨r, rfl, hk⟩ (by omega)) ?_
  rintro _ w ⟨r', hr', hk'⟩
  exact .inr ⟨r', by omega, hk'⟩

/-! ## `cluster down` -/

/-- The forced stops of `down` leave none of the nodes alive. -/
theorem ends_downSignal {P : World → Prop} {content : Text} (hP : Stable P) (todo i : Nat)
    {w : World} (h : P w) :
    Ends .down (fun _ w => P w ∧ ∀ j, i ≤ j → j < i + todo →
      0 < clusterNodeInt content j (chars "pid") →
        clusterNodeInt content j (chars "pid") ∉ w.alive) (downSignal content 0 todo i) w := by
  induction todo generalizing i w P with
  | zero =>
    rw [downSignal]
    exact ⟨h, fun j h1 h2 => by omega⟩
  | succ todo ih =>
    rw [downSignal]
    dsimp only
    have hnext : ∀ w, P w ∧ (0 < clusterNodeInt content i (chars "pid") →
        clusterNodeInt content i (chars "pid") ∉ w.alive) →
        Ends .down (fun _ w => P w ∧ ∀ j, i ≤ j → j < i + (todo + 1) →
          0 < clusterNodeInt content j (chars "pid") →
            clusterNodeInt content j (chars "pid") ∉ w.alive)
          (downSignal content 0 todo (i + 1)) w := by
      intro w hw
      have hS : Stable fun w => P w ∧ (0 < clusterNodeInt content i (chars "pid") →
          clusterNodeInt content i (chars "pid") ∉ w.alive) :=
        fun _ _ hq h => ⟨hP _ _ hq h.1, fun hp ha => h.2 hp (hq.alive ha)⟩
      refine Holds.mono (ih hS (i + 1) hw) ?_
      rintro _ w ⟨⟨hw, hd⟩, hrest⟩
      refine ⟨hw, fun j h1 h2 hpos => ?_⟩
      by_cases hj : j = i
      · rw [hj] at hpos ⊢
        exact hd hpos
      · exact hrest j (by omega) (by omega) hpos
    split
    · next hpos =>
      refine Holds.bind (ends_kill hP h _ 2) ?_
      rintro result w ⟨hw, hzero, hprobe, -⟩
      split
      · refine Holds.bind (ends_kill hP hw _ 0) ?_
        rintro _ w ⟨hw, -, -, -, hforce⟩
        exact hnext w ⟨hw, fun _ => hforce rfl rfl⟩
      · next hone => exact hnext w ⟨hw, fun _ => hprobe rfl (hzero (by simpa using hone))⟩
    · next hpos => exact hnext w ⟨h, fun hp => absurd hp hpos⟩

theorem ends_downAsk {c : Call} {P : World → Prop} {content : Text} (hP : Stable P) (mode : Nat)
    (todo i : Nat) {w : World} (h : P w) :
    Ends c (fun _ w => P w) (downSignal content mode todo i) w := by
  induction todo generalizing i w with
  | zero =>
    rw [downSignal]
    exact h
  | succ todo ih =>
    rw [downSignal]
    dsimp only
    split
    · refine Holds.bind (ends_kill hP h _ 2) fun result w hk => ?_
      split
      · exact Holds.bind (ends_kill hP hk.1 _ mode) fun _ w hk => ih (i + 1) hk.1
      · exact ih (i + 1) hk.1
    · exact ih (i + 1) h

theorem ends_downSurvivors {c : Call} {P : World → Prop} {content : Text} (hP : Stable P)
    (todo k : Nat) (found : Nat × Text) {w : World} (h : P w) :
    Ends c (fun _ w => P w) (downSurvivors content todo k found) w := by
  induction todo generalizing k found w with
  | zero =>
    rw [downSurvivors]
    exact h
  | succ todo ih =>
    rw [downSurvivors]
    dsimp only
    split
    · refine Holds.bind (Q := fun _ w => P w) ?_ fun alive w hw => ih (k + 1) _ hw
      exact Holds.bind (ends_kill hP h _ 2) fun _ _ hk => hk.1
    · exact ih (k + 1) _ h

/-- After the forced stops no node of the record is left. -/
theorem Kept.none_alive {r : Record} {w : World} (h : Kept r w)
    (hdead : ∀ j, 0 ≤ j → j < 0 + r.nodes.length → 0 < clusterNodeInt r.render j (chars "pid") →
      clusterNodeInt r.render j (chars "pid") ∉ w.alive) : w.alive = ∅ := by
  rw [Set.eq_empty_iff_forall_notMem]
  intro pid hp
  obtain ⟨n, hn, rfl⟩ := h.alive pid hp
  obtain ⟨j, hj, rfl⟩ := List.getElem_of_mem hn
  have hread := r.nodeInt_pid (List.getElem?_eq_getElem hj)
  refine hdead j (Nat.zero_le j) (by omega) ?_ ?_
  · rw [hread]
    exact h.pos _ hp
  · rw [hread]
    exact hp

theorem down_tracked {w : World} (h : Tracked w) :
    Ends .down (fun _ w => Tracked w) clusterDown w := by
  rw [clusterDown]
  refine Holds.bind (ends_read Tracked.stable h) ?_
  rintro content w ⟨rfl, h⟩
  split
  · exact h
  next hne =>
  dsimp only
  rcases h with ⟨hf, -⟩ | ⟨r, hlen, hk⟩
  · exact absurd hf hne
  rw [hk.file, r.nodeCount (by omega)]
  have hS := Kept.stable r
  refine Holds.bind (ends_downAsk hS 1 _ _ hk) fun _ w hk => ?_
  refine Holds.bind (ends_sleep hS hk 3) fun _ w hk => ?_
  refine Holds.bind (ends_downSignal hS _ _ hk) fun _ w hk => ?_
  have hS' : Stable fun w => Kept r w ∧ w.alive = ∅ :=
    fun _ _ hq h => ⟨hS _ _ hq h.1, Set.subset_empty_iff.mp (h.2 ▸ hq.alive)⟩
  have hgone : Kept r w ∧ w.alive = ∅ := ⟨hk.1, hk.1.none_alive hk.2⟩
  refine Holds.bind (ends_sleep hS' hgone 2) fun _ w hk => ?_
  refine Holds.bind (ends_downSurvivors hS' _ _ _ hk) fun found w hk => ?_
  have hremove : Ends .down (fun _ w => Tracked w) remove w := by
    refine ⟨trivial, fun _ w' he => ?_⟩
    have hempty : w'.alive = ∅ := Set.subset_empty_iff.mp (hk.2 ▸ he.2)
    rcases he.1 with hf | hf
    · exact .inl ⟨hf, hempty⟩
    · exact .inr ⟨r, hlen, hS _ _ ⟨hf, he.2⟩ hk.1⟩
  refine Holds.bind hremove fun _ w hw => ?_
  refine Holds.bind (ends_read Tracked.stable hw) ?_
  rintro after w ⟨-, hw⟩
  split
  · exact ends_fail Tracked.stable hw _ _ _
  split
  · exact ends_fail Tracked.stable hw _ _ _
  · exact hw

/-! ## `cluster up` -/

/-- No file yet, and every node that is alive was started by this call. -/
structure Launched (nodes : List (Int × Int)) (w : World) : Prop where
  file : w.file = []
  alive : ∀ pid ∈ w.alive, ∃ n ∈ nodes, n.2 = pid

theorem Launched.stable (nodes : List (Int × Int)) : Stable (Launched nodes) :=
  fun _ _ hq h => ⟨hq.file.trans h.file, fun pid hp => h.alive pid (hq.alive hp)⟩

theorem Launched.start {nodes : List (Int × Int)} {w w' : World} (h : Launched nodes w)
    (port pid : Int) (hfile : w'.file = w.file) (halive : w'.alive ⊆ insert pid w.alive) :
    Launched (nodes ++ [(port, pid)]) w' where
  file := hfile.trans h.file
  alive q hq := by
    rcases halive hq with rfl | hq
    · exact ⟨(port, q), by simp, rfl⟩
    · obtain ⟨n, hn, rfl⟩ := h.alive q hq
      exact ⟨n, List.mem_append_left _ hn, rfl⟩

/-- The clean-up of `up` leaves no node. -/
theorem ends_cleanUp (env : Env) {nodes : List (Int × Int)} {w : World} (h : Launched nodes w)
    (hpos : ∀ n ∈ nodes, 0 < n.2) :
    Ends (.up env) (fun _ w => w.file = [] ∧ w.alive = ∅)
      (clusterKillList 1 (nodes.map (·.2))) w := by
  have hpids : ∀ pid ∈ nodes.map (·.2), 0 < pid := by
    intro pid hp
    obtain ⟨n, hn, rfl⟩ := List.mem_map.mp hp
    exact hpos n hn
  refine Holds.mono (ends_killList (Launched.stable nodes) h _ hpids) ?_
  rintro _ w ⟨hl, hdead⟩
  refine ⟨hl.file, ?_⟩
  rw [Set.eq_empty_iff_forall_notMem]
  intro pid hp
  obtain ⟨n, hn, rfl⟩ := hl.alive pid hp
  exact hdead n.2 (List.mem_map_of_mem hn) hp

theorem Down.stable : Stable fun w => w.file = [] ∧ w.alive = ∅ :=
  fun _ _ hq h => ⟨hq.file.trans h.1, Set.subset_empty_iff.mp (h.2 ▸ hq.alive)⟩

/-- The nodes as the record has them: ports counted up from the base, pids positive. -/
def Numbered (nodes : List (Int × Int)) : Prop := ∀ n ∈ nodes, 0 ≤ n.1 ∧ 0 < n.2

theorem ends_upSpawn (env : Env) (runBin runLogDir : Text) {portBase : Int} (hport : 0 ≤ portBase)
    (todo i : Nat) (nodes : List (Int × Int)) {w : World} (h : Launched nodes w)
    (hnum : Numbered nodes) (hlen : nodes.length = i) :
    Ends (.up env) (fun started w => match started with
      | none => w.file = [] ∧ w.alive = ∅
      | some nodes => Launched nodes w ∧ Numbered nodes ∧ nodes.length = i + todo)
      (upSpawn runBin runLogDir portBase todo i nodes) w := by
  induction todo generalizing i nodes w with
  | zero =>
    rw [upSpawn]
    exact ⟨h, hnum, hlen⟩
  | succ todo ih =>
    rw [upSpawn]
    refine Holds.bind ends_spawn fun pid w' he => ?_
    rcases he with ⟨rfl, hq⟩ | ⟨hpos, -, hfile, halive⟩
    · rw [if_pos (by omega)]
      refine Holds.bind (ends_err (Launched.stable nodes) (Launched.stable nodes _ _ hq h) _) ?_
      intro _ w hl
      refine Holds.bind (ends_cleanUp env hl fun n hn => (hnum n hn).2) fun _ w hd => ?_
      exact Holds.bind (ends_err Down.stable hd _) fun _ _ hd => hd
    · rw [if_neg (Int.not_le.mpr hpos)]
      have hnum' : Numbered (nodes ++ [(portBase + i, pid)]) := by
        intro n hn
        rcases List.mem_append.mp hn with hn | hn
        · exact hnum n hn
        · rw [List.mem_singleton.mp hn]
          exact ⟨by positivity, hpos⟩
      refine Holds.mono (ih (i + 1) _ (h.start _ _ hfile halive) hnum' (by simp [hlen])) ?_
      rintro (_ | started) w hw
      · exact hw
      · refine ⟨hw.1, hw.2.1, ?_⟩
        rw [hw.2.2]
        omega

theorem ends_upHealth {c : Call} {P : World → Prop} (hP : Stable P) (logDir : Text) (j : Nat)
    (nodes : List (Int × Int)) {w : World} (h : P w) :
    Ends c (fun _ w => P w) (upHealth logDir j nodes) w := by
  induction nodes generalizing j w with
  | nil =>
    rw [upHealth]
    exact h
  | cons n nodes ih =>
    rw [upHealth]
    refine Holds.bind (ends_confirmAlive hP h _) fun alive w hw => ?_
    split
    · refine Holds.bind (ends_err hP hw _) fun _ w hw => ?_
      exact Holds.bind (ih (j + 1) hw) fun _ _ hw => hw
    · exact ih (j + 1) hw

theorem binaryPath_clean {env : Env} (h : '"' ∉ env.cwd) : '"' ∉ binaryPath env := by
  have h1 : '"' ∉ chars ".orbit/cluster-service" := by simp [chars]
  have h2 : '"' ∉ if env.windows then chars ".exe" else [] := by
    split
    · simp [chars]
    · simp
  have h3 : '"' ∉ chars ".orbit/cluster-service" ++ if env.windows then chars ".exe" else [] := by
    rw [List.mem_append, not_or]
    exact ⟨h1, h2⟩
  rw [binaryPath, clusterAbsolutePath]
  split
  · exact h3
  · rw [List.mem_append, List.mem_cons, not_or, not_or]
    exact ⟨h, by decide, h3⟩

/-- The record that `up` writes. -/
def upRecord (env : Env) (portBase : Int) (nodes : List (Int × Int)) (hc : (Call.up env).Clean) :
    Record where
  service := binaryPath env
  portBase := portBase.toNat
  logDir := upLogDir env
  nodes := nodes.map fun n => (n.1.toNat, n.2.toNat)
  draining := []
  service_clean := binaryPath_clean hc.1
  logDir_clean := hc.2

theorem upRecord_render {env : Env} {portBase : Int} {nodes : List (Int × Int)}
    (hc : (Call.up env).Clean) (hport : 0 ≤ portBase) (hnum : Numbered nodes) :
    clusterBuildState (binaryPath env) portBase (upLogDir env) nodes [] =
      (upRecord env portBase nodes hc).render := by
  have hnodes : (nodes.map fun n => (n.1.toNat, n.2.toNat)).map
      (fun n => ((n.1 : Int), (n.2 : Int))) = nodes := by
    rw [List.map_map]
    refine (List.map_congr_left fun n hn => ?_).trans (List.map_id nodes)
    have := hnum n hn
    simp [Int.toNat_of_nonneg this.1, Int.toNat_of_nonneg this.2.le]
  simp only [Record.render, upRecord, hnodes, Int.toNat_of_nonneg hport, List.map_nil]

theorem Launched.kept {env : Env} {portBase : Int} {nodes : List (Int × Int)} {w w' : World}
    (h : Launched nodes w) (hc : (Call.up env).Clean) (hport : 0 ≤ portBase) (hnum : Numbered nodes)
    (hfile : w'.file = clusterBuildState (binaryPath env) portBase (upLogDir env) nodes [])
    (halive : w'.alive ⊆ w.alive) : Kept (upRecord env portBase nodes hc) w' where
  file := hfile.trans (upRecord_render hc hport hnum)
  alive pid hp := by
    obtain ⟨n, hn, rfl⟩ := h.alive pid (halive hp)
    exact ⟨_, List.mem_map_of_mem hn, Int.toNat_of_nonneg (hnum n hn).2.le⟩
  pos pid hp := by
    obtain ⟨n, hn, rfl⟩ := h.alive pid (halive hp)
    exact (hnum n hn).2

theorem ends_upNodes {env : Env} (hc : (Call.up env).Clean) {nodeCount : Nat}
    (hcount : nodeCount ≤ 64) {portBase : Int} (hport : 0 ≤ portBase) {w : World}
    (h : w.file = [] ∧ w.alive = ∅) :
    Ends (.up env) (fun _ w => Tracked w) (upNodes env nodeCount portBase (upLogDir env)) w := by
  have hlaunch : Launched [] w := ⟨h.1, by simp [h.2]⟩
  rw [upNodes]
  refine Holds.bind (ends_upSpawn env _ _ hport nodeCount 0 [] hlaunch (by simp [Numbered]) rfl) ?_
  rintro (_ | nodes) w hw
  · exact .inl hw
  obtain ⟨hl, hnum, hlen⟩ := hw
  have hwrite : Ends (.up env) (fun ok w => if ok then Tracked w else Launched nodes w)
      (write (clusterBuildState (binaryPath env) portBase (upLogDir env) nodes []) .state) w := by
    refine ⟨trivial, fun ok w' he => ?_⟩
    rcases he.1.1 with ⟨rfl, hf⟩ | ⟨rfl, -⟩
    · refine .inr ⟨upRecord env portBase nodes hc, ?_, hl.kept hc hport hnum hf he.1.2⟩
      simp only [upRecord, List.length_map]
      omega
    · exact Launched.stable nodes _ _ ⟨(he.2 rfl).1, he.1.2⟩ hl
  refine Holds.bind hwrite fun ok w hw => ?_
  cases ok with
  | false =>
    refine Holds.bind (ends_err (Launched.stable nodes) hw _) fun _ w hw => ?_
    refine Holds.bind (ends_cleanUp env hw fun n hn => (hnum n hn).2) fun _ w hd => ?_
    exact Holds.bind (ends_err Down.stable hd _) fun _ _ hd => .inl hd
  | true =>
    refine Holds.bind (ends_upHealth Tracked.stable _ _ _ hw) fun bad w hw => ?_
    split
    · exact Holds.bind (ends_err Tracked.stable hw _) fun _ _ hw => hw
    · exact hw

theorem up_tracked {env : Env} (hc : (Call.up env).Clean) {w : World} (h : Tracked w) :
    Ends (.up env) (fun _ w => Tracked w) (clusterUp env) w := by
  have hS := Tracked.stable
  rw [clusterUp]
  dsimp only
  split
  · exact Holds.bind (ends_err hS h _) fun _ _ h => h
  split
  · exact ends_fail hS h _ _ _
  split
  · exact ends_fail hS h _ _ _
  split
  · exact ends_fail hS h _ _ _
  next hcount =>
  split
  · exact ends_fail hS h _ _ _
  next hport =>
  simp only [Bool.or_eq_true, decide_eq_true_eq, not_or, Int.not_lt] at hcount hport
  refine Holds.bind (ends_read hS h) ?_
  rintro existing w ⟨rfl, h⟩
  split
  · exact Holds.bind (ends_err hS h _) fun _ _ h => h
  next hempty =>
  have hdown : w.file = [] ∧ w.alive = ∅ := by
    rcases h with h | ⟨r, -, hk⟩
    · exact h
    · rw [not_not, hk.file] at hempty
      exact absurd hempty r.render_ne_nil
  have hD := Down.stable
  have hsource : Ends (.up env) (fun _ w => w.file = [] ∧ w.alive = ∅)
      (source (if clusterFlagValue env (chars "--service") 3 = [] then chars "service.orb"
        else clusterFlagValue env (chars "--service") 3)) w :=
    ⟨trivial, fun _ _ he => hD _ _ he hdown⟩
  refine Holds.bind hsource fun text w hw => ?_
  split
  · exact Holds.bind (ends_err hD hw _) fun _ _ hw =>
      Holds.bind (ends_err hD hw _) fun _ _ hw => .inl hw
  refine ⟨trivial, fun _ w₁ h₁ => ⟨trivial, fun _ w₂ h₂ => ⟨trivial, fun ok w₃ h₃ => ?_⟩⟩⟩
  have hw' := hD _ _ h₃ (hD _ _ h₂ (hD _ _ h₁ hw))
  cases ok with
  | false => exact .inl hw'
  | true => exact ends_upNodes hc (by omega) (by omega) hw'

/-! ## Sequences of commands -/

theorem call_tracked {c : Call} (hc : c.Clean) {w : World} (h : Tracked w) :
    Ends c (fun _ w => Tracked w) c.command w := by
  cases c with
  | up env => exact up_tracked hc h
  | drain env => exact drain_tracked env h
  | restart env => exact restart_tracked env h
  | down => exact down_tracked h

theorem tracked_of_reach {w : World} (h : Reach Call.Clean Good w) : Tracked w := by
  induction h with
  | init => exact .inl ⟨rfl, rfl⟩
  | call _ hc hr ih => exact (call_tracked hc ih).runs hr
  | ends _ hq ih => exact Tracked.stable _ _ hq ih

/-- **No orphans.** When a command of any sequence returns, every node that was started and is
alive is recorded with its pid, as long as the outcomes of the steps are good ones. -/
theorem noOrphan_of_good {w : World} (h : Reach Call.Clean Good w) : w.NoOrphan :=
  (tracked_of_reach h).noOrphan

theorem Machine.good (c : Call) (m : Machine) (o : Op) :
    Good c m.world o (m.answer true o).1 (m.answer true o).2.world := by
  have hstep := m.step true o
  cases o with
  | write content note => exact ⟨hstep, fun h => by cases h⟩
  | kill pid mode =>
    have hgone : pid ∉ (Machine.world { m with pids := m.pids.filter (· ≠ pid) }).alive := by
      simp [world]
    refine ⟨hstep, ?_⟩
    simp only [answer]
    split
    · refine ⟨fun _ h => absurd h one_ne_zero, fun hm _ _ => ?_, fun hm _ => ?_⟩
      · subst hm
        exact hgone
      · subst hm
        exact hgone
    · exact ⟨fun _ _ => hgone, fun _ _ _ => hgone, fun _ _ => hgone⟩
  | read => exact hstep
  | remove => exact hstep
  | spawn node cmd log => exact hstep
  | sleep sec => exact hstep
  | source path => exact hstep
  | compile text path binary => exact hstep
  | mkdir path => exact hstep
  | err line => exact hstep

/-- `orbit cluster up --nodes 1 --port-base 80`. -/
def upOne : Env where
  argv := [chars "orbit", chars "cluster", chars "up", chars "--nodes", chars "1",
    chars "--port-base", chars "80"]
  cwd := chars "/srv"
  windows := false

/-- One node is up and recorded. -/
theorem noOrphan_of_good_up :
    ∃ w, Reach Call.Clean Good w ∧ (7 : Int) ∈ w.alive ∧ w.NoOrphan := by
  have hrun := runs_exec (E := Good (.up upOne)) (Machine.good (.up upOne)) (clusterUp upOne)
    ⟨[], []⟩
  have hinit : Machine.world ⟨[], []⟩ = ⟨[], ∅⟩ := by simp [Machine.world]
  rw [hinit] at hrun
  have hclean : (Call.up upOne).Clean := by
    rw [Call.Clean]
    decide +kernel
  have hreach := Reach.call .init hclean hrun
  refine ⟨_, hreach, ?_, noOrphan_of_good hreach⟩
  have hpids : (exec (Machine.answer true) (clusterUp upOne) ⟨[], []⟩).2.pids = [7] := by
    decide +kernel
  simp [Machine.world, hpids]

/-- `cluster down` removes the state file of a node that its forced stop did not end. -/
theorem down_leaves_orphan : ¬ ∀ w, Reach (fun _ => True) (fun _ => Step) w → w.NoOrphan := by
  intro h
  have hup := runs_exec (E := Step) (Machine.step false) (clusterUp upOne) ⟨[], []⟩
  have hdown := runs_exec (E := Step) (Machine.step false) clusterDown
    (exec (Machine.answer false) (clusterUp upOne) ⟨[], []⟩).2
  have hinit : Machine.world ⟨[], []⟩ = ⟨[], ∅⟩ := by simp [Machine.world]
  rw [hinit] at hup
  have hfirst : Reach (fun _ => True) (fun _ => Step) _ :=
    .call (c := .up upOne) .init trivial hup
  have hreach := Reach.call (c := .down) hfirst trivial hdown
  have hfile : (exec (Machine.answer false) clusterDown
      (exec (Machine.answer false) (clusterUp upOne) ⟨[], []⟩).2).2.file = [] := by decide +kernel
  have hpids : (exec (Machine.answer false) clusterDown
      (exec (Machine.answer false) (clusterUp upOne) ⟨[], []⟩).2).2.pids = [7] := by decide +kernel
  obtain ⟨i, hi, -⟩ := h _ hreach 7 (by simp [Machine.world, hpids])
  have hcount : clusterNodeCount [] = 0 := by decide
  rw [Machine.world, hfile, hcount] at hi
  exact absurd hi (Nat.not_lt_zero i)

end Cluster
