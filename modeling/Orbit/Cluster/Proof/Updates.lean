import Mathlib
import Orbit.Cluster.World
import Orbit.Cluster.Proof.Record

/-!
# Interleaved drains and a restart

One `restart --rolling` runs together with any number of `drain` commands; each question a command
asks is one atomic step. A command edits the text it read last (`Drains`, `Restarts`), so an update
is lost when another command has changed the file in between. `Undisturbed` excludes that, and then
every draining record and every pid stays (`no_update_lost`); without it `update_lost` loses one.
-/

namespace Cluster

open Lib (Prog)
open Lib.Prog
open Lib.Text (chars intToString)

/-- The world together with the text each command read last. -/
structure Shared (ι : Type) where
  world : World
  seen : ι → Text

section Steps
variable {ι : Type} [DecidableEq ι]

/-- The texts read last, after an answer to `i`. -/
def seenAfter (seen : ι → Text) (i : ι) : (o : Op) → Res o → ι → Text
  | .read, content => Function.update seen i content
  | _, _ => seen

structure Shared.Step (i : ι) (s : Shared ι) (o : Op) (r : Res o) (s' : Shared ι) : Prop where
  step : Cluster.Step s.world o r s'.world
  seen : s'.seen = seenAfter s.seen i o r

/-- When a command writes the file or starts a node, the file still is what the command read last,
and a write that fails leaves it so. -/
def Undisturbed (i : ι) (s : Shared ι) : (o : Op) → Res o → Shared ι → Prop
  | .write _ _, ok, s' =>
    s.world.file = s.seen i ∧ (ok = false → s'.world.file = s.world.file)
  | .spawn _ _ _, _, _ => s.world.file = s.seen i
  | _, _, _ => True

end Steps

/-! ## What the commands write

A command alone is judged by the text it read last and by the lowest node it may still restart. -/

structure Local where
  text : Text
  next : Nat

def Local.after (g : Local) : (o : Op) → Res o → Local
  | .read, content => { g with text := content }
  | .write _ (.pid i _), _ => { g with next := i + 1 }
  | _, _ => g

/-- A drain writes the text it read with its node added to the draining list. -/
def Drains (g : Local) : Op → Prop
  | .write content (.draining id) =>
    content = clusterAddDraining g.text id ∧ clusterNodeInt g.text id (chars "port") ≠ -1
  | .write _ _ | .spawn _ _ _ | .remove => False
  | _ => True

/-- A restart starts a node that is not draining in the text it read, and writes that text with the
pid of the node replaced. -/
def Restarts (g : Local) : Op → Prop
  | .write content (.pid i pid) => content = clusterSetNodePid g.text i pid ∧
      clusterNodeInt g.text i (chars "port") ≠ -1 ∧ 0 < pid ∧ g.next ≤ i
  | .spawn i _ _ => clusterDrainingContains g.text i = false
  | .write _ _ | .remove => False
  | _ => True

abbrev Keeps (allow : Local → Op → Prop) {α : Type} (Q : α → Local → Prop) (p : Command α)
    (g : Local) : Prop :=
  Prog.Holds allow (fun g o r g' => g' = g.after o r) Q p g

theorem keeps_call {allow : Local → Op → Prop} {o : Op} {g : Local} (h : allow g o) :
    Keeps allow (fun r g' => g' = g.after o r) (Prog.call o) g := ⟨h, fun _ _ he => he⟩

/-- The questions that are always allowed. -/
structure Open (allow : Local → Op → Prop) : Prop where
  read : ∀ g, allow g .read
  kill : ∀ g pid mode, allow g (.kill pid mode)
  sleep : ∀ g sec, allow g (.sleep sec)
  err : ∀ g line, allow g (.err line)

theorem Drains.open : Open Drains :=
  ⟨fun _ => trivial, fun _ _ _ => trivial, fun _ _ => trivial, fun _ _ => trivial⟩

theorem Restarts.open : Open Restarts :=
  ⟨fun _ => trivial, fun _ _ _ => trivial, fun _ _ => trivial, fun _ _ => trivial⟩

section Open
variable {allow : Local → Op → Prop} (hA : Open allow) (g : Local)
include hA

theorem keeps_read : Keeps allow (fun content g' => g' = { g with text := content }) read g :=
  keeps_call (hA.read g)

theorem keeps_kill (pid : Int) (mode : Nat) : Keeps allow (fun _ g' => g' = g) (kill pid mode) g :=
  keeps_call (hA.kill g pid mode)

theorem keeps_sleep (sec : Nat) : Keeps allow (fun _ g' => g' = g) (sleep sec) g :=
  keeps_call (hA.sleep g sec)

theorem keeps_err (line : Text) : Keeps allow (fun _ g' => g' = g) (err line) g :=
  keeps_call (hA.err g line)

theorem keeps_fail (t u : Text) {α : Type} (a : α) :
    Keeps allow (fun _ _ => True) (err t >>= fun _ => err u >>= fun _ => pure a) g := by
  refine Holds.bind (keeps_err hA g t) fun _ g _ => ?_
  exact Holds.bind (keeps_err hA g u) fun _ _ _ => trivial

theorem keeps_noCluster : Keeps allow (fun _ _ => True) noCluster g :=
  Holds.bind (keeps_err hA g _) fun _ _ _ => trivial

theorem keeps_waitAlive (pid : Int) (secs : Nat) :
    Keeps allow (fun _ g' => g' = g) (clusterWaitAlive pid secs) g := by
  induction secs with
  | zero =>
    rw [clusterWaitAlive]
    exact Holds.bind (keeps_kill hA g pid 2) fun _ _ h => h
  | succ secs ih =>
    rw [clusterWaitAlive]
    refine Holds.bind (keeps_kill hA g pid 2) ?_
    rintro result _ rfl
    split
    · rfl
    · refine Holds.bind (keeps_sleep hA _ 1) ?_
      rintro _ _ rfl
      exact ih

theorem keeps_waitDead (pid : Int) (secs : Nat) :
    Keeps allow (fun _ g' => g' = g) (clusterWaitDead pid secs) g := by
  induction secs with
  | zero =>
    rw [clusterWaitDead]
    exact Holds.bind (keeps_kill hA g pid 2) fun _ _ h => h
  | succ secs ih =>
    rw [clusterWaitDead]
    refine Holds.bind (keeps_kill hA g pid 2) ?_
    rintro result _ rfl
    split
    · rfl
    · refine Holds.bind (keeps_sleep hA _ 1) ?_
      rintro _ _ rfl
      exact ih

theorem keeps_confirmAlive (pid : Int) :
    Keeps allow (fun _ g' => g' = g) (clusterConfirmAlive pid) g := by
  rw [clusterConfirmAlive]
  refine Holds.bind (keeps_waitAlive hA g pid 10) ?_
  rintro alive _ rfl
  split
  · rfl
  · refine Holds.bind (keeps_sleep hA _ 2) ?_
    rintro _ _ rfl
    exact Holds.bind (keeps_kill hA _ pid 2) fun _ _ h => h

theorem keeps_restartStop (pid : Int) :
    Keeps allow (fun _ g' => g' = g) (restartStop pid) g := by
  rw [restartStop]
  refine Holds.bind (keeps_kill hA g pid 2) ?_
  rintro result _ rfl
  split
  · refine Holds.bind (keeps_kill hA _ pid 1) ?_
    rintro _ _ rfl
    refine Holds.bind (keeps_waitDead hA _ pid 10) ?_
    rintro dead _ rfl
    split
    · refine Holds.bind (keeps_kill hA _ pid 0) ?_
      rintro _ _ rfl
      exact Holds.bind (keeps_waitDead hA _ pid 5) fun _ _ h => h
    · rfl
  · rfl

end Open

theorem drain_keeps (env : Env) (g : Local) :
    Keeps Drains (fun _ _ => True) (clusterDrain env) g := by
  have hA := Drains.open
  rw [clusterDrain]
  split
  · exact Holds.bind (keeps_err hA g _) fun _ _ _ => trivial
  refine Holds.bind (keeps_read hA g) ?_
  rintro content _ rfl
  split
  · exact Holds.bind (keeps_noCluster hA _) fun _ _ _ => trivial
  dsimp only
  split
  · exact keeps_fail hA _ _ _ _
  next hknown =>
  have hwrite : Keeps Drains (fun _ _ => True)
      (write (clusterAddDraining content (clusterParseInt (env.arg 3)))
        (.draining (clusterParseInt (env.arg 3)))) { g with text := content } := by
    refine Holds.mono (keeps_call (o := .write _ (.draining _)) ⟨rfl, fun hp => hknown ?_⟩)
      fun _ _ _ => trivial
    simp [show clusterNodeInt content (clusterParseInt (env.arg 3)) (chars "port") = -1 from hp]
  refine Holds.bind (keeps_kill hA _ _ 2) ?_
  rintro result _ rfl
  split
  · refine Holds.bind hwrite fun ok g _ => ?_
    split
    · exact keeps_fail hA _ _ _ _
    · trivial
  refine Holds.bind (keeps_kill hA _ _ 1) ?_
  rintro result _ rfl
  split
  · exact keeps_fail hA _ _ _ _
  refine Holds.bind hwrite fun ok g _ => ?_
  split
  · exact keeps_fail hA _ _ _ _
  · trivial

theorem restartStart_keeps (runBin runLogDir content : Text) (i : Nat) (port : Int)
    (hdrain : clusterDrainingContains content i = false)
    (hport : clusterNodeInt content i (chars "port") ≠ -1) {next : Nat} (hnext : next ≤ i) :
    Keeps Restarts (fun code g => code = none → g.next ≤ i + 1)
      (restartStart runBin runLogDir content i port) ⟨content, next⟩ := by
  have hA := Restarts.open
  have hfail : ∀ t u g, Keeps Restarts (fun code g => code = none → g.next ≤ i + 1)
      (err t >>= fun _ => err u >>= fun _ => pure (some 1)) g := by
    intro t u g
    refine Holds.bind (keeps_err hA g t) fun _ g _ => ?_
    refine Holds.bind (keeps_err hA g u) fun _ g _ => ?_
    exact fun h => absurd h (by simp)
  rw [restartStart]
  refine Holds.bind (keeps_call (o := .spawn _ _ _) hdrain) ?_
  rintro newPid _ rfl
  split
  · exact hfail _ _ _
  next hpos =>
  have hallow : Restarts ⟨content, next⟩
      (.write (clusterSetNodePid content i newPid) (.pid i newPid)) :=
    ⟨rfl, hport, by omega, hnext⟩
  have hwrite := keeps_call hallow
  refine Holds.bind (keeps_confirmAlive hA _ newPid) ?_
  rintro alive _ rfl
  split
  · exact Holds.bind hwrite fun _ _ _ => hfail _ _ _
  · apply Holds.bind hwrite
    rintro ok _ rfl
    split
    · exact hfail _ _ _
    · exact fun _ => Nat.le_refl _

theorem restartNodes_keeps (runBin runLogDir : Text) (todo i : Nat) (g : Local)
    (hnext : g.next ≤ i) :
    Keeps Restarts (fun _ _ => True) (restartNodes runBin runLogDir todo i) g := by
  have hA := Restarts.open
  induction todo generalizing i g with
  | zero =>
    rw [restartNodes]
    trivial
  | succ todo ih =>
    rw [restartNodes]
    refine Holds.bind (keeps_read hA g) ?_
    rintro content _ rfl
    split
    · exact ih (i + 1) _ (by simp only; omega)
    next hdrain =>
    dsimp only
    split
    · exact keeps_fail hA _ _ _ _
    next hport =>
    refine Holds.bind (keeps_restartStop hA _ _) ?_
    rintro stopped _ rfl
    split
    · exact keeps_fail hA _ _ _ _
    refine Holds.bind (restartStart_keeps _ _ content i _ (by simpa using hdrain)
      (fun hp => hport (by simp [hp])) hnext) ?_
    rintro (_ | code) g hg
    · exact ih (i + 1) g (hg rfl)
    · trivial

theorem restart_keeps (env : Env) (text : Text) :
    Keeps Restarts (fun _ _ => True) (clusterRestart env) ⟨text, 0⟩ := by
  have hA := Restarts.open
  rw [clusterRestart]
  split
  · exact Holds.bind (keeps_err hA _ _) fun _ _ _ => trivial
  refine Holds.bind (keeps_read hA _) ?_
  rintro content _ rfl
  split
  · exact Holds.bind (keeps_noCluster hA _) fun _ _ _ => trivial
  dsimp only
  split
  · exact keeps_fail hA _ _ _ _
  · exact restartNodes_keeps _ _ _ 0 _ (Nat.zero_le 0)

/-! ## The commands together -/

section System
variable {κ : Type} [DecidableEq κ]

/-- A restart, `none`, and the drains. -/
def pool (env : Env) (drains : κ → Env) : Option κ → Command Nat
  | none => clusterRestart env
  | some k => clusterDrain (drains k)

abbrev AnyStep (i : Option κ) (s : Shared (Option κ)) (o : Op) (r : Res o)
    (s' : Shared (Option κ)) : Prop := s.Step i o r s'

def CalmStep (i : Option κ) (s : Shared (Option κ)) (o : Op) (r : Res o)
    (s' : Shared (Option κ)) : Prop := s.Step i o r s' ∧ Undisturbed i s o r s'

theorem Local.after_text {ι : Type} [DecidableEq ι] (seen : ι → Text) (i : ι) (next : Nat) (o : Op)
    (r : Res o) : (Local.after ⟨seen i, next⟩ o r).text = seenAfter seen i o r i := by
  cases o with
  | read => simp [Local.after, seenAfter]
  | write content note => cases note <;> rfl
  | _ => rfl

theorem seenAfter_ne {ι : Type} [DecidableEq ι] (seen : ι → Text) {i j : ι} (h : j ≠ i) (o : Op)
    (r : Res o) : seenAfter seen i o r j = seen j := by
  cases o with
  | read => simp [seenAfter, h]
  | _ => rfl

/-- What is left of each command, and that the restart is past every node of `pids`. -/
structure Threads (pids : Set (Nat × Int)) (s : Shared (Option κ)) (p : Option κ → Command Nat) :
    Prop where
  drains : ∀ k, ∃ next, Keeps Drains (fun _ _ => True) (p (some k)) ⟨s.seen (some k), next⟩
  restart : ∃ next, (∀ e ∈ pids, e.1 < next) ∧
    Keeps Restarts (fun _ _ => True) (p none) ⟨s.seen none, next⟩

section
variable {pids pids' : Set (Nat × Int)} {s s' : Shared (Option κ)} {p : Option κ → Command Nat}
  {i : Option κ} {o : Op} {r : Res o} {k : Res o → Command Nat}

theorem Local.next_after {g : Local} {o : Op} (h : Restarts g o) (r : Res o) :
    g.next ≤ (g.after o r).next := by
  cases o with
  | write content note =>
    cases note with
    | pid j pid => exact Nat.le_succ_of_le h.2.2.2
    | _ => exact Nat.le_refl _
  | _ => exact Nat.le_refl _

/-- A turn of one command leaves the others as they are. -/
theorem Threads.step (h : Threads pids s p) (hp : p i = .ask o k) (hs : s.Step i o r s')
    (hpids : ∀ e ∈ pids', e ∈ pids ∨
      i = none ∧ ∃ content, o = .write content (.pid e.1 e.2)) :
    Threads pids' s' (Function.update p i (k r)) where
  drains j := by
    obtain ⟨next, hk⟩ := h.drains j
    by_cases hij : some j = i
    · subst hij
      rw [hp] at hk
      refine ⟨(Local.after ⟨s.seen (some j), next⟩ o r).next, ?_⟩
      rw [Function.update_self, hs.seen, ← Local.after_text s.seen (some j) next o r]
      exact hk.2 r _ rfl
    · refine ⟨next, ?_⟩
      rw [Function.update_of_ne hij, hs.seen, seenAfter_ne _ hij]
      exact hk
  restart := by
    obtain ⟨next, hlt, hk⟩ := h.restart
    by_cases hi : none = i
    · subst hi
      rw [hp] at hk
      refine ⟨(Local.after ⟨s.seen none, next⟩ o r).next, fun e he => ?_, ?_⟩
      · rcases hpids e he with he | ⟨-, content, ho⟩
        · exact Nat.lt_of_lt_of_le (hlt e he) (Local.next_after hk.1 r)
        · subst ho
          exact Nat.lt_succ_self _
      · rw [Function.update_self, hs.seen, ← Local.after_text s.seen none next o r]
        exact hk.2 r _ rfl
    · refine ⟨next, fun e he => ?_, ?_⟩
      · rcases hpids e he with he | ⟨rfl, -⟩
        · exact hlt e he
        · exact absurd rfl hi
      · rw [Function.update_of_ne hi, hs.seen, seenAfter_ne _ hi]
        exact hk

omit [DecidableEq κ] in
theorem Threads.drain_allowed (h : Threads pids s p) {j : κ} (hp : p (some j) = .ask o k) :
    ∃ next, Drains ⟨s.seen (some j), next⟩ o := by
  obtain ⟨next, hk⟩ := h.drains j
  rw [hp] at hk
  exact ⟨next, hk.1⟩

omit [DecidableEq κ] in
theorem Threads.restart_allowed (h : Threads pids s p) (hp : p none = .ask o k) :
    ∃ next, (∀ e ∈ pids, e.1 < next) ∧ Restarts ⟨s.seen none, next⟩ o := by
  obtain ⟨next, hlt, hk⟩ := h.restart
  rw [hp] at hk
  exact ⟨next, hlt, hk.1⟩

end

/-- The file has every node of `log.1` as draining and every pid of `log.2`. -/
def Shows (log : Set Int × Set (Nat × Int)) (file : Text) : Prop :=
  ∃ r : Record, file = r.render ∧ (∀ id ∈ log.1, ∃ j : Nat, id = j ∧ j ∈ r.draining) ∧
    ∀ e ∈ log.2, ∃ n, r.nodes[e.1]? = some n ∧ (n.2 : Int) = e.2

theorem Shows.draining {log : Set Int × Set (Nat × Int)} {file : Text} (h : Shows log file)
    {id : Int} (hid : id ∈ log.1) : clusterDrainingContains file id = true := by
  obtain ⟨r, rfl, hd, -⟩ := h
  obtain ⟨j, rfl, hj⟩ := hd id hid
  exact (r.drainingContains j).mpr hj

theorem Shows.pid {log : Set Int × Set (Nat × Int)} {file : Text} (h : Shows log file)
    {i : Nat} {pid : Int} (he : (i, pid) ∈ log.2) :
    clusterNodeInt file i (chars "pid") = pid := by
  obtain ⟨r, rfl, -, hp⟩ := h
  obtain ⟨n, hn, hpid⟩ := hp _ he
  exact (r.nodeInt_pid hn).trans hpid

theorem Shows.addDraining {log : Set Int × Set (Nat × Int)} {file : Text} (h : Shows log file)
    {id : Int} (hid : clusterNodeInt file id (chars "port") ≠ -1) :
    Shows (insert id log.1, log.2) (clusterAddDraining file id) := by
  obtain ⟨r, rfl, hd, hp⟩ := h
  obtain ⟨j, n, rfl, -⟩ := r.exists_of_nodeInt hid
  have hmem : ∀ m, m ∈ (r.addDraining j).draining ↔ m ∈ r.draining ∨ m = j := by
    intro m
    rw [Record.addDraining]
    split
    · next hj => exact ⟨.inl, fun h => h.elim id fun h => h ▸ hj⟩
    · simp
  have hnodes : (r.addDraining j).nodes = r.nodes := by
    rw [Record.addDraining]
    split <;> rfl
  refine ⟨r.addDraining j, r.render_addDraining j, fun id hid => ?_, fun e he => ?_⟩
  · rcases hid with rfl | hid
    · exact ⟨j, rfl, (hmem j).mpr (.inr rfl)⟩
    · obtain ⟨m, rfl, hm⟩ := hd id hid
      exact ⟨m, rfl, (hmem m).mpr (.inl hm)⟩
  · rw [hnodes]
    exact hp e he

theorem Shows.setPid {log : Set Int × Set (Nat × Int)} {file : Text} (h : Shows log file)
    {i : Nat} {pid : Int} (hid : clusterNodeInt file i (chars "port") ≠ -1) (hpos : 0 < pid)
    (hfirst : ∀ e ∈ log.2, e.1 ≠ i) :
    Shows (log.1, insert (i, pid) log.2) (clusterSetNodePid file i pid) := by
  obtain ⟨r, rfl, hd, hp⟩ := h
  obtain ⟨j, n, hij, hn⟩ := r.exists_of_nodeInt hid
  obtain rfl : i = j := by exact_mod_cast hij
  obtain ⟨q, rfl⟩ := Int.eq_ofNat_of_zero_le hpos.le
  have hi : i < r.nodes.length := (List.getElem?_eq_some_iff.mp hn).1
  refine ⟨r.setPid i q, r.render_setPid hi q, hd, fun e he => ?_⟩
  rcases he with rfl | he
  · exact ⟨(n.1, q), by simp [Record.setPid, hn], rfl⟩
  · obtain ⟨m, hm, hpid⟩ := hp e he
    have hne := (hfirst e he).symm
    exact ⟨m, by simp [Record.setPid, hne, hm], hpid⟩

/-- What every turn keeps. -/
structure Consistent (log : Set Int × Set (Nat × Int)) (s : Shared (Option κ))
    (p : Option κ → Command Nat) : Prop where
  file : Shows log s.world.file
  threads : Threads log.2 s p

section
variable {log : Set Int × Set (Nat × Int)} {s s' : Shared (Option κ)} {p : Option κ → Command Nat}
  {i : Option κ} {o : Op} {r : Res o} {k : Res o → Command Nat}

theorem Consistent.same_file (h : Consistent log s p) (hp : p i = .ask o k) (hs : s.Step i o r s')
    (hfile : s'.world.file = s.world.file) : Consistent log s' (Function.update p i (k r)) where
  file := by
    rw [hfile]
    exact h.file
  threads := h.threads.step hp hs fun _ he => .inl he

/-- A drain that wrote has its node recorded. -/
theorem Consistent.drained {content : Text} {id : Int} {j : κ} {k : Bool → Command Nat}
    (h : Consistent log s p) (hp : p (some j) = .ask (.write content (.draining id)) k)
    (hs : CalmStep (some j) s (.write content (.draining id)) true s') :
    Consistent (insert id log.1, log.2) s' (Function.update p (some j) (k true)) where
  file := by
    obtain ⟨next, hcontent, hid⟩ := h.threads.drain_allowed hp
    have hsame : s.world.file = s.seen (some j) := hs.2.1
    rcases hs.1.step.1 with ⟨-, hfile⟩ | ⟨hno, -⟩
    · rw [hfile, hcontent, ← hsame]
      rw [← hsame] at hid
      exact h.file.addDraining hid
    · cases hno
  threads := h.threads.step hp hs.1 fun _ he => .inl he

/-- A restart that wrote has the pid of its node recorded. -/
theorem Consistent.pidWritten {content : Text} {j : Nat} {pid : Int} {k : Bool → Command Nat}
    (h : Consistent log s p) (hp : p none = .ask (.write content (.pid j pid)) k)
    (hs : CalmStep none s (.write content (.pid j pid)) true s') :
    Consistent (log.1, insert (j, pid) log.2) s' (Function.update p none (k true)) where
  file := by
    obtain ⟨next, hlt, hcontent, hid, hpos, hle⟩ := h.threads.restart_allowed hp
    have hsame : s.world.file = s.seen none := hs.2.1
    rcases hs.1.step.1 with ⟨-, hfile⟩ | ⟨hno, -⟩
    · rw [hfile, hcontent, ← hsame]
      rw [← hsame] at hid
      refine h.file.setPid hid hpos fun e he => ?_
      have := hlt e he
      simp only at hle
      omega
    · cases hno
  threads := by
    refine h.threads.step hp hs.1 ?_
    rintro e (rfl | he)
    · exact .inr ⟨rfl, content, rfl⟩
    · exact .inl he

/-- The node a restart starts has not been recorded as draining. -/
theorem Consistent.not_drained {j : Nat} {cmd log' : Text} {pid : Int} {k : Int → Command Nat}
    (h : Consistent log s p) (hp : p none = .ask (.spawn j cmd log') k)
    (hs : CalmStep none s (.spawn j cmd log') pid s') : (j : Int) ∉ log.1 := by
  intro hj
  obtain ⟨next, -, hdrain⟩ := h.threads.restart_allowed hp
  have hsame : s.world.file = s.seen none := hs.2
  have := h.file.draining hj
  rw [hsame] at this
  rw [Restarts, this] at hdrain
  cases hdrain

theorem Consistent.step (h : Consistent log s p) (hp : p i = .ask o k)
    (hs : CalmStep i s o r s') :
    ∃ log', log ≤ log' ∧ Consistent log' s' (Function.update p i (k r)) := by
  cases o with
  | write content note =>
    cases r with
    | false => exact ⟨log, le_rfl, h.same_file hp hs.1 (hs.2.2 rfl)⟩
    | true =>
      cases i with
      | none =>
        obtain ⟨next, -, hallow⟩ := h.threads.restart_allowed hp
        cases note with
        | pid j pid =>
          exact ⟨(log.1, insert (j, pid) log.2), ⟨le_rfl, Set.subset_insert _ _⟩,
            h.pidWritten hp hs⟩
        | state => exact hallow.elim
        | draining id => exact hallow.elim
      | some j =>
        obtain ⟨next, hallow⟩ := h.threads.drain_allowed hp
        cases note with
        | draining id =>
          exact ⟨(insert id log.1, log.2), ⟨Set.subset_insert _ _, le_rfl⟩, h.drained hp hs⟩
        | state => exact hallow.elim
        | pid j pid => exact hallow.elim
  | remove =>
    cases i with
    | none =>
      obtain ⟨next, -, hallow⟩ := h.threads.restart_allowed hp
      exact hallow.elim
    | some j =>
      obtain ⟨next, hallow⟩ := h.threads.drain_allowed hp
      exact hallow.elim
  | read => exact ⟨log, le_rfl, h.same_file hp hs.1 hs.1.step.2.file⟩
  | spawn j cmd log' =>
    refine ⟨log, le_rfl, h.same_file hp hs.1 ?_⟩
    rcases hs.1.step with ⟨-, hq⟩ | ⟨-, -, hfile, -⟩
    · exact hq.file
    · exact hfile
  | kill pid mode => exact ⟨log, le_rfl, h.same_file hp hs.1 hs.1.step.2.file⟩
  | sleep sec => exact ⟨log, le_rfl, h.same_file hp hs.1 hs.1.step.file⟩
  | source path => exact ⟨log, le_rfl, h.same_file hp hs.1 hs.1.step.file⟩
  | compile text path binary => exact ⟨log, le_rfl, h.same_file hp hs.1 hs.1.step.file⟩
  | mkdir path => exact ⟨log, le_rfl, h.same_file hp hs.1 hs.1.step.file⟩
  | err line => exact ⟨log, le_rfl, h.same_file hp hs.1 hs.1.step.file⟩

end

theorem Consistent.interleave {log : Set Int × Set (Nat × Int)} {s s' : Shared (Option κ)}
    {p p' : Option κ → Command Nat} {tr : List (Event (Option κ) Op Res)}
    (h : Consistent log s p) (hrun : Interleave CalmStep s p tr s' p') :
    ∃ log', log ≤ log' ∧ Consistent log' s' p' :=
  hrun.invariant (fun _ _ _ _ _ _ _ _ h hp hs => h.step hp hs) h

omit [DecidableEq κ] in
theorem consistent_pool (env : Env) (drains : κ → Env) {r : Record} {s : Shared (Option κ)}
    (hfile : s.world.file = r.render) : Consistent (∅, ∅) s (pool env drains) where
  file := ⟨r, hfile, by simp, by simp⟩
  threads := ⟨fun k => ⟨0, drain_keeps (drains k) _⟩, 0, by simp, restart_keeps env _⟩

/-- What a drain recorded is still recorded, its node is not started after that, and the pids the
restart recorded are there. -/
structure NoUpdateLost (tr : List (Event (Option κ) Op Res)) (file : Text) : Prop where
  draining : ∀ pre k content id post,
    tr = pre ++ ⟨some k, .write content (.draining id), true⟩ :: post →
    clusterDrainingContains file id = true
  notStarted : ∀ pre k content id post,
    tr = pre ++ ⟨some k, .write content (.draining id), true⟩ :: post →
    ∀ (node : Nat) cmd log pid, ⟨none, .spawn node cmd log, pid⟩ ∈ post → (node : Int) ≠ id
  pids : ∀ pre content (i : Nat) pid post,
    tr = pre ++ ⟨none, .write content (.pid i pid), true⟩ :: post →
    clusterNodeInt file i (chars "pid") = pid

/-- **No update is lost** while every command writes, and the restart starts a node, only when the
file still is what the command read last. -/
theorem no_update_lost (env : Env) (drains : κ → Env) {r : Record} {s s' : Shared (Option κ)}
    {p' : Option κ → Command Nat} {tr : List (Event (Option κ) Op Res)}
    (hfile : s.world.file = r.render)
    (hrun : Interleave CalmStep s (pool env drains) tr s' p') :
    NoUpdateLost tr s'.world.file := by
  have hinit := consistent_pool env drains (r := r) hfile
  -- The run up to an event, the event, and the run after it.
  have hdrain : ∀ pre k content id post,
      tr = pre ++ ⟨some k, .write content (.draining id), true⟩ :: post →
      ∃ log s₁ p₁, id ∈ log.1 ∧ Consistent log s₁ p₁ ∧ Interleave CalmStep s₁ p₁ post s' p' := by
    rintro pre k content id post rfl
    obtain ⟨s₀, p₀, hpre, hpost⟩ := hrun.split
    obtain ⟨log, -, hc⟩ := hinit.interleave hpre
    cases hpost with
    | cons hp hs hrest => exact ⟨_, _, _, Set.mem_insert id _, hc.drained hp hs, hrest⟩
  refine ⟨fun pre k content id post htr => ?_, fun pre k content id post htr => ?_,
    fun pre content i pid post htr => ?_⟩
  · obtain ⟨log, s₁, p₁, hid, hc, hrest⟩ := hdrain pre k content id post htr
    obtain ⟨log', hle, hc'⟩ := hc.interleave hrest
    exact hc'.file.draining (hle.1 hid)
  · intro node cmd logFile pid hmem hnode
    obtain ⟨log, s₁, p₁, hid, hc, hrest⟩ := hdrain pre k content id post htr
    obtain ⟨a, b, rfl⟩ := List.append_of_mem hmem
    obtain ⟨s₂, p₂, ha, hb⟩ := hrest.split
    obtain ⟨log', hle, hc'⟩ := hc.interleave ha
    cases hb with
    | cons hp hs _ => exact hc'.not_drained hp hs (hnode ▸ hle.1 hid)
  · subst htr
    obtain ⟨s₀, p₀, hpre, hpost⟩ := hrun.split
    obtain ⟨log, -, hc⟩ := hinit.interleave hpre
    cases hpost with
    | cons hp hs hrest =>
      obtain ⟨log', hle, hc'⟩ := (hc.pidWritten hp hs).interleave hrest
      exact hc'.file.pid (hle.2 (Set.mem_insert _ _))

end System

/-! ## One drain and the restart of one node -/

section Example

/-- The file of a cluster of one node whose process has ended. -/
def oneNode : Record where
  service := chars "/srv/.orbit/cluster-service"
  portBase := 80
  logDir := chars ".orbit/logs"
  nodes := [(80, 5)]
  draining := []
  service_clean := by decide +kernel
  logDir_clean := by decide +kernel

def callEnv (args : List Text) : Env := ⟨chars "orbit" :: chars "cluster" :: args, chars "/srv", false⟩

/-- `restart --rolling` and `drain 0`. -/
def restartAndDrain : Option Unit → Command Nat :=
  pool (callEnv [chars "restart", chars "--rolling"]) fun _ => callEnv [chars "drain", chars "0"]

abbrev SharedMachine := Machine × (Option Unit → Text)

def SharedMachine.shared (m : SharedMachine) : Shared (Option Unit) := ⟨m.1.world, m.2⟩

def SharedMachine.answer (i : Option Unit) (m : SharedMachine) (o : Op) : Res o × SharedMachine :=
  ((m.1.answer true o).1, (m.1.answer true o).2, seenAfter m.2 i o (m.1.answer true o).1)

def SharedMachine.start : SharedMachine := (⟨oneNode.render, []⟩, fun _ => [])

theorem SharedMachine.step (i : Option Unit) (m : SharedMachine) (o : Op) :
    m.shared.Step i o (answer i m o).1 (answer i m o).2.shared := ⟨m.1.step true o, rfl⟩

/-- The file is what the command read last. -/
def SharedMachine.calm (i : Option Unit) (m : SharedMachine) : Op → Bool
  | .write _ _ | .spawn _ _ _ => m.1.file = m.2 i
  | _ => true

theorem SharedMachine.calmStep (i : Option Unit) (m : SharedMachine) (o : Op)
    (h : m.calm i o = true) : CalmStep i m.shared o (answer i m o).1 (answer i m o).2.shared := by
  refine ⟨m.step i o, ?_⟩
  cases o with
  | write content note => exact ⟨of_decide_eq_true h, fun hno => by cases hno⟩
  | spawn node cmd log =>
    have hfile : m.1.file = m.2 i := of_decide_eq_true h
    exact hfile
  | _ => trivial

def isRet : Command Nat → Bool
  | .ret _ => true
  | .ask _ _ => false

def isDrainWrite : Event (Option Unit) Op Res → Bool
  | ⟨some _, .write _ (.draining id), ok⟩ => id = 0 && ok
  | _ => false

theorem isDrainWrite_elim {e : Event (Option Unit) Op Res} (h : isDrainWrite e = true) :
    ∃ k content, e = ⟨some k, .write content (.draining 0), true⟩ := by
  obtain ⟨who, op, res⟩ := e
  cases who with
  | none => simp [isDrainWrite] at h
  | some k =>
    cases op with
    | write content note =>
      cases note with
      | draining id =>
        simp only [isDrainWrite, Bool.and_eq_true, decide_eq_true_eq] at h
        obtain ⟨rfl, rfl⟩ := h
        exact ⟨k, content, rfl⟩
      | _ => simp [isDrainWrite] at h
    | _ => simp [isDrainWrite] at h

/-- A drain that runs before the restart starts is kept. -/
theorem no_update_lost_sequential : ∃ s' p' tr k content,
    Interleave CalmStep SharedMachine.start.shared restartAndDrain tr s' p' ∧
      ⟨some k, .write content (.draining 0), true⟩ ∈ tr ∧ NoUpdateLost tr s'.world.file := by
  have hcheck : (execPool SharedMachine.calm SharedMachine.answer
      [some (), some (), some (), none, none] restartAndDrain SharedMachine.start).any
        (fun x => x.1.any isDrainWrite) = true := by decide +kernel
  cases hx : execPool SharedMachine.calm SharedMachine.answer
      [some (), some (), some (), none, none] restartAndDrain SharedMachine.start with
  | none =>
    rw [hx] at hcheck
    cases hcheck
  | some x =>
    obtain ⟨tr, s', p'⟩ := x
    rw [hx, Option.any_some, List.any_eq_true] at hcheck
    obtain ⟨e, he, hdrain⟩ := hcheck
    obtain ⟨k, content, rfl⟩ := isDrainWrite_elim hdrain
    have hrun := interleave_execPool (E := CalmStep) (g := SharedMachine.shared)
      SharedMachine.calmStep hx
    exact ⟨_, _, _, k, content, hrun, he, no_update_lost _ _ (r := oneNode) rfl hrun⟩

/-- A drain between the read and the write of the restart is lost. -/
theorem update_lost : ¬ ∀ (s' : Shared (Option Unit)) p' tr,
    Interleave AnyStep SharedMachine.start.shared restartAndDrain tr s' p' →
      (∀ i, ∃ code, p' i = .ret code) → NoUpdateLost tr s'.world.file := by
  intro h
  have hcheck : (execPool (fun _ _ _ => true) SharedMachine.answer
      [none, none, some (), some (), some (), none, none, none, none, none, none] restartAndDrain
      SharedMachine.start).any (fun x => x.1.any isDrainWrite && isRet (x.2.2 none) &&
        isRet (x.2.2 (some ())) && !clusterDrainingContains x.2.1.1.file 0) = true := by
    decide +kernel
  cases hx : execPool (fun _ _ _ => true) SharedMachine.answer
      [none, none, some (), some (), some (), none, none, none, none, none, none] restartAndDrain
      SharedMachine.start with
  | none =>
    rw [hx] at hcheck
    cases hcheck
  | some x =>
    obtain ⟨tr, s', p'⟩ := x
    rw [hx] at hcheck
    simp only [Option.any_some, Bool.and_eq_true, List.any_eq_true, Bool.not_eq_true'] at hcheck
    obtain ⟨⟨⟨⟨e, he, hdrain⟩, hnone⟩, hsome⟩, hlost⟩ := hcheck
    have hret : ∀ c : Command Nat, isRet c = true → ∃ code, c = .ret code := by
      intro c hc
      cases c with
      | ret code => exact ⟨code, rfl⟩
      | ask o k => cases hc
    have hrun := interleave_execPool (E := AnyStep) (g := SharedMachine.shared)
      (fun i s o _ => SharedMachine.step i s o) hx
    obtain ⟨k, content, rfl⟩ := isDrainWrite_elim hdrain
    obtain ⟨pre, post, htr⟩ := List.append_of_mem he
    have hend : ∀ i, ∃ code, p' i = .ret code := by
      rintro (_ | ⟨⟩)
      · exact hret _ hnone
      · exact hret _ hsome
    have hkept := (h _ _ _ hrun hend).draining pre k content 0 post htr
    rw [SharedMachine.shared, Machine.world] at hkept
    rw [hlost] at hkept
    cases hkept

end Example

end Cluster
