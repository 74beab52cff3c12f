import Mathlib
import Orbit.Cluster.Commands

/-!
# Runs of the cluster commands

The world a command runs in: the text of the state file and the node processes that are alive. A
step answers one operation with any outcome the runtime can give (`Step`): a write can fail, and
then leaves the file as it was or truncated, since the file is opened for writing first; a start
can fail; a signal can be ignored; a probe can say anything; and a node can end at any time.
-/

namespace Cluster

open Lib (Prog)
open Lib.Text (chars intToString)

structure World where
  /-- Empty when there is no file, as `orbit_file_read_selfhost` returns it. -/
  file : Text
  /-- The pids of the node processes that were started and are alive. -/
  alive : Set Int

/-- Nothing is written and no process started. -/
structure World.Quiet (w w' : World) : Prop where
  file : w'.file = w.file
  alive : w'.alive ⊆ w.alive

def Step (w : World) : (o : Op) → Res o → World → Prop
  | .read, content, w' => content = w.file ∧ w.Quiet w'
  | .write content _, ok, w' =>
    (ok = true ∧ w'.file = content ∨ ok = false ∧ (w'.file = w.file ∨ w'.file <+: content)) ∧
      w'.alive ⊆ w.alive
  | .remove, _, w' => (w'.file = [] ∨ w'.file = w.file) ∧ w'.alive ⊆ w.alive
  | .spawn _ _ _, pid, w' =>
    pid = -1 ∧ w.Quiet w' ∨
      0 < pid ∧ pid ∉ w.alive ∧ w'.file = w.file ∧ w'.alive ⊆ insert pid w.alive
  | .kill pid _, result, w' => (result = 0 ∨ 0 < pid ∧ result = 1) ∧ w.Quiet w'
  | .sleep _, _, w' => w.Quiet w'
  | .source _, _, w' => w.Quiet w'
  | .compile _ _ _, _, w' => w.Quiet w'
  | .mkdir _, _, w' => w.Quiet w'
  | .err _, _, w' => w.Quiet w'

inductive Call where
  | up (env : Env)
  | drain (env : Env)
  | restart (env : Env)
  | down

def Call.command : Call → Command Nat
  | .up env => clusterUp env
  | .drain env => clusterDrain env
  | .restart env => clusterRestart env
  | .down => clusterDown

/-- The states between the commands of a sequence of commands that starts without a cluster. `ok`
restricts the commands called, `E` the steps they take. -/
inductive Reach (ok : Call → Prop) (E : Call → World → (o : Op) → Res o → World → Prop) :
    World → Prop where
  | init : Reach ok E ⟨[], ∅⟩
  | call {w w' : World} {c : Call} {code : Nat} : Reach ok E w → ok c →
      Prog.Runs (E c) w c.command w' code → Reach ok E w'
  | ends {w w' : World} : Reach ok E w → w.Quiet w' → Reach ok E w'

/-- The state file has a node with this pid. -/
def Recorded (file : Text) (pid : Int) : Prop :=
  ∃ i < clusterNodeCount file, clusterNodeInt file i (chars "pid") = pid

/-- Every node that is alive is recorded. -/
def World.NoOrphan (w : World) : Prop := ∀ pid ∈ w.alive, Recorded w.file pid

theorem World.Quiet.refl (w : World) : w.Quiet w := ⟨rfl, subset_rfl⟩

/-! ## A deterministic machine -/

/-- A world with one answer for each operation: everything succeeds, at most one node is started,
and a stop ends the node if `obeys`. -/
structure Machine where
  file : Text
  pids : List Int

def Machine.world (m : Machine) : World := ⟨m.file, {p | p ∈ m.pids}⟩

def Machine.answer (obeys : Bool) (m : Machine) : (o : Op) → Res o × Machine
  | .read => (m.file, m)
  | .write content _ => (true, { m with file := content })
  | .remove => ((), { m with file := [] })
  | .spawn _ _ _ => if m.pids = [] then (7, { m with pids := [7] }) else (-1, m)
  | .kill pid mode =>
    if 0 < pid ∧ pid ∈ m.pids then
      (1, if mode = 2 ∨ obeys = false then m else { m with pids := m.pids.filter (· ≠ pid) })
    else (0, { m with pids := m.pids.filter (· ≠ pid) })
  | .sleep _ => ((), m)
  | .source _ => (chars "fn main()", m)
  | .compile _ _ _ => (true, m)
  | .mkdir _ => ((), m)
  | .err _ => ((), m)

theorem Machine.quiet (m : Machine) : m.world.Quiet m.world := .refl _

theorem Machine.step (obeys : Bool) (m : Machine) (o : Op) :
    Step m.world o (m.answer obeys o).1 (m.answer obeys o).2.world := by
  cases o with
  | read => exact ⟨rfl, m.quiet⟩
  | write content note => exact ⟨.inl ⟨rfl, rfl⟩, subset_rfl⟩
  | remove => exact ⟨.inl rfl, subset_rfl⟩
  | spawn node cmd log =>
    by_cases hp : m.pids = []
    · simp only [answer, if_pos hp]
      right
      simp [world, hp]
    · simp only [answer, if_neg hp]
      exact .inl ⟨rfl, m.quiet⟩
  | kill pid mode =>
    have hfilter : m.world.Quiet (Machine.world { m with pids := m.pids.filter (· ≠ pid) }) :=
      ⟨rfl, fun p hp => (List.mem_filter.mp hp).1⟩
    simp only [answer]
    split
    · next h =>
      refine ⟨.inr ⟨h.1, rfl⟩, ?_⟩
      dsimp only
      split
      · exact m.quiet
      · exact hfilter
    · exact ⟨.inl rfl, hfilter⟩
  | sleep sec => exact m.quiet
  | source path => exact m.quiet
  | compile text path binary => exact m.quiet
  | mkdir path => exact m.quiet
  | err line => exact m.quiet

end Cluster
