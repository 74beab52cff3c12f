import Orbit.Lib.Prog
import Orbit.Cluster.State

/-!
# The cluster commands

`clusterUp`, `clusterDrain`, `clusterRestart` and `clusterDown` of `compiler/host/cluster.orb` as
programs that ask the operating system: read, write and remove the state file, start, signal and
probe processes, sleep. A command's result is its exit code. What it prints on standard output is
left out, what it prints on standard error is the operation `err`.
-/

namespace Cluster

open Lib (Prog)
open Lib.Text (chars intToString)

/-- What a write of the state file is made to record. -/
inductive Note where
  | state
  | draining (id : Int)
  | pid (id : Nat) (pid : Int)
  deriving DecidableEq

inductive Op where
  /-- `orbit_file_read_selfhost` of the state file. -/
  | read
  /-- `orbit_file_write_selfhost` of the state file. -/
  | write (content : Text) (note : Note)
  /-- `rm -f` of the state file. -/
  | remove
  /-- `orbit_os_spawn_bg_selfhost`, for node `node`. -/
  | spawn (node : Nat) (cmd log : Text)
  /-- `orbit_os_kill_selfhost`: mode 0 forces, 1 asks, 2 probes. -/
  | kill (pid : Int) (mode : Nat)
  | sleep (sec : Nat)
  /-- `orbit_file_read_selfhost` of the service. -/
  | source (path : Text)
  /-- `compileSourceWithFile`. -/
  | compile (source path binary : Text)
  | mkdir (path : Text)
  /-- `orbit_os_write_stderr_selfhost`. -/
  | err (line : Text)

abbrev Res : Op → Type
  | .read | .source _ => Text
  | .write _ _ | .compile _ _ _ => Bool
  | .spawn _ _ _ | .kill _ _ => Int
  | .remove | .sleep _ | .mkdir _ | .err _ => Unit

abbrev Command (α : Type) := Prog Op Res α

/-- What a command is started with. -/
structure Env where
  argv : List Text
  cwd : Text
  windows : Bool

section Primitives

def read : Command Text := Prog.call Op.read
def write (content : Text) (note : Note) : Command Bool := Prog.call (Op.write content note)
def remove : Command Unit := Prog.call Op.remove
def spawn (node : Nat) (cmd log : Text) : Command Int := Prog.call (Op.spawn node cmd log)
def kill (pid : Int) (mode : Nat) : Command Int := Prog.call (Op.kill pid mode)
def sleep (sec : Nat) : Command Unit := Prog.call (Op.sleep sec)
def source (path : Text) : Command Text := Prog.call (Op.source path)
def compile (source path binary : Text) : Command Bool := Prog.call (Op.compile source path binary)
def mkdir (path : Text) : Command Unit := Prog.call (Op.mkdir path)
def err (line : Text) : Command Unit := Prog.call (Op.err line)

end Primitives

/-! ## Arguments and paths -/

/-- `orbit_os_argv_selfhost`: empty past the end. -/
def Env.arg (env : Env) (i : Nat) : Text := env.argv.getD i []

/-- The value of a flag, `--name value` or `--name=value`. -/
def flagValue (name : Text) : List Text → Text
  | [] => []
  | a :: rest =>
    if a = [] then []
    else if a = name then rest.headD []
    else if (name ++ ['=']).length < a.length && (name ++ ['=']).isPrefixOf a then
      a.drop (name ++ ['=']).length
    else flagValue name rest

def clusterFlagValue (env : Env) (name : Text) (fromIdx : Nat) : Text :=
  flagValue name (env.argv.drop fromIdx)

def clusterHasFlag (env : Env) (name : Text) (fromIdx : Nat) : Bool :=
  ((env.argv.drop fromIdx).takeWhile (· ≠ [])).contains name

def clusterAbsolutePath (env : Env) (p : Text) : Text :=
  if env.cwd = [] then p else env.cwd ++ '/' :: p

def clusterNativePath (env : Env) (p : Text) : Text :=
  if env.windows then p.map fun c => if c = '/' then '\\' else c else p

/-- The path of the compiled service. -/
def binaryPath (env : Env) : Text :=
  clusterAbsolutePath env (chars ".orbit/cluster-service" ++ if env.windows then chars ".exe" else [])

def nodeLog (runLogDir : Text) (i : Nat) : Text :=
  runLogDir ++ chars "/node-" ++ intToString i ++ chars ".log"

def nodeCmd (runBin : Text) (port : Int) : Text :=
  '"' :: (runBin ++ chars "\" " ++ intToString port)

/-! ## Processes -/

def clusterWaitAlive (pid : Int) : Nat → Command Bool
  | 0 => do return (← kill pid 2) == 1
  | secs + 1 => do
    if (← kill pid 2) == 1 then return true
    sleep 1
    clusterWaitAlive pid secs

def clusterWaitDead (pid : Int) : Nat → Command Bool
  | 0 => do return (← kill pid 2) == 0
  | secs + 1 => do
    if (← kill pid 2) == 0 then return true
    sleep 1
    clusterWaitDead pid secs

def clusterConfirmAlive (pid : Int) : Command Bool := do
  if (← clusterWaitAlive pid 10) == false then return false
  sleep 2
  return (← kill pid 2) == 1

def clusterKillList (mode : Nat) : List Int → Command Unit
  | [] => return ()
  | pid :: pids => do
    if 0 < pid then
      let _ignoredK ← kill pid mode
    clusterKillList mode pids

/-! ## `cluster up` -/

/-- Start the nodes `i`, `i + 1`, …, `todo` of them; `none` when one could not be started. -/
def upSpawn (runBin runLogDir : Text) (portBase : Int) :
    Nat → Nat → List (Int × Int) → Command (Option (List (Int × Int)))
  | 0, _, nodes => return some nodes
  | todo + 1, i, nodes => do
    let port := portBase + i
    let pid ← spawn i (nodeCmd runBin port) (nodeLog runLogDir i)
    if pid ≤ 0 then
      err (chars "cluster up: failed to start node " ++ intToString i ++ chars " on port " ++
        intToString port ++ chars ".\n")
      clusterKillList 1 (nodes.map (·.2))
      err (chars "\nERROR: cluster.SpawnFailed\n")
      return none
    upSpawn runBin runLogDir portBase todo (i + 1) (nodes ++ [(port, pid)])

/-- How many of the nodes do not become healthy. -/
def upHealth (logDir : Text) : Nat → List (Int × Int) → Command Nat
  | _, [] => return 0
  | j, (_, wantPid) :: nodes => do
    if (← clusterConfirmAlive wantPid) == false then
      err (chars "node " ++ intToString j ++ chars " (pid " ++ intToString wantPid ++
        chars ") did not become healthy. See " ++ logDir ++ chars "/node-" ++ intToString j ++
        chars ".log\n")
      return (← upHealth logDir (j + 1) nodes) + 1
    upHealth logDir (j + 1) nodes

/-- From the launch of the nodes on. -/
def upNodes (env : Env) (nodeCount : Nat) (portBase : Int) (logDir : Text) : Command Nat := do
  let binary := binaryPath env
  let some nodes ← upSpawn (clusterNativePath env binary) (clusterNativePath env logDir) portBase
    nodeCount 0 [] | return 1
  if (← write (clusterBuildState binary portBase logDir nodes []) .state) == false then
    err (chars "cluster up: could not write state file .orbit/cluster.json.\n")
    clusterKillList 1 (nodes.map (·.2))
    err (chars "\nERROR: cluster.StateWriteFailed\n")
    return 1
  let bad ← upHealth logDir 0 nodes
  if 0 < bad then
    err (chars "cluster up: " ++ intToString bad ++ chars " of " ++ intToString nodeCount ++
      chars (" nodes failed. Inspect the logs, then run `orbit cluster down` to clean up.\n"))
    return 1
  return 0

/-- The log directory of `cluster up`. -/
def upLogDir (env : Env) : Text :=
  let logDir := clusterFlagValue env (chars "--log-dir") 3
  if logDir = [] then chars ".orbit/logs" else logDir

def clusterUp (env : Env) : Command Nat := do
  let nodesStr := clusterFlagValue env (chars "--nodes") 3
  let portBaseStr := clusterFlagValue env (chars "--port-base") 3
  let logDir := upLogDir env
  let service := clusterFlagValue env (chars "--service") 3
  let servicePath := if service = [] then chars "service.orb" else service
  if nodesStr = [] || portBaseStr = [] then
    err (chars
      "Usage: orbit cluster up --nodes N --port-base P [--log-dir D] [--service S]\n")
    return 2
  if clusterIsDigits nodesStr == false || clusterIsDigits portBaseStr == false then
    err (chars "cluster up: --nodes and --port-base must be positive integers.\n")
    err (chars "\nERROR: cluster.BadFlag\n")
    return 2
  if 2 < nodesStr.length || 5 < portBaseStr.length then
    err (chars "cluster up: --nodes must be between 1 and 64.\n")
    err (chars "\nERROR: cluster.BadFlag\n")
    return 2
  let nodeCount := clusterParseInt nodesStr
  let portBase := clusterParseInt portBaseStr
  if nodeCount < 1 || 64 < nodeCount then
    err (chars "cluster up: --nodes must be between 1 and 64.\n")
    err (chars "\nERROR: cluster.BadFlag\n")
    return 2
  let endPort := portBase + nodeCount
  if portBase < 1 || 65535 < portBase || 65536 < endPort then
    err (chars "cluster up: port range falls outside 1..65535.\n")
    err (chars "\nERROR: cluster.BadFlag\n")
    return 2
  let existing ← read
  if existing ≠ [] then
    err (chars ("cluster is already up (state file .orbit/cluster.json exists). " ++
      "Run `orbit cluster down` first.\n"))
    return 1
  let text ← source servicePath
  if text = [] then
    err (chars "cluster up: could not read service file: " ++ servicePath ++ chars "\n")
    err (chars "\nERROR: cluster.NoService\n")
    return 1
  mkdir (chars ".orbit")
  mkdir logDir
  if (← compile text servicePath (binaryPath env)) == false then return 1
  upNodes env nodeCount.toNat portBase logDir

/-! ## `cluster drain` -/

def noCluster : Command Nat := do
  err (chars "cluster: no cluster is up (no state file .orbit/cluster.json)\n")
  return 1

def clusterDrain (env : Env) : Command Nat := do
  let target := env.arg 3
  if target = [] || clusterIsDigits target == false then
    err (chars "Usage: orbit cluster drain <node>\n")
    return 2
  let id := clusterParseInt target
  let content ← read
  if content = [] then return ← noCluster
  let port := clusterNodeInt content id (chars "port")
  let pid := clusterNodeInt content id (chars "pid")
  if port == -1 || pid == -1 then
    err (chars "cluster drain: unknown node: " ++ target ++ chars "\n")
    err (chars "\nERROR: cluster.UnknownNode\n")
    return 1
  if (← kill pid 2) != 1 then
    if (← write (clusterAddDraining content id) (.draining id)) == false then
      err (chars "cluster drain: state file could not be updated.\n")
      err (chars "\nERROR: cluster.StateWriteFailed\n")
      return 1
    return 0
  if (← kill pid 1) != 1 then
    err (chars "cluster drain: could not signal node " ++ target ++ chars " (pid " ++
      intToString pid ++ chars ").\n")
    err (chars "\nERROR: cluster.SignalFailed\n")
    return 1
  if (← write (clusterAddDraining content id) (.draining id)) == false then
    err (chars "cluster drain: node signaled, but the state file could not be updated.\n")
    err (chars "\nERROR: cluster.StateWriteFailed\n")
    return 1
  return 0

/-! ## `cluster restart` -/

/-- Stop a node: ask it, and after ten seconds force it. `false` when it does not stop. -/
def restartStop (pid : Int) : Command Bool := do
  if (← kill pid 2) == 1 then
    let _ignoredStop ← kill pid 1
    if (← clusterWaitDead pid 10) == false then
      let _ignoredForce ← kill pid 0
      return ← clusterWaitDead pid 5
  return true

/-- Start the replacement of node `i` and record it in the text that was read; `some` is an exit. -/
def restartStart (runBin runLogDir content : Text) (i : Nat) (port : Int) :
    Command (Option Nat) := do
  let log := nodeLog runLogDir i
  let newPid ← spawn i (nodeCmd runBin port) log
  if newPid ≤ 0 then
    err (chars "cluster restart: node " ++ intToString i ++
      chars " failed to start. Aborting; inspect " ++ log ++ chars ".\n")
    err (chars "\nERROR: cluster.SpawnFailed\n")
    return some 1
  if (← clusterConfirmAlive newPid) == false then
    let _ignoredW ← write (clusterSetNodePid content i newPid) (.pid i newPid)
    err (chars "cluster restart: replacement for node " ++ intToString i ++ chars " (pid " ++
      intToString newPid ++ chars ") failed health. Aborting; inspect " ++ log ++ chars ".\n")
    err (chars "\nERROR: cluster.Unhealthy\n")
    return some 1
  if (← write (clusterSetNodePid content i newPid) (.pid i newPid)) == false then
    err (chars "cluster restart: node restarted, but the state file could not be updated.\n")
    err (chars "\nERROR: cluster.StateWriteFailed\n")
    return some 1
  return none

/-- Restart the nodes `i`, `i + 1`, …, `todo` of them, each from the file as it then is. -/
def restartNodes (runBin runLogDir : Text) : Nat → Nat → Command Nat
  | 0, _ => return 0
  | todo + 1, i => do
    let content ← read
    if clusterDrainingContains content i then
      restartNodes runBin runLogDir todo (i + 1)
    else
      let port := clusterNodeInt content i (chars "port")
      let pid := clusterNodeInt content i (chars "pid")
      if port == -1 || pid == -1 then
        err (chars "cluster restart: state file is corrupt (node " ++ intToString i ++
          chars " unreadable). Aborting.\n")
        err (chars "\nERROR: cluster.BadState\n")
        return 1
      if (← restartStop pid) == false then
        err (chars "cluster restart: node " ++ intToString i ++
          chars " did not stop. Aborting; remaining nodes untouched.\n")
        err (chars "\nERROR: cluster.StopFailed\n")
        return 1
      match ← restartStart runBin runLogDir content i port with
      | some code => return code
      | none => restartNodes runBin runLogDir todo (i + 1)

def clusterRestart (env : Env) : Command Nat := do
  if clusterHasFlag env (chars "--rolling") 3 == false then
    err (chars "Usage: orbit cluster restart --rolling\n")
    return 2
  let content ← read
  if content = [] then return ← noCluster
  let binary := clusterFieldStr content (chars "service")
  let logDir := clusterFieldStr content (chars "log_dir")
  if binary = [] || logDir = [] then
    err (chars "cluster restart: state file is corrupt (missing service/log_dir).\n")
    err (chars "\nERROR: cluster.BadState\n")
    return 1
  restartNodes (clusterNativePath env binary) (clusterNativePath env logDir)
    (clusterNodeCount content) 0

/-! ## `cluster down` -/

/-- Send a signal to each of the nodes `i`, `i + 1`, …, `todo` of them, that is still alive. -/
def downSignal (content : Text) (mode : Nat) : Nat → Nat → Command Unit
  | 0, _ => return ()
  | todo + 1, i => do
    let pid := clusterNodeInt content i (chars "pid")
    if 0 < pid then
      if (← kill pid 2) == 1 then
        let _ignoredD ← kill pid mode
    downSignal content mode todo (i + 1)

/-- The nodes that are still running, as text and as a number. -/
def downSurvivors (content : Text) : Nat → Nat → Nat × Text → Command (Nat × Text)
  | 0, _, found => return found
  | todo + 1, k, found => do
    let pid := clusterNodeInt content k (chars "pid")
    let alive ← if 0 < pid then (do return (← kill pid 2) == 1) else pure false
    downSurvivors content todo (k + 1)
      (if alive then (found.1 + 1, found.2 ++ intToString k ++ chars " ") else found)

def clusterDown : Command Nat := do
  let content ← read
  if content = [] then return 0
  let count := clusterNodeCount content
  downSignal content 1 count 0
  sleep 3
  downSignal content 0 count 0
  sleep 2
  let (survivors, survList) ← downSurvivors content count 0 (0, [])
  remove
  let after ← read
  if after ≠ [] then
    err (chars "cluster down: nodes stopped, but the state file could not be removed.\n")
    err (chars "\nERROR: cluster.StateRemoveFailed\n")
    return 1
  if 0 < survivors then
    err (chars "cluster down: " ++ intToString survivors ++ chars " node(s) still running (" ++
      survList ++ chars ").\n")
    err (chars "\nERROR: cluster.StopFailed\n")
    return 1
  return 0

end Cluster
