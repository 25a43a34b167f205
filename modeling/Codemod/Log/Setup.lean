import Codemod.Log.Loggers
import Codemod.Settings

/-!
# Setting up logging

What is to be logged and where is chosen explicitly, else by the environment, else by default. The
console and, if one is chosen, a rotated file serve the root logger and every logger that gets a
threshold of its own, directly or behind a queue; the latter loggers do not propagate, so that no line is written
twice.

Main statements:

* `Setup.loggers_root` says which threshold and which handlers the root logger gets;
* `Setup.loggers_named` says that a named logger serves the same handlers and does not propagate.
-/

namespace Codemod.Log

/-- Choices about logging. -/
structure SetupChoices where
  threshold : Option String := none
  json : Option Bool := none
  rich : Bool := false
  /-- The thresholds of single loggers. -/
  thresholds : Keyed String String := []
  file : Option String := none
  /-- Whether records go through a queue. -/
  queue : Bool := false
  maxBytes : Int := 10000000
  backups : Int := 3
  deriving Repr

/-- Why logging cannot be set up. -/
inductive SetupFault where
  | maxBytes (n : Int)
  | backups (n : Int)
  | unknownSeverity (name : String)
  | unwritable (f : IoFault)
  deriving DecidableEq, Repr

/-- The wording of a fault, where it has one that is shown. -/
def SetupFault.message? : SetupFault → Option String
  | .maxBytes n => some s!"max_log_bytes must be > 0, got {n}"
  | .backups n => some s!"backup_count must be >= 0, got {n}"
  | _ => none

/-- How logging is set up. -/
structure Setup where
  style : ConsoleStyle
  file : Option Rotation
  queued : Bool
  threshold : Severity
  thresholds : Keyed String Severity
  deriving Repr

namespace Setup

/-- The variable that holds the threshold of the root logger. -/
def thresholdVariable : String := "LOG_LEVEL"

/-- The variable that asks for lines of JSON on the console. -/
def jsonVariable : String := "LOG_JSON"

/-- The threshold of the root logger by default. -/
def defaultThreshold : String := "INFO"

/-- Reads a threshold. -/
def readThreshold (s : String) : Except SetupFault Severity :=
  match Severity.ofName? s with
  | some n => .ok n
  | none => .error (.unknownSeverity s)

/-- The threshold of the root logger as a text; an empty choice is no choice. -/
def thresholdText (env : Environment) (c : SetupChoices) : String :=
  let own := c.threshold.getD ""
  if own = "" then (env.get? thresholdVariable).getD defaultThreshold else own

/-- Whether the console gets lines of JSON. -/
def wantsJson (env : Environment) (c : SetupChoices) : Bool :=
  c.json.getD (((env.get? jsonVariable).getD "").toLower = "true")

/-- The style of the console. -/
def styleOf (env : Environment) (c : SetupChoices) : ConsoleStyle :=
  if wantsJson env c then .json else if c.rich then .rich else .plain

/-- The file that is logged to, its path read from the directory `cwd`; an empty path is none. -/
def fileOf (cwd : Path) (c : SetupChoices) : Option Rotation :=
  match c.file with
  | none => none
  | some s =>
    if s = "" then none
    else some ⟨cwd.absolute (Path.ofString s), c.maxBytes.toNat, c.backups.toNat⟩

/-- Reads the choices about logging. The choice of a queue counts only where `queues` says that something empties
queues, as not every platform does. -/
def ofChoices (env : Environment) (cwd : Path) (c : SetupChoices) (queues : Bool := false) :
    Except SetupFault Setup := do
  if c.maxBytes ≤ 0 then .error (.maxBytes c.maxBytes)
  else if c.backups < 0 then .error (.backups c.backups)
  else
    let threshold ← readThreshold (thresholdText env c)
    let thresholds ← c.thresholds.mapM fun e => do return (e.1, ← readThreshold e.2)
    return ⟨styleOf env c, fileOf cwd c, c.queue && queues, threshold, thresholds⟩

/-- The outputs that records are written to. -/
def outputs (s : Setup) : List Output :=
  .console s.style :: (s.file.map Output.file).toList

/-- The handlers that serve every logger that has any. -/
def handlers (s : Setup) : List Handler :=
  if s.queued then [.queue s.outputs] else s.outputs.map .direct

/-- The loggers. A threshold for the root logger under one of its names closes it, but is replaced by
its own. -/
def loggers (s : Setup) : Loggers where
  root := ⟨s.threshold, !s.thresholds.any (fun e => Loggers.isRootName e.1), s.handlers⟩
  named := (s.thresholds.filter fun e => !Loggers.isRootName e.1).map fun e =>
    (e.1, ⟨e.2, false, s.handlers⟩)

/-- Creates the file that is logged to. -/
def start (s : Setup) (disk : FileSystem) : Except SetupFault Written :=
  match s.file with
  | none => .ok ⟨[], disk⟩
  | some f => ((f.create disk).mapError .unwritable).map fun disk => ⟨[], disk⟩

/-- The root logger has the threshold that was chosen for it and all handlers. -/
theorem loggers_root (s : Setup) :
    s.loggers.root.threshold = s.threshold ∧ s.loggers.root.handlers = s.handlers :=
  ⟨rfl, rfl⟩

/-- A logger with a threshold of its own serves all handlers and does not propagate. -/
theorem loggers_named {s : Setup} {name : String} {l : Logger} (h : (name, l) ∈ s.loggers.named) :
    l.handlers = s.handlers ∧ l.propagates = false := by
  obtain ⟨e, _, he⟩ := List.mem_map.mp h
  cases he
  exact ⟨rfl, rfl⟩

end Setup
end Codemod.Log
