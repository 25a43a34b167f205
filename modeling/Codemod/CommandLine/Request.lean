import Codemod.CommandLine.Words
import Codemod.Log.Setup

/-!
# Requests

What a command line asks for: a command, the settings of its run and the choices about logging. Each
command has a program of its own, and one program has them all and takes the command first.

Main statements:

* `Request.ofSaid_config` says that the configuration is the last one that was given;
* `Program.read_nil` says that the program of all commands needs a command.
-/

namespace Codemod

namespace CommandLine

/-- What can be asked for. -/
inductive Command where
  | namedExports
  | rootedSpecifiers
  deriving DecidableEq, Repr

/-- The name of a command, which is also that of its program. -/
def Command.name : Command → String
  | .namedExports => "default-to-named"
  | .rootedSpecifiers => "relative-to-absolute"

/-- All commands. -/
def Command.all : List Command := [.namedExports, .rootedSpecifiers]

/-- The command of a name. -/
def Command.ofName? (s : String) : Option Command :=
  all.find? fun c => c.name = s

/-- The options. -/
inductive Key where
  | config
  | rootMarker
  | maxConcurrent
  | threshold
  | logFile
  | jsonLines
  | rich
  | help
  deriving DecidableEq, Repr

/-- The option that asks for help. -/
def helpOption : OptionSpec Key := { key := .help, long := "--help", takesValue := false }

/-- The options of a command. -/
def Command.options (c : Command) : List (OptionSpec Key) :=
  let common : List (OptionSpec Key) :=
    [{ key := .config, long := "--tsconfig", short := some 'p' },
      { key := .maxConcurrent, long := "--max-concurrent", short := some 'j' },
      { key := .threshold, long := "--log-level" },
      { key := .logFile, long := "--log-file" },
      { key := .jsonLines, long := "--json-logs", takesValue := false },
      { key := .rich, long := "--rich", takesValue := false }, helpOption]
  match c with
  | .namedExports => common
  | .rootedSpecifiers => { key := .rootMarker, long := "--root-marker", short := some 'r' } :: common

/-- What a command line asks for. -/
structure Request where
  command : Command
  choices : Choices
  logging : Log.SetupChoices
  deriving Repr

/-- Why a command line is no request. -/
inductive Refusal where
  | help
  | usage (f : UsageFault)
  deriving DecidableEq, Repr

namespace Request

/-- A number that was given. -/
def readNumber : Option String → Except UsageFault (Option Int)
  | none => .ok none
  | some s =>
    match Text.readInteger? s with
    | some n => .ok (some n)
    | none => .error (.notAnInteger s)

/-- The choices about logging that the options make. -/
def loggingOf (s : Said Key) : Log.SetupChoices :=
  { threshold := s.value? .threshold
    json := if s.has .jsonLines then some true else none
    rich := s.has .rich
    file := (s.value? .logFile).map fun t => (Path.ofString t).toString }

/-- The request that options make. Other words are not understood. -/
def ofSaid (c : Command) (s : Said Key) : Except Refusal Request := do
  if s.has .help then .error .help
  else
    match s.words with
    | w :: _ => .error (.usage (.unexpectedWord w))
    | [] =>
      let maxConcurrent ← (readNumber (s.value? .maxConcurrent)).mapError .usage
      return {
        command := c
        choices := ⟨(s.value? .config).map Path.ofString, s.value? .rootMarker, maxConcurrent⟩
        logging := loggingOf s }

/-- The configuration is the last one that was given. -/
theorem ofSaid_config {c : Command} {s : Said Key} {q : Request} (h : ofSaid c s = .ok q) :
    q.choices.config = (s.value? .config).map Path.ofString := by
  unfold ofSaid at h
  split at h
  · cases h
  · split at h
    · cases h
    · cases hn : readNumber (s.value? .maxConcurrent) with
      | error f => rw [hn] at h; cases h
      | ok n => rw [hn] at h; cases h; rfl

/-- Reads the words behind a command. -/
def read (c : Command) (ws : List String) : Except Refusal Request := do
  ofSaid c (← (CommandLine.read c.options false ws).mapError .usage)

end Request

/-- A program. -/
inductive Program where
  /-- The program of all commands. -/
  | all
  | only (c : Command)
  deriving DecidableEq, Repr

namespace Program

/-- The program of a name: that of a command or, under any other name, that of all commands. -/
def ofName (s : String) : Program :=
  match Command.ofName? s with
  | some c => .only c
  | none => .all

/-- Reads the words behind the name of a program. -/
def read : Program → List String → Except Refusal Request
  | .only c, ws => Request.read c ws
  | .all, ws => do
    let said ← (CommandLine.read [helpOption] true ws).mapError .usage
    if said.has .help then .error .help
    else
      match said.words with
      | [] => .error (.usage .noCommand)
      | name :: rest =>
        match Command.ofName? name with
        | some c => Request.read c rest
        | none => .error (.usage (.unknownCommand name))

/-- What a program tells when it is asked for help. -/
def help : Program → List String
  | .only c => s!"Usage: {c.name} [OPTIONS]" :: c.options.map fun o => s!"  {o.long}"
  | .all => "Usage: tsrewrite COMMAND [OPTIONS]" :: Command.all.map fun c => s!"  {c.name}"

/-- The program of all commands needs a command. -/
theorem read_nil : read .all [] = .error (.usage .noCommand) := rfl

end Program
end CommandLine
end Codemod
