import Codemod.Keyed
import Codemod.Path
import Codemod.Text.Integer
import Codemod.Text.Quoted

/-!
# Settings

What a run is told from outside: the configuration file, the root marker and the number of files
that are worked on at once. Each comes from an explicit choice, else from the environment, else from
a default; the result is checked.

Main statements:

* `Settings.check_ok_iff` says which settings are accepted.
-/

namespace Codemod

/-- The environment: variables with their values. -/
abbrev Environment := Keyed String String

/-- The settings of a run. -/
structure Settings where
  config : Path
  rootMarker : String
  maxConcurrent : Int
  deriving DecidableEq, Repr

/-- Choices that go before the environment. -/
structure Choices where
  config : Option Path := none
  rootMarker : Option String := none
  maxConcurrent : Option Int := none
  deriving DecidableEq, Repr

namespace Settings

/-- Why settings are refused. -/
inductive Fault where
  | notAnInteger (text : String)
  | concurrency (n : Int)
  | rootMarker (marker : String)
  deriving DecidableEq, Repr

/-- The variable that names the configuration file. -/
def configVariable : String := "TSREWRITE_TSCONFIG"

/-- The variable that names the root marker. -/
def rootMarkerVariable : String := "TSREWRITE_ROOT_MARKER"

/-- The variable that limits how many files are worked on at once. -/
def maxConcurrentVariable : String := "TSREWRITE_MAX_CONCURRENT"

/-- The wording of a fault. -/
def Fault.message : Fault → String
  | .notAnInteger t => s!"{maxConcurrentVariable} must be an integer, got {Text.quoted t}"
  | .concurrency n => s!"max_concurrent must be >= 1, got {n}"
  | .rootMarker m => s!"root_marker must be a single directory name, got {Text.quoted m}"

/-- The configuration file that is read by default. -/
def defaultConfig : String := "tsconfig.json"

/-- The root marker that is used by default. -/
def defaultRootMarker : String := "src"

/-- How many files are worked on at once by default. -/
def defaultMaxConcurrent : Int := 64

/-- The number of files worked on at once as the environment gives it. -/
def maxConcurrentOf (env : Environment) : Except Fault Int :=
  match env.get? maxConcurrentVariable with
  | none => .ok defaultMaxConcurrent
  | some t =>
    match Text.readInteger? t with
    | some n => .ok n
    | none => .error (.notAnInteger t)

/-- A marker that can be the name of one directory. -/
def isMarker (m : String) : Bool :=
  m != "" && !m.toList.contains '/'

/-- Accepts settings that a run can use. -/
def check (s : Settings) : Except Fault Settings :=
  if s.maxConcurrent < 1 then .error (.concurrency s.maxConcurrent)
  else if isMarker s.rootMarker then .ok s
  else .error (.rootMarker s.rootMarker)

/-- The settings from choices and environment. -/
def ofEnvironment (env : Environment) (c : Choices) : Except Fault Settings := do
  let config := c.config.getD (Path.ofString ((env.get? configVariable).getD defaultConfig))
  let rootMarker := c.rootMarker.getD ((env.get? rootMarkerVariable).getD defaultRootMarker)
  let maxConcurrent ← match c.maxConcurrent with
    | some n => .ok n
    | none => maxConcurrentOf env
  check ⟨config, rootMarker, maxConcurrent⟩

/-- Settings are accepted when at least one file may be worked on and the marker is one segment. -/
theorem check_ok_iff {s t : Settings} :
    check s = .ok t ↔ t = s ∧ 1 ≤ s.maxConcurrent ∧ isMarker s.rootMarker = true := by
  unfold check
  constructor
  · intro h
    split at h
    · cases h
    · split at h
      · cases h
        exact ⟨rfl, by omega, by assumption⟩
      · cases h
  · rintro ⟨rfl, hc, hm⟩
    rw [if_neg (by omega), if_pos hm]

end Settings
end Codemod
