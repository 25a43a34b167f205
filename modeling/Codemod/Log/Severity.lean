import Codemod.Keyed
import Codemod.Log.Journal

/-!
# Severities

A severity is a number: the higher, the more important. Some severities have names.

Main statements:

* `ofName?_name_level` says that the name of a level is read as its severity.
-/

namespace Codemod.Log

/-- How important a record is. -/
abbrev Severity := Int

namespace Severity

/-- The least severity; as a threshold it stands for none. -/
def unset : Severity := 0

def debug : Severity := 10
def info : Severity := 20
def warning : Severity := 30
def error : Severity := 40
def critical : Severity := 50

/-- The severities that have a name. -/
def named : Keyed Severity String :=
  [(critical, "CRITICAL"), (error, "ERROR"), (warning, "WARNING"), (info, "INFO"), (debug, "DEBUG"),
    (unset, "NOTSET")]

/-- Further names that are understood. -/
def synonyms : Keyed String Severity :=
  [("FATAL", critical), ("WARN", warning)]

/-- The name of a severity. -/
def name (n : Severity) : String :=
  match named.get? n with
  | some s => s
  | none => s!"Level {n}"

/-- The capital of a letter. Of the letters beyond ASCII the two whose capitals are ASCII matter, since
no name has any other. -/
def capital (c : Char) : Char :=
  if c == 'ı' then 'I' else if c == 'ſ' then 'S' else c.toUpper

/-- The severity that a name in small or capital letters means. -/
def ofName? (s : String) : Option Severity :=
  let s := String.ofList (s.toList.map capital)
  match named.find? fun e => e.2 = s with
  | some e => some e.1
  | none => synonyms.get? s

/-- The severity of a line of a journal. -/
def ofLevel : Level → Severity
  | .debug => debug
  | .info => info
  | .warning => warning
  | .error => error

/-- The name of a level is that of its severity. -/
theorem name_ofLevel (l : Level) : name (ofLevel l) = l.name := by
  cases l <;> rfl

/-- The name of a level is read as its severity. -/
theorem ofName?_name_level (l : Level) : ofName? l.name = some (ofLevel l) := by
  cases l <;> decide +kernel

end Severity
end Codemod.Log
