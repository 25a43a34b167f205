import Codemod.Json.Printer
import Codemod.Log.Instant
import Codemod.Log.Severity
import Codemod.Log.Template

/-!
# Records

A record is a message with its arguments, a severity, the name of a logger and a time, and possibly the
text of an exception. Attributes can be set on it afterwards: one with the name of a part of the record
takes the place of that part, and most others are extras, which are written beside the message.

A record is written either as a line of JSON or as a line for a console.

Main statements:

* `Record.messageText_of_plain` says that a message without arguments is taken as it is.
-/

namespace Codemod.Log

open Json (Value Members)

/-- Why the exception of a record cannot be written: it was set to a value that is no triple of type,
exception and trace. -/
inductive ExceptionFault where
  | noParts
  | tooFewParts
  | namedParts
  | noTrace
  deriving DecidableEq, Repr

/-- Why a record cannot be written. -/
inductive RecordFault where
  | message (f : TemplateFault)
  | time (f : InstantFault)
  | exception (f : ExceptionFault)
  /-- A text was to be appended to the line, but is none. -/
  | notText
  deriving DecidableEq, Repr

/-- What is logged. -/
structure Record where
  message : Value
  arguments : List Value := []
  severity : Severity := Severity.info
  logger : String
  /-- The seconds since the start of 1970. -/
  created : Value := .int 0
  exception : Option String := none
  /-- The attributes that were set afterwards. -/
  attributes : Members := []

namespace Record

/-- The attributes that a record has by itself or gets while it is written. The others are extras. -/
def ownAttributes : List String :=
  ["name", "msg", "args", "levelname", "levelno", "pathname", "filename", "module", "exc_info",
    "exc_text", "stack_info", "lineno", "funcName", "created", "msecs", "relativeCreated", "thread",
    "threadName", "processName", "process", "taskName", "message", "asctime"]

/-- The attributes that are written beside the message. -/
def extras (r : Record) : Members :=
  r.attributes.filter fun e => !ownAttributes.contains e.1

/-- An attribute that was set afterwards, or the value it has otherwise. -/
def attributeOr (r : Record) (name : String) (own : Value) : Value :=
  (r.attributes.get? name).getD own

/-- The name of the severity. -/
def levelName (r : Record) : Value :=
  r.attributeOr "levelname" (.text r.severity.name)

/-- The name of the logger. -/
def loggerName (r : Record) : Value :=
  r.attributeOr "name" (.text r.logger)

/-- The time of a record. -/
def time (r : Record) : Value :=
  r.attributeOr "created" r.created

/-- The message with its arguments filled in. Without arguments it is no template. -/
def messageText (r : Record) : Except RecordFault String :=
  let template := (r.attributeOr "msg" r.message).shown
  match r.attributes.get? "args" with
  | some v => if v.isSet then (fill template (.ofValue v)).mapError .message else .ok template
  | none =>
    if r.arguments.isEmpty then .ok template
    else (fill template (.ofList r.arguments)).mapError .message

/-- The text of an exception: its type and, unless it is empty, its own text. -/
def exceptionText (text : String) : String :=
  if text = "" then "ValueError" else "ValueError: " ++ text

/-- The text of an exception that was set as a value: only a triple without exception and trace has
one. -/
def exceptionTextOf : Value → Except ExceptionFault String
  | .list (_ :: .null :: .null :: _) => .ok "NoneType: None"
  | .list (_ :: _ :: _ :: _) => .error .noTrace
  | .list _ => .error .tooFewParts
  | .text s => if s.length < 3 then .error .tooFewParts else .error .noTrace
  | .object _ => .error .namedParts
  | _ => .error .noParts

/-- The text of the exception of a record, if it has one. -/
def exceptionText? (r : Record) : Except RecordFault (Option String) :=
  match r.attributes.get? "exc_info" with
  | some .null => .ok none
  | some v => (some <$> exceptionTextOf v).mapError .exception
  | none => .ok (r.exception.map exceptionText)

/-- The members that a record is written with as JSON. An extra with the name of one of the first
members takes its place. -/
def members (r : Record) : Except RecordFault Members := do
  let time ← (Instant.ofValue r.time >>= Instant.text).mapError .time
  let message ← r.messageText
  let exception ← r.exceptionText?
  let own : Members :=
    [("timestamp", .text time), ("level", r.levelName), ("logger", r.loggerName),
      ("message", .text message)]
  let own := match exception with
    | some t => own ++ [("exc_info", Value.text t)]
    | none => own
  return own.merge r.extras

/-- A record as a line of JSON. -/
def jsonLine (r : Record) : Except RecordFault String :=
  (fun ms => Json.print (.object ms)) <$> r.members

/-- A text appended to a line after a line break. -/
def appended (line : String) : Value → Except RecordFault String
  | .text t => .ok (if line.endsWith "\n" then line ++ t else line ++ "\n" ++ t)
  | _ => .error .notText

/-- The text of the exception as it is appended to a line. One that was set as a text goes before the
exception itself. -/
def appendedException? (r : Record) : Except RecordFault (Option Value) :=
  let preset := r.attributeOr "exc_text" .null
  let given := match r.attributes.get? "exc_info" with
    | some v => v.isSet
    | none => true
  if preset.isSet then .ok (some preset)
  else if given then (Option.map Value.text) <$> r.exceptionText?
  else .ok none

/-- A line with the exception and the stack of a record behind it. -/
def complete (r : Record) (line : String) : Except RecordFault String := do
  let line ← match ← r.appendedException? with
    | some t => appended line t
    | none => .ok line
  let stack := r.attributeOr "stack_info" .null
  if stack.isSet then appended line stack else return line

/-- A record as a line with its time of day and its severity. -/
def consoleLine (r : Record) : Except RecordFault String := do
  let message ← r.messageText
  let clock ← (Instant.ofValueFloor r.time >>= Instant.clock).mapError .time
  r.complete s!"[{clock}] {r.levelName.shown}: {message}"

/-- A record as a line with its message alone. -/
def bareLine (r : Record) : Except RecordFault String := do
  r.complete (← r.messageText)

/-- The attributes that are filled or cleared before a record is put into a queue. -/
def preparedAttributes : List String :=
  ["message", "msg", "args", "exc_info", "exc_text", "stack_info"]

/-- A record as it is put into a queue: its line, with the exception and the stack behind it, is its message. -/
def prepared (r : Record) : Except RecordFault Record := do
  let line ← r.bareLine
  return { r with
    message := .text line
    arguments := []
    exception := none
    attributes := r.attributes.filter fun e => !preparedAttributes.contains e.1 }

/-- A message without arguments is taken as it is. -/
theorem messageText_of_plain {r : Record} {s : String} (hm : r.message = .text s)
    (ha : r.arguments = []) (hs : r.attributes = []) : r.messageText = .ok s := by
  simp [messageText, attributeOr, hm, ha, hs, Keyed.get?]

end Record
end Codemod.Log
