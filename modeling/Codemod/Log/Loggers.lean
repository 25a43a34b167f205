import Codemod.Log.Record
import Codemod.Log.Rotation

/-!
# Loggers

Loggers form a tree by their dotted names, with the root logger above all of them. A logger takes a
record if its severity reaches the threshold, which is that of the nearest logger from there upward that
has one. The record then goes to the handlers of that logger and of the loggers above it, up to the
first that does not propagate. A handler writes the record to an output, or puts it into a queue, from which it goes to
outputs later; what is written is what the outputs have got when the queue is empty.

Main statements:

* `Loggers.handlersOf_closed` says that a logger that does not propagate serves its own handlers only;
* `Loggers.isEnabled_of_threshold` says which severities a logger with a threshold of its own takes.
-/

namespace Codemod.Log

/-- How a line looks on the console. -/
inductive ConsoleStyle where
  | plain
  | json
  /-- Laid out in columns by the console itself. -/
  | rich
  deriving DecidableEq, Repr

/-- Where a record can be written. -/
inductive Output where
  | console (style : ConsoleStyle)
  | file (rotation : Rotation)
  deriving DecidableEq, Repr

/-- The least severity that outputs write. -/
def Output.threshold : Severity := Severity.debug

/-- What takes the records that a logger is to deliver. -/
inductive Handler where
  | direct (output : Output)
  /-- A queue from which records go to several outputs. -/
  | queue (outputs : List Output)
  deriving DecidableEq, Repr

/-- The least severity that a handler takes. -/
def Handler.threshold : Handler → Severity
  | .direct _ => Output.threshold
  | .queue _ => Severity.unset

/-- A logger. -/
structure Logger where
  threshold : Severity := Severity.unset
  propagates : Bool := true
  handlers : List Handler := []
  deriving DecidableEq, Repr

/-- All loggers; one that has no entry passes everything on. -/
structure Loggers where
  root : Logger
  named : Keyed String Logger
  deriving Repr

namespace Loggers

/-- The names by which the root logger is called. -/
def isRootName (name : String) : Bool :=
  name = "" || name = "root"

/-- The names above a name, the nearest first, all written backward. Each ends before a dot; a dot right
before another one does not count, nor does one at the very start. -/
def namesAbove : List Char → List (List Char)
  | [] => []
  | [_] => []
  | c :: d :: rest =>
    if c == '.' then (d :: rest) :: namesAbove rest
    else namesAbove (d :: rest)

/-- A name and the names above it, the nearest first. -/
def chain (name : String) : List String :=
  if isRootName name then []
  else name :: (namesAbove name.toList.reverse).map fun cs => String.ofList cs.reverse

/-- The logger of a name. -/
def logger (t : Loggers) (name : String) : Logger :=
  if isRootName name then t.root else (t.named.get? name).getD {}

/-- The loggers that a record of a name passes, the root logger last. -/
def route (t : Loggers) (name : String) : List Logger :=
  (chain name).map (fun n => (t.named.get? n).getD {}) ++ [t.root]

/-- The threshold that applies on a route: the first that is set. -/
def thresholdOf : List Logger → Severity
  | [] => Severity.unset
  | l :: more => if l.threshold = Severity.unset then thresholdOf more else l.threshold

/-- The handlers on a route, up to the first logger that does not propagate. -/
def handlersOf : List Logger → List Handler
  | [] => []
  | l :: more => l.handlers ++ if l.propagates then handlersOf more else []

/-- Whether the logger of a name takes records of a severity. -/
def isEnabled (t : Loggers) (name : String) (n : Severity) : Bool :=
  Severity.unset < n && thresholdOf (t.route name) ≤ n

/-- The handlers that take a record. -/
def receivers (t : Loggers) (r : Record) : List Handler :=
  if t.isEnabled r.logger r.severity then
    (handlersOf (t.route r.logger)).filter fun h => h.threshold ≤ r.severity
  else []

/-- A logger that does not propagate serves its own handlers only. -/
theorem handlersOf_closed {l : Logger} {more : List Logger} (h : l.propagates = false) :
    handlersOf (l :: more) = l.handlers := by
  simp [handlersOf, h]

/-- A logger with a threshold of its own takes what reaches it. -/
theorem isEnabled_of_threshold {t : Loggers} {name : String} {l : Logger} {more : List Logger}
    {n : Severity} (hr : t.route name = l :: more) (hl : l.threshold ≠ Severity.unset)
    (hn : Severity.unset < n) : t.isEnabled name n = decide (l.threshold ≤ n) := by
  simp only [isEnabled, hr, thresholdOf, hl, hn, if_false, decide_true, Bool.true_and]

end Loggers

/-- What logging has written: the lines on the console and the files on disk. -/
structure Written where
  console : List String
  disk : FileSystem
  deriving Repr

namespace Output

/-- The line that an output gets for a record. -/
def line : Output → Record → Except RecordFault String
  | .console .plain, r => r.consoleLine
  | .console .rich, r => r.bareLine
  | .console .json, r => r.jsonLine
  | .file _, r => r.jsonLine

/-- Writes a record. One that cannot be written is left out. -/
def write (o : Output) (w : Written) (r : Record) : Written :=
  match o.line r with
  | .error _ => w
  | .ok line =>
    match o with
    | .console _ => { w with console := w.console ++ [line] }
    | .file f => { w with disk := f.append w.disk (Bytes.ofString line) }

end Output

/-- Takes a record. A queue prepares it, where that is possible, and hands it on to the outputs that its severity
reaches. -/
def Handler.take (h : Handler) (w : Written) (r : Record) : Written :=
  match h with
  | .direct o => o.write w r
  | .queue outputs =>
    match r.prepared with
    | .error _ => w
    | .ok r => (outputs.filter fun _ => Output.threshold ≤ r.severity).foldl (fun w o => o.write w r) w

/-- Logs a record. -/
def Loggers.log (t : Loggers) (w : Written) (r : Record) : Written :=
  (t.receivers r).foldl (fun w h => h.take w r) w

end Codemod.Log
