/-!
# Journals

A computation that reports what it does appends lines to a journal. The lines written before a
failure stay.

Main statements:

* `Journaled.note_run` says that a note appends one line;
* `Journaled.bind_error` says that a failure keeps the lines written before it.
-/

namespace Codemod

/-- How important a line is. -/
inductive Level where
  | debug
  | info
  | warning
  | error
  deriving DecidableEq, Repr

/-- The name of a level. -/
def Level.name : Level → String
  | .debug => "DEBUG"
  | .info => "INFO"
  | .warning => "WARNING"
  | .error => "ERROR"

/-- One line of a journal. -/
structure JournalLine where
  level : Level
  message : String
  deriving DecidableEq, Repr

/-- The lines written so far, in order. -/
abbrev Journal := List JournalLine

/-- A computation that appends to a journal and may fail with an `ε`. -/
def Journaled (ε α : Type) := Journal → Except ε α × Journal

namespace Journaled

variable {ε α β : Type}

/-- Gives a value and writes nothing. -/
def pure (a : α) : Journaled ε α := fun j => (.ok a, j)

/-- Runs one computation and then the one that its value selects. -/
def bind (x : Journaled ε α) (f : α → Journaled ε β) : Journaled ε β := fun j =>
  match x j with
  | (.ok a, j) => f a j
  | (.error e, j) => (.error e, j)

instance : Monad (Journaled ε) where
  pure := pure
  bind := bind

/-- Fails. -/
def fail (e : ε) : Journaled ε α := fun j => (.error e, j)

/-- Appends a line. -/
def note (level : Level) (message : String) : Journaled ε Unit := fun j =>
  (.ok (), j ++ [⟨level, message⟩])

/-- Goes on with the value of a result, or fails with its error. -/
def ofExcept : Except ε α → Journaled ε α
  | .ok a => pure a
  | .error e => fail e

/-- The same computation with its errors renamed. -/
def mapError {ε' : Type} (f : ε → ε') (x : Journaled ε α) : Journaled ε' α := fun j =>
  match x j with
  | (.ok a, j) => (.ok a, j)
  | (.error e, j) => (.error (f e), j)

/-- A note appends one line. -/
theorem note_run (level : Level) (message : String) (j : Journal) :
    (note level message : Journaled ε Unit) j = (.ok (), j ++ [⟨level, message⟩]) := rfl

/-- A failure keeps the lines written before it. -/
theorem bind_error {x : Journaled ε α} {f : α → Journaled ε β} {j j' : Journal} {e : ε}
    (h : x j = (.error e, j')) : (x >>= f) j = (.error e, j') := by
  show bind x f j = _
  simp [bind, h]

/-- What follows a computation that gives a value. -/
theorem bind_ok {x : Journaled ε α} {f : α → Journaled ε β} {j j' : Journal} {a : α}
    (h : x j = (.ok a, j')) : (x >>= f) j = f a j' := by
  show bind x f j = _
  simp [bind, h]

end Journaled
end Codemod
