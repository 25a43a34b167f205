/-!
# The words of a command line

A word that begins with a dash and is longer than that names options; the other words stand for
themselves. A long option has its value behind an equals sign or in the next word, a short one directly
behind it or in the next word. Two dashes alone end the options.

Main statements:

* `read_plain` says that words without a dash in front stand for themselves;
* `read_dashes` says that behind two dashes alone all words do.
-/

namespace Codemod.CommandLine

/-- Why the words of a command line are not understood. -/
inductive UsageFault where
  | unknownOption (name : String)
  | missingValue (name : String)
  | unexpectedValue (name : String)
  | unexpectedWord (word : String)
  | notAnInteger (text : String)
  | noCommand
  | unknownCommand (name : String)
  deriving DecidableEq, Repr

/-- The wording of a fault. -/
def UsageFault.message : UsageFault → String
  | .unknownOption name => s!"No such option: {name}"
  | .missingValue name => s!"Option '{name}' requires an argument."
  | .unexpectedValue name => s!"Option '{name}' does not take a value."
  | .unexpectedWord word => s!"Got unexpected extra argument ({word})"
  | .notAnInteger text => s!"Invalid value: '{text}' is not a valid integer."
  | .noCommand => "Missing command."
  | .unknownCommand name => s!"No such command '{name}'."

/-- An option. -/
structure OptionSpec (κ : Type) where
  key : κ
  /-- The long name with its two dashes. -/
  long : String
  /-- The letter behind a single dash. -/
  short : Option Char := none
  takesValue : Bool := true
  deriving Repr

/-- What the words of a command line say. -/
structure Said (κ : Type) where
  /-- The options in order; one that takes no value has an empty one. -/
  options : List (κ × String) := []
  /-- The other words. -/
  words : List String := []
  deriving Repr

namespace Said

variable {κ : Type} [DecidableEq κ]

/-- Puts options in front. -/
def withOptions (os : List (κ × String)) (s : Said κ) : Said κ :=
  { s with options := os ++ s.options }

/-- Puts a word in front. -/
def withWord (w : String) (s : Said κ) : Said κ :=
  { s with words := w :: s.words }

/-- The value of an option; the last one counts. -/
def value? (s : Said κ) (k : κ) : Option String :=
  (s.options.reverse.find? fun o => o.1 = k).map (·.2)

/-- Whether an option was given. -/
def has (s : Said κ) (k : κ) : Bool :=
  (s.value? k).isSome

end Said

section Reading

variable {κ : Type} (specs : List (OptionSpec κ))

/-- What one word says: options with their values, and the option that takes the next word as its
value, if there is one. -/
abbrev WordReading (κ : Type) := List (κ × String) × Option (OptionSpec κ)

/-- Reads the letters behind a single dash. -/
def readLetters : List Char → Except UsageFault (WordReading κ)
  | [] => .ok ([], none)
  | c :: rest =>
    match specs.find? fun o => o.short = some c with
    | none => .error (.unknownOption (String.ofList ['-', c]))
    | some o =>
      if o.takesValue then
        if rest.isEmpty then .ok ([], some o) else .ok ([(o.key, String.ofList rest)], none)
      else (fun r => ((o.key, "") :: r.1, r.2)) <$> readLetters rest

/-- A word split at its first equals sign, if it has one. -/
def splitEquals (cs : List Char) : String × Option String :=
  let name := cs.takeWhile (· != '=')
  (String.ofList name, if name.length < cs.length then
    some (String.ofList (cs.drop (name.length + 1))) else none)

/-- Reads a word that names options. -/
def readOption (cs : List Char) : Except UsageFault (WordReading κ) :=
  let (name, value) := splitEquals cs
  match specs.find? fun o => o.long = name with
  | some o =>
    match o.takesValue, value with
    | true, some v => .ok ([(o.key, v)], none)
    | true, none => .ok ([], some o)
    | false, none => .ok ([(o.key, "")], none)
    | false, some _ => .error (.unexpectedValue name)
  | none =>
    match cs with
    | '-' :: '-' :: _ => .error (.unknownOption name)
    | _ => readLetters specs (cs.drop 1)

/-- Whether a word names options. -/
def namesOptions (w : String) : Bool :=
  match w.toList with
  | '-' :: _ :: _ => true
  | _ => false

/-- Reads words. Where the options must come first, the first other word ends them. -/
def read (optionsFirst : Bool) : List String → Except UsageFault (Said κ)
  | [] => .ok {}
  | w :: rest =>
    if w = "--" then .ok { words := rest }
    else if namesOptions w then
      match readOption specs w.toList with
      | .error f => .error f
      | .ok (os, none) => Said.withOptions os <$> read optionsFirst rest
      | .ok (os, some o) =>
        match rest with
        | [] => .error (.missingValue o.long)
        | v :: rest => Said.withOptions (os ++ [(o.key, v)]) <$> read optionsFirst rest
    else if optionsFirst then .ok { words := w :: rest }
    else Said.withWord w <$> read optionsFirst rest

/-- Words without a dash in front stand for themselves. -/
theorem read_plain {ws : List String} (h : ∀ w ∈ ws, namesOptions w = false) (optionsFirst : Bool) :
    read specs optionsFirst ws = .ok { words := ws } := by
  induction ws with
  | nil => rfl
  | cons w rest ih =>
    have hw : namesOptions w = false := h w (by simp)
    have hd : w ≠ "--" := by
      rintro rfl
      revert hw
      decide
    unfold read
    rw [if_neg hd, hw]
    cases optionsFirst with
    | true => rfl
    | false =>
      rw [ih fun w hm => h w (by simp [hm])]
      rfl

/-- Behind two dashes alone all words stand for themselves. -/
theorem read_dashes (optionsFirst : Bool) (ws : List String) :
    read specs optionsFirst ("--" :: ws) = .ok { words := ws } := by
  unfold read
  rfl

end Reading
end Codemod.CommandLine
