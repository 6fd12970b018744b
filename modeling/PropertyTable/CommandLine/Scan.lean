import PropertyTable.CommandLine.Usage
import PropertyTable.Program

/-!
# Taking arguments

The arguments are taken from left to right, and the first that cannot be taken decides.  The value
of a setting, and the word that names the property, are checked only when the next known argument
begins, or at the end.
-/

namespace PropertyTable.CommandLine

open Program (Request)

/-- Why arguments are not taken for a build. -/
inductive Refusal where
  | usage (fault : UsageFault)
  | shortHelp
  | longHelp
  | version
deriving DecidableEq

/-- An argument that is taken but not checked. -/
inductive Pending where
  /-- A setting, with its value unless the next word is to give it. -/
  | setting (s : Setting) (value : Option String)
  /-- The word that names the property. -/
  | property (text : String)
deriving DecidableEq

/-- What the arguments so far have said. -/
structure Scan where
  /-- The property, once its name is checked. -/
  property : Option Property := none
  /-- The language, if one was set. -/
  language : Option Language := none
  /-- The directory of the listing, if one was set. -/
  inputDir : Option String := none
  /-- The directory of the table, if one was set. -/
  outputDir : Option String := none
  /-- The number of verbose switches. -/
  verbose : Nat := 0
  /-- Whether the quiet switch was given. -/
  quiet : Bool := false
  /-- The argument that is still to be checked. -/
  pending : Option Pending := none
  /-- Whether a word was taken to name the property. -/
  named : Bool := false
  /-- Whether a divider was seen. -/
  divided : Bool := false

namespace Scan

/-- Checks and keeps the value of a setting. -/
def assign (s : Scan) (setting : Setting) (value : String) : Except UsageFault Scan :=
  match setting with
  | .format =>
    if s.language.isSome then .error (.repeatedSetting setting)
    else if value.isEmpty then .error (.valueRequired setting)
    else match Language.ofKeyword? value with
      | some language => .ok { s with language := some language }
      | none => .error (.invalidLanguage value)
  | .inputDir =>
    if s.inputDir.isSome then .error (.repeatedSetting setting)
    else if value.isEmpty then .error (.valueRequired setting)
    else .ok { s with inputDir := some value }
  | .outputDir =>
    if s.outputDir.isSome then .error (.repeatedSetting setting)
    else if value.isEmpty then .error (.valueRequired setting)
    else .ok { s with outputDir := some value }

/-- Checks the argument that is still to be checked. -/
def settle (s : Scan) : Except UsageFault Scan :=
  match s.pending with
  | none => .ok s
  | some (.setting setting none) => .error (.valueRequired setting)
  | some (.setting setting (some value)) => assign { s with pending := none } setting value
  | some (.property text) =>
    match Property.ofText? text with
    | some property => .ok { s with pending := none, property := some property }
    | none => .error (.invalidProperty text)

/-- Settles, and a fault stops. -/
def settled (s : Scan) : Except Refusal Scan := s.settle.mapError .usage

/-- Takes a word to name the property. -/
def takeProperty (s : Scan) (text : String) : Except Refusal Scan := do
  if s.named then throw (.usage (.unexpectedArgument text))
  let s ← s.settled
  return { s with named := true, pending := some (.property text) }

/-- Takes a plain word: the value that a setting waits for, or else the property. -/
def takePlain (s : Scan) (text : String) : Except Refusal Scan :=
  match s.pending with
  | some (.setting setting none) => .ok { s with pending := some (.setting setting (some text)) }
  | _ => s.takeProperty text

/-- The most that is counted of the verbose switch. -/
def verboseLimit : Nat := 255

/-- Takes a switch; `help` is what a request for help gets. -/
def takeSwitch (help : Refusal) (s : Scan) (switch : Switch) : Except Refusal Scan := do
  let s ← s.settled
  match switch with
  | .verbose => return { s with verbose := min verboseLimit (s.verbose + 1) }
  | .quiet =>
    if s.quiet then throw (.usage (.repeatedSwitch .quiet)) else return { s with quiet := true }
  | .help => throw help
  | .version => throw .version

/-- Takes a switch by its letter. -/
def takeLetter (s : Scan) (letter : Char) : Except Refusal Scan :=
  match Switch.all.find? (·.letter == letter) with
  | some switch => s.takeSwitch .shortHelp switch
  | none => .error (.usage (.unexpectedArgument (String.ofList ['-', letter])))

/-- Takes an argument. -/
def take (s : Scan) (text : String) : Except Refusal Scan :=
  if s.divided then s.takeProperty text
  else match Word.ofText text with
    | .divider => .ok { s with divided := true }
    | .setting setting none => do
      let s ← s.settled
      return { s with pending := some (.setting setting none) }
    | .setting setting (some value) => do
      let s ← s.settled
      (s.assign setting value).mapError .usage
    | .switch switch none => s.takeSwitch .longHelp switch
    | .switch switch (some value) => .error (.usage (.unexpectedValue value switch))
    | .cluster letters => letters.foldlM takeLetter s
    | .unknown name => .error (.usage (.unexpectedArgument ("--" ++ name)))
    | .plain text => s.takePlain text

/-- What all arguments together ask for. -/
def finish (s : Scan) : Except Refusal Request := do
  let s ← s.settled
  match s.property with
  | none => throw (.usage .missingProperty)
  | some property =>
    return {
      build := {
        property
        language := s.language.getD .c
        inputDir := s.inputDir.getD "."
        outputDir := s.outputDir.getD "." }
      verbose := .ofNat s.verbose
      quiet := s.quiet }

end Scan

/-- Takes all arguments. -/
def takeAll (arguments : List String) : Except Refusal Request := do
  let s ← arguments.foldlM Scan.take {}
  s.finish

end PropertyTable.CommandLine
