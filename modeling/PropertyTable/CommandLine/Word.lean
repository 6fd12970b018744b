import PropertyTable.Property

/-!
# Words of a command line

What a single argument can be: a setting, which has a value, a switch, which has none, a cluster of
switches by their letters, or a plain word.
-/

namespace PropertyTable.CommandLine

/-- An option with a value. -/
inductive Setting where
  | format
  | inputDir
  | outputDir
deriving DecidableEq, Repr

namespace Setting

/-- All settings. -/
def all : List Setting := [format, inputDir, outputDir]

/-- The name of a setting. -/
def name : Setting → String
  | format => "format"
  | inputDir => "input-dir"
  | outputDir => "output-dir"

/-- A setting as messages show it. -/
def usage : Setting → String
  | format => "--format <FORMAT>"
  | inputDir => "--input-dir <INPUT_DIR>"
  | outputDir => "--output-dir <OUTPUT_DIR>"

end Setting

/-- An option without a value. -/
inductive Switch where
  | verbose
  | quiet
  | help
  | version
deriving DecidableEq, Repr

namespace Switch

/-- All switches. -/
def all : List Switch := [verbose, quiet, help, version]

/-- The name of a switch. -/
def name : Switch → String
  | verbose => "verbose"
  | quiet => "quiet"
  | help => "help"
  | version => "version"

/-- The letter of a switch. -/
def letter : Switch → Char
  | verbose => 'v'
  | quiet => 'q'
  | help => 'h'
  | version => 'V'

/-- A switch as messages show it. -/
def usage : Switch → String
  | verbose => "--verbose..."
  | quiet => "--quiet"
  | help => "--help"
  | version => "--version"

end Switch

/-- One argument by its form. -/
inductive Word where
  /-- Two dashes: all that follow are plain. -/
  | divider
  /-- A setting by its name, with the value that an equals sign attaches. -/
  | setting (s : Setting) (value : Option String)
  /-- A switch by its name, with the value that an equals sign attaches. -/
  | switch (s : Switch) (value : Option String)
  /-- Letters after one dash. -/
  | cluster (letters : List Char)
  /-- A name after two dashes that nothing has. -/
  | unknown (name : String)
  /-- Anything else. -/
  | plain (text : String)
deriving DecidableEq

namespace Word

/-- Reads what follows two dashes. -/
def ofName (rest : List Char) : Word :=
  let name := String.ofList (rest.takeWhile (· ≠ '='))
  let value := match rest.dropWhile (· ≠ '=') with
    | [] => none
    | _ :: value => some (String.ofList value)
  match Setting.all.find? (·.name == name) with
  | some s => setting s value
  | none => match Switch.all.find? (·.name == name) with
    | some s => switch s value
    | none => unknown name

/-- Reads an argument. -/
def ofText (text : String) : Word :=
  match text.toList with
  | ['-', '-'] => divider
  | '-' :: '-' :: rest => ofName rest
  | '-' :: letter :: letters => cluster (letter :: letters)
  | _ => plain text

end Word

end PropertyTable.CommandLine
