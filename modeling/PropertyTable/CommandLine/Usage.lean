import PropertyTable.CommandLine.Word
import PropertyTable.Failure
import PropertyTable.Text.Lines
import PropertyTable.Text.Terminal

/-!
# Usage

The texts that describe the command line, and what is said of arguments that do not fit it.
-/

namespace PropertyTable.CommandLine

open Text.Terminal

/-- What is wrong with a list of arguments. -/
inductive UsageFault where
  /-- No property is named. -/
  | missingProperty
  /-- A word names no property. -/
  | invalidProperty (text : String)
  /-- A word names no language. -/
  | invalidLanguage (text : String)
  /-- A setting has no value, or an empty one. -/
  | valueRequired (setting : Setting)
  /-- An argument that nothing takes. -/
  | unexpectedArgument (text : String)
  /-- A switch has a value. -/
  | unexpectedValue (value : String) (switch : Switch)
  /-- A setting is given twice. -/
  | repeatedSetting (setting : Setting)
  /-- A switch is given twice. -/
  | repeatedSwitch (switch : Switch)
deriving DecidableEq

namespace UsageFault

/-- A part of a message that is emphasised, in quotes. -/
def quoted (text : String) : String := "'" ++ emphasised text ++ "'"

/-- The words of a fault. -/
def message : UsageFault → String
  | missingProperty => "the following required arguments were not provided:\n"
  | invalidProperty text =>
    "invalid value " ++ quoted text ++ " for " ++ quoted "<CLASSIFICATION>" ++ ": "
      ++ (Failure.unknownProperty text).message
  | invalidLanguage text =>
    "invalid value " ++ quoted text ++ " for " ++ quoted Setting.format.usage
  | valueRequired setting =>
    "a value is required for " ++ quoted setting.usage ++ " but none was supplied"
  | unexpectedArgument text => "unexpected argument " ++ quoted text ++ " found"
  | unexpectedValue value switch =>
    "unexpected value " ++ quoted value ++ " for " ++ quoted switch.usage
      ++ " found; no more were expected"
  | repeatedSetting setting =>
    "the argument " ++ quoted setting.usage ++ " cannot be used multiple times"
  | repeatedSwitch switch =>
    "the argument " ++ quoted switch.usage ++ " cannot be used multiple times"

/-- All that is said of a fault, for a terminal. -/
def text (fault : UsageFault) : String :=
  emphasised "error:" ++ " " ++ fault.message
    ++ "\n\nFor more information, try " ++ quoted "--help" ++ ".\n"

/-- The first line of what is said, without emphasis.  A sequence that an argument begins and does
not end hides what follows it, up to where the sequence ends. -/
def firstLine (fault : UsageFault) : String :=
  String.ofList ((Text.lines (plain fault.text)).head?.getD [])

end UsageFault

/-- The name and number of the program. -/
def versionText : String := "xid-tables 0.1.0\n"

/-- The lines that both descriptions begin with. -/
def heading : List String :=
  ["генератор упакованных таблиц XID_START / XID_CONTINUE",
    "",
    "Usage: xid-tables [OPTIONS] <CLASSIFICATION>",
    "",
    "Arguments:"]

/-- The short description. -/
def shortHelp : List String :=
  heading ++
  ["  <CLASSIFICATION>  XID_START или XID_CONTINUE",
    "",
    "Options:",
    "      --format <FORMAT>          язык сгенерированного файла "
      ++ "[default: c] [possible values: c, rust]",
    "      --input-dir <INPUT_DIR>    каталог со списками диапазонов <NAME>.txt [default: .]",
    "      --output-dir <OUTPUT_DIR>  каталог для сгенерированных файлов [default: .]",
    "  -v, --verbose...               подробнее (-v, -vv)",
    "  -q, --quiet                    только предупреждения и ошибки",
    "  -h, --help                     Print help (see more with '--help')",
    "  -V, --version                  Print version"]

/-- The long description. -/
def longHelp : List String :=
  heading ++
  ["  <CLASSIFICATION>",
    "          XID_START или XID_CONTINUE",
    "",
    "Options:",
    "      --format <FORMAT>",
    "          язык сгенерированного файла",
    "",
    "          Possible values:",
    "          - c:    #define + static const unsigned char[]",
    "          - rust: pub const + pub static [u8; N]",
    "          ",
    "          [default: c]",
    "",
    "      --input-dir <INPUT_DIR>",
    "          каталог со списками диапазонов <NAME>.txt",
    "          ",
    "          [default: .]",
    "",
    "      --output-dir <OUTPUT_DIR>",
    "          каталог для сгенерированных файлов",
    "          ",
    "          [default: .]",
    "",
    "  -v, --verbose...",
    "          подробнее (-v, -vv)",
    "",
    "  -q, --quiet",
    "          только предупреждения и ошибки",
    "",
    "  -h, --help",
    "          Print help (see a summary with '-h')",
    "",
    "  -V, --version",
    "          Print version"]

/-- A description as one text. -/
def helpText (lines : List String) : String := String.join (lines.map (· ++ "\n"))

end PropertyTable.CommandLine
