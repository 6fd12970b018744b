import PropertyTable.CommandLine.Scan

/-!
# The command line

A parser of arguments for the program: what it takes arguments for is a request, and what it says of
a refusal is a text about the program or the fault that was found.
-/

namespace PropertyTable.CommandLine

open Program (Parser Stop)

/-- What is said of a refusal. -/
def Refusal.stop : Refusal → Stop
  | usage fault => ⟨.usage, fault.firstLine, true⟩
  | shortHelp => ⟨.help, helpText CommandLine.shortHelp, false⟩
  | longHelp => ⟨.help, helpText CommandLine.longHelp, false⟩
  | version => ⟨.version, versionText, false⟩

/-- Parses arguments. -/
def parse : Parser := fun arguments ↦ (takeAll arguments).mapError Refusal.stop

/-- The program with this parser. -/
def execute {m : Type → Type} [Monad m] (disk : Disk m) (arguments : List String) :
    m Program.Answer :=
  Program.execute parse disk arguments

end PropertyTable.CommandLine
