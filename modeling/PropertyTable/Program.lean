import PropertyTable.Build

/-!
# The program

The program is given arguments and files.  What the arguments ask for is said by a parser of
arguments, which is no part of the program: the program runs the build that it finds in them, or
passes on what the parser has to say instead.  Only a build touches files.
-/

namespace PropertyTable.Program

/-- What a list of arguments asks for. -/
structure Request where
  /-- The build to run. -/
  build : Build
  /-- How often more events were asked for. -/
  verbose : UInt8
  /-- Whether fewer events were asked for. -/
  quiet : Bool
deriving DecidableEq

/-- Why a list of arguments asks for no build. -/
inductive StopKind where
  /-- It asks for a description of the program. -/
  | help
  /-- It asks for the name and number of the program. -/
  | version
  /-- It does not fit the program. -/
  | usage
deriving DecidableEq

/-- What a parser has to say of a list of arguments that asks for no build. -/
structure Stop where
  /-- Why there is no build. -/
  kind : StopKind
  /-- What is said. -/
  text : String
  /-- Whether it is said on the standard error. -/
  usesErrorStream : Bool
deriving DecidableEq

/-- Finds in a list of arguments what it asks for. -/
abbrev Parser := List String → Except Stop Request

/-- What the program leaves behind when it ends. -/
structure Answer where
  /-- The exit status. -/
  status : Nat
  /-- The text for the standard output. -/
  output : String
  /-- The lines for the standard error. -/
  messages : List String
deriving DecidableEq

/-- The exit status after a failure, be it of the arguments or of the build. -/
def failureStatus : Nat := 1

/-- The answer without a build. -/
def Stop.answer (stop : Stop) : Answer :=
  if stop.usesErrorStream then ⟨failureStatus, "", [stop.text]⟩ else ⟨0, stop.text, []⟩

namespace Request

/-- The events that are shown. -/
def level (r : Request) : Level := .ofFlags r.verbose.toNat r.quiet

/-- The answer after a build: what it said, and last why it failed. -/
def answer (r : Request) (done : Logged Report) : Answer :=
  let told := Journal.lines r.level (some r.build.property) done.events
  match done.outcome with
  | .ok _ => ⟨0, "", told⟩
  | .error failure => ⟨failureStatus, "", told ++ Journal.tell .error failure.text⟩

end Request

/-- Does what the arguments ask for. -/
def execute {m : Type → Type} [Monad m] (parse : Parser) (disk : Disk m) (arguments : List String) :
    m Answer :=
  match parse arguments with
  | .error stop => pure stop.answer
  | .ok request => request.answer <$> request.build.run disk

end PropertyTable.Program
