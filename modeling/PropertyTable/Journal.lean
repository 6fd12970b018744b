import PropertyTable.CodeRange
import PropertyTable.Report
import PropertyTable.Text.Escape
import PropertyTable.Text.Lines

/-!
# Journal

What the program says about its work: events, each of one level of importance, and the lines in
which they are shown.  Characters on which a terminal would act are spelled out.
-/

namespace PropertyTable

/-- How important an event is. -/
inductive Level where
  | error
  | warn
  | info
  | debug
  | trace
deriving DecidableEq, Repr

namespace Level

/-- The rank of a level: the more important, the lower. -/
def rank : Level → Nat
  | error => 0
  | warn => 1
  | info => 2
  | debug => 3
  | trace => 4

/-- The name of a level. -/
def name : Level → String
  | error => "ERROR"
  | warn => "WARN"
  | info => "INFO"
  | debug => "DEBUG"
  | trace => "TRACE"

/-- The name of a level, right-aligned in five columns. -/
def label (l : Level) : String := "".pushn ' ' (5 - l.name.length) ++ l.name

/-- The level that shows what was asked for: `quiet` wins over any number of `verbose`. -/
def ofFlags (verbose : Nat) (quiet : Bool) : Level :=
  if quiet then warn else match verbose with
    | 0 => info
    | 1 => debug
    | _ => trace

end Level

/-- Something that the program did. -/
inductive Event where
  /-- A line of a listing without an entry. -/
  | skipped (line : Nat)
  /-- A line of a listing with its range and the running total of range sizes. -/
  | indexed (line : Nat) (range : CodeRange) (total : Nat)
  /-- The end of a listing, with the total of range sizes. -/
  | listingRead (total : Nat)
  /-- The number of distinct code points of a listing. -/
  | membersCounted (members : Nat)
  /-- A table was packed. -/
  | packed (groups : Nat)
  /-- A file was written. -/
  | written (path : String) (bytes : Nat)
  /-- A file is about to be read. -/
  | reading (path : String)
  /-- A build is done. -/
  | reported (report : Report)
deriving DecidableEq

namespace Event

/-- The level of an event. -/
def level : Event → Level
  | skipped _ | listingRead _ | packed _ | written _ _ => .debug
  | indexed _ _ _ => .trace
  | membersCounted _ | reading _ | reported _ => .info

/-- The words of an event. -/
def text : Event → String
  | skipped line => "skipping blank or comment line line=" ++ toString line
  | indexed line range total =>
    "indexing code points line=" ++ toString line ++ " token=" ++ range.text
      ++ " indexed=" ++ toString total
  | listingRead total => "indexing complete indexed=" ++ toString total
  | membersCounted members => "code points indexed members=" ++ toString members
  | packed groups => "lookup table packed groups=" ++ toString groups
  | written path bytes => path ++ " written bytes=" ++ toString bytes
  | reading path => "reading " ++ path
  | reported report => report.text

end Event

namespace Journal

/-- The lines that tell a text: one, unless the text has newlines of its own. -/
def tell (level : Level) (text : String) : List String :=
  let told := level.label.toList ++ [' '] ++ Text.escape text.toList ++ ['\n']
  (Text.lines told).map String.ofList

/-- What stands before an event of a build. -/
def scopeText : Option Property → String
  | none => ""
  | some property => "run\x7bclassification=" ++ property.name ++ "\x7d: "

/-- The lines of the events that a level shows; those of a build name its property. -/
def lines (shown : Level) (scope : Option Property) (events : List Event) : List String :=
  (events.filter fun e ↦ e.level.rank ≤ shown.rank).flatMap fun e ↦
    tell e.level (scopeText scope ++ e.text)

end Journal

end PropertyTable
