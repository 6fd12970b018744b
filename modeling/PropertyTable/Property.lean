import PropertyTable.Language
import PropertyTable.Text.Blank

/-!
# Properties

The Unicode properties for which tables are made, and the names derived from them.
-/

namespace PropertyTable

/-- A property of code points: they may begin an identifier, or they may continue one. -/
inductive Property where
  | xidStart
  | xidContinue
deriving DecidableEq, Repr

namespace Property

/-- The properties in their usual order. -/
def all : List Property := [xidStart, xidContinue]

/-- The name of a property. -/
def name : Property → String
  | xidStart => "XID_START"
  | xidContinue => "XID_CONTINUE"

/-- The property that a text names, white space aside. -/
def ofText? (text : String) : Option Property :=
  all.find? fun p ↦ p.name.toList == Text.dropBlanks text.toList

/-- The file that lists the code points of a property. -/
def listingFile (p : Property) : String := p.name ++ ".txt"

/-- The file that holds the table of a property. -/
def tableFile (p : Property) (language : Language) : String := p.name ++ "." ++ language.extension

/-- The constant that holds the table's last code point. -/
def boundName (p : Property) : String := "MAX_" ++ p.name

/-- The array that holds the table. -/
def tableName (p : Property) : String := p.name ++ "_TABLE"

/-- The name of a property names it. -/
theorem ofText?_name (p : Property) : ofText? p.name = some p := by
  cases p <;> decide +kernel

end Property

end PropertyTable
