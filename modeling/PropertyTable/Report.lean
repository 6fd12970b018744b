import PropertyTable.CodePoint
import PropertyTable.Property

/-!
# Reports

What a finished build tells about the table that it wrote.
-/

namespace PropertyTable

/-- The summary of a table and where it was written. -/
structure Report where
  /-- The property. -/
  property : Property
  /-- The number of code points with the property. -/
  members : Nat
  /-- The number of groups in the table. -/
  groups : Nat
  /-- The number of groups with a bit set. -/
  nonzeroGroups : Nat
  /-- The least code point with the property. -/
  first : Option CodePoint
  /-- The greatest code point with the property. -/
  last : Option CodePoint
  /-- The path of the written file. -/
  output : String
deriving DecidableEq

namespace Report

/-- A code point in the usual form, or a dash for none. -/
def codeText : Option CodePoint → String
  | some code => "U+" ++ code.toHex
  | none => "-"

/-- The report as one line. -/
def text (r : Report) : String :=
  "lookup table written to " ++ r.output
    ++ " classification=\"" ++ r.property.name ++ "\""
    ++ " members=" ++ toString r.members
    ++ " groups=" ++ toString r.groups
    ++ " nonzero_groups=" ++ toString r.nonzeroGroups
    ++ " first=" ++ codeText r.first
    ++ " last=" ++ codeText r.last

end Report

end PropertyTable
