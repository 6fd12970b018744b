import PropertyTable.Bitmap
import PropertyTable.Property
import PropertyTable.Text.Binary

/-!
# Tables as source text

A table is written as a constant for its last code point and an array of its groups, in one of two
languages.
-/

namespace PropertyTable.TableSource

/-- The number of groups in a line. -/
def groupsPerLine : Nat := 8

/-- The last code point of the domain as it stands in the text. -/
def boundText : String := "0x" ++ CodePoint.last.toHex

/-- The lines before the groups. -/
def opening (property : Property) (groups : Nat) : Language → String
  | .c =>
    "#define " ++ property.boundName ++ " (" ++ boundText ++ ")\n\n// clang-format off\n"
      ++ "static const unsigned char " ++ property.tableName ++ "[] = \x7b // " ++ toString groups
      ++ "\n"
  | .rust =>
    "pub const " ++ property.boundName ++ ": u32 = " ++ boundText ++ ";\n\n#[rustfmt::skip]\n"
      ++ "pub static " ++ property.tableName ++ ": [u8; " ++ toString groups ++ "] = [ // "
      ++ toString groups ++ "\n"

/-- The lines after the groups. -/
def closing : Language → String
  | .c => "\n\x7d;\n// clang-format on\n"
  | .rust => "\n];\n"

/-- The groups as literals. -/
def body (b : Bitmap) : String := String.ofList (Text.Binary.layout groupsPerLine b.groups.toList)

/-- The text of a table. -/
def render (property : Property) (language : Language) (b : Bitmap) : String :=
  opening property b.groups.size language ++ body b ++ closing language

end PropertyTable.TableSource
