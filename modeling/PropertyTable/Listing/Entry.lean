import PropertyTable.CodeRange
import PropertyTable.Failure
import PropertyTable.Text.Blank

/-!
# Entries

A line of a listing has an entry in its first field: a code point, or two code points with `..`
between them.  White space is allowed anywhere and means nothing.  A line may have no entry if it
has no fields.
-/

namespace PropertyTable.Listing

/-- What ends a field. -/
def fieldSeparator : Char := ';'

/-- What begins a comment. -/
def commentMarker : Char := '#'

/-- What stands between the bounds of a range. -/
def rangeMarker : String := ".."

/-- Whether a character ends the first field. -/
def endsField (c : Char) : Bool := c == fieldSeparator || c == commentMarker

/-- The first field of a line, without white space. -/
def field (line : List Char) : List Char := Text.dropBlanks (line.takeWhile fun c ↦ !endsField c)

/-- Whether the first field of a line ends at a field separator. -/
def hasSeparator (line : List Char) : Bool := line.find? endsField == some fieldSeparator

/-- The parts before and after the first range marker. -/
def splitRange? : List Char → Option (List Char × List Char)
  | [] => none
  | '.' :: '.' :: rest => some ([], rest)
  | c :: rest => (splitRange? rest).map fun (low, high) ↦ (c :: low, high)

/-- Reads a code point of the domain. -/
def readCode (text : List Char) : Except EntryFault CodePoint :=
  match Text.Hex.read? text with
  | none => .error (.notHex (String.ofList text))
  | some n =>
    if n ≤ CodePoint.last.toNat then .ok (UInt32.ofNat n)
    else .error (.outOfDomain (String.ofList text))

/-- Reads a range from the texts of its bounds, the lower one first. -/
def readBounds (low high : List Char) : Except EntryFault CodeRange := do
  let low ← readCode low
  let high ← readCode high
  if high < low then .error (.inverted low high) else .ok (.range low high)

/-- Reads the entry of a line, if it has one. -/
def readEntry (line : List Char) : Except EntryFault (Option CodeRange) :=
  match field line with
  | [] => if hasSeparator line then .error .empty else .ok none
  | text => match splitRange? text with
    | some (low, high) => some <$> readBounds low high
    | none => some <$> CodeRange.point <$> readCode text

/-- Writes a line with an entry and a label in the second field. -/
def writeEntry (label : String) : CodeRange → String
  | .point code => code.toHex ++ "          ; " ++ label ++ "\n"
  | .range low high => low.toHex ++ rangeMarker ++ high.toHex ++ "    ; " ++ label ++ "\n"

end PropertyTable.Listing
