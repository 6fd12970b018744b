import PropertyTable.CodeSet.Runs
import PropertyTable.Listing.Entry
import PropertyTable.Logged
import PropertyTable.Text.Lines

/-!
# Listings

A listing names the members of a set, an entry a line.  Reading one tells the journal about every
line and stops at the first line that has no meaning; writing one gives a line to each run of the
set.
-/

namespace PropertyTable.Listing

/-- What the lines so far have given. -/
structure Progress where
  /-- The code points that they name. -/
  set : CodeSet
  /-- The sum of the sizes of their ranges. -/
  total : Nat

/-- No line was read. -/
def Progress.start : Progress := ⟨.empty, 0⟩

/-- Reads one line, by its number. -/
def readLine (p : Progress) (number : Nat) (line : List Char) : Logged Progress :=
  match readEntry line with
  | .error fault => .fail (.malformed number fault)
  | .ok none => do
    .note (.skipped number)
    return p
  | .ok (some range) => do
    .note (.indexed number range (p.total + range.size))
    return ⟨p.set.insertRange range, p.total + range.size⟩

/-- Reads lines in order, the first of which has the given number. -/
def readLines (p : Progress) (number : Nat) : List (List Char) → Logged Progress
  | [] => return p
  | line :: rest => do
    let p ← readLine p number line
    readLines p (number + 1) rest

/-- The lines of a listing, a byte order mark at its beginning aside. -/
def linesOf (text : String) : List (List Char) := Text.lines (Text.dropMark text.toList)

/-- Reads a listing. -/
def read (text : String) : Logged CodeSet := do
  let p ← readLines .start 1 (linesOf text)
  .note (.listingRead p.total)
  .note (.membersCounted p.set.size)
  return p.set

/-- Writes a listing with a label on every line. -/
def write (label : String) (s : CodeSet) : String := String.join (s.runs.map (writeEntry label))

end PropertyTable.Listing
