import PropertyTable.Failure
import PropertyTable.Text.Lines

/-!
# Routes

A path is read as the steps that it takes from the working directory, or from the root if it begins
with a slash.  Slashes divide the steps; a slash at the end asks for a directory.
-/

namespace PropertyTable.FileTree

/-- The steps of a path. -/
structure Route where
  /-- Whether the steps are taken from the root. -/
  fromRoot : Bool
  /-- The names between the slashes, in order. -/
  steps : List String
  /-- Whether a slash ends the path. -/
  slash : Bool
deriving DecidableEq

namespace Route

/-- The bytes that a path may have, less one. -/
def pathLimit : Nat := 4096

/-- The bytes that a name may have. -/
def nameLimit : Nat := 255

/-- The names between slashes. -/
def names (cs : List Char) : List String :=
  let parts := cs.foldr (fun c parts ↦ if c = '/' then [] :: parts else Text.joinFirst c parts) []
  (parts.filter (· ≠ [])).map String.ofList

/-- Reads a path. -/
def ofPath (path : String) : Except FileFault Route :=
  let cs := path.toList
  if '\x00' ∈ cs then .error .nulInName
  else if cs = [] then .error .notFound
  else if pathLimit ≤ path.utf8ByteSize then .error .nameTooLong
  else .ok ⟨cs.head? = some '/', names cs, cs.getLast? = some '/'⟩

end Route

end PropertyTable.FileTree
