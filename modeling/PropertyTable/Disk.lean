import PropertyTable.Logged

/-!
# Files

The file operations that a build needs, over any monad that has them, and the replacement of a file
in one step.  A path is a text, so that files whose names are not UTF-8 are out of reach.
-/

namespace PropertyTable

/-- File operations on paths. -/
structure Disk (m : Type → Type) where
  /-- The contents of a file. -/
  read : String → m (Except FileFault ByteArray)
  /-- Makes a file with the given contents, or overwrites one. -/
  write : String → ByteArray → m (Except FileFault Unit)
  /-- Moves a file, over another one if there is one. -/
  rename : String → String → m (Except FileFault Unit)
  /-- Removes a file. -/
  remove : String → m (Except FileFault Unit)

namespace Disk

variable {m : Type → Type} [Monad m]

/-- The text that bytes spell. -/
def decodeText (bytes : ByteArray) : Except FileFault String :=
  match String.fromUTF8? bytes with
  | some text => .ok text
  | none => .error .notText

/-- The contents of a text file. -/
def readText (disk : Disk m) (path : String) : m (Except FileFault String) :=
  (· >>= decodeText) <$> disk.read path

/-- The path under which a file is prepared. -/
def scratchPath (path : String) : String := path ++ ".tmp"

/-- Replaces a file: the contents are written next to it and then moved over it, so that it has its
old contents until it has the new ones. -/
def replace (disk : Disk m) (path contents : String) : m (Logged Unit) := do
  let scratch := scratchPath path
  match ← disk.write scratch contents.toUTF8 with
  | .error fault =>
    let _ ← disk.remove scratch
    return .fail (.inaccessible scratch fault)
  | .ok () =>
    match ← disk.rename scratch path with
    | .error fault =>
      let _ ← disk.remove scratch
      return .fail (.inaccessible path fault)
    | .ok () => return .note (.written path contents.utf8ByteSize)

end Disk

end PropertyTable
