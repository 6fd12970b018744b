import PropertyTable.Disk
import PropertyTable.Listing
import PropertyTable.TableSource

/-!
# Builds

A build reads the listing of a property and writes its table.  The two directories that it is given
are paths, and paths are texts: a directory whose name is not UTF-8 is none that a build can name.
-/

namespace PropertyTable

/-- What to build, and where. -/
structure Build where
  /-- The property. -/
  property : Property
  /-- The language of the table. -/
  language : Language := .c
  /-- The directory of the listing. -/
  inputDir : String := "."
  /-- The directory of the table. -/
  outputDir : String := "."
deriving DecidableEq

/-- What a listing gives, before anything is written. -/
structure Product where
  /-- The code points of the listing. -/
  set : CodeSet
  /-- The table. -/
  bitmap : Bitmap
  /-- The table as source text. -/
  contents : String

namespace Build

/-- The path of a file in a directory. -/
def pathIn (dir name : String) : String :=
  if dir.isEmpty || dir.toList.getLast? == some '/' then dir ++ name else dir ++ "/" ++ name

/-- The path of the listing. -/
def inputPath (b : Build) : String := pathIn b.inputDir b.property.listingFile

/-- The path of the table. -/
def outputPath (b : Build) : String := pathIn b.outputDir (b.property.tableFile b.language)

/-- Makes the table of a listing. -/
def render (b : Build) (text : String) : Logged Product := do
  let set ← Listing.read text
  let bitmap ← Bitmap.pack set
  return ⟨set, bitmap, TableSource.render b.property b.language bitmap⟩

/-- The report on a table. -/
def report (b : Build) (p : Product) : Report where
  property := b.property
  members := p.set.size
  groups := p.bitmap.groups.size
  nonzeroGroups := p.bitmap.nonzeroGroups
  first := p.set.first?
  last := p.set.last?
  output := b.outputPath

/-- Makes the table of what was read, a fault of reading included. -/
def prepare (b : Build) (input : Except FileFault String) : Logged Product := do
  .note (.reading b.inputPath)
  match input with
  | .ok text => b.render text
  | .error fault => .fail (.inaccessible b.inputPath fault)

/-- Runs a build.  Nothing is written unless the table could be made. -/
def run {m : Type → Type} [Monad m] (b : Build) (disk : Disk m) : m (Logged Report) := do
  let input ← disk.readText b.inputPath
  (b.prepare input).andThen fun p ↦ do
    let saved ← disk.replace b.outputPath p.contents
    return do
      saved
      .note (.reported (b.report p))
      return b.report p

end Build

end PropertyTable
