import PropertyTable.Disk
import PropertyTable.FileTree
import PropertyTable.FileTree.Route

/-!
# File operations on a tree

Paths are followed step by step, and the operations of a disk act on the entry that they
lead to.  A failed operation leaves the tree as it was.
-/

namespace PropertyTable.FileTree

/-- Takes one step from a directory.  A point stays, two points go up, and the root has nothing
above. -/
def step (t : FileTree) (dir : List String) (name : String) : Except FileFault (List String) :=
  if name = "." then .ok dir
  else if name = ".." then .ok dir.dropLast
  else if Route.nameLimit < name.utf8ByteSize then .error .nameTooLong
  else match t.node? (dir ++ [name]) with
    | some .directory => .ok (dir ++ [name])
    | some (.file _) => .error .notDirectory
    | none => .error .notFound

/-- The directory in which a route begins. -/
def start (t : FileTree) (route : Route) : List String := if route.fromRoot then [] else t.here

/-- The directory to which steps lead. -/
def walk (t : FileTree) (dir : List String) (steps : List String) :
    Except FileFault (List String) :=
  steps.foldlM t.step dir

/-- Where a path leads: a name in a directory, or no name if the last step stays or goes up. -/
structure Spot where
  /-- The directory that the steps before the last one lead to. -/
  dir : List String
  /-- The name that is the last step. -/
  name : Option String
  /-- Whether the path asks for a directory. -/
  slash : Bool
deriving DecidableEq

/-- Follows a path up to its last step. -/
def locate (t : FileTree) (path : String) : Except FileFault Spot := do
  let route ← Route.ofPath path
  let dir ← t.walk (t.start route) route.steps.dropLast
  return ⟨dir, route.steps.getLast?.filter fun name ↦ name ≠ "." ∧ name ≠ "..", route.slash⟩

/-- The entry of a name in a directory. -/
def find (t : FileTree) (dir : List String) (name : String) : Except FileFault (Option Node) :=
  if Route.nameLimit < name.utf8ByteSize then .error .nameTooLong else .ok (t.node? (dir ++ [name]))

/-- The contents of a file. -/
def read (t : FileTree) (path : String) : Except FileFault ByteArray := do
  let spot ← t.locate path
  match spot.name with
  | none => .error .isDirectory
  | some name =>
    match ← t.find spot.dir name with
    | none => .error .notFound
    | some .directory => .error .isDirectory
    | some (.file bytes) => if spot.slash then .error .notDirectory else .ok bytes

/-- The tree with a file made or overwritten. -/
def write (t : FileTree) (path : String) (bytes : ByteArray) : Except FileFault FileTree := do
  let spot ← t.locate path
  match spot.name, spot.slash with
  | none, _ | some _, true => .error .isDirectory
  | some name, false =>
    match ← t.find spot.dir name with
    | some .directory => .error .isDirectory
    | some (.file _) | none => .ok (t.setFile spot.dir name bytes)

/-- The tree with a file moved.  Directories are not moved. -/
def rename (t : FileTree) (source target : String) : Except FileFault FileTree := do
  let origin ← t.locate source
  let goal ← t.locate target
  match origin.name, goal.name with
  | some name, some newName =>
    match ← t.find origin.dir name with
    | none => .error .notFound
    | some .directory => .error .isDirectory
    | some (.file bytes) =>
      let old ← t.find goal.dir newName
      if origin.slash || goal.slash then .error .notDirectory
      else if old = some .directory then .error .isDirectory
      else .ok ((t.eraseFile (origin.dir ++ [name])).setFile goal.dir newName bytes)
  | _, _ => .error .busy

/-- The tree with a file removed. -/
def remove (t : FileTree) (path : String) : Except FileFault FileTree := do
  let spot ← t.locate path
  match spot.name with
  | none => .error .isDirectory
  | some name =>
    match ← t.find spot.dir name with
    | none => .error .notFound
    | some .directory => .error .isDirectory
    | some (.file _) =>
      if spot.slash then .error .notDirectory else .ok (t.eraseFile (spot.dir ++ [name]))

/-- Takes one step from a directory, making the directory that it leads to if there is none. -/
def makeStep (here : FileTree × List String) (name : String) :
    Except FileFault (FileTree × List String) :=
  match here.1.step here.2 name with
  | .ok dir => .ok (here.1, dir)
  | .error .notFound => .ok (here.1.addDirectory here.2 name, here.2 ++ [name])
  | .error fault => .error fault

/-- The tree with a directory made, and those above it; the empty path asks for none. -/
def makeDirectories (t : FileTree) (path : String) : Except FileFault FileTree := do
  if path.isEmpty then return t
  let route ← Route.ofPath path
  return (← route.steps.foldlM makeStep (t, t.start route)).1

/-- Keeps the tree if there is no new one. -/
def update (change : FileTree → Except FileFault FileTree) :
    StateM FileTree (Except FileFault Unit) :=
  fun t ↦ match change t with
    | .ok t' => (.ok (), t')
    | .error fault => (.error fault, t)

/-- The tree as a disk. -/
def disk : Disk (StateM FileTree) where
  read path := fun t ↦ (t.read path, t)
  write path bytes := update (·.write path bytes)
  rename source target := update (·.rename source target)
  remove path := update (·.remove path)

end PropertyTable.FileTree
