import Std.Data.ExtTreeMap

/-!
# Trees of files

A tree of files and directories, without links and permissions, and the directory in it from which
paths are followed.  An entry is known by the names that lead to it from the root, and whatever lies
in a directory that is not in the tree is not in it either.

Names and paths are texts.  A file system also takes names that no text spells, whose bytes are not
UTF-8; a tree has no such names, and no path leads to one.
-/

namespace PropertyTable

/-- A file with its contents, or a directory. -/
inductive Node where
  | file (bytes : ByteArray)
  | directory

instance : DecidableEq Node
  | .file as, .file bs => decidable_of_decidable_of_iff (p := as.data = bs.data) <| by
    rw [Node.file.injEq, ByteArray.ext_iff]
  | .file _, .directory => .isFalse nofun
  | .directory, .file _ => .isFalse nofun
  | .directory, .directory => .isTrue rfl

/-- Files and directories by the names that lead to them; the root is led to by none. -/
structure FileTree where
  /-- The entries. -/
  entries : Std.ExtTreeMap (List String) Node
  /-- The names that lead to the working directory. -/
  here : List String
  /-- The root is a directory. -/
  root : entries[([] : List String)]? = some .directory
  /-- The working directory is one. -/
  working : entries[here]? = some .directory
  /-- Every other entry lies in a directory. -/
  nested : ∀ dir name, dir ++ [name] ∈ entries → entries[dir]? = some .directory

namespace FileTree

/-- An empty working directory in a root that holds nothing else.  It has the empty name, which is
no step of any path, so that from outside no path leads to it. -/
def fresh : FileTree where
  entries := ((∅ : Std.ExtTreeMap (List String) Node).insert [] .directory).insert [""] .directory
  here := [""]
  root := by
    rw [Std.ExtTreeMap.getElem?_insert, if_neg (by decide)]
    simp
  working := by simp
  nested dir name h := by
    simp only [Std.ExtTreeMap.mem_insert, Std.LawfulEqCmp.compare_eq_iff_eq] at h
    rcases h with h | h | h
    · obtain rfl : [] = dir := (List.append_inj' h rfl : [] = dir ∧ _).1
      rw [Std.ExtTreeMap.getElem?_insert, if_neg (by decide)]
      simp
    · simp at h
    · simp at h

instance : Inhabited FileTree := ⟨fresh⟩

/-- The entry to which names lead. -/
def node? (t : FileTree) (names : List String) : Option Node := t.entries[names]?

/-- Trees with the same entries and the same working directory are equal. -/
theorem ext_node? {t u : FileTree} (hh : t.here = u.here)
    (h : ∀ names, t.node? names = u.node? names) : t = u := by
  have he : t.entries = u.entries := Std.ExtTreeMap.ext_getElem? h
  cases t
  cases u
  simp_all

/-- Puts a file into a directory, over a file of the same name. -/
def setFile (t : FileTree) (dir : List String) (name : String) (bytes : ByteArray) : FileTree :=
  if h : t.node? dir = some .directory ∧ t.node? (dir ++ [name]) ≠ some .directory then
    { entries := t.entries.insert (dir ++ [name]) (.file bytes)
      here := t.here
      root := by
        rw [Std.ExtTreeMap.getElem?_insert]
        simpa using t.root
      working := by
        rw [Std.ExtTreeMap.getElem?_insert]
        split
        · next heq => exact absurd t.working (Std.LawfulEqCmp.eq_of_compare heq ▸ h.2)
        · exact t.working
      nested := fun dir' name' h' ↦ by
        have hdir : t.entries[dir']? = some .directory := by
          rcases Std.ExtTreeMap.mem_insert.mp h' with heq | hmem
          · exact (List.append_inj' (Std.LawfulEqCmp.eq_of_compare heq) rfl).1 ▸ h.1
          · exact t.nested dir' name' hmem
        rw [Std.ExtTreeMap.getElem?_insert]
        split
        · next heq => exact absurd hdir (Std.LawfulEqCmp.eq_of_compare heq ▸ h.2)
        · exact hdir }
  else t

/-- Puts a directory into a directory, if the name is free. -/
def addDirectory (t : FileTree) (dir : List String) (name : String) : FileTree :=
  if h : t.node? dir = some .directory ∧ t.node? (dir ++ [name]) = none then
    { entries := t.entries.insert (dir ++ [name]) .directory
      here := t.here
      root := by
        rw [Std.ExtTreeMap.getElem?_insert]
        simpa using t.root
      working := by
        rw [Std.ExtTreeMap.getElem?_insert]
        split
        · rfl
        · exact t.working
      nested := fun dir' name' h' ↦ by
        rw [Std.ExtTreeMap.getElem?_insert]
        split
        · rfl
        · rcases Std.ExtTreeMap.mem_insert.mp h' with heq | hmem
          · exact (List.append_inj' (Std.LawfulEqCmp.eq_of_compare heq) rfl).1 ▸ h.1
          · exact t.nested dir' name' hmem }
  else t

/-- Takes a file out of the tree; a directory stays. -/
def eraseFile (t : FileTree) (names : List String) : FileTree :=
  if h : t.node? names = some .directory then t
  else
    { entries := t.entries.erase names
      here := t.here
      root := by
        rw [Std.ExtTreeMap.getElem?_erase]
        split
        · next heq => exact absurd t.root (Std.LawfulEqCmp.eq_of_compare heq ▸ h)
        · exact t.root
      working := by
        rw [Std.ExtTreeMap.getElem?_erase]
        split
        · next heq => exact absurd t.working (Std.LawfulEqCmp.eq_of_compare heq ▸ h)
        · exact t.working
      nested := fun dir name h' ↦ by
        have hdir := t.nested dir name (Std.ExtTreeMap.mem_of_mem_erase h')
        rw [Std.ExtTreeMap.getElem?_erase]
        split
        · next heq => exact absurd hdir (Std.LawfulEqCmp.eq_of_compare heq ▸ h)
        · exact hdir }

/-- The entries below the working directory, by the names that lead to them from there, each
directory before what lies in it. -/
def toList (t : FileTree) : List (List String × Node) :=
  t.entries.toList.filterMap fun (names, node) ↦
    let (above, below) := names.splitAt t.here.length
    if above = t.here ∧ below ≠ [] then some (below, node) else none

@[simp] theorem node?_nil (t : FileTree) : t.node? [] = some .directory := t.root

@[simp] theorem node?_here (t : FileTree) : t.node? t.here = some .directory := t.working

@[simp] theorem here_setFile (t : FileTree) (dir : List String) (name : String)
    (bytes : ByteArray) : (t.setFile dir name bytes).here = t.here := by
  unfold setFile; split <;> rfl

@[simp] theorem here_addDirectory (t : FileTree) (dir : List String) (name : String) :
    (t.addDirectory dir name).here = t.here := by
  unfold addDirectory; split <;> rfl

@[simp] theorem here_eraseFile (t : FileTree) (names : List String) :
    (t.eraseFile names).here = t.here := by
  unfold eraseFile; split <;> rfl

/-- Only the file that was set changes. -/
theorem node?_setFile {t : FileTree} {dir : List String} {name : String} (bytes : ByteArray)
    (hdir : t.node? dir = some .directory) (hname : t.node? (dir ++ [name]) ≠ some .directory)
    (names : List String) :
    (t.setFile dir name bytes).node? names
      = if names = dir ++ [name] then some (.file bytes) else t.node? names := by
  rw [setFile, dif_pos ⟨hdir, hname⟩, node?, Std.ExtTreeMap.getElem?_insert]
  simp [node?, @eq_comm _ names]

/-- Only the directory that was added changes. -/
theorem node?_addDirectory {t : FileTree} {dir : List String} {name : String}
    (hdir : t.node? dir = some .directory) (hname : t.node? (dir ++ [name]) = none)
    (names : List String) :
    (t.addDirectory dir name).node? names
      = if names = dir ++ [name] then some .directory else t.node? names := by
  rw [addDirectory, dif_pos ⟨hdir, hname⟩, node?, Std.ExtTreeMap.getElem?_insert]
  simp [node?, @eq_comm _ names]

/-- Only the file that was erased changes. -/
theorem node?_eraseFile {t : FileTree} {gone : List String} (h : t.node? gone ≠ some .directory)
    (names : List String) :
    (t.eraseFile gone).node? names = if names = gone then none else t.node? names := by
  rw [eraseFile, dif_neg h, node?, Std.ExtTreeMap.getElem?_erase]
  simp [node?, @eq_comm _ names]

end FileTree

end PropertyTable
