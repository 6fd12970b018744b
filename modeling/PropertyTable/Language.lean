/-!
# Languages

The programming languages in which tables are written.
-/

namespace PropertyTable

/-- A language in which a table is written. -/
inductive Language where
  | c
  | rust
deriving DecidableEq, Repr

namespace Language

/-- The file name extension of the language. -/
def extension : Language → String
  | c => "c"
  | rust => "rs"

/-- The word by which the command line knows the language. -/
def keyword : Language → String
  | c => "c"
  | rust => "rust"

/-- The language with a given keyword. -/
def ofKeyword? (word : String) : Option Language := [c, rust].find? (·.keyword == word)

instance : Inhabited Language := ⟨c⟩

end Language

end PropertyTable
