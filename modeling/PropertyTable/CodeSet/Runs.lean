import PropertyTable.CodeSet

/-!
# Runs

A set falls into runs: ranges of consecutive members that no further member extends.  They are found
in one pass over the members, in which the last run stays open until a member is met that does not
extend it.
-/

namespace PropertyTable.CodeSet

/-- A pass over members. -/
structure Pass where
  /-- The runs that are closed. -/
  closed : Array CodeRange
  /-- The bounds of the run that is open, once there is one. -/
  current : Option (CodePoint × CodePoint)

namespace Pass

/-- No member was met. -/
def start : Pass := ⟨#[], none⟩

/-- Meets a member: it extends the open run if it is next to it, or else a run opens with it. -/
def meet (p : Pass) (c : CodePoint) : Pass :=
  match p.current with
  | some (low, high) =>
    if high + 1 = c then ⟨p.closed, some (low, c)⟩
    else ⟨p.closed.push (.ofBounds low high), some (c, c)⟩
  | none => ⟨p.closed, some (c, c)⟩

/-- Closes the open run. -/
def close (p : Pass) : List CodeRange :=
  match p.current with
  | some (low, high) => (p.closed.push (.ofBounds low high)).toList
  | none => p.closed.toList

end Pass

/-- The runs of a set, ascending. -/
def runs (s : CodeSet) : List CodeRange := (s.toList.foldl Pass.meet .start).close

/-- The set that ranges cover, as far as they lie in the domain. -/
def ofRanges (rs : List CodeRange) : CodeSet := rs.foldl insertRange empty

@[simp] theorem ofRanges_nil : ofRanges [] = empty := rfl

end PropertyTable.CodeSet
