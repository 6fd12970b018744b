import PropertyTable.CommandLine

/-!
# The program

The command line over the files of the system.
-/

namespace PropertyTable

/-- The number of a system error, which is reported as it is or negated. -/
def errorNumber (code : UInt32) : Nat := min code.toNat (-code).toNat

/-- The fault that the system reports. -/
def FileFault.ofError : IO.Error → FileFault
  | .noFileOrDirectory _ _ _ => .notFound
  | error@(.inappropriateType _ code _) | error@(.resourceBusy code _)
  | error@(.invalidArgument _ code _) =>
    match errorNumber code with
    | 16 => .busy
    | 20 => .notDirectory
    | 21 => .isDirectory
    | 36 => .nameTooLong
    | _ => .other (toString error)
  | error => .other (toString error)

/-- Runs a file operation. -/
def attempt {α : Type} (action : IO α) : IO (Except FileFault α) := do
  try return .ok (← action)
  catch error => return .error (.ofError error)

/-- Runs a file operation on paths, none of which may hold a NUL character. -/
def attemptOn {α : Type} (paths : List String) (action : IO α) : IO (Except FileFault α) :=
  if paths.any fun path ↦ path.toList.contains '\x00' then return .error .nulInName
  else attempt action

/-- The files of the system. -/
def systemDisk : Disk IO where
  read path := attemptOn [path] (IO.FS.readBinFile path)
  write path bytes := attemptOn [path] (IO.FS.writeBinFile path bytes)
  rename source target := attemptOn [source, target] (IO.FS.rename source target)
  remove path := attemptOn [path] (IO.FS.removeFile path)

end PropertyTable

/-- Does what the arguments ask for. -/
def main (arguments : List String) : IO UInt32 := do
  let answer ← PropertyTable.CommandLine.execute PropertyTable.systemDisk arguments
  IO.print answer.output
  answer.messages.forM IO.eprintln
  return answer.status.toUInt32
