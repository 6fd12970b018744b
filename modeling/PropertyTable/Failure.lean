import PropertyTable.CodePoint

/-!
# Failures

The causes for which reading, packing or writing fails, and the words in which they are told.
-/

namespace PropertyTable

/-- What is wrong with one line of a listing. -/
inductive EntryFault where
  /-- Nothing stands before the field separator. -/
  | empty
  /-- A text is no hexadecimal number. -/
  | notHex (text : String)
  /-- The bounds of a range are inverted. -/
  | inverted (low high : CodePoint)
  /-- A number lies above the domain. -/
  | outOfDomain (text : String)
deriving DecidableEq, Repr

namespace EntryFault

/-- The words of a fault. -/
def message : EntryFault → String
  | empty => "empty code point entry before the field separator"
  | notHex text => "`" ++ text ++ "` is not a hexadecimal code point"
  | inverted low high =>
    "range " ++ low.toHex ++ ".." ++ high.toHex ++ " has its bounds inverted"
  | outOfDomain text =>
    "code point " ++ text ++ " lies beyond the table domain 0..=" ++ CodePoint.last.toHex
      ++ "; trim the list or raise DOMAIN_MAX"

end EntryFault

/-- Why a file could not be read, written, moved or removed. -/
inductive FileFault where
  | notFound
  | isDirectory
  | notDirectory
  | nameTooLong
  | busy
  /-- The name holds a NUL character. -/
  | nulInName
  /-- The contents are not UTF-8. -/
  | notText
  /-- Any other reason, in the system's words. -/
  | other (reason : String)
deriving DecidableEq, Repr

namespace FileFault

/-- The words of a fault. -/
def message : FileFault → String
  | notFound => "No such file or directory (os error 2)"
  | isDirectory => "Is a directory (os error 21)"
  | notDirectory => "Not a directory (os error 20)"
  | nameTooLong => "File name too long (os error 36)"
  | busy => "Device or resource busy (os error 16)"
  | nulInName => "file name contained an unexpected NUL byte"
  | notText => "stream did not contain valid UTF-8"
  | other reason => reason

end FileFault

/-- Why a build, or a part of it, failed. -/
inductive Failure where
  /-- A line of the listing, counted from one, has no meaning. -/
  | malformed (line : Nat) (fault : EntryFault)
  /-- A file operation failed. -/
  | inaccessible (path : String) (fault : FileFault)
  /-- A text names no property. -/
  | unknownProperty (text : String)
  /-- A table came out with a wrong number of groups. -/
  | groupCount (expected actual : Nat)
deriving DecidableEq, Repr

namespace Failure

/-- The words of a failure, without its cause. -/
def message : Failure → String
  | malformed line _ => "malformed input at line " ++ toString line
  | inaccessible path _ => "could not access " ++ path
  | unknownProperty text =>
    "unrecognised classification `" ++ text ++ "`, expected XID_START or XID_CONTINUE"
  | groupCount expected actual =>
    "packed " ++ toString actual ++ " groups, expected " ++ toString expected

/-- The words of the fault behind a failure. -/
def cause? : Failure → Option String
  | malformed _ fault => some fault.message
  | inaccessible _ fault => some fault.message
  | unknownProperty _ | groupCount _ _ => none

/-- A failure with its cause, in one line. -/
def text (f : Failure) : String :=
  match f.cause? with
  | some cause => f.message ++ ": " ++ cause
  | none => f.message

end Failure

end PropertyTable
