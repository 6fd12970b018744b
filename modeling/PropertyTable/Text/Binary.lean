/-!
# Binary literals

A byte is written `0b` and eight binary digits, the most significant first, and a list of bytes as
such literals, each followed by a comma and a blank, a fixed number of them to a line.
-/

namespace PropertyTable.Text.Binary

/-- One binary digit. -/
def digit (bit : Bool) : Char := if bit then '1' else '0'

/-- The eight digits of a byte. -/
def digits (byte : UInt8) : List Char :=
  (List.range 8).map fun i ↦ digit (byte.toNat.testBit (7 - i))

/-- A byte as a literal with what separates it from the next one. -/
def literal (byte : UInt8) : List Char := ['0', 'b'] ++ digits byte ++ [',', ' ']

/-- What follows the literal at a position: a newline if it fills a line. -/
def lineEnd (perLine i : Nat) : List Char := if (i + 1) % perLine = 0 then ['\n'] else []

/-- The literals of a list of bytes, `perLine` to a line. -/
def layout (perLine : Nat) (bytes : List UInt8) : List Char :=
  bytes.zipIdx.flatMap fun (byte, i) ↦ literal byte ++ lineEnd perLine i

@[simp] theorem length_digits (byte : UInt8) : (digits byte).length = 8 := rfl

@[simp] theorem length_literal (byte : UInt8) : (literal byte).length = 12 := rfl

@[simp] theorem layout_nil (perLine : Nat) : layout perLine [] = [] := rfl

end PropertyTable.Text.Binary
