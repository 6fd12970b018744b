import PropertyTable.Proofs.Bitmap.Packing
import PropertyTable.Proofs.TableSource.ReadBack

/-!
# The size of a table

A layout of bytes keeps them: its lines are read back as the bytes, in order.  How long it is
depends only on how many they are, so that the source texts of all tables for one property and in
one language have the same number of bytes, and of lines.
-/

namespace PropertyTable.TableSource

open Text

variable {perLine : Nat}

/-! ## Layouts alone -/

/-- Lines of literals hold the literals of their bytes, in order. -/
theorem literalsOn_map_flatMap_literal (chunks : List (List UInt8)) :
    literalsOn (chunks.map fun chunk ↦ chunk.flatMap Binary.literal)
      = chunks.flatten.map fun byte ↦ ['0', 'b'] ++ Binary.digits byte := by
  induction chunks with
  | nil => rfl
  | cons chunk chunks ih =>
    rw [List.map_cons, literalsOn_flatMap_literal, ih, List.flatten_cons, List.map_append]

/-- The bytes of a layout are read back from it. -/
theorem readBack_layout (hp : 0 < perLine) (bytes : List UInt8) :
    readBack (String.ofList (Binary.layout perLine bytes)) = some bytes := by
  rw [readBack, String.toList_ofList, Binary.lines_layout hp, literalsOn_map_flatMap_literal,
    Binary.flatten_chunks hp, mapM_read?]

/-! ## Tables -/

theorem utf8ByteSize_render (p : Property) (l : Language) (b : Bitmap) :
    (render p l b).utf8ByteSize = (opening p b.groups.size l).utf8ByteSize
      + (12 * b.groups.size + b.groups.size / groupsPerLine) + (closing l).utf8ByteSize := by
  rw [render, String.utf8ByteSize_append, String.utf8ByteSize_append, body,
    Binary.utf8ByteSize_layout, Array.length_toList]

/-- The text of a table ends with its last line. -/
theorem closed_render (p : Property) (l : Language) (b : Bitmap) :
    Closed (render p l b).toList := by
  rw [render, String.toList_append, toList_closing, closed_append_newline]
  cases l <;> decide

theorem length_lines_render (p : Property) (l : Language) (b : Bitmap) :
    (lines (render p l b).toList).length = (opening p b.groups.size l).toList.count '\n'
      + b.groups.size / groupsPerLine + (closing l).toList.count '\n' := by
  rw [length_lines_of_closed (closed_render p l b), render, String.toList_append,
    String.toList_append, List.count_append, List.count_append, body, String.toList_ofList,
    Binary.count_newline_layout,
    Array.length_toList]

/-- Bytes are laid out line by line, and kept.  With any number of literals to a line, a layout is
the literals of each chunk of that many bytes, with a newline after each chunk that is full; the
literal of a byte is `0b`, its eight digits, the most significant first, a comma and a blank.  The
bytes are read back from the literals, and a layout has twelve bytes for each of them and one for
each full line.  So all tables for one property and in one language have the same number of bytes
and of lines, whatever their sets. -/
theorem layout_of_chunks :
    (∀ perLine, 0 < perLine → ∀ bytes : List UInt8,
      Binary.layout perLine bytes = ((Binary.chunks perLine bytes).flatMap fun chunk ↦
        (chunk.flatMap fun byte ↦ ['0', 'b']
          ++ ((List.range 8).map fun i ↦ if byte.toNat.testBit (7 - i) then '1' else '0')
          ++ [',', ' '])
          ++ if chunk.length = perLine then ['\n'] else []) ∧
      readBack (String.ofList (Binary.layout perLine bytes)) = some bytes ∧
      (String.ofList (Binary.layout perLine bytes)).utf8ByteSize
        = 12 * bytes.length + bytes.length / perLine) ∧
    ∀ (p : Property) (l : Language), ∃ size count,
      ∀ s : CodeSet, ∃ b, (Bitmap.pack s).outcome = .ok b ∧
        (render p l b).utf8ByteSize = size ∧ (lines (render p l b).toList).length = count := by
  constructor
  · intro perLine hp bytes
    exact ⟨Binary.layout_eq_flatMap_chunks hp bytes, readBack_layout hp bytes,
      Binary.utf8ByteSize_layout perLine bytes⟩
  · intro p l
    refine ⟨(opening p Bitmap.groupCount l).utf8ByteSize
        + (12 * Bitmap.groupCount + Bitmap.groupCount / groupsPerLine) + (closing l).utf8ByteSize,
      (opening p Bitmap.groupCount l).toList.count '\n' + Bitmap.groupCount / groupsPerLine
        + (closing l).toList.count '\n', fun s ↦ ⟨_, Bitmap.pack_outcome s, ?_, ?_⟩⟩
    · rw [utf8ByteSize_render, Bitmap.size_ofSet]
    · rw [length_lines_render, Bitmap.size_ofSet]

/-- Five bytes with two to a line, the last one alone, and sixteen in two full lines. -/
theorem layout_of_chunks_samples :
    (0 < 2 ∧ readBack (String.ofList (Binary.layout 2 [1, 2, 3, 4, 5])) = some [1, 2, 3, 4, 5] ∧
      (String.ofList (Binary.layout 2 [1, 2, 3, 4, 5])).utf8ByteSize = 62) ∧
    (0 < 8 ∧ (String.ofList (Binary.layout 8 (List.replicate 16 0xFF))).utf8ByteSize = 194) := by
  obtain ⟨-, hread, hsize⟩ := layout_of_chunks.1 2 (by decide) [1, 2, 3, 4, 5]
  obtain ⟨-, -, hsize'⟩ := layout_of_chunks.1 8 (by decide) (List.replicate 16 0xFF)
  exact ⟨⟨by decide, hread, hsize⟩, by decide, hsize'⟩

end PropertyTable.TableSource
