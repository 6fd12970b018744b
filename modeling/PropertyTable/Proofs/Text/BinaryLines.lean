import PropertyTable.Proofs.Text.Binary

/-!
# Lines of binary literals

The layout of a list of bytes counts positions.  Here it is against the chunks that are cut off from
the list one after another: a layout is the literals of its chunks, and a newline after each chunk
that is full.  So its lines are the chunks, and its length depends on nothing but the number of
bytes.
-/

namespace PropertyTable.Text.Binary

/-! ## Chunks -/

/-- A list in consecutive chunks of one size, the last of which may be shorter. -/
def chunks {α : Type} (size : Nat) (as : List α) : List (List α) :=
  if _h : as = [] ∨ size = 0 then [] else as.take size :: chunks size (as.drop size)
termination_by as.length
decreasing_by
  have := List.length_pos_iff.mpr (not_or.mp _h).1
  rw [List.length_drop]
  omega

section

variable {α : Type} {size : Nat}

/-- What is too short to fill a chunk is the last one, unless it is empty. -/
theorem chunks_of_length_lt {as : List α} (h : as.length < size) :
    chunks size as = if as = [] then [] else [as] := by
  have hd : chunks size (as.drop size) = [] := by
    rw [chunks, dif_pos (.inl (List.drop_eq_nil_of_le (Nat.le_of_lt h)))]
  rw [chunks]
  by_cases hn : as = []
  · rw [dif_pos (.inl hn), if_pos hn]
  · rw [dif_neg (by simp [hn, Nat.ne_zero_of_lt h]), if_neg hn, hd,
      List.take_of_length_le (Nat.le_of_lt h)]

/-- A full chunk is cut off. -/
theorem chunks_append (hs : 0 < size) {chunk : List α} (h : chunk.length = size) (as : List α) :
    chunks size (chunk ++ as) = chunk :: chunks size as := by
  have hn : chunk ≠ [] := List.length_pos_iff.mp (h ▸ hs)
  rw [chunks, dif_neg (by simp [hn, Nat.ne_of_gt hs]), List.take_left' h, List.drop_left' h]

/-- A list is taken chunk by chunk: something too short for a full chunk, or a full chunk and then
more. -/
@[elab_as_elim]
theorem chunk_induction {motive : List α → Prop} (hs : 0 < size)
    (short : ∀ as, as.length < size → motive as)
    (full : ∀ chunk as, chunk.length = size → motive as → motive (chunk ++ as)) (as : List α) :
    motive as := by
  induction h : as.length using Nat.strongRecOn generalizing as with
  | ind n ih =>
    rcases Nat.lt_or_ge as.length size with hl | hl
    · exact short as hl
    · rw [← List.take_append_drop size as]
      apply full _ _ (by rw [List.length_take, Nat.min_eq_left hl])
      refine ih (as.drop size).length ?_ _ rfl
      rw [List.length_drop]
      omega

/-- The chunks of a list are all of it. -/
theorem flatten_chunks (hs : 0 < size) (as : List α) : (chunks size as).flatten = as := by
  induction as using chunk_induction hs with
  | short as h =>
    rw [chunks_of_length_lt h]
    split
    · next hn => rw [hn, List.flatten_nil]
    · rw [List.flatten_singleton]
  | full chunk as h ih => rw [chunks_append hs h, List.flatten_cons, ih]

end

/-! ## Layouts from a position -/

/-- A layout whose first literal is at a position. -/
def layoutFrom (perLine i : Nat) (bytes : List UInt8) : List Char :=
  (bytes.zipIdx i).flatMap fun (byte, i) ↦ literal byte ++ lineEnd perLine i

variable {perLine : Nat}

theorem layoutFrom_cons (perLine i : Nat) (byte : UInt8) (bytes : List UInt8) :
    layoutFrom perLine i (byte :: bytes)
      = literal byte ++ lineEnd perLine i ++ layoutFrom perLine (i + 1) bytes := by
  rw [layoutFrom, List.zipIdx_cons, List.flatMap_cons, layoutFrom]

theorem layoutFrom_append (perLine i : Nat) (as bs : List UInt8) :
    layoutFrom perLine i (as ++ bs)
      = layoutFrom perLine i as ++ layoutFrom perLine (i + as.length) bs := by
  rw [layoutFrom, List.zipIdx_append, List.flatMap_append, layoutFrom, layoutFrom]

/-- Positions that differ by a full line are as far from the end of their lines. -/
theorem layoutFrom_add (perLine i : Nat) (bytes : List UInt8) :
    layoutFrom perLine (perLine + i) bytes = layoutFrom perLine i bytes := by
  induction bytes generalizing i with
  | nil => rfl
  | cons byte bytes ih =>
    have hl : lineEnd perLine (perLine + i) = lineEnd perLine i := by
      rw [lineEnd, Nat.add_assoc, Nat.add_mod_left, lineEnd]
    rw [layoutFrom_cons, hl, Nat.add_assoc, ih, layoutFrom_cons]

/-- The last literal of a line is followed by a newline. -/
theorem lineEnd_of_lt {j : Nat} (h : j < perLine) :
    lineEnd perLine j = if j + 1 = perLine then ['\n'] else [] := by
  rw [lineEnd]
  by_cases hj : j + 1 = perLine
  · rw [hj, Nat.mod_self, if_pos rfl, if_pos rfl]
  · rw [Nat.mod_eq_of_lt (by omega), if_neg (Nat.succ_ne_zero j), if_neg hj]

/-- What is laid out within one line, from a position in it. -/
theorem layoutFrom_of_length_le {j : Nat} {bytes : List UInt8} (hj : j < perLine)
    (h : j + bytes.length ≤ perLine) :
    layoutFrom perLine j bytes
      = bytes.flatMap literal ++ if j + bytes.length = perLine then ['\n'] else [] := by
  induction bytes generalizing j with
  | nil =>
    rw [List.length_nil, Nat.add_zero, if_neg (Nat.ne_of_lt hj)]
    rfl
  | cons byte bytes ih =>
    rw [List.length_cons] at h
    rw [layoutFrom_cons, lineEnd_of_lt hj, List.flatMap_cons, List.length_cons]
    by_cases hl : j + 1 = perLine
    · -- The literal fills the line, so that it is the last one.
      obtain rfl : bytes = [] := List.length_eq_zero_iff.mp (by omega)
      simp [hl, layoutFrom]
    · rw [if_neg hl, List.append_nil, ih (by omega) (by omega), Nat.add_right_comm, Nat.add_assoc j,
        List.append_assoc]

/-! ## Layouts by chunks -/

/-- Bytes that do not fill a line have no newline after them. -/
theorem layout_of_length_lt {bytes : List UInt8} (h : bytes.length < perLine) :
    layout perLine bytes = bytes.flatMap literal := by
  have hl := layoutFrom_of_length_le (Nat.zero_lt_of_lt h) (by omega : 0 + bytes.length ≤ perLine)
  rwa [if_neg (by omega), List.append_nil] at hl

/-- A full line has a newline after it, and what follows is laid out on its own. -/
theorem layout_append (hp : 0 < perLine) {chunk : List UInt8} (h : chunk.length = perLine)
    (bytes : List UInt8) :
    layout perLine (chunk ++ bytes) = chunk.flatMap literal ++ '\n' :: layout perLine bytes := by
  have hl := layoutFrom_of_length_le hp (by omega : 0 + chunk.length ≤ perLine)
  rw [if_pos (by omega)] at hl
  have hs : 0 + chunk.length = perLine + 0 := by omega
  calc layout perLine (chunk ++ bytes)
    _ = layoutFrom perLine 0 chunk ++ layoutFrom perLine (0 + chunk.length) bytes :=
      layoutFrom_append ..
    _ = layoutFrom perLine 0 chunk ++ layoutFrom perLine 0 bytes := by rw [hs, layoutFrom_add]
    _ = chunk.flatMap literal ++ '\n' :: layout perLine bytes := by
      rw [hl, List.append_assoc]
      rfl

/-- A layout is its chunks one after another, each in a line. -/
theorem layout_eq_flatMap_chunks (hp : 0 < perLine) (bytes : List UInt8) :
    layout perLine bytes = (chunks perLine bytes).flatMap fun chunk ↦
      chunk.flatMap literal ++ if chunk.length = perLine then ['\n'] else [] := by
  induction bytes using chunk_induction hp with
  | short bytes h =>
    rw [layout_of_length_lt h, chunks_of_length_lt h]
    by_cases hn : bytes = []
    · simp [hn]
    · simp [hn, Nat.ne_of_lt h]
  | full chunk bytes h ih =>
    rw [layout_append hp h, chunks_append hp h, List.flatMap_cons, if_pos h, ih, List.append_assoc,
      List.singleton_append]

-- The last chunk is short, so that no newline follows it.
example : String.ofList (layout 2 [1, 2, 3]) = "0b00000001, 0b00000010, \n0b00000011, " := by decide

/-! ## Lines -/

theorem plain_flatMap_literal (bytes : List UInt8) : Plain (bytes.flatMap literal) := by
  intro c hc
  obtain ⟨byte, -, hc⟩ := List.mem_flatMap.mp hc
  exact plain_literal byte c hc

/-- The lines of a layout are the literals of its chunks. -/
theorem lines_layout (hp : 0 < perLine) (bytes : List UInt8) :
    lines (layout perLine bytes)
      = (chunks perLine bytes).map fun chunk ↦ chunk.flatMap literal := by
  induction bytes using chunk_induction hp with
  | short bytes h =>
    have hl : '\n' ∉ bytes.flatMap literal := fun hc ↦ (plain_flatMap_literal bytes _ hc).1 rfl
    rw [layout_of_length_lt h, chunks_of_length_lt h, lines_of_notMem hl]
    cases bytes with
    | nil => rfl
    | cons byte bytes => rfl
  | full chunk bytes h ih =>
    rw [layout_append hp h, chunks_append hp h, lines_plain_newline (plain_flatMap_literal chunk),
      ih, List.map_cons]

/-! ## Length -/

theorem count_newline_literal (byte : UInt8) : (literal byte).count '\n' = 0 :=
  List.count_eq_zero_of_not_mem fun hc ↦ (plain_literal byte _ hc).1 rfl

/-- A layout has twelve characters for each literal, and its newlines. -/
theorem length_layoutFrom (perLine i : Nat) (bytes : List UInt8) :
    (layoutFrom perLine i bytes).length
      = 12 * bytes.length + (layoutFrom perLine i bytes).count '\n' := by
  induction bytes generalizing i with
  | nil => rfl
  | cons byte bytes ih =>
    have hl : (lineEnd perLine i).length = (lineEnd perLine i).count '\n' := by
      unfold lineEnd
      split <;> rfl
    rw [layoutFrom_cons, List.length_append, List.length_append, ih, length_literal, hl,
      List.count_append, List.count_append, count_newline_literal, List.length_cons]
    omega

/-- The newlines of a layout are those of the positions that fill a line. -/
theorem count_newline_layoutFrom (perLine i : Nat) (bytes : List UInt8) :
    (layoutFrom perLine i bytes).count '\n' + i / perLine = (i + bytes.length) / perLine := by
  induction bytes generalizing i with
  | nil => simp [layoutFrom]
  | cons byte bytes ih =>
    have hl : (lineEnd perLine i).count '\n' + i / perLine = (i + 1) / perLine := by
      rw [Nat.succ_div, Nat.add_comm, lineEnd]
      simp only [Nat.dvd_iff_mod_eq_zero]
      split <;> rfl
    have hi := ih (i + 1)
    rw [layoutFrom_cons, List.count_append, List.count_append, count_newline_literal,
      List.length_cons]
    rw [Nat.add_right_comm i 1, Nat.add_assoc] at hi
    omega

theorem count_newline_layout (perLine : Nat) (bytes : List UInt8) :
    (layout perLine bytes).count '\n' = bytes.length / perLine := by
  have h := count_newline_layoutFrom perLine 0 bytes
  rwa [Nat.zero_div, Nat.add_zero, Nat.zero_add] at h

theorem length_layout (perLine : Nat) (bytes : List UInt8) :
    (layout perLine bytes).length = 12 * bytes.length + bytes.length / perLine := by
  rw [← count_newline_layout]
  exact length_layoutFrom perLine 0 bytes

/-- A text of characters of one byte has as many bytes as characters. -/
theorem utf8ByteSize_ofList {cs : List Char} (h : ∀ c ∈ cs, c.utf8Size = 1) :
    (String.ofList cs).utf8ByteSize = cs.length := by
  induction cs with
  | nil => rfl
  | cons c cs ih =>
    obtain ⟨hc, h⟩ := List.forall_mem_cons.mp h
    rw [String.ofList_cons, String.utf8ByteSize_append, String.utf8ByteSize_singleton, hc, ih h,
      Nat.add_comm, List.length_cons]

/-- Literals and newlines are made of characters of one byte. -/
theorem utf8Size_of_mem_layout {perLine : Nat} {bytes : List UInt8} {c : Char}
    (h : c ∈ layout perLine bytes) :
    c.utf8Size = 1 := by
  obtain ⟨⟨byte, i⟩, -, hc⟩ := List.mem_flatMap.mp h
  rcases List.mem_append.mp hc with hc | hc
  · simp only [literal, List.mem_append, List.mem_cons, List.not_mem_nil, or_false] at hc
    rcases hc with ((rfl | rfl) | hc) | rfl | rfl
    · rfl
    · rfl
    · rcases mem_digits hc with rfl | rfl <;> rfl
    · rfl
    · rfl
  · unfold lineEnd at hc
    split at hc
    · rw [List.mem_singleton.mp hc]
      rfl
    · cases hc

/-- The number of bytes of a layout. -/
theorem utf8ByteSize_layout (perLine : Nat) (bytes : List UInt8) :
    (String.ofList (layout perLine bytes)).utf8ByteSize
      = 12 * bytes.length + bytes.length / perLine := by
  rw [utf8ByteSize_ofList fun _ ↦ utf8Size_of_mem_layout, length_layout]

end PropertyTable.Text.Binary
