import PropertyTable.Proofs.Text.BinaryLines
import PropertyTable.TableSource

/-!
# Reading tables back

The groups of a table are read back from its source text: the lines that begin with a literal are
taken, and the literals on them are read.  This gives the groups of the table, for either language.
-/

namespace PropertyTable.TableSource

open Text

/-- The literals on those lines that begin with one. -/
def literalsOn (ls : List (List Char)) : List (List Char) :=
  (ls.filter fun line ↦ ['0', 'b'].isPrefixOf line).flatMap Binary.literals

/-- The bytes that a source text lists, if all its literals can be read. -/
def readBack (contents : String) : Option (List UInt8) :=
  (literalsOn (lines contents.toList)).mapM Binary.read?

/-! ## Lines without literals -/

/-- A line that is none of the groups. -/
structure Heading (line : List Char) : Prop where
  plain : Plain line
  head_ne : line.head? ≠ some '0'

instance (line : List Char) : Decidable (Heading line) :=
  decidable_of_iff (Plain line ∧ line.head? ≠ some '0') ⟨fun h ↦ ⟨h.1, h.2⟩, fun h ↦ ⟨h.1, h.2⟩⟩

theorem Heading.append {as bs : List Char} (ha : Heading as) (hn : as ≠ []) (hb : Plain bs) :
    Heading (as ++ bs) := by
  refine ⟨plain_append.mpr ⟨ha.plain, hb⟩, ?_⟩
  rw [List.head?_append_of_ne_nil as hn]
  exact ha.head_ne

theorem literalsOn_heading {line : List Char} (h : Heading line) (rest : List (List Char)) :
    literalsOn (line :: rest) = literalsOn rest := by
  have hp : ['0', 'b'].isPrefixOf line ≠ true := by
    cases line with
    | nil => decide
    | cons c line =>
      have hc : '0' ≠ c := fun hc ↦ h.head_ne (congrArg some hc.symm)
      simp [List.isPrefixOf, hc]
  rw [literalsOn, List.filter_cons_of_neg hp, literalsOn]

theorem literalsOn_headings {hs : List (List Char)} (h : ∀ line ∈ hs, Heading line)
    (cs : List Char) :
    literalsOn (lines (hs.flatMap (· ++ ['\n']) ++ cs)) = literalsOn (lines cs) := by
  induction hs with
  | nil => rfl
  | cons line hs ih =>
    obtain ⟨hl, h⟩ := List.forall_mem_cons.mp h
    rw [List.flatMap_cons, List.append_assoc, List.append_assoc, List.singleton_append,
      lines_plain_newline hl.plain, literalsOn_heading hl, ih h]

theorem plain_toString (n : Nat) : Plain (toString n).toList := by
  intro c hc
  rw [Nat.toString_eq_repr, Nat.toList_repr] at hc
  have hd := Nat.isDigit_of_mem_toDigits (by decide) (by decide) hc
  constructor
  · rintro rfl
    cases hd
  · rintro rfl
    cases hd

theorem plain_boundName (p : Property) : Plain p.boundName.toList := by cases p <;> decide

theorem plain_tableName (p : Property) : Plain p.tableName.toList := by cases p <;> decide

theorem plain_boundText : Plain boundText.toList := by decide

/-- The lines before the groups, without their ends. -/
def openingLines (p : Property) (n : Nat) : Language → List (List Char)
  | .c =>
    ["#define ".toList ++ p.boundName.toList ++ " (".toList ++ boundText.toList ++ ")".toList,
      [],
      "// clang-format off".toList,
      "static const unsigned char ".toList ++ p.tableName.toList ++ "[] = \x7b // ".toList
        ++ (toString n).toList]
  | .rust =>
    ["pub const ".toList ++ p.boundName.toList ++ ": u32 = ".toList ++ boundText.toList
      ++ ";".toList,
      [],
      "#[rustfmt::skip]".toList,
      "pub static ".toList ++ p.tableName.toList ++ ": [u8; ".toList ++ (toString n).toList
        ++ "] = [ // ".toList ++ (toString n).toList]

/-- The lines after the last line of groups, without their ends. -/
def closingLines : Language → List (List Char)
  | .c => ["\x7d;".toList, "// clang-format on".toList]
  | .rust => ["];".toList]

theorem toList_opening (p : Property) (n : Nat) (l : Language) :
    (opening p n l).toList = (openingLines p n l).flatMap (· ++ ['\n']) := by
  have hc : ")\n\n// clang-format off\n".toList
      = ")".toList ++ '\n' :: '\n' :: ("// clang-format off".toList ++ ['\n']) := by decide
  have hr : ";\n\n#[rustfmt::skip]\n".toList
      = ";".toList ++ '\n' :: '\n' :: ("#[rustfmt::skip]".toList ++ ['\n']) := by decide
  have hn : "\n".toList = ['\n'] := by decide
  unfold opening openingLines
  cases l <;> simp only [String.toList_append, hc, hr, hn, List.flatMap_cons, List.flatMap_nil,
    List.append_assoc, List.cons_append, List.nil_append, List.append_nil]

theorem toList_closing (l : Language) :
    (closing l).toList = '\n' :: (closingLines l).flatMap (· ++ ['\n']) := by
  cases l <;> decide

theorem openingLines_heading (p : Property) (n : Nat) (l : Language) :
    ∀ line ∈ openingLines p n l, Heading line := by
  have hb := plain_boundName p
  have ht := plain_tableName p
  have hn := plain_toString n
  have hx := plain_boundText
  intro line hl
  cases l with
  | c =>
    simp only [openingLines, List.append_assoc, List.mem_cons, List.not_mem_nil, or_false] at hl
    rcases hl with rfl | rfl | rfl | rfl
    · apply Heading.append (by decide) (by decide)
      simp only [plain_append]
      exact ⟨hb, by decide, hx, by decide⟩
    · decide
    · decide
    · apply Heading.append (by decide) (by decide)
      simp only [plain_append]
      exact ⟨ht, by decide, hn⟩
  | rust =>
    simp only [openingLines, List.append_assoc, List.mem_cons, List.not_mem_nil, or_false] at hl
    rcases hl with rfl | rfl | rfl | rfl
    · apply Heading.append (by decide) (by decide)
      simp only [plain_append]
      exact ⟨hb, by decide, hx, by decide⟩
    · decide
    · decide
    · apply Heading.append (by decide) (by decide)
      simp only [plain_append]
      exact ⟨ht, by decide, hn, by decide, hn⟩

theorem closingLines_heading (l : Language) : ∀ line ∈ closingLines l, Heading line := by
  cases l <;> decide

/-! ## Lines of literals -/

/-- A line that is empty or begins with a literal is taken with its literals. -/
theorem literalsOn_cons {first : List Char} (h : first = [] ∨ ['0', 'b'].isPrefixOf first = true)
    (rest : List (List Char)) :
    literalsOn (first :: rest) = Binary.literals first ++ literalsOn rest := by
  rcases h with rfl | h
  · rfl
  · rw [literalsOn, List.filter_cons_of_pos h]
    rfl

theorem literals_flatMap_literal (bytes : List UInt8) :
    Binary.literals (bytes.flatMap Binary.literal)
      = bytes.map fun byte ↦ ['0', 'b'] ++ Binary.digits byte := by
  induction bytes with
  | nil => rfl
  | cons byte bytes ih => rw [List.flatMap_cons, Binary.literals_literal, ih, List.map_cons]

/-- A line of literals is taken with all of them. -/
theorem literalsOn_flatMap_literal (bytes : List UInt8) (rest : List (List Char)) :
    literalsOn (bytes.flatMap Binary.literal :: rest)
      = (bytes.map fun byte ↦ ['0', 'b'] ++ Binary.digits byte) ++ literalsOn rest := by
  have hb : bytes.flatMap Binary.literal = [] ∨
      ['0', 'b'].isPrefixOf (bytes.flatMap Binary.literal) = true := by
    cases bytes with
    | nil => exact .inl rfl
    | cons byte bytes => exact .inr rfl
  rw [literalsOn_cons hb, literals_flatMap_literal]

/-- The literals of a layout are found on its lines, and then those of what follows. -/
theorem literalsOn_lines_layout {perLine : Nat} (hp : 0 < perLine) (bytes : List UInt8)
    (tail : List Char) :
    literalsOn (lines (Binary.layout perLine bytes ++ '\n' :: tail))
      = (bytes.map fun byte ↦ ['0', 'b'] ++ Binary.digits byte) ++ literalsOn (lines tail) := by
  induction bytes using Binary.chunk_induction hp with
  | short bytes h =>
    rw [Binary.layout_of_length_lt h, lines_plain_newline (Binary.plain_flatMap_literal bytes),
      literalsOn_flatMap_literal]
  | full chunk bytes h ih =>
    rw [Binary.layout_append hp h, List.append_assoc, List.cons_append,
      lines_plain_newline (Binary.plain_flatMap_literal chunk), literalsOn_flatMap_literal, ih,
      List.map_append, List.append_assoc]

theorem mapM_read? (bytes : List UInt8) :
    (bytes.map fun byte ↦ ['0', 'b'] ++ Binary.digits byte).mapM Binary.read? = some bytes := by
  induction bytes with
  | nil => rfl
  | cons byte bytes ih =>
    rw [List.map_cons, List.mapM_cons, Binary.read?_digits, ih]
    rfl

/-- A table is read back from its text, whatever its property and language. -/
theorem readBack_render (p : Property) (l : Language) (b : Bitmap) :
    readBack (render p l b) = some b.groups.toList := by
  have ht : literalsOn (lines ((closingLines l).flatMap (· ++ ['\n']))) = [] := by
    have h := literalsOn_headings (closingLines_heading l) []
    rwa [List.append_nil] at h
  rw [readBack, render, body, String.toList_append, String.toList_append, String.toList_ofList,
    toList_opening, toList_closing, List.append_assoc,
    literalsOn_headings (openingLines_heading _ _ _),
    literalsOn_lines_layout (by decide), ht, List.append_nil, mapM_read?]

/-! ## One text for each table -/

/-- The first line of a table names its property, in the words of its language. -/
theorem head?_lines_render (p : Property) (l : Language) (b : Bitmap) :
    (lines (render p l b).toList).head? = (openingLines p 0 l).head? := by
  obtain ⟨first, rest, ho, hf⟩ : ∃ first rest, openingLines p b.groups.size l = first :: rest ∧
      (openingLines p 0 l).head? = some first := by
    cases l <;> exact ⟨_, _, rfl, rfl⟩
  have hp : Plain first :=
    (openingLines_heading p b.groups.size l first (ho ▸ List.mem_cons_self)).plain
  rw [render, String.toList_append, String.toList_append, toList_opening, ho, hf, List.flatMap_cons]
  simp only [List.append_assoc, List.cons_append]
  rw [lines_plain_newline hp, List.head?_cons]

theorem eq_of_head?_openingLines {p q : Property} {l m : Language}
    (h : (openingLines p 0 l).head? = (openingLines q 0 m).head?) : p = q ∧ l = m := by
  revert h
  cases p <;> cases q <;> cases l <;> cases m <;> decide

/-- The text of a table determines its property, its language and its groups. -/
theorem render_inj {p q : Property} {l m : Language} {b c : Bitmap} :
    render p l b = render q m c ↔ p = q ∧ l = m ∧ b = c := by
  constructor
  · intro h
    have hh := head?_lines_render p l b
    rw [h, head?_lines_render] at hh
    obtain ⟨hp, hl⟩ := eq_of_head?_openingLines hh.symm
    have hb := readBack_render p l b
    rw [h, readBack_render] at hb
    exact ⟨hp, hl, Bitmap.ext (Array.toList_inj.mp (Option.some.inj hb).symm)⟩
  · rintro ⟨rfl, rfl, rfl⟩
    rfl

end PropertyTable.TableSource
