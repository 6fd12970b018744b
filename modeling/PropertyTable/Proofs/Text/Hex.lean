import Mathlib.Data.List.Induction
import Mathlib.Tactic.IntervalCases
import PropertyTable.Text.Hex

/-!
# Hexadecimal numerals

The grammar of hexadecimal numbers as a relation between texts and numbers, and the reader against
it: a text is read exactly if it is a numeral, and as the number that the numeral stands for.
-/

namespace PropertyTable.Text.Hex

/-- A character is the digit of a value, in lower or in upper case. -/
def IsDigit (c : Char) (d : Nat) : Prop :=
  "0123456789abcdef".toList[d]? = some c ∨ "0123456789ABCDEF".toList[d]? = some c

/-- A text is a numeral of a number, however large: one digit, or a numeral with a digit after
it. -/
inductive Numeral : List Char → Nat → Prop
  | digit {c : Char} {d : Nat} : IsDigit c d → Numeral [c] d
  | snoc {cs : List Char} {n : Nat} {c : Char} {d : Nat} :
      Numeral cs n → IsDigit c d → Numeral (cs ++ [c]) (16 * n + d)

/-! ## Digits -/

/-- A property of the characters of an interval is one of finitely many. -/
private theorem isDigit_of_interval (low high base : Nat)
    (h : ∀ n, low ≤ n → n ≤ high → IsDigit (Char.ofNat n) (n - low + base)) {c : Char}
    (hc : low ≤ c.toNat ∧ c.toNat ≤ high) : IsDigit c (c.toNat - low + base) := by
  simpa using h c.toNat hc.1 hc.2

theorem digit?_eq_some_iff {c : Char} {d : Nat} : digit? c = some d ↔ IsDigit c d := by
  constructor
  · intro h
    unfold digit? at h
    split at h
    · next hc =>
      obtain rfl := Option.some.inj h
      refine isDigit_of_interval 48 57 0 ?_ hc
      intro n hl hh
      interval_cases n <;> exact .inl rfl
    split at h
    · next hc =>
      obtain rfl := Option.some.inj h
      refine isDigit_of_interval 97 102 10 ?_ hc
      intro n hl hh
      interval_cases n <;> exact .inl rfl
    split at h
    · next hc =>
      obtain rfl := Option.some.inj h
      refine isDigit_of_interval 65 70 10 ?_ hc
      intro n hl hh
      interval_cases n <;> exact .inr rfl
    · cases h
  · rintro (h | h)
    · have hd : d < 16 := (List.getElem?_eq_some_iff.mp h).1
      interval_cases d <;> cases h <;> rfl
    · have hd : d < 16 := (List.getElem?_eq_some_iff.mp h).1
      interval_cases d <;> cases h <;> rfl

/-- The range marker is made of no digits. -/
theorem not_isDigit_dot (d : Nat) : ¬IsDigit '.' d := by
  rw [← digit?_eq_some_iff]
  exact fun h ↦ nomatch h

/-! ## Numerals -/

namespace Numeral

variable {cs : List Char} {n : Nat}

theorem ne_nil (h : Numeral cs n) : cs ≠ [] := by
  cases h <;> simp

/-- Every character of a numeral is a digit. -/
theorem isDigit_of_mem (h : Numeral cs n) {c : Char} (hc : c ∈ cs) : ∃ d, IsDigit c d := by
  induction h with
  | digit hd =>
    obtain rfl := List.mem_singleton.mp hc
    exact ⟨_, hd⟩
  | snoc _ hd ih =>
    rcases List.mem_append.mp hc with hc | hc
    · exact ih hc
    · obtain rfl := List.mem_singleton.mp hc
      exact ⟨_, hd⟩

theorem dot_notMem (h : Numeral cs n) : '.' ∉ cs := by
  intro hc
  obtain ⟨d, hd⟩ := h.isDigit_of_mem hc
  exact not_isDigit_dot d hd

end Numeral

private theorem mapM_digit?_append (cs : List Char) (c : Char) :
    (cs ++ [c]).mapM digit? = (cs.mapM digit?).bind fun ds ↦ (digit? c).map fun d ↦ ds ++ [d] := by
  rw [List.mapM_append]
  cases cs.mapM digit? with
  | none => rfl
  | some ds => cases h : digit? c <;> simp [h]

/-- The digits of a numeral, most significant first, have its number as their value. -/
private theorem numeral_of_mapM {cs : List Char} (hcs : cs ≠ []) {ds : List Nat}
    (h : cs.mapM digit? = some ds) : Numeral cs (value ds) := by
  induction cs using List.reverseRecOn generalizing ds with
  | nil => exact absurd rfl hcs
  | append_singleton cs c ih =>
    rw [mapM_digit?_append] at h
    obtain ⟨es, hes, h⟩ := Option.bind_eq_some_iff.mp h
    obtain ⟨d, hd, rfl⟩ := Option.map_eq_some_iff.mp h
    rw [digit?_eq_some_iff] at hd
    rw [value_append_singleton]
    by_cases hn : cs = []
    · subst hn
      obtain rfl : es = [] := by simpa using hes.symm
      simpa using Numeral.digit hd
    · exact .snoc (ih hn hes) hd

/-- A text is read if it is a numeral, as the number of the numeral. -/
theorem read?_eq_some_iff {cs : List Char} {n : Nat} : read? cs = some n ↔ Numeral cs n := by
  constructor
  · intro h
    unfold read? at h
    split at h
    · cases h
    · next hcs =>
      obtain ⟨ds, hds, rfl⟩ := Option.map_eq_some_iff.mp h
      exact numeral_of_mapM hcs hds
  · intro h
    induction h with
    | digit hd => simp [read?, digit?_eq_some_iff.mpr hd, value]
    | @snoc cs n c d h hd ih =>
      rw [read?, if_neg h.ne_nil] at ih
      obtain ⟨ds, hds, rfl⟩ := Option.map_eq_some_iff.mp ih
      simp [read?, hds, digit?_eq_some_iff.mpr hd]

/-- All digits, in both cases. -/
def digits : List Char := "0123456789abcdefABCDEF".toList

theorem mem_digits_iff {c : Char} : c ∈ digits ↔ ∃ d, IsDigit c d := by
  have hl : "0123456789abcdef".toList ⊆ digits := by decide
  have hu : "0123456789ABCDEF".toList ⊆ digits := by decide
  have hd : ∀ c ∈ digits, (digit? c).isSome = true := List.all_eq_true.mp (by decide)
  constructor
  · intro h
    obtain ⟨d, hd⟩ := Option.isSome_iff_exists.mp (hd c h)
    exact ⟨d, digit?_eq_some_iff.mp hd⟩
  · rintro ⟨d, hd | hd⟩
    · exact hl (List.mem_of_getElem? hd)
    · exact hu (List.mem_of_getElem? hd)

theorem Numeral.mem_digits {cs : List Char} {n : Nat} (h : Numeral cs n) {c : Char} (hc : c ∈ cs) :
    c ∈ digits := mem_digits_iff.mpr (h.isDigit_of_mem hc)

private theorem mapM_digit?_eq_none_iff {cs : List Char} :
    cs.mapM digit? = none ↔ ∃ c ∈ cs, digit? c = none := by
  induction cs with
  | nil => simp
  | cons c cs ih =>
    simp only [List.mapM_cons, List.mem_cons, exists_eq_or_imp, ← ih]
    cases digit? c with
    | none => simp
    | some d => cases cs.mapM digit? <;> simp

/-- A text is refused if it has no characters, or one that is no digit. -/
theorem read?_eq_none_iff {cs : List Char} : read? cs = none ↔ cs = [] ∨ ∃ c ∈ cs, c ∉ digits := by
  have hd : ∀ c, digit? c = none ↔ c ∉ digits := by
    intro c
    simp only [mem_digits_iff, ← digit?_eq_some_iff, ← Option.isSome_iff_exists,
      Option.not_isSome_iff_eq_none]
  unfold read?
  split
  · next h => simp [h]
  · next h => simp only [Option.map_eq_none_iff, mapM_digit?_eq_none_iff, hd, h, false_or]

/-! ## Writing -/

theorem isDigit_toUpper_digitChar {d : Nat} (hd : d < 16) : IsDigit d.digitChar.toUpper d := by
  interval_cases d <;> exact .inr rfl

/-- The digits of a number are a numeral of it. -/
theorem numeral_toDigits (n : Nat) : Numeral ((Nat.toDigits 16 n).map Char.toUpper) n := by
  induction n using Nat.strongRecOn with
  | ind n ih =>
    rcases Nat.lt_or_ge n 16 with hn | hn
    · rw [Nat.toDigits_of_lt_base hn]
      exact .digit (isDigit_toUpper_digitChar hn)
    · have hd := isDigit_toUpper_digitChar (Nat.mod_lt n (by decide : 16 > 0))
      have h := (ih (n / 16) (Nat.div_lt_self (by omega) (by decide))).snoc hd
      rwa [Nat.div_add_mod, ← List.map_singleton, ← List.map_append,
        ← Nat.toDigits_of_base_le (by decide) hn] at h

/-- A zero in front of a numeral changes nothing. -/
theorem Numeral.zero_cons {cs : List Char} {n : Nat} (h : Numeral cs n) :
    Numeral ('0' :: cs) n := by
  induction h with
  | digit hd => simpa using (Numeral.digit (.inl rfl : IsDigit '0' 0)).snoc hd
  | snoc _ hd ih => exact ih.snoc hd

theorem Numeral.pad {cs : List Char} {n : Nat} (h : Numeral cs n) (width : Nat) :
    Numeral (pad width cs) n := by
  unfold Hex.pad
  induction width - cs.length with
  | zero => exact h
  | succ k ih => exact ih.zero_cons

/-- A number is written as a numeral of it. -/
theorem numeral_write (width n : Nat) : Numeral (write width n) n := (numeral_toDigits n).pad width

end PropertyTable.Text.Hex
