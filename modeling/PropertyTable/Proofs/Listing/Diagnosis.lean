import PropertyTable.Proofs.Listing.Grammar

/-!
# What is wrong with a line

A line that is refused is refused for one reason.  An entry without a range marker is judged as a
number.  The parts before and after the first marker are judged one after another, and only if both
are numbers of the domain do they count as inverted.  What a fault quotes is the text that was
judged.
-/

namespace PropertyTable

/-- The text that a fault quotes. -/
def EntryFault.text? : EntryFault → Option String
  | notHex text | outOfDomain text => some text
  | empty | inverted _ _ => none

namespace Listing

open Text.Hex

variable {text as bs line : List Char} {fault : EntryFault}

/-! ## Numbers -/

/-- What is wrong with a text that should be a number of the domain. -/
inductive CodeFault (text : List Char) : EntryFault → Prop
  /-- The text is empty, or a character of it is no digit. -/
  | notHex : (text = [] ∨ ∃ c ∈ text, c ∉ digits) → CodeFault text (.notHex (String.ofList text))
  /-- The number lies above the domain, however far. -/
  | outOfDomain {n : Nat} : Numeral text n → CodePoint.last.toNat < n →
      CodeFault text (.outOfDomain (String.ofList text))

theorem readCode_eq_error_iff : readCode text = .error fault ↔ CodeFault text fault := by
  unfold readCode
  constructor
  · intro h
    split at h
    · next hn =>
      obtain rfl := Except.error.inj h
      exact .notHex (read?_eq_none_iff.mp hn)
    · next n hn =>
      split at h
      · cases h
      · next hl =>
        obtain rfl := Except.error.inj h
        exact .outOfDomain (read?_eq_some_iff.mp hn) (Nat.not_le.mp hl)
  · rintro (hn | ⟨hn, hl⟩)
    · rw [read?_eq_none_iff.mpr hn]
    · simp only [read?_eq_some_iff.mpr hn]
      rw [if_neg (Nat.not_le.mpr hl)]

/-- The fault of a number quotes all of it. -/
theorem CodeFault.eq_of_text? {quoted : String} (h : CodeFault text fault)
    (hq : fault.text? = some quoted) :
    quoted.toList = text := by
  cases h <;> cases hq <;> exact String.toList_ofList

/-! ## The first marker -/

/-- The parts before and after the first range marker of a text. -/
structure FirstMarker (text as bs : List Char) : Prop where
  eq_append : text = as ++ ['.', '.'] ++ bs
  length_le : ∀ as' bs', text = as' ++ ['.', '.'] ++ bs' → as.length ≤ as'.length

namespace FirstMarker

theorem occurs (h : FirstMarker text as bs) : ['.', '.'] <:+: text := ⟨as, bs, h.eq_append.symm⟩

theorem ne_nil (h : FirstMarker text as bs) : text ≠ [] := by simp [h.eq_append]

theorem unique {as' bs' : List Char} (h : FirstMarker text as bs) (h' : FirstMarker text as' bs') :
    as = as' ∧ bs = bs' := by
  have hl : as.length = as'.length :=
    Nat.le_antisymm (h.length_le as' bs' h'.eq_append) (h'.length_le as bs h.eq_append)
  have he := h.eq_append.symm.trans h'.eq_append
  rw [List.append_assoc, List.append_assoc] at he
  obtain ⟨ha, hb⟩ := List.append_inj he hl
  exact ⟨ha, List.append_cancel_left hb⟩

/-- No marker stands before the first one. -/
theorem not_occurs_before (h : FirstMarker text as bs) : ¬['.', '.'] <:+: as := by
  rintro ⟨before, after, rfl⟩
  have hl := h.length_le before (after ++ ['.', '.'] ++ bs) (by simp [h.eq_append])
  simp at hl

/-- No dot stands right before the first marker, which would begin one dot earlier. -/
theorem getLast?_ne (h : FirstMarker text as bs) : as.getLast? ≠ some '.' := by
  intro hd
  obtain ⟨before, rfl⟩ := List.getLast?_eq_some_iff.mp hd
  have hl := h.length_le before ('.' :: bs) (by simp [h.eq_append])
  simp at hl

end FirstMarker

theorem splitRange?_eq_none_iff : splitRange? text = none ↔ ¬['.', '.'] <:+: text := by
  fun_induction splitRange? text with
  | case1 => simp
  | case2 rest => simp [List.infix_cons_iff]
  | case3 c rest hne ih =>
    have hp : ¬['.', '.'] <+: c :: rest := by
      rintro ⟨after, ha⟩
      cases ha
      exact hne after rfl rfl
    rw [Option.map_eq_none_iff, ih, List.infix_cons_iff, or_iff_right hp]

/-- The reader splits an entry at its first marker. -/
theorem splitRange?_eq_some_iff : splitRange? text = some (as, bs) ↔ FirstMarker text as bs := by
  have hfirst : ∀ {text as bs}, splitRange? text = some (as, bs) → FirstMarker text as bs := by
    intro text as bs h
    refine ⟨eq_append_of_splitRange? h, ?_⟩
    fun_induction splitRange? text generalizing as bs with
    | case1 => cases h
    | case2 rest =>
      cases h
      intro as' bs' _
      exact Nat.zero_le _
    | case3 c rest hne ih =>
      obtain ⟨⟨low, high⟩, hs, h⟩ := Option.map_eq_some_iff.mp h
      cases h
      intro as' bs' he
      cases as' with
      | nil =>
        cases he
        exact absurd rfl (hne _ rfl)
      | cons a as' =>
        obtain ⟨-, he⟩ := List.cons.inj he
        exact Nat.succ_le_succ (ih hs as' bs' he)
  refine ⟨hfirst, fun h ↦ ?_⟩
  cases hs : splitRange? text with
  | none => exact absurd h.occurs (splitRange?_eq_none_iff.mp hs)
  | some p =>
    obtain ⟨rfl, rfl⟩ := h.unique (hfirst hs)
    rfl

/-! ## Lines -/

/-- What is wrong with a line, by the text of its first field, without white space, and what stands
from there on. -/
inductive Diagnosis (text rest : List Char) : EntryFault → Prop
  /-- Nothing stands before the field separator. -/
  | empty : text = [] → rest.head? = some ';' → Diagnosis text rest .empty
  /-- The text has no range marker, and is no number of the domain. -/
  | code {fault : EntryFault} : text ≠ [] → ¬['.', '.'] <:+: text → CodeFault text fault →
      Diagnosis text rest fault
  /-- The part before the first marker is no number of the domain. -/
  | low {as bs : List Char} {fault : EntryFault} : FirstMarker text as bs → CodeFault as fault →
      Diagnosis text rest fault
  /-- The part before the first marker is a number of the domain, and the part after it is not. -/
  | high {as bs : List Char} {l : CodePoint} {fault : EntryFault} : FirstMarker text as bs →
      Numeral as l.toNat → l ≤ CodePoint.last → CodeFault bs fault → Diagnosis text rest fault
  /-- Both parts are numbers of the domain, and the second one is less. -/
  | inverted {as bs : List Char} {l h : CodePoint} : FirstMarker text as bs →
      Numeral as l.toNat → Numeral bs h.toNat → h < l → l ≤ CodePoint.last →
      Diagnosis text rest (.inverted l h)

private theorem map_eq_error_iff {ε α β : Type} {f : α → β} {x : Except ε α} {e : ε} :
    f <$> x = .error e ↔ x = .error e := by
  cases x <;> simp [Functor.map, Except.map]

theorem readBounds_eq_error_iff :
    readBounds as bs = .error fault ↔ readCode as = .error fault ∨
      ∃ l, readCode as = .ok l ∧ (readCode bs = .error fault ∨
        ∃ h, readCode bs = .ok h ∧ h < l ∧ fault = .inverted l h) := by
  unfold readBounds
  cases readCode as with
  | error e => simp [bind, Except.bind]
  | ok l =>
    cases readCode bs with
    | error e => simp [bind, Except.bind]
    | ok h =>
      simp only [bind, Except.bind]
      split
      · next hlt => simp [hlt, eq_comm]
      · next hle => simp [hle]

/-- Two bounds are refused for the lower one, or else for the upper one, or else for their order. -/
theorem readBounds_eq_error_iff_diagnosis (h : FirstMarker text as bs) (rest : List Char) :
    readBounds as bs = .error fault ↔ Diagnosis text rest fault := by
  rw [readBounds_eq_error_iff]
  constructor
  · rintro (hf | ⟨l, hl, hf | ⟨u, hu, hlt, rfl⟩⟩)
    · exact .low h (readCode_eq_error_iff.mp hf)
    · obtain ⟨hn, hl⟩ := readCode_eq_ok_iff.mp hl
      exact .high h hn hl (readCode_eq_error_iff.mp hf)
    · obtain ⟨hn, hl⟩ := readCode_eq_ok_iff.mp hl
      exact .inverted h hn (readCode_eq_ok_iff.mp hu).1 hlt hl
  · intro hd
    cases hd with
    | empty hn => exact absurd hn h.ne_nil
    | code _ hm => exact absurd h.occurs hm
    | low h' hf =>
      obtain ⟨rfl, rfl⟩ := h.unique h'
      exact .inl (readCode_eq_error_iff.mpr hf)
    | high h' hn hl hf =>
      obtain ⟨rfl, rfl⟩ := h.unique h'
      exact .inr ⟨_, readCode_eq_ok_iff.mpr ⟨hn, hl⟩, .inl (readCode_eq_error_iff.mpr hf)⟩
    | inverted h' hn hn' hlt hl =>
      obtain ⟨rfl, rfl⟩ := h.unique h'
      have hu := UInt32.le_trans (UInt32.le_of_lt hlt) hl
      exact .inr ⟨_, readCode_eq_ok_iff.mpr ⟨hn, hl⟩,
        .inr ⟨_, readCode_eq_ok_iff.mpr ⟨hn', hu⟩, hlt, rfl⟩⟩

/-- A line is refused for what is wrong with it, and for nothing else. -/
theorem readEntry_eq_error_iff : readEntry line = .error fault ↔
    Diagnosis (field line) (line.dropWhile fun c ↦ c != ';' && c != '#') fault := by
  by_cases hn : field line = []
  · rw [readEntry_of_nil hn]
    constructor
    · intro hf
      split at hf
      · next hs =>
        obtain rfl := Except.error.inj hf
        exact .empty hn (hasSeparator_iff.mp hs)
      · cases hf
    · intro hd
      cases hd with
      | empty _ hs => rw [if_pos (hasSeparator_iff.mpr hs)]
      | code hne => exact absurd hn hne
      | low h | high h | inverted h => exact absurd hn h.ne_nil
  cases hs : splitRange? (field line) with
  | none =>
    rw [readEntry_of_no_marker hn hs, map_eq_error_iff, map_eq_error_iff, readCode_eq_error_iff]
    have hm := splitRange?_eq_none_iff.mp hs
    constructor
    · exact .code hn hm
    · intro hd
      cases hd with
      | empty hn' => exact absurd hn' hn
      | code _ _ hf => exact hf
      | low h | high h | inverted h => exact absurd h.occurs hm
  | some p =>
    obtain ⟨as, bs⟩ := p
    rw [readEntry_of_marker hs, map_eq_error_iff]
    exact readBounds_eq_error_iff_diagnosis (splitRange?_eq_some_iff.mp hs) _

/-- What a fault quotes is a part of the first field. -/
theorem Diagnosis.mem_of_text? {rest : List Char} (h : Diagnosis text rest fault) {quoted : String}
    (hq : fault.text? = some quoted) {c : Char} (hc : c ∈ quoted.toList) : c ∈ text := by
  cases h with
  | empty | inverted => cases hq
  | code _ _ hf => rwa [hf.eq_of_text? hq] at hc
  | low h hf =>
    rw [hf.eq_of_text? hq] at hc
    simp [h.eq_append, hc]
  | high h _ _ hf =>
    rw [hf.eq_of_text? hq] at hc
    simp [h.eq_append, hc]

/-- A field has no white space, and nothing that could end it. -/
theorem ne_of_mem_field {c : Char} (h : c ∈ field line) :
    Text.isBlank c = false ∧ c ≠ ';' ∧ c ≠ '#' := by
  rw [field_eq] at h
  have hc := List.mem_takeWhile_imp (List.mem_filter.mp h).1
  rw [Bool.and_eq_true, bne_iff_ne, bne_iff_ne] at hc
  exact ⟨Text.isBlank_of_mem_dropBlanks h, hc⟩

/-- Every line that is refused is refused for the right reason.  With the text before the first `;`
or `#`, white space aside, a line has an empty entry just if the text is empty and cut off by a
separator, and all its faults are those of the text: of the number, or of the lower bound, or else
of the upper one, or else of their order.  What a fault quotes holds no white space, separator or
comment marker; and if it is a lower bound, it holds no range marker and does not end in a dot. -/
theorem readEntry_fault_iff (line : List Char) :
    let text := (line.takeWhile fun c ↦ c != ';' && c != '#').filter fun c ↦ !Text.isBlank c
    let rest := line.dropWhile fun c ↦ c != ';' && c != '#'
    (readEntry line = .error .empty ↔ text = [] ∧ rest.head? = some ';') ∧
    (∀ fault, readEntry line = .error fault ↔ Diagnosis text rest fault) ∧
    (∀ fault quoted, readEntry line = .error fault → fault.text? = some quoted →
      ∀ c ∈ quoted.toList, Text.isBlank c = false ∧ c ≠ ';' ∧ c ≠ '#') ∧
    ∀ as bs fault quoted, FirstMarker text as bs → CodeFault as fault → fault.text? = some quoted →
      ¬['.', '.'] <:+: quoted.toList ∧ quoted.toList.getLast? ≠ some '.' := by
  intro text rest
  have hf : field line = text := field_eq line
  have hd : ∀ fault, readEntry line = .error fault ↔ Diagnosis text rest fault := by
    intro fault
    rw [readEntry_eq_error_iff, hf]
  refine ⟨?_, hd, ?_, ?_⟩
  · rw [hd]
    constructor
    · intro h
      cases h with
      | empty hn hs => exact ⟨hn, hs⟩
      | code _ _ h | low _ h | high _ _ _ h => cases h
    · rintro ⟨hn, hs⟩
      exact .empty hn hs
  · intro fault quoted h hq c hc
    have hm : c ∈ field line := by
      rw [hf]
      exact ((hd fault).mp h).mem_of_text? hq hc
    exact ne_of_mem_field hm
  · intro as bs fault quoted h hc hq
    rw [hc.eq_of_text? hq]
    exact ⟨h.not_occurs_before, h.getLast?_ne⟩

/-- An empty entry, three dots with white space among them, a lower bound of many digits before an
upper one that is no number, and inverted bounds. -/
theorem readEntry_fault_samples :
    readEntry " ; 41".toList = .error .empty ∧
    (readEntry "4 1. ..42 # x".toList = .error (.notHex ".42") ∧
      ∀ c ∈ ".42".toList, Text.isBlank c = false ∧ c ≠ ';' ∧ c ≠ '#') ∧
    (readEntry "FFFFFFFFFF..zz".toList = .error (.outOfDomain "FFFFFFFFFF") ∧
      ¬['.', '.'] <:+: "FFFFFFFFFF".toList ∧ "FFFFFFFFFF".toList.getLast? ≠ some '.') ∧
    readEntry "5A..41".toList = .error (.inverted 0x5A 0x41) := by
  have hnum : ∀ {cs n}, read? cs = some n → Numeral cs n := read?_eq_some_iff.mp
  refine ⟨?_, ?_, ?_, ?_⟩
  · exact (readEntry_fault_iff " ; 41".toList).1.mpr (by decide)
  · obtain ⟨-, hd, hq, -⟩ := readEntry_fault_iff "4 1. ..42 # x".toList
    have hm : FirstMarker "41...42".toList "41".toList ".42".toList :=
      splitRange?_eq_some_iff.mp (by decide)
    have h := (hd (.notHex ".42")).mpr
      (.high hm (l := 0x41) (hnum (by decide)) (by decide)
        (.notHex (.inr ⟨'.', by decide, by decide⟩)))
    exact ⟨h, hq _ _ h rfl⟩
  · obtain ⟨-, hd, -, hq⟩ := readEntry_fault_iff "FFFFFFFFFF..zz".toList
    have hm : FirstMarker "FFFFFFFFFF..zz".toList "FFFFFFFFFF".toList "zz".toList :=
      splitRange?_eq_some_iff.mp (by decide)
    have hf : CodeFault "FFFFFFFFFF".toList (.outOfDomain "FFFFFFFFFF") :=
      .outOfDomain (n := 0xFFFFFFFFFF) (hnum (by decide)) (by decide)
    exact ⟨(hd _).mpr (.low hm hf), hq _ _ _ _ hm hf rfl⟩
  · have hm : FirstMarker "5A..41".toList "5A".toList "41".toList :=
      splitRange?_eq_some_iff.mp (by decide)
    exact ((readEntry_fault_iff "5A..41".toList).2.1 _).mpr
      (.inverted hm (hnum (by decide)) (hnum (by decide)) (by decide) (by decide))

end Listing

end PropertyTable
