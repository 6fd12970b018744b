import Mathlib.Data.Set.Function
import PropertyTable.Proofs.CodeSet.Refinement

/-!
# Packing and decoding undo each other

Bitmaps of the right size without bits above the domain are the canonical ones.  Packing takes the
sets that operations lead to onto them, one to one, and decoding is its inverse in both directions.
-/

namespace PropertyTable.Bitmap

/-- A bitmap has all its groups, and the five bits of the last one that lie above the domain are
clear. -/
structure Canonical (b : Bitmap) : Prop where
  size_groups : b.groups.size = groupCount
  back_and : ∀ g ∈ b.groups.back?, g &&& 0xF8 = 0

/-- The last group covers three code points of the domain. -/
private theorem groupBit_last {groups : Array UInt8} (hs : groups.size = groupCount) {g : UInt8}
    (hg : g ∈ groups.back?) {i : Nat} (hi : i < 8) :
    groupBit groups (CodePoint.last.toNat - 2 + i) = g.toNat.testBit i := by
  rw [Option.mem_def, Array.back?_eq_getElem?, hs] at hg
  exact groupBit_of_getElem? hg hi

private theorem testBit_high : ∀ i < 8, (0xF8 : UInt8).toNat.testBit i = decide (3 ≤ i) := by decide

/-- The five high bits of a byte are clear. -/
theorem and_high_eq_zero_iff {g : UInt8} :
    g &&& 0xF8 = 0 ↔ ∀ i < 8, 3 ≤ i → g.toNat.testBit i = false := by
  constructor
  · intro h i hi hl
    have hz : (g &&& 0xF8).toNat.testBit i = false := by
      rw [h]
      exact Nat.zero_testBit i
    rwa [UInt8.toNat_and, Nat.testBit_and, testBit_high i hi, decide_eq_true hl,
      Bool.and_true] at hz
  · intro h
    rw [← UInt8.toNat_inj]
    apply Nat.eq_of_testBit_eq
    intro i
    rw [UInt8.toNat_and, Nat.testBit_and, UInt8.toNat_zero, Nat.zero_testBit]
    rcases Nat.lt_or_ge i 8 with hi | hi
    · rw [testBit_high i hi]
      rcases Nat.lt_or_ge i 3 with hl | hl
      · rw [decide_eq_false (Nat.not_le.mpr hl), Bool.and_false]
      · rw [h i hi hl, Bool.false_and]
    · rw [testBit_byte_of_le g hi, Bool.false_and]

/-- The bits above the domain are clear if those of the last group are. -/
theorem canonical_iff {b : Bitmap} : b.Canonical ↔
    b.groups.size = groupCount ∧ ∀ n, groupBit b.groups n = true → n ≤ CodePoint.last.toNat := by
  constructor
  · rintro ⟨hs, hb⟩
    refine ⟨hs, fun n hn ↦ ?_⟩
    by_contra hl
    rw [Nat.not_le] at hl
    -- A bit above the domain lies in the last group, where the canonical bitmap has none.
    have hn' : n < 8 * b.groups.size := by
      by_contra h
      rw [groupBit_of_le (Nat.not_lt.mp h)] at hn
      cases hn
    obtain ⟨i, rfl⟩ : ∃ i, n = CodePoint.last.toNat - 2 + i := Nat.exists_eq_add_of_le (by omega)
    rw [CodePoint.toNat_last] at hl
    rw [hs, groupCount_eq, CodePoint.toNat_last] at hn'
    obtain ⟨g, hg⟩ : ∃ g, b.groups.back? = some g := by
      rw [Array.back?_eq_getElem?, hs]
      exact ⟨_, Array.getElem?_eq_getElem (by rw [hs, groupCount_eq]; omega)⟩
    have hi : i < 8 := by omega
    rw [groupBit_last hs hg hi, and_high_eq_zero_iff.mp (hb g hg) i hi (by omega)] at hn
    cases hn
  · rintro ⟨hs, hl⟩
    refine ⟨hs, fun g hg ↦ and_high_eq_zero_iff.mpr ?_⟩
    intro i hi hi'
    rw [← groupBit_last hs hg hi, Bool.eq_false_iff]
    intro h
    have := hl _ h
    rw [CodePoint.toNat_last] at this
    omega

/-- Packing gives canonical bitmaps. -/
theorem canonical_ofSet (s : CodeSet) : (ofSet s).Canonical :=
  canonical_iff.mpr ⟨size_ofSet s, fun n hn ↦ Nat.le_of_lt_succ ((groupBit_ofSet s n).mp hn).1⟩

theorem decode_ofSet {s : CodeSet} (hs : s.WellFormed) : (ofSet s).decode = s := by
  refine (wellFormed_decode _).ext hs fun c ↦ ?_
  rw [mem_decode, contains_ofSet]
  rfl

theorem ofSet_decode {b : Bitmap} (hb : b.Canonical) : ofSet b.decode = b := by
  obtain ⟨hs, hl⟩ := canonical_iff.mp hb
  refine Bitmap.ext (eq_of_groupBit_eq ((size_ofSet _).trans hs.symm) fun n ↦ ?_)
  rw [Bool.eq_iff_iff, groupBit_ofSet, mem_decode, contains_iff]
  constructor
  · rintro ⟨hn, -, h⟩
    rwa [CodePoint.toNat_ofNat hn] at h
  · intro h
    have hn := Nat.lt_succ_of_le (hl n h)
    exact ⟨hn, CodePoint.ofNat_le_last hn, by rwa [CodePoint.toNat_ofNat hn]⟩

theorem ofSet_inj {s t : CodeSet} (hs : s.WellFormed) (ht : t.WellFormed) :
    ofSet s = ofSet t ↔ s = t := by
  constructor
  · intro h
    rw [← decode_ofSet hs, h, decode_ofSet ht]
  · rintro rfl
    rfl

/-- Packing and decoding undo each other.  Every reachable set is packed, and decoding the groups
gives the very set back, its stored size included; every list of groups of the right length, with
the bits above the domain clear, comes out of packing what it decodes to.  So packing is a bijection
of reachable sets and such groups, and packed tables are equal just if their sets are. -/
theorem pack_decode_inverse :
    (∀ s : CodeSet, s.Reachable → ∃ b, (pack s).outcome = .ok b ∧ b.decode = s) ∧
    (∀ groups : Array UInt8, groups.size = groupCount → (∀ g ∈ groups.back?, g &&& 0xF8 = 0) →
      (pack (decode ⟨groups⟩)).outcome = .ok ⟨groups⟩) ∧
    Set.BijOn (fun s ↦ (pack s).outcome) {s | s.Reachable} {o | ∃ b, Canonical b ∧ o = .ok b} ∧
    (∀ s t : CodeSet, s.Reachable → t.Reachable → ∀ a b, (pack s).outcome = .ok a →
      (pack t).outcome = .ok b → (a = b ↔ s = t)) := by
  have hinj : ∀ s t : CodeSet, s.Reachable → t.Reachable → (ofSet s = ofSet t ↔ s = t) := by
    rintro s t ⟨_, hs⟩ ⟨_, ht⟩
    exact ofSet_inj hs.wellFormed ht.wellFormed
  simp only [pack_outcome, Except.ok.injEq]
  refine ⟨?_, ?_, ⟨?_, ?_, ?_⟩, ?_⟩
  · rintro s ⟨_, hs⟩
    exact ⟨ofSet s, rfl, decode_ofSet hs.wellFormed⟩
  · intro groups hs hb
    exact ofSet_decode ⟨hs, hb⟩
  · intro s _
    exact ⟨ofSet s, canonical_ofSet s, rfl⟩
  · intro s hs t ht h
    exact (hinj s t hs ht).mp (Except.ok.inj h)
  · rintro _ ⟨b, hb, rfl⟩
    exact ⟨b.decode, ⟨_, .decode b⟩, congrArg Except.ok (ofSet_decode hb)⟩
  · rintro s t hs ht _ _ rfl rfl
    exact hinj s t hs ht

/-- The last code point of the domain and one above it, and the groups of the whole domain. -/
theorem pack_decode_domain_edge :
    (∃ b, (pack (.ofList [0x41, 0x3134A, 0x3134B])).outcome = .ok b ∧
      b.decode = .ofList [0x41, 0x3134A, 0x3134B]) ∧
    (pack (decode ⟨(Array.replicate 25193 0xFF).push 0x07⟩)).outcome
      = .ok ⟨(Array.replicate 25193 0xFF).push 0x07⟩ := by
  obtain ⟨hs, hg, -⟩ := pack_decode_inverse
  refine ⟨hs _ ⟨_, .ofList _⟩, hg _ ?_ ?_⟩
  · rw [Array.size_push, Array.size_replicate, groupCount_eq]
  · intro g h
    rw [Array.back?_push, Option.mem_def, Option.some.injEq] at h
    subst h
    decide

end PropertyTable.Bitmap
