import Mathlib.Logic.Relation
import PropertyTable.Proofs.Listing.Members

/-!
# Listings in other words

The same code points can be named in many ways: lines may be put into another order, repeated, split
and merged, and comments may say anything.  Nothing of this changes what the lines name, or whether
they have a meaning.
-/

namespace PropertyTable.Listing

/-- One change to the lines of a listing.  In the other direction a split is a merge, and lines that
were added are dropped. -/
inductive Rephrase : List (List Char) → List (List Char) → Prop
  /-- The lines are put into another order. -/
  | reorder {lines lines' : List (List Char)} : lines.Perm lines' → Rephrase lines lines'
  /-- A line is repeated. -/
  | again {line : List Char} {lines : List (List Char)} :
      line ∈ lines → Rephrase lines (line :: lines)
  /-- A range is split into two, which may overlap. -/
  | split {line first second : List Char} {r s t : CodeRange} {lines : List (List Char)} :
      readEntry line = .ok (some r) → readEntry first = .ok (some s) →
        readEntry second = .ok (some t) →
      s.low = r.low → s.high ≤ r.high → r.low ≤ t.low → t.high = r.high →
      t.low.toNat ≤ s.high.toNat + 1 → Rephrase (line :: lines) (first :: second :: lines)
  /-- A line gets another comment. -/
  | comment {line line' : List Char} {lines : List (List Char)} :
      uncommented line = uncommented line' → Rephrase (line :: lines) (line' :: lines)
  /-- A blank line or a comment is added. -/
  | void {line : List Char} {lines : List (List Char)} : Void line → Rephrase lines (line :: lines)

/-! ## What lines name -/

theorem readable_congr {ls ls' : List (List Char)} (h : ∀ line, line ∈ ls ↔ line ∈ ls') :
    Readable ls ↔ Readable ls' := forall_congr' fun line ↦ imp_congr_left (h line)

theorem named_congr {ls ls' : List (List Char)} (h : ∀ line, line ∈ ls ↔ line ∈ ls') :
    named ls = named ls' := by
  ext c
  exact exists_congr fun line ↦ and_congr_left' (h line)

theorem mem_named_cons {line : List Char} {ls : List (List Char)} {c : CodePoint} :
    c ∈ named (line :: ls) ↔ (∃ r, readEntry line = .ok (some r) ∧ c ∈ r) ∨ c ∈ named ls :=
  List.exists_mem_cons_iff ..

theorem mem_named_cons_some {line : List Char} {r : CodeRange} (h : readEntry line = .ok (some r))
    {ls : List (List Char)} {c : CodePoint} : c ∈ named (line :: ls) ↔ c ∈ r ∨ c ∈ named ls := by
  rw [mem_named_cons, h]
  simp

theorem mem_named_cons_none {line : List Char} (h : readEntry line = .ok none)
    {ls : List (List Char)} {c : CodePoint} : c ∈ named (line :: ls) ↔ c ∈ named ls := by
  rw [mem_named_cons, h]
  simp

/-- Two ranges that leave no gap make up the range from the lower bound of the one to the upper
bound of the other. -/
theorem mem_iff_of_split {r s t : CodeRange} (hl : s.low = r.low) (hs : s.high ≤ r.high)
    (ht : r.low ≤ t.low) (hh : t.high = r.high) (hgap : t.low.toNat ≤ s.high.toNat + 1)
    {c : CodePoint} :
    c ∈ r ↔ c ∈ s ∨ c ∈ t := by
  simp only [CodeRange.mem_def, UInt32.le_iff_toNat_le, hl, hh] at hs ht ⊢
  omega

private theorem mem_iff_mem_cons {line : List Char} {ls : List (List Char)} (h : line ∈ ls)
    (other : List Char) : other ∈ ls ↔ other ∈ line :: ls := by
  rw [List.mem_cons, or_iff_right_of_imp]
  rintro rfl
  exact h

/-! ## Changes -/

namespace Rephrase

variable {ls ls' : List (List Char)}

/-- A change takes the meaning of no line, and gives none a meaning. -/
theorem readable_iff (h : Rephrase ls ls') : Readable ls ↔ Readable ls' := by
  cases h with
  | reorder h => exact readable_congr fun line ↦ h.mem_iff
  | again h => exact readable_congr (mem_iff_mem_cons h)
  | split hr hs ht => simp [readable_cons, hr, hs, ht]
  | comment h => rw [readable_cons, readable_cons, readEntry_congr h]
  | void h => simp [readable_cons, readEntry_eq_none_iff_void.mpr h]

/-- A change keeps the code points that are named. -/
theorem named_eq (h : Rephrase ls ls') : named ls = named ls' := by
  cases h with
  | reorder h => exact named_congr fun line ↦ h.mem_iff
  | again h => exact named_congr (mem_iff_mem_cons h)
  | split hr hs ht hl hsh htl hh hgap =>
    ext c
    rw [mem_named_cons_some hr, mem_named_cons_some hs, mem_named_cons_some ht, ← or_assoc,
      mem_iff_of_split hl hsh htl hh hgap]
  | comment h =>
    ext c
    rw [mem_named_cons, mem_named_cons, readEntry_congr h]
  | void h =>
    ext c
    rw [mem_named_cons_none (readEntry_eq_none_iff_void.mpr h)]

end Rephrase

/-- Lines that lead to each other by changes are readable together, and name the same code
points. -/
theorem readable_iff_and_named_eq {ls ls' : List (List Char)}
    (h : Relation.EqvGen Rephrase ls ls') :
    (Readable ls ↔ Readable ls') ∧ named ls = named ls' := by
  induction h with
  | rel _ _ h => exact ⟨h.readable_iff, h.named_eq⟩
  | refl _ => exact ⟨.rfl, rfl⟩
  | symm _ _ _ ih => exact ⟨ih.1.symm, ih.2.symm⟩
  | trans _ _ _ _ _ ih ih' => exact ⟨ih.1.trans ih'.1, ih.2.trans ih'.2⟩

/-- A listing in other words gives the same set. -/
theorem read_of_rephrase {text text' : String} {s : CodeSet} (h : (read text).outcome = .ok s)
    (he : Relation.EqvGen Rephrase (linesOf text) (linesOf text')) :
    (read text').outcome = .ok s := by
  obtain ⟨hr, hn⟩ := readable_iff_and_named_eq he
  obtain ⟨t, ht⟩ : ∃ t, (read text').outcome = .ok t :=
    ⟨_, read_outcome_eq_ok_iff.mpr ⟨hr.mp (read_outcome_eq_ok_iff.mp h).1, rfl⟩⟩
  have hst : s = t := (wellFormed_of_read h).ext (wellFormed_of_read ht) fun c ↦ by
    rw [mem_iff_named h, hn, mem_iff_named ht]
  rwa [hst]

end PropertyTable.Listing
