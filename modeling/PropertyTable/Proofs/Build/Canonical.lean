import PropertyTable.Proofs.Bitmap.Inverse
import PropertyTable.Proofs.Build.Table
import PropertyTable.Proofs.Listing.Rephrasing

/-!
# One text for each set

The text of a table is a normal form of what its listing names: listings in other words give the
same text to the byte, and listings that differ in a single code point give different texts.
-/

namespace PropertyTable.Build

/-- The texts of two tables are equal if they are for one property, in one language, and of equal
sets. -/
theorem contents_eq_iff_of_set {a b : Build} {text text' : String} {p q : Product}
    (hp : (a.render text).outcome = .ok p) (hq : (b.render text').outcome = .ok q) :
    p.contents = q.contents ↔
      a.property = b.property ∧ a.language = b.language ∧ p.set = q.set := by
  obtain ⟨s, hs, rfl⟩ := render_outcome_eq_ok_iff.mp hp
  obtain ⟨t, ht, rfl⟩ := render_outcome_eq_ok_iff.mp hq
  rw [TableSource.render_inj,
    Bitmap.ofSet_inj (Listing.wellFormed_of_read hs) (Listing.wellFormed_of_read ht)]

theorem read_of_render {b : Build} {text : String} {p : Product}
    (h : (b.render text).outcome = .ok p) : (Listing.read text).outcome = .ok p.set := by
  obtain ⟨s, hs, rfl⟩ := render_outcome_eq_ok_iff.mp h
  exact hs

/-- The text of a table is a normal form.  Two texts are equal just if they are for the same
property, in the same language, and of listings with the same members.  Lines in another order,
repeated, split or merged, and other comments change no byte of the text, and a code point that is
in one listing and not in the other does. -/
theorem contents_canonical (a b : Build) (text text' : String) :
    (∀ p q, (a.render text).outcome = .ok p → (b.render text').outcome = .ok q →
      (Listing.read text).outcome = .ok p.set ∧ (Listing.read text').outcome = .ok q.set ∧
      (p.contents = q.contents ↔ a.property = b.property ∧ a.language = b.language ∧
        ∀ c, p.set.contains c = q.set.contains c) ∧
      ∀ c, p.set.contains c ≠ q.set.contains c → p.contents ≠ q.contents) ∧
    (∀ p, (a.render text).outcome = .ok p → a.property = b.property → a.language = b.language →
      Relation.EqvGen Listing.Rephrase (Listing.linesOf text) (Listing.linesOf text') →
      ∃ q, (b.render text').outcome = .ok q ∧ q.contents = p.contents) := by
  constructor
  · intro p q hp hq
    have hs := read_of_render hp
    have ht := read_of_render hq
    have hiff := contents_eq_iff_of_set hp hq
    rw [(Listing.wellFormed_of_read hs).eq_iff (Listing.wellFormed_of_read ht)] at hiff
    exact ⟨hs, ht, hiff, fun c hc h ↦ hc ((hiff.mp h).2.2 c)⟩
  · intro p hp hproperty hlanguage he
    have hq := render_outcome_of_read (Listing.read_of_rephrase (read_of_render hp) he) b
    exact ⟨_, hq, ((contents_eq_iff_of_set hp hq).mpr ⟨hproperty, hlanguage, rfl⟩).symm⟩

/-- A range that is split, with its parts exchanged and a comment added, and a listing that lacks
one code point. -/
theorem contents_canonical_samples :
    let b : Build := ⟨.xidContinue, .rust, ".", "."⟩
    ∃ p q r, (b.render "0041..0043").outcome = .ok p ∧
      (b.render "# A\n42..43\n41").outcome = .ok q ∧
      (b.render "0041..0042").outcome = .ok r ∧ q.contents = p.contents ∧
      p.contents ≠ r.contents := by
  intro b
  have hl : Listing.linesOf "0041..0043" = ["0041..0043".toList] := by decide
  have hl' : Listing.linesOf "# A\n42..43\n41" = ["# A".toList, "42..43".toList, "41".toList] := by
    decide
  have hl'' : Listing.linesOf "0041..0042" = ["0041..0042".toList] := by decide
  have hp : Listing.readEntry "0041..0043".toList = .ok (some (.range 0x41 0x43)) := by decide
  have hr : Listing.readEntry "0041..0042".toList = .ok (some (.range 0x41 0x42)) := by decide
  have hsplit : Listing.Rephrase ["0041..0043".toList] ["41".toList, "42..43".toList] := by
    have hs : Listing.readEntry "41".toList = .ok (some (.point 0x41)) := by decide
    have ht : Listing.readEntry "42..43".toList = .ok (some (.range 0x42 0x43)) := by decide
    exact .split hp hs ht rfl (by decide) (by decide) rfl (by decide)
  have he : Relation.EqvGen Listing.Rephrase (Listing.linesOf "0041..0043")
      (Listing.linesOf "# A\n42..43\n41") := by
    rw [hl, hl']
    exact .trans _ _ _ (.rel _ _ hsplit)
      (.trans _ _ _ (.rel _ _ (.reorder (.swap _ _ _))) (.rel _ _ (.void (by decide))))
  obtain ⟨p, hrender⟩ := exists_render_ok b "0041..0043" (by decide)
  obtain ⟨r, hrender'⟩ := exists_render_ok b "0041..0042" (by decide)
  obtain ⟨q, hq, hqp⟩ := (contents_canonical b b _ _).2 p hrender rfl rfl he
  obtain ⟨hs, ht, -, hne⟩ := (contents_canonical b b _ _).1 p r hrender hrender'
  refine ⟨p, q, r, hrender, hq, hrender', hqp, hne 0x43 fun hc ↦ ?_⟩
  have hin : 0x43 ∈ p.set := by
    rw [Listing.mem_iff_named hs, hl, Listing.mem_named_cons_some hp]
    exact .inl (by decide)
  have hout : 0x43 ∉ r.set := by
    rw [Listing.mem_iff_named ht, hl'', Listing.mem_named_cons_some hr]
    rintro (h | ⟨_, h, -⟩)
    · exact absurd h (by decide)
    · cases h
  exact hout (CodeSet.mem_def.mpr (hc ▸ hin))

end PropertyTable.Build
