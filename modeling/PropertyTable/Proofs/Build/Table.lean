import PropertyTable.Build
import PropertyTable.Proofs.Bitmap.Packing
import PropertyTable.Proofs.Listing.Members
import PropertyTable.Proofs.TableSource.ReadBack

/-!
# The table of a listing

Making a table fails only where its listing cannot be read.  The text of a table that was made, read
back and asked as a lookup table, answers for exactly the code points that the lines of the listing
name.
-/

namespace PropertyTable.Build

theorem render_outcome_of_read {text : String} {s : CodeSet}
    (h : (Listing.read text).outcome = .ok s) (b : Build) :
    (b.render text).outcome
      = .ok ⟨s, .ofSet s, TableSource.render b.property b.language (.ofSet s)⟩ := by
  rw [render, Logged.outcome_bind_of_ok h rfl,
    Logged.outcome_bind_of_ok (Bitmap.pack_outcome s) rfl, Logged.outcome_pure]

theorem render_outcome_eq_ok_iff {b : Build} {text : String} {p : Product} :
    (b.render text).outcome = .ok p ↔ ∃ s, (Listing.read text).outcome = .ok s ∧
      p = ⟨s, .ofSet s, TableSource.render b.property b.language (.ofSet s)⟩ := by
  constructor
  · intro h
    cases hs : (Listing.read text).outcome with
    | error failure =>
      rw [render, Logged.outcome_bind_of_error hs] at h
      cases h
    | ok s =>
      rw [render_outcome_of_read hs] at h
      exact ⟨s, rfl, (Except.ok.inj h).symm⟩
  · rintro ⟨s, hs, rfl⟩
    exact render_outcome_of_read hs b

theorem exists_render_ok (b : Build) (text : String) (h : Listing.Readable (Listing.linesOf text)) :
    ∃ p, (b.render text).outcome = .ok p :=
  ⟨_, render_outcome_of_read (Listing.read_outcome_eq_ok_iff.mpr ⟨h, rfl⟩) b⟩

/-- From listing to lookup.  The text of a table lists as many groups as the domain needs, those of
the bitmap, and a lookup table over them holds a code point, in or above the domain, just if a line
of the listing names it. -/
theorem contains_readBack_iff_line {b : Build} {text : String} {p : Product}
    (h : (b.render text).outcome = .ok p) :
    ∃ groups : List UInt8, TableSource.readBack p.contents = some groups ∧
      groups.length = 25194 ∧ groups.toArray = p.bitmap.groups ∧
      ∀ c : CodePoint, Lookup.contains ⟨CodePoint.last, groups.toArray⟩ c = true ↔
        ∃ line ∈ Listing.linesOf text, ∃ r, Listing.readEntry line = .ok (some r) ∧
          r.low ≤ c ∧ c ≤ r.high := by
  obtain ⟨s, hs, rfl⟩ := render_outcome_eq_ok_iff.mp h
  refine ⟨(Bitmap.ofSet s).groups.toList, TableSource.readBack_render _ _ _, ?_,
    Array.toArray_toList, ?_⟩
  · rw [Array.length_toList, Bitmap.size_ofSet, Bitmap.groupCount_eq]
  · intro c
    rw [Array.toArray_toList]
    change (Bitmap.ofSet s).contains c = true ↔ _
    rw [Bitmap.contains_ofSet]
    exact Listing.mem_of_read hs

/-- A listing with a byte order mark, both ends of lines, a comment and the last code point. -/
theorem contains_readBack_marked_listing :
    ∃ p groups, ((Build.mk .xidStart .rust "." ".").render
        "\uFEFF0041..005A ; XID_Start\r\n# end\n\n3134a").outcome = .ok p ∧
      TableSource.readBack p.contents = some groups ∧ groups.length = 25194 ∧
      ∀ c, Lookup.contains ⟨CodePoint.last, groups.toArray⟩ c = true ↔
        0x41 ≤ c ∧ c ≤ 0x5A ∨ 0x3134A ≤ c ∧ c ≤ 0x3134A := by
  obtain ⟨text, ht⟩ : ∃ text, text = "\uFEFF0041..005A ; XID_Start\r\n# end\n\n3134a" := ⟨_, rfl⟩
  have hr : Listing.Readable (Listing.linesOf text) := by
    rw [ht]
    decide +kernel
  have hm : Listing.rangesOf (Listing.linesOf text) = [.range 0x41 0x5A, .point 0x3134A] := by
    rw [ht]
    decide +kernel
  have h := render_outcome_of_read (Listing.read_outcome_eq_ok_iff.mpr ⟨hr, rfl⟩)
    (Build.mk .xidStart .rust "." ".")
  obtain ⟨groups, hb, hn, -, hc⟩ := contains_readBack_iff_line h
  rw [← ht]
  refine ⟨_, groups, h, hb, hn, fun c ↦ (hc c).trans ?_⟩
  constructor
  · rintro ⟨line, hl, r, hr, hc⟩
    have hr := Listing.mem_rangesOf.mpr ⟨line, hl, hr⟩
    rw [hm, List.mem_pair] at hr
    rcases hr with rfl | rfl
    · exact .inl hc
    · exact .inr hc
  · have hp : ∀ r ∈ [.range 0x41 0x5A, .point 0x3134A],
        ∃ line ∈ Listing.linesOf text, Listing.readEntry line = .ok (some r) := by
      intro r hr
      rw [← hm] at hr
      exact Listing.mem_rangesOf.mp hr
    rintro (hc | hc)
    · obtain ⟨line, hl, hr⟩ := hp (.range 0x41 0x5A) (by decide)
      exact ⟨line, hl, _, hr, hc⟩
    · obtain ⟨line, hl, hr⟩ := hp (.point 0x3134A) (by decide)
      exact ⟨line, hl, _, hr, hc⟩

end PropertyTable.Build
