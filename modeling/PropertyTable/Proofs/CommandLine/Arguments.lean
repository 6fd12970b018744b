import PropertyTable.CommandLine

/-!
# What arguments can ask for

Whatever the arguments are, a request for a build has its property from one of them, and where they
ask for no build, the reason stands in them too: a word that names no property, or a switch that
asks for a text about the program.  Both follow from what taking a single argument keeps.  So
arguments that neither name a property nor ask for a text are a fault of usage.
-/

namespace PropertyTable.CommandLine

open Program (Stop)

/-! ## Both outcomes -/

/-- A stage that takes arguments refuses them only for some reasons, and goes on only with some
results. -/
def Yields {α : Type} (refused : Refusal → Prop) (went : α → Prop) : Except Refusal α → Prop
  | .ok a => went a
  | .error refusal => refused refusal

namespace Yields

variable {α β : Type} {refused : Refusal → Prop} {went : α → Prop} {went' : β → Prop}

theorem bind {x : Except Refusal α} {f : α → Except Refusal β} (hx : Yields refused went x)
    (hf : ∀ a, went a → Yields refused went' (f a)) : Yields refused went' (x >>= f) := by
  cases x with
  | error refusal => exact hx
  | ok a => exact hf a hx

/-- What every step keeps, all steps together keep. -/
theorem foldlM {f : α → β → Except Refusal α} {bs : List β}
    (hf : ∀ b ∈ bs, ∀ a, went a → Yields refused went (f a b)) {a : α} (ha : went a) :
    Yields refused went (bs.foldlM f a) := by
  induction bs generalizing a with
  | nil => exact ha
  | cons b bs ih =>
    rw [List.foldlM_cons]
    apply bind (hf b List.mem_cons_self a ha)
    intro a' ha'
    exact ih (fun b' hb' ↦ hf b' (List.mem_cons_of_mem b hb')) ha'

end Yields

/-! ## One argument -/

/-- Whether an argument asks for a text about the program. -/
def asksForText (text : String) : Bool :=
  match Word.ofText text with
  | .switch .help none | .switch .version none => true
  | .cluster letters => letters.any fun l ↦ l == Switch.help.letter || l == Switch.version.letter
  | _ => false

/-- The reason for a refusal stands in the arguments: the word that names no property, or the
argument that asks for a text. -/
def Refusal.Grounded (arguments : List String) : Refusal → Prop
  | .usage (.invalidProperty text) => text ∈ arguments ∧ Property.ofText? text = none
  | .usage _ => True
  | .shortHelp | .longHelp | .version => ∃ text ∈ arguments, asksForText text = true

/-- What the arguments so far have said of the property comes from one of them. -/
structure Scan.Grounded (arguments : List String) (s : Scan) : Prop where
  property : ∀ p, s.property = some p → ∃ text ∈ arguments, Property.ofText? text = some p
  pending : ∀ text, s.pending = some (.property text) → text ∈ arguments

theorem Word.eq_of_ofText_eq_plain {text text' : String} (h : Word.ofText text = .plain text') :
    text' = text := by
  unfold Word.ofText at h
  split at h
  · cases h
  · unfold Word.ofName at h
    simp only at h
    split at h
    · cases h
    · split at h <;> cases h
  · cases h
  · exact (Word.plain.inj h).symm

namespace Scan.Grounded

variable {arguments : List String} {s : Scan}

theorem start : Grounded arguments {} := ⟨nofun, nofun⟩

/-- Settings say nothing of the property. -/
theorem assign (hs : s.Grounded arguments) (setting : Setting) (value : String) :
    Yields (Refusal.Grounded arguments) (Grounded arguments)
      ((s.assign setting value).mapError .usage) := by
  cases setting with
  | format =>
    simp only [Scan.assign]
    split
    · trivial
    split
    · trivial
    split
    · exact ⟨hs.property, hs.pending⟩
    · trivial
  | inputDir | outputDir =>
    simp only [Scan.assign]
    split
    · trivial
    split
    · trivial
    · exact ⟨hs.property, hs.pending⟩

/-- A word that is checked names the property, or it is the reason to refuse. -/
theorem settled (hs : s.Grounded arguments) :
    Yields (Refusal.Grounded arguments) (Grounded arguments) s.settled := by
  unfold Scan.settled Scan.settle
  split
  · exact hs
  · trivial
  · next setting value _ =>
    have hs' : Grounded arguments { s with pending := none } := ⟨hs.property, nofun⟩
    exact hs'.assign setting value
  · next text hp =>
    have htext := hs.pending text hp
    split
    · next p hn =>
      refine ⟨fun q hq ↦ ⟨text, htext, ?_⟩, nofun⟩
      rw [hn, ← hq]
    · next hn => exact ⟨htext, hn⟩

theorem takeProperty (hs : s.Grounded arguments) {text : String} (ht : text ∈ arguments) :
    Yields (Refusal.Grounded arguments) (Grounded arguments) (s.takeProperty text) := by
  unfold Scan.takeProperty
  split
  · trivial
  · apply hs.settled.bind
    intro s' hs'
    refine ⟨hs'.property, fun text' h ↦ ?_⟩
    obtain rfl := Pending.property.inj (Option.some.inj h)
    exact ht

theorem takePlain (hs : s.Grounded arguments) {text : String} (ht : text ∈ arguments) :
    Yields (Refusal.Grounded arguments) (Grounded arguments) (s.takePlain text) := by
  unfold Scan.takePlain
  split
  · exact ⟨hs.property, nofun⟩
  · exact hs.takeProperty ht

/-- A switch asks for a text, or for more or fewer events. -/
theorem takeSwitch (hs : s.Grounded arguments) {help : Refusal} {switch : Switch}
    (hhelp : switch = .help → help.Grounded arguments)
    (hversion : switch = .version → Refusal.version.Grounded arguments) :
    Yields (Refusal.Grounded arguments) (Grounded arguments) (s.takeSwitch help switch) := by
  unfold Scan.takeSwitch
  apply hs.settled.bind
  intro s' hs'
  cases switch with
  | verbose => exact ⟨hs'.property, hs'.pending⟩
  | quiet =>
    show Yields _ _ (if s'.quiet then _ else _)
    split
    · trivial
    · exact ⟨hs'.property, hs'.pending⟩
  | help => exact hhelp rfl
  | version => exact hversion rfl

theorem takeLetter (hs : s.Grounded arguments) {letter : Char}
    (hl : letter = Switch.help.letter ∨ letter = Switch.version.letter →
      ∃ text ∈ arguments, asksForText text = true) :
    Yields (Refusal.Grounded arguments) (Grounded arguments) (s.takeLetter letter) := by
  unfold Scan.takeLetter
  split
  · next switch hf =>
    have he : switch.letter = letter := by simpa using List.find?_some hf
    apply hs.takeSwitch
    · rintro rfl
      exact hl (.inl he.symm)
    · rintro rfl
      exact hl (.inr he.symm)
  · trivial

/-- One argument. -/
theorem take (hs : s.Grounded arguments) {text : String} (ht : text ∈ arguments) :
    Yields (Refusal.Grounded arguments) (Grounded arguments) (s.take text) := by
  unfold Scan.take
  split
  · exact hs.takeProperty ht
  split
  · exact ⟨hs.property, hs.pending⟩
  · apply hs.settled.bind
    intro s' hs'
    exact ⟨hs'.property, nofun⟩
  · next setting value _ =>
    apply hs.settled.bind
    intro s' hs'
    exact hs'.assign setting value
  · next switch hw =>
    apply hs.takeSwitch
    · rintro rfl
      exact ⟨text, ht, by rw [asksForText, hw]⟩
    · rintro rfl
      exact ⟨text, ht, by rw [asksForText, hw]⟩
  · trivial
  · next letters hw =>
    apply Yields.foldlM _ hs
    intro letter hl s' hs'
    apply hs'.takeLetter
    intro hasks
    refine ⟨text, ht, ?_⟩
    rw [asksForText, hw]
    exact List.any_eq_true.mpr ⟨letter, hl, by simpa using hasks⟩
  · trivial
  · next text' hw =>
    obtain rfl := Word.eq_of_ofText_eq_plain hw
    exact hs.takePlain ht

/-- The end of the arguments. -/
theorem finish (hs : s.Grounded arguments) :
    Yields (Refusal.Grounded arguments)
      (fun r ↦ ∃ text ∈ arguments, Property.ofText? text = some r.build.property) s.finish := by
  unfold Scan.finish
  apply hs.settled.bind
  intro s' hs'
  cases hp : s'.property with
  | none => trivial
  | some p => exact hs'.property p hp

end Scan.Grounded

/-- All arguments: a request has its property from one of them, and a refusal its reason. -/
theorem takeAll_yields (arguments : List String) :
    Yields (Refusal.Grounded arguments)
      (fun r ↦ ∃ text ∈ arguments, Property.ofText? text = some r.build.property)
        (takeAll arguments) := by
  unfold takeAll
  apply Yields.bind (Yields.foldlM _ Scan.Grounded.start)
  · intro s hs
    exact hs.finish
  · intro text ht s hs
    exact hs.take ht

/-! ## What is parsed -/

theorem parse_eq_ok_iff {arguments : List String} {r : Program.Request} :
    parse arguments = .ok r ↔ takeAll arguments = .ok r := by
  unfold parse
  cases takeAll arguments with
  | ok r' => exact ⟨fun h ↦ congrArg _ (Except.ok.inj h), fun h ↦ congrArg _ (Except.ok.inj h)⟩
  | error refusal => exact ⟨nofun, nofun⟩

theorem parse_eq_error_iff {arguments : List String} {stop : Stop} :
    parse arguments = .error stop ↔
      ∃ refusal, takeAll arguments = .error refusal ∧ refusal.stop = stop := by
  unfold parse
  cases takeAll arguments with
  | ok r => exact ⟨nofun, fun ⟨_, h, _⟩ ↦ nomatch h⟩
  | error refusal =>
    constructor
    · exact fun h ↦ ⟨refusal, rfl, Except.error.inj h⟩
    · rintro ⟨_, h, rfl⟩
      obtain rfl := Except.error.inj h
      rfl

/-- The texts about the program are the only ones that are not said on the standard error. -/
theorem usesErrorStream_of_parse {arguments : List String} {stop : Stop}
    (h : parse arguments = .error stop) :
    stop.usesErrorStream = false ↔ stop.kind = .help ∨ stop.kind = .version := by
  obtain ⟨refusal, -, rfl⟩ := parse_eq_error_iff.mp h
  cases refusal <;> simp [Refusal.stop]

/-- Arguments that name no property, and do not ask for a text, are a fault of usage. -/
theorem exists_usage_of_no_property {arguments : List String}
    (hp : ∀ text ∈ arguments, Property.ofText? text = none)
    (ht : ∀ text ∈ arguments, asksForText text = false) :
    ∃ stop, parse arguments = .error stop ∧ stop.kind = .usage := by
  have hy := takeAll_yields arguments
  have hno : ¬∃ text ∈ arguments, asksForText text = true := by
    rintro ⟨text, hm, hasks⟩
    rw [ht text hm] at hasks
    cases hasks
  cases h : takeAll arguments with
  | ok r =>
    rw [h] at hy
    obtain ⟨text, hm, hn⟩ := hy
    rw [hp text hm] at hn
    cases hn
  | error refusal =>
    rw [h] at hy
    cases refusal with
    | usage fault => exact ⟨_, parse_eq_error_iff.mpr ⟨_, h, rfl⟩, rfl⟩
    | shortHelp | longHelp | version => exact absurd hy hno

end PropertyTable.CommandLine
