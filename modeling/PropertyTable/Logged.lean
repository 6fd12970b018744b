import PropertyTable.Failure
import PropertyTable.Journal

/-!
# Work with a journal

Work that may fail and that keeps a journal.  The events before a failure stay in the journal, and
there are none after it.
-/

namespace PropertyTable

/-- The events of some work, in order, and how it ended. -/
structure Logged (α : Type) where
  /-- What happened, in order. -/
  events : List Event
  /-- The result, or why there is none. -/
  outcome : Except Failure α

namespace Logged

variable {α β : Type} {m : Type → Type}

/-- A result without events. -/
def ok (a : α) : Logged α := ⟨[], .ok a⟩

/-- A failure without events. -/
def fail (failure : Failure) : Logged α := ⟨[], .error failure⟩

/-- A single event. -/
def note (event : Event) : Logged Unit := ⟨[event], .ok ()⟩

/-- Events that come first. -/
def after (events : List Event) (x : Logged α) : Logged α := ⟨events ++ x.events, x.outcome⟩

/-- Work is done in order and stops at the first failure. -/
instance : Monad Logged where
  pure := ok
  bind x next := match x.outcome with
    | .ok a => after x.events (next a)
    | .error failure => ⟨x.events, .error failure⟩

/-- Goes on with work that has effects, unless this one failed. -/
def andThen [Monad m] (x : Logged α) (next : α → m (Logged β)) : m (Logged β) :=
  match x.outcome with
  | .ok a => after x.events <$> next a
  | .error failure => pure ⟨x.events, .error failure⟩

@[simp] theorem events_pure (a : α) : (pure a : Logged α).events = [] := rfl

@[simp] theorem outcome_pure (a : α) : (pure a : Logged α).outcome = .ok a := rfl

/-- The journal of two steps is the first one's, then, if it ended well, the second one's. -/
theorem events_bind (x : Logged α) (f : α → Logged β) :
    (x >>= f).events = x.events ++ (match x.outcome with
      | .ok a => (f a).events
      | .error _ => []) := by
  rcases x with ⟨events, failure | a⟩
  · exact (List.append_nil events).symm
  · rfl

/-- Two steps end as the second one does, unless the first one fails. -/
theorem outcome_bind (x : Logged α) (f : α → Logged β) :
    (x >>= f).outcome = x.outcome.bind fun a ↦ (f a).outcome := by
  rcases x with ⟨_, failure | a⟩ <;> rfl

/-- Two steps end as the second one does.  The second step is named apart from `f a`, so that it
need not be computed to be recognised. -/
theorem outcome_bind_of_ok {x : Logged α} {a : α} {f : α → Logged β} {y : Logged β}
    (h : x.outcome = .ok a) (hf : f a = y) : (x >>= f).outcome = y.outcome := by
  rw [outcome_bind, h, ← hf]
  rfl

theorem outcome_bind_of_error {x : Logged α} {failure : Failure} (h : x.outcome = .error failure)
    (f : α → Logged β) : (x >>= f).outcome = .error failure := by
  rw [outcome_bind, h]
  rfl

end Logged

end PropertyTable
