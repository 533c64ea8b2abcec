/-!
# Attempts

An operation on some state can fail half-way and leave the state as it was at that point. An attempt is what such an
operation returns: the state it leaves, whether it succeeded or not, and its result.
-/

namespace SpanLayout

/-- The state that an operation leaves and the result it ends with. -/
structure Attempt (ε σ α : Type) where
  state : σ
  result : Except ε α

namespace Attempt

variable {ε σ τ α β : Type}

/-- An operation that succeeds. -/
def done (s : σ) (a : α) : Attempt ε σ α := ⟨s, .ok a⟩

/-- An operation that fails. -/
def fail (s : σ) (e : ε) : Attempt ε σ α := ⟨s, .error e⟩

/-- Looks at the state as part of a larger one. -/
def mapState (f : σ → τ) (x : Attempt ε σ α) : Attempt ε τ α := ⟨f x.state, x.result⟩

/-- Changes the result. -/
def mapResult (f : α → β) (x : Attempt ε σ α) : Attempt ε σ β := ⟨x.state, x.result.map f⟩

/-- Goes on with the state and the result of an operation, if it succeeded. -/
def andThen (x : Attempt ε σ α) (f : σ → α → Attempt ε σ β) : Attempt ε σ β :=
  match x.result with
  | .ok a => f x.state a
  | .error e => ⟨x.state, .error e⟩

@[simp] theorem mapState_state (f : σ → τ) (x : Attempt ε σ α) : (x.mapState f).state = f x.state := rfl

@[simp] theorem mapState_result (f : σ → τ) (x : Attempt ε σ α) : (x.mapState f).result = x.result := rfl

@[simp] theorem mapResult_state (f : α → β) (x : Attempt ε σ α) : (x.mapResult f).state = x.state := rfl

end Attempt

end SpanLayout
