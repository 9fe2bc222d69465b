/-! # Computations that can fail

* `exists_ok_of_isOk`: the result of a computation that goes well;
* `exists_ok_of_bind`, `exists_ok_of_map`: what went well before the result of a computation. -/

namespace MidiChords

variable {ε α β : Type} {x : Except ε α} {b : β}

theorem exists_ok_of_bind {f : α → Except ε β} (h : x >>= f = .ok b) :
    ∃ a, x = .ok a ∧ f a = .ok b := by
  cases x with
  | error e => contradiction
  | ok a => exact ⟨a, rfl, h⟩

theorem exists_ok_of_map {f : α → β} (h : f <$> x = .ok b) : ∃ a, x = .ok a ∧ f a = b := by
  cases x with
  | error e => contradiction
  | ok a => exact ⟨a, rfl, Except.ok.inj h⟩

end MidiChords
