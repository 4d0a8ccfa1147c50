/-!
Parts of a text by byte offset.
-/

namespace ArrayShapes.Text

/-- The text from byte `start` up to byte `stop`; nothing when either offset is past the end or
inside a character, or when they are out of order. -/
def slice? (s : String) (start stop : Nat) : Option String :=
  if h : (String.Pos.Raw.mk start).IsValid s ∧ (String.Pos.Raw.mk stop).IsValid s ∧ start ≤ stop then
    some (s.extract ⟨_, h.1⟩ ⟨_, h.2.1⟩)
  else
    none

/-- Like `slice?`, with the empty text for what cannot be cut. -/
def slice (s : String) (start stop : Nat) : String := (slice? s start stop).getD ""

end ArrayShapes.Text
