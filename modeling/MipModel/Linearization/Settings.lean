import MipModel.Scalar.Basic

/-!
# Settings of the linearizer

Some encodings switch rows off by a large constant. It is derived from the bounds of the variables
involved where these are known, and taken from the settings otherwise. The context keeps the
auxiliaries of different parts of a model apart.
-/

namespace MipModel

/-- How nonlinear expressions are encoded. -/
structure Settings (α : Type) where
  /-- The constant that switches rows off where none can be derived. -/
  bigM : α
  /-- Whether constants are derived from bounds. -/
  deriveBigM : Bool
  /-- The part of the model that auxiliaries belong to. -/
  context : String
  deriving DecidableEq, Repr

namespace Settings

variable {α : Type}

/-- A million, derivation, and no context. -/
def standard [Scalar α] : Settings α := ⟨Scalar.ofInt 1000000, true, ""⟩

/-- The same settings for a part of the model within the present one. -/
def tagged (s : Settings α) (tag : String) : Settings α :=
  { s with context := if s.context.isEmpty then tag else s.context ++ "_" ++ tag }

end Settings
end MipModel
