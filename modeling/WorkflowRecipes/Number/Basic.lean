import WorkflowRecipes.Number.Binary64
import WorkflowRecipes.Number.Shortest

/-!
# Numbers of a document

A number is an integer or a floating point number; the integer `1` and the float `1.0` differ.
-/

namespace WorkflowRecipes

/-- A number as a document holds it. -/
inductive Number where
  | integer (value : Int)
  | float (value : Binary64)
  deriving Repr, DecidableEq, Inhabited

namespace Number

/-- Sameness of numbers: by value, and never between an integer and a float. -/
def same : Number → Number → Bool
  | .integer a, .integer b => a == b
  | .float a, .float b => a.same b
  | _, _ => false

/-- The integers a document can hold: those of 64 bits, signed or unsigned. -/
def InRange (i : Int) : Prop := -0x8000000000000000 ≤ i ∧ i < 0x10000000000000000

instance (i : Int) : Decidable (InRange i) := inferInstanceAs (Decidable (_ ∧ _))

/-- The text of a number. -/
def text : Number → String
  | .integer i => toString i
  | .float x => x.text

end Number

end WorkflowRecipes
