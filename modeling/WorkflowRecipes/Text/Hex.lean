/-!
# Digits of base sixteen
-/

namespace WorkflowRecipes.Text

/-- A digit of base sixteen, in small letters. -/
def hexDigit (n : Nat) : Char := ("0123456789abcdef".toList)[n % 16]?.getD '0'

/-- A number in `width` digits of base sixteen. -/
def hexText : Nat → Nat → List Char
  | 0, _ => []
  | width + 1, n => hexText width (n / 16) ++ [hexDigit n]

theorem length_hexText (width n : Nat) : (hexText width n).length = width := by
  induction width generalizing n with
  | zero => rfl
  | succ width ih => simp [hexText, ih]

/-- A number in `width` digits of base sixteen, in large letters. -/
def largeHexText (width n : Nat) : List Char := (hexText width n).map Char.toUpper

example : String.ofList (hexText 4 0xAB) = "00ab" ∧ String.ofList (largeHexText 2 0xAB) = "AB" := by
  decide

end WorkflowRecipes.Text
