import WorkflowRecipes.Yaml.Value

/-!
# The meaning of a scalar's text

A plain scalar is null, a truth value, a number or a string by the form of its text alone.
-/

namespace WorkflowRecipes.Yaml.Scalar

/-- The texts of null; the empty text is handled where it matters. -/
def isNull (text : List Char) : Bool :=
  ["null".toList, "Null".toList, "NULL".toList, "~".toList].contains text

/-- The truth value of a text. -/
def bool? (text : List Char) : Option Bool :=
  if ["true".toList, "True".toList, "TRUE".toList].contains text then some true
  else if ["false".toList, "False".toList, "FALSE".toList].contains text then some false
  else none

/-- The value of a digit in a base of at most sixteen. -/
def digit? (base : Nat) (c : Char) : Option Nat :=
  let value? :=
    if '0' ≤ c && c ≤ '9' then some (c.toNat - '0'.toNat)
    else if 'a' ≤ c && c ≤ 'f' then some (c.toNat - 'a'.toNat + 10)
    else if 'A' ≤ c && c ≤ 'F' then some (c.toNat - 'A'.toNat + 10)
    else none
  value?.filter (· < base)

/-- The value of a text of digits, at least one. -/
def digits? (base : Nat) (text : List Char) : Option Nat :=
  if text.isEmpty then none
  else text.foldlM (fun n c => (digit? base c).map (base * n + ·)) 0

/-- A text without its sign, and whether the sign is a minus. -/
def splitSign (text : List Char) : Bool × List Char :=
  match text with
  | '-' :: rest => (true, rest)
  | '+' :: rest => (false, rest)
  | _ => (false, text)

/-- Whether a text has a leading zero with only digits after it. Such a text is no number. -/
def hasLeadingZero (text : List Char) : Bool :=
  let body := (splitSign text).2
  1 < body.length && body.head? == some '0' && body.all Char.isDigit

/-- The integer a text stands for: an optional sign, then decimal digits or digits behind `0x`, `0o`
or `0b`. -/
def integer? (text : List Char) : Option Int :=
  let (negative, body) := splitSign text
  let magnitude? := match body with
    | '0' :: 'x' :: rest => digits? 16 rest
    | '0' :: 'o' :: rest => digits? 8 rest
    | '0' :: 'b' :: rest => digits? 2 rest
    | _ => if hasLeadingZero text then none else digits? 10 body
  magnitude?.map fun n => if negative then -(n : Int) else n

/-- A power of ten behind `e` or `E`, with an optional sign. -/
def exponent? (text : List Char) : Option Int :=
  match text with
  | [] => some 0
  | c :: rest =>
    if c == 'e' || c == 'E' then
      let (negative, digits) := splitSign rest
      (digits? 10 digits).map fun n => if negative then -(n : Int) else n
    else none

/-- The finite number of a decimal: digits with a point anywhere or none, then an optional power of
ten. -/
def decimal? (text : List Char) : Option Binary64 :=
  let (negative, body) := splitSign text
  let whole := body.takeWhile Char.isDigit
  let rest := body.dropWhile Char.isDigit
  let (places, rest) := match rest with
    | '.' :: after => (after.takeWhile Char.isDigit, after.dropWhile Char.isDigit)
    | _ => ([], rest)
  (digits? 10 (whole ++ places)).bind fun digits =>
    (exponent? rest).bind fun exponent =>
      let x := Binary64.ofDecimal negative digits (exponent - places.length)
      if x.isFinite then some x else none

/-- The float a text stands for. -/
def float? (text : List Char) : Option Binary64 :=
  let infinities := [".inf".toList, ".Inf".toList, ".INF".toList]
  let unsigned := match text with
    | '+' :: rest => rest
    | _ => text
  if infinities.contains unsigned then some (.infinite false)
  else if (infinities.map ('-' :: ·)).contains text then some (.infinite true)
  else if [".nan".toList, ".NaN".toList, ".NAN".toList].contains text then some .nan
  else decimal? text

/-- The integers that are recognised but too large to hold. Beyond them a text of digits is a
float. -/
def IsOversized (i : Int) : Prop :=
  ¬ Number.InRange i ∧ -0x80000000000000000000000000000000 ≤ i ∧
    i < 0x100000000000000000000000000000000

instance (i : Int) : Decidable (IsOversized i) := inferInstanceAs (Decidable (_ ∧ _))

/-- What a plain scalar means; an oversized integer means nothing. -/
def plain? (text : List Char) : Option Value :=
  if text.isEmpty || isNull text then some .null
  else
    match bool? text with
    | some b => some (.bool b)
    | none =>
      let number? : Option (Option Number) :=
        match integer? text with
        | some i =>
          if Number.InRange i then some (some (.integer i))
          else if IsOversized i then none
          else some ((float? text).map .float)
        | none => some (if hasLeadingZero text then none else (float? text).map .float)
      number?.map fun
        | some n => .number n
        | none => .string (String.ofList text)

end WorkflowRecipes.Yaml.Scalar
