/-!
# Floating point numbers of 64 bits

`Binary64` holds a number as its sign, significand and exponent, so every operation here is exact
arithmetic on `Nat` and `Int`. `ofDecimal` rounds a decimal to the nearest such number, a tie going
to the even significand.
-/

namespace WorkflowRecipes

/-- A floating point number: `finite s m q` stands for `± m · 2 ^ q`. -/
inductive Binary64 where
  | finite (negative : Bool) (significand : Nat) (exponent : Int)
  | infinite (negative : Bool)
  | nan
  deriving Repr, DecidableEq, Inhabited

namespace Binary64

/-- The least exponent of a finite number. -/
def leastExponent : Int := -1074

/-- The greatest exponent of a finite number. -/
def greatestExponent : Int := 971

/-- The least significand of full length, which has 53 bits. -/
def leastFull : Nat := 1 <<< 52

/-- A power of ten. -/
def tenTo (n : Nat) : Nat := Nat.pow 10 n

/-- Two numbers are the same when they are equal or both zero; one not-a-number is like another. -/
def same : Binary64 → Binary64 → Bool
  | .finite s m q, .finite s' m' q' => (m == 0 && m' == 0) || (s == s' && m == m' && q == q')
  | .infinite s, .infinite s' => s == s'
  | .nan, .nan => true
  | _, _ => false

/-- A ratio of naturals rounded to the nearest natural, a tie going to the even one. -/
def roundRatio (num den : Nat) : Nat :=
  let floor := num / den
  let rest := 2 * (num % den)
  if rest < den then floor
  else if den < rest then floor + 1
  else if floor % 2 = 0 then floor
  else floor + 1

/-- The ratio `num / den · 2 ^ (-q)` as a numerator and a denominator. -/
def scaled (num den : Nat) (q : Int) : Nat × Nat :=
  (num <<< (-q).toNat, den <<< q.toNat)

/-- The number nearest to `± num / den`. -/
def ofRatio (negative : Bool) (num den : Nat) : Binary64 :=
  if num = 0 then .finite negative 0 leastExponent
  else
    let guess : Int := max ((Nat.log2 num : Int) - Nat.log2 den - 52) leastExponent
    let (n, d) := scaled num den guess
    -- The guess is one too large when the quotient starts below a full significand.
    let q := if n < d * leastFull then max (guess - 1) leastExponent else guess
    let (n, d) := scaled num den q
    let m := roundRatio n d
    -- Rounding up may carry into the next power of two.
    let (m, q) := if m = 2 * leastFull then (leastFull, q + 1) else (m, q)
    if greatestExponent < q then .infinite negative else .finite negative m q

/-- How many decimal digits a natural has; zero has one. -/
def digitCount (n : Nat) : Nat := (Nat.toDigits 10 n).length

/-- The number nearest to `± digits · 10 ^ exponent`. Decimals far outside the range are settled by
their size alone. -/
def ofDecimal (negative : Bool) (digits : Nat) (exponent : Int) : Binary64 :=
  if digits = 0 then .finite negative 0 leastExponent
  else
    let size := (digitCount digits : Int) + exponent
    if 310 < size then .infinite negative
    else if size < -330 then .finite negative 0 leastExponent
    else ofRatio negative (digits * tenTo exponent.toNat) (tenTo (-exponent).toNat)

/-- Neither infinite nor not-a-number. -/
def isFinite : Binary64 → Bool
  | .finite .. => true
  | _ => false

end Binary64

end WorkflowRecipes
