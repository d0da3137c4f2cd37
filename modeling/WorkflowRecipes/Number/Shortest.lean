import WorkflowRecipes.Number.Binary64

/-!
# The shortest decimal of a floating point number

A finite number stands for every real that rounds to it. Among the decimals in that interval
`Shortest.decimal` gives one with the fewest digits, and of those the nearest to the number.
`Binary64.text` and `Binary64.plainText` are the two layouts of these digits.
-/

namespace WorkflowRecipes

namespace Shortest

/-- A decimal `0.d₁d₂… · 10 ^ point`, without trailing zeros. -/
structure Decimal where
  digits : List Char
  point : Int
  deriving Repr, DecidableEq

/-- The position of the decimal point: the least `p` with `num / den < 10 ^ p`. -/
def pointOf (num den : Nat) : Int :=
  if den ≤ num then Binary64.digitCount (num / den)
  else 1 - (Binary64.digitCount ((den + num - 1) / num - 1) : Int)

/-- The ends of the interval that rounds to `m · 2 ^ q`, in units of a quarter of the last place:
below a power of two the neighbour is nearer by half. -/
def lowerQuarters (m : Nat) (q : Int) : Nat :=
  if m = Binary64.leastFull ∧ Binary64.leastExponent < q then 4 * m - 1 else 4 * m - 2

/-- The upper end of the interval, in quarters of the last place. -/
def upperQuarters (m : Nat) : Nat := 4 * m + 2

/-- Whether `c · 10 ^ e` rounds to `m · 2 ^ q`; the ends belong to the interval when `m` is even. -/
def roundsTo (m : Nat) (q : Int) (c : Nat) (e : Int) : Bool :=
  -- Compare `4 · c · 10 ^ e` with the ends times `2 ^ q`, all cleared of negative powers.
  let value := (4 * c * Binary64.tenTo e.toNat) <<< (-q).toNat
  let unit := Binary64.tenTo (-e).toNat <<< q.toNat
  let low := lowerQuarters m q * unit
  let high := upperQuarters m * unit
  if m % 2 = 0 then low ≤ value ∧ value ≤ high else low < value ∧ value < high

/-- The decimal of `m · 2 ^ q = num / den` on the grid of `count` digits, if one of the two grid
points around the number rounds to it. The nearer one wins; a tie goes to the even digit. -/
def onGrid (m : Nat) (q : Int) (num den : Nat) (point : Int) (count : Nat) : Option (Nat × Int) :=
  let e := point - count
  let n := num * Binary64.tenTo (-e).toNat
  let d := den * Binary64.tenTo e.toNat
  let low := n / d
  let high := low + 1
  let rest := 2 * (n % d)
  let lowFirst := rest < d || (rest == d && low % 2 == 0)
  let candidates := if lowFirst then [low, high] else [high, low]
  (candidates.find? fun c => roundsTo m q c e).map fun c => (c, e)

/-- The digits of a natural without its trailing zeros. -/
def significantDigits (n : Nat) : List Char :=
  ((Nat.toDigits 10 n).reverse.dropWhile (· == '0')).reverse

/-- The shortest decimal of `m · 2 ^ q` for positive `m`; seventeen digits always suffice. -/
def decimal (m : Nat) (q : Int) : Decimal :=
  let num := m <<< q.toNat
  let den := 1 <<< (-q).toNat
  let point := pointOf num den
  let found := (List.range 17).findSome? fun i => onGrid m q num den point (i + 1)
  let (c, e) := found.getD (num / den, 0)
  ⟨significantDigits c, e + Binary64.digitCount c⟩

end Shortest

namespace Binary64

/-- Zeros, `n` of them; none for a negative count. -/
private def zeros (n : Int) : List Char := List.replicate n.toNat '0'

/-- The layout that keeps a decimal place and turns to powers of ten outside `10 ^ -5 … 10 ^ 16`. -/
def layOut (d : Shortest.Decimal) : List Char :=
  let count : Int := d.digits.length
  let p := d.point
  if 0 < p ∧ p ≤ 16 then
    if count ≤ p then d.digits ++ zeros (p - count) ++ ['.', '0']
    else d.digits.take p.toNat ++ '.' :: d.digits.drop p.toNat
  else if -5 < p ∧ p ≤ 0 then '0' :: '.' :: zeros (-p) ++ d.digits
  else
    let lead := d.digits.take 1
    let tail := d.digits.drop 1
    lead ++ (if tail.isEmpty then [] else '.' :: tail) ++ 'e' :: (toString (p - 1)).toList

/-- The text of a number in a document. -/
def text : Binary64 → String
  | .nan => ".nan"
  | .infinite negative => if negative then "-.inf" else ".inf"
  | .finite negative m q =>
    let body := if m = 0 then ['0', '.', '0'] else layOut (Shortest.decimal m q)
    String.ofList (if negative then '-' :: body else body)

/-- The text of a number in a message: always positional, with at least one decimal place. -/
def plainText : Binary64 → String
  | .nan => "NaN"
  | .infinite negative => if negative then "-inf" else "inf"
  | .finite negative m q =>
    let body :=
      if m = 0 then ['0', '.', '0']
      else
        let d := Shortest.decimal m q
        let count : Int := d.digits.length
        if d.point ≤ 0 then '0' :: '.' :: zeros (-d.point) ++ d.digits
        else if count ≤ d.point then d.digits ++ zeros (d.point - count) ++ ['.', '0']
        else d.digits.take d.point.toNat ++ '.' :: d.digits.drop d.point.toNat
    String.ofList (if negative then '-' :: body else body)

end Binary64

end WorkflowRecipes
