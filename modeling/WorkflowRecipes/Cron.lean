import WorkflowRecipes.Text.Blank
import WorkflowRecipes.Text.Search

/-!
# Times of scheduled runs

A schedule is an expression of five fields or one of a few macros such as `@daily`. `resolve` gives
a macro a minute, an hour and, where it needs one, a day from a source of random numbers.
-/

namespace WorkflowRecipes

/-- A source of random numbers. -/
class RandomSource (σ : Type) where
  /-- A number below `range`, made from numbers of `bits` bits, and the source after that. -/
  below : σ → Nat → Nat → Nat × σ
  below_lt : ∀ (source : σ) (bits : Nat) {range : Nat}, 0 < range →
    (below source bits range).1 < range

/-- A stream of numbers of 64 bits, each larger than the one before by a fixed step. -/
structure Draws where
  value : Nat := 0
  step : Nat := 0
  deriving Repr, DecidableEq

namespace Draws

/-- The next number of `bits` bits, the low ones of the next number of 64. -/
def next (draws : Draws) (bits : Nat) : Nat × Draws :=
  (draws.value % (1 <<< bits), { draws with value := (draws.value + draws.step) % UInt64.size })

/-- The largest low half that is accepted when a number of `bits` bits is scaled to `range`: the
multiples of `range` by a power of two that fit, less one. -/
def zone (bits range : Nat) : Nat := (range <<< (bits - 1 - Nat.log2 range)) - 1

/-- A number below `range`: the high half of the first product whose low half is in the zone. The
first argument bounds the numbers that are tried. -/
def scaled : Nat → Draws → Nat → Nat → Nat × Draws
  | 0, draws, _, _ => (0, draws)
  | tries + 1, draws, bits, range =>
    let (x, draws) := draws.next bits
    let product := x * range
    if product % (1 <<< bits) ≤ zone bits range then (product >>> bits, draws)
    else scaled tries draws bits range

/-- A number below `range` from numbers of `bits` bits. The stream repeats after `2 ^ 64` numbers,
so no more need be tried. -/
def below (draws : Draws) (bits range : Nat) : Nat × Draws := scaled UInt64.size draws bits range

theorem scaled_lt (tries : Nat) (draws : Draws) (bits : Nat) {range : Nat} (h : 0 < range) :
    (scaled tries draws bits range).1 < range := by
  induction tries generalizing draws with
  | zero => exact h
  | succ tries ih =>
    rw [scaled]
    dsimp only
    split
    · rw [Nat.shiftRight_eq_div_pow, Nat.div_lt_iff_lt_mul (Nat.two_pow_pos bits), Nat.mul_comm,
        Nat.mul_lt_mul_left h, next, Nat.one_shiftLeft]
      exact Nat.mod_lt _ (Nat.two_pow_pos bits)
    · exact ih _

instance : RandomSource Draws where
  below := below
  below_lt draws bits _ h := scaled_lt _ draws bits h

end Draws

namespace Cron

/-- The days of the week. -/
def weekdays : List String := ["sun", "mon", "tue", "wed", "thu", "fri", "sat"]

/-- The months. -/
def months : List String :=
  ["jan", "feb", "mar", "apr", "may", "jun", "jul", "aug", "sep", "oct", "nov", "dec"]

/-- The macros. -/
def macroNames : List String :=
  ["@hourly", "@daily", "@weekly", "@weekdays", "@weekends", "@monthly", "@yearly"]

/-- Whether a text is a macro. -/
def isMacro (text : String) : Bool := macroNames.contains text

/-- An expression of five fields. -/
def fields (minute hour day month weekday : String) : String :=
  " ".intercalate [minute, hour, day, month, weekday]

section Drawing

open RandomSource

variable {σ : Type} [RandomSource σ]

/-- A choice from a list. -/
def pick (names : List String) (source : σ) : String × σ :=
  let (i, source) := below source 64 names.length
  (names.getD i "", source)

/-- A day that every month has. -/
def pickDay (source : σ) : String × σ :=
  let (day, source) := below source 32 28
  (toString (day + 1), source)

/-- The expression that a macro stands for; any other text stands for itself. A minute and an hour
are drawn in every case. -/
def resolve (text : String) (source : σ) : String × σ :=
  let (minute, source) := below source 32 60
  let (hour, source) := below source 32 24
  let minute := toString minute
  let hour := toString hour
  match text with
  | "@hourly" => (fields minute "*" "*" "*" "*", source)
  | "@daily" => (fields minute hour "*" "*" "*", source)
  | "@weekly" =>
    let (weekday, source) := pick weekdays source
    (fields minute hour "*" "*" weekday, source)
  | "@weekdays" => (fields minute hour "*" "*" "1-5", source)
  | "@weekends" => (fields minute hour "*" "*" "sat,sun", source)
  | "@monthly" =>
    let (day, source) := pickDay source
    (fields minute hour day "*" "*", source)
  | "@yearly" =>
    let (day, source) := pickDay source
    let (month, source) := pick months source
    (fields minute hour day month "*", source)
  | other => (other, source)

end Drawing

/-- What can be wrong with a schedule. -/
inductive Problem where
  | unknownMacro (text : String)
  | fieldCount (text : String) (count : Nat)
  deriving Repr, DecidableEq

/-- The wording of a problem. -/
def Problem.message : Problem → String
  | .unknownMacro text => "unknown cron macro '" ++ text ++ "'"
  | .fieldCount text count =>
    "cron expression '" ++ text ++ "' has " ++ toString count ++ " fields, expected 5"

/-- The problem with a schedule, if any; the blanks around it do not matter. -/
def problem? (text : String) : Option Problem :=
  let text := trimmed text
  let count := (Text.words text.toList).length
  if isMacro text then none
  else if startsWith text "@" then some (.unknownMacro text)
  else if count ≠ 5 then some (.fieldCount text count)
  else none

end Cron

end WorkflowRecipes
