import WorkflowRecipes.Text.Search

/-!
# Moments

The text of a moment: date and time of day in universal time, as in `2024-02-29T23:59:59Z`. The days
are counted in eras of 400 years that start on the first of March, so that a leap day is the last of
its year.
-/

namespace WorkflowRecipes.Moment

/-- Digits with zeros in front. -/
def padded (width n : Nat) : String :=
  let digits := toString n
  String.ofList (List.replicate (width - digits.length) '0') ++ digits

/-- The year, month and day of a day that is counted from 1970-01-01. -/
def date (day : Nat) : Nat × Nat × Nat :=
  let shifted := day + 719468
  let dayOfEra := shifted % 146097
  let yearOfEra := (dayOfEra - dayOfEra / 1460 + dayOfEra / 36524 - dayOfEra / 146096) / 365
  let dayOfYear := dayOfEra - (365 * yearOfEra + yearOfEra / 4 - yearOfEra / 100)
  let monthFromMarch := (5 * dayOfYear + 2) / 153
  let month := if monthFromMarch < 10 then monthFromMarch + 3 else monthFromMarch - 9
  (yearOfEra + shifted / 146097 * 400 + (if month ≤ 2 then 1 else 0), month,
    dayOfYear - (153 * monthFromMarch + 2) / 5 + 1)

/-- The text of a moment that is counted in seconds from the start of 1970-01-01. -/
def text (seconds : Nat) : String :=
  let (year, month, day) := date (seconds / 86400)
  let time := seconds % 86400
  padded 4 year ++ "-" ++ padded 2 month ++ "-" ++ padded 2 day ++ "T" ++
    padded 2 (time / 3600) ++ ":" ++ padded 2 (time / 60 % 60) ++ ":" ++ padded 2 (time % 60) ++ "Z"

example : text 1709251199 = "2024-02-29T23:59:59Z" := by cbv

end WorkflowRecipes.Moment
