import WorkflowRecipes.Diff.Script

/-!
# Compact edit scripts

The same edit can often be told at several places: of two equal lines, either may be the one that
was removed. `Script.compact` moves each stretch of removed lines, and then each one of added lines,
as far up and then as far down as it goes. Stretches of one mark that meet become one.
-/

namespace WorkflowRecipes.Diff

/-- A place in a script: the stretches above it, the nearest first, a stretch, and those below. -/
structure Place where
  above : Script
  focus : Stretch
  below : Script
  deriving Repr

namespace Script

/-- The number of stretches and lines of a script. -/
def weight : Script → Nat
  | [] => 0
  | first :: rest => first.lines.length + 1 + weight rest

theorem weight_stretch_append (mark : Mark) (lines : List String) (rest : Script) :
    weight (stretch mark lines ++ rest) ≤ lines.length + 1 + weight rest := by
  unfold stretch
  split <;> simp [weight]

/-- Put kept lines in front of the stretches below. -/
def keepBelow (lines : List String) : Script → Script
  | ⟨.kept, more⟩ :: rest => ⟨.kept, lines ++ more⟩ :: rest
  | below => ⟨.kept, lines⟩ :: below

/-- Put kept lines at the end of the stretches above. -/
def keepAbove (lines : List String) : Script → Script
  | ⟨.kept, more⟩ :: rest => ⟨.kept, more ++ lines⟩ :: rest
  | above => ⟨.kept, lines⟩ :: above

end Script

namespace Place

/-- Move the stretch up as far as it goes: past kept lines that end as it does, and past the other
kind of edit. -/
def up (above : Script) (focus : Stretch) (below : Script) : Place :=
  match above with
  | [] => ⟨[], focus, below⟩
  | near :: rest =>
    if near.mark = focus.mark then up rest ⟨focus.mark, near.lines ++ focus.lines⟩ below
    else if near.mark ≠ .kept then up rest focus (near :: below)
    else
      let n := commonEnd near.lines focus.lines
      if n = 0 then ⟨near :: rest, focus, below⟩
      else
        let stay := near.lines.take (near.lines.length - n)
        let passed := near.lines.drop (near.lines.length - n)
        up (stretch .kept stay ++ rest)
          ⟨focus.mark, passed ++ focus.lines.take (focus.lines.length - n)⟩
          (Script.keepBelow passed below)
termination_by above.weight
decreasing_by
  · simp [Script.weight]
  · simp [Script.weight]
  · have := Script.weight_stretch_append .kept stay rest
    have := commonEnd_le_left near.lines focus.lines
    simp only [Script.weight, stay, n, List.length_take] at *
    omega

/-- Move the stretch down as far as it goes: past kept lines that start as it does, and past the
other kind of edit. -/
def down (above : Script) (focus : Stretch) (below : Script) : Place :=
  match below with
  | [] => ⟨above, focus, []⟩
  | near :: rest =>
    if near.mark = focus.mark then down above ⟨focus.mark, focus.lines ++ near.lines⟩ rest
    else if near.mark ≠ .kept then down (near :: above) focus rest
    else
      let n := commonLength near.lines focus.lines
      if n = 0 then ⟨above, focus, near :: rest⟩
      else
        let passed := near.lines.take n
        let stay := near.lines.drop n
        down (Script.keepAbove passed above) ⟨focus.mark, focus.lines.drop n ++ passed⟩
          (stretch .kept stay ++ rest)
termination_by below.weight
decreasing_by
  · simp [Script.weight]
  · simp [Script.weight]
  · have := Script.weight_stretch_append .kept stay rest
    have := commonLength_le_left near.lines focus.lines
    simp only [Script.weight, stay, n, List.length_drop] at *
    omega

end Place

namespace Script

/-- Move the stretches of a mark, the nearest first, in a number of steps at most. -/
def moveAll (mark : Mark) : Nat → Script → Script → Script
  | 0, above, below => above.reverse ++ below
  | _, above, [] => above.reverse
  | steps + 1, above, next :: below =>
    if next.mark = mark then
      let high := Place.up above next below
      let low := Place.down high.above high.focus high.below
      moveAll mark steps (low.focus :: low.above) low.below
    else moveAll mark steps (next :: above) below

/-- Move the stretches of a mark. Each step goes on to a later stretch, or joins two of them and
goes back, so that there are fewer steps than pairs of lines. -/
def moveMark (mark : Mark) (script : Script) : Script :=
  moveAll mark (script.weight * script.weight) [] script

/-- Tell each edit at the lowest place, with as few stretches as possible. -/
def compact (script : Script) : Script := (script.moveMark .removed).moveMark .added

end Script

end WorkflowRecipes.Diff
