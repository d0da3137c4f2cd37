import WorkflowRecipes.Diff.Compact
import WorkflowRecipes.Text.Search

/-!
# Patches

A patch shows the changes between two texts in the unified format: hunks of removed and added lines
with three lines of context around them. Changes that are close to each other share a hunk.
-/

namespace WorkflowRecipes.Diff

/-- Lines that are replaced by others, and how many lines lie before them in each text. -/
structure Change where
  oldStart : Nat
  old : List String
  newStart : Nat
  new : List String
  deriving Repr, DecidableEq

namespace Change

/-- The number of old lines up to the end of a change. -/
def oldEnd (change : Change) : Nat := change.oldStart + change.old.length

/-- The number of new lines up to the end of a change. -/
def newEnd (change : Change) : Nat := change.newStart + change.new.length

/-- Add the edits of a stretch. -/
def extend (change : Change) (edit : Stretch) : Change :=
  match edit.mark with
  | .kept => change
  | .removed => { change with old := change.old ++ edit.lines }
  | .added => { change with new := change.new ++ edit.lines }

/-- The change that starts after a number of lines, if there are edits, and the rest of the
script. -/
def first (change : Change) : Script → Change × Script
  | [] => (change, [])
  | next :: rest =>
    if next.mark = .kept then (change, next :: rest) else first (change.extend next) rest

theorem length_first_le (change : Change) (script : Script) :
    (first change script).2.length ≤ script.length := by
  induction script generalizing change with
  | nil => simp [first]
  | cons next rest ih =>
    unfold first
    split
    · simp
    · exact Nat.le_succ_of_le (ih _)

/-- The changes of a script that starts after a number of lines in each text. -/
def ofScript (oldStart newStart : Nat) : Script → List Change
  | [] => []
  | next :: rest =>
    if next.mark = .kept then
      ofScript (oldStart + next.lines.length) (newStart + next.lines.length) rest
    else
      let found := first (extend ⟨oldStart, [], newStart, []⟩ next) rest
      found.1 :: ofScript found.1.oldEnd found.1.newEnd found.2
termination_by script => script.length
decreasing_by
  · simp
  · have := length_first_le (extend ⟨oldStart, [], newStart, []⟩ next) rest
    simp only [List.length_cons]
    omega

end Change

/-- How many lines of context there are around a change. -/
def contextSize : Nat := 3

/-- How many lines of context there are after a change in texts of these sizes. -/
def contextAfter (oldSize newSize : Nat) (change : Change) : Nat :=
  min contextSize (min (oldSize - change.oldEnd) (newSize - change.newEnd))

/-- Whether a change is so close to the one before it that they share a hunk. -/
def sharesHunk (oldSize newSize : Nat) (earlier later : Change) : Bool :=
  min later.oldStart (oldSize - 1) - contextSize <
    earlier.oldEnd + contextAfter oldSize newSize earlier

/-- The last line of a text that does not end in a line feed is followed by a remark. -/
def withLineEnd (line : String) : String :=
  if line.toList.getLast? = some '\n' then line else line ++ "\n\\ No newline at end of file\n"

/-- A line under a sign. -/
def signedLine (sign line : String) : String := withLineEnd (sign ++ line)

/-- A line of context. An empty one has no sign. -/
def contextLine (line : String) : String := if line = "\n" then line else signedLine " " line

/-- The range of lines in the header of a hunk. -/
def rangeText (start size : Nat) : String :=
  toString (if size = 0 then start else start + 1) ++
    (if size = 1 then "" else "," ++ toString size)

/-- The lines of a text from one position up to another. -/
def slice (lines : List String) (start stop : Nat) : List String :=
  (lines.take stop).drop start

/-- The text of changes with the context between them. -/
def changesText (newLines : List String) : List Change → String
  | [] => ""
  | change :: rest =>
    let between := match rest with
      | [] => []
      | next :: _ => slice newLines change.newEnd next.newStart
    String.join (change.old.map (signedLine "-")) ++
      String.join (change.new.map (signedLine "+")) ++
      String.join (between.map contextLine) ++ changesText newLines rest

/-- The text of a hunk. -/
def hunkText (oldLines newLines : List String) (changes : List Change) : String :=
  match changes.head?, changes.getLast? with
  | some first, some last =>
    let after := contextAfter oldLines.length newLines.length last
    let oldStart := first.oldStart - contextSize
    let newStart := first.newStart - contextSize
    "@@ -" ++ rangeText oldStart (last.oldEnd + after - oldStart) ++
      " +" ++ rangeText newStart (last.newEnd + after - newStart) ++ " @@\n" ++
      String.join ((slice newLines newStart first.newStart).map contextLine) ++
      changesText newLines changes ++
      String.join ((slice newLines last.newEnd (last.newEnd + after)).map contextLine)
  | _, _ => ""

/-- The patch from one text to another. -/
def patch (old new : String) : String :=
  let oldLines := (Text.fullLines old.toList).map String.ofList
  let newLines := (Text.fullLines new.toList).map String.ofList
  let changes := Change.ofScript 0 0 (Script.between oldLines newLines).compact
  let hunks := changes.splitBy (sharesHunk oldLines.length newLines.length)
  "--- original\n+++ modified\n" ++ String.join (hunks.map (hunkText oldLines newLines))

end WorkflowRecipes.Diff
