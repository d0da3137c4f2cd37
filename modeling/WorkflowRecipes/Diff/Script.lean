/-!
# Edit scripts

An edit script tells how to come from one list of lines to another: a sequence of stretches of lines
that are kept, removed or added. `Script.between` finds one that removes and adds as few lines as
possible, by divide and conquer: searches from both ends take one more edit in each round, going as
far as they can on each diagonal, until they meet.
-/

namespace WorkflowRecipes.Diff

/-- What becomes of lines. -/
inductive Mark where
  | kept
  | removed
  | added
  deriving Repr, DecidableEq

/-- Lines with the same fate. -/
structure Stretch where
  mark : Mark
  lines : List String
  deriving Repr, DecidableEq

/-- An edit script. -/
abbrev Script := List Stretch

/-- A script of one stretch, or of none if there are no lines. -/
def stretch (mark : Mark) (lines : List String) : Script :=
  if lines.isEmpty then [] else [⟨mark, lines⟩]

/-- How many lines two lists have in common at their starts. -/
def commonLength : List String → List String → Nat
  | a :: old, b :: new => if a = b then commonLength old new + 1 else 0
  | _, _ => 0

theorem commonLength_le_left (old new : List String) : commonLength old new ≤ old.length := by
  induction old generalizing new with
  | nil => simp [commonLength]
  | cons a old ih =>
    cases new with
    | nil => simp [commonLength]
    | cons b new =>
      have := ih new
      by_cases h : a = b <;> simp [commonLength, h]
      omega

/-- How many lines two lists have in common at their ends. -/
def commonEnd (old new : List String) : Nat := commonLength old.reverse new.reverse

theorem commonEnd_le_left (old new : List String) : commonEnd old new ≤ old.length := by
  simpa [commonEnd] using commonLength_le_left old.reverse new.reverse

/-! ## Searching from one end -/

/-- How far the lines after `x` old and `y` new ones go on to agree, as a number of old lines. -/
def slide (old new : Array String) (x y : Nat) : Nat :=
  if h : x < old.size ∧ y < new.size then
    if old[x] = new[y] then slide old new (x + 1) (y + 1) else x
  else x
termination_by old.size - x

/-- How many old lines a search has behind it on each diagonal, the highest first. Round `d` of a
search reaches the diagonals `d`, `d - 2`, …, `-d`. -/
abbrev Frontier := List Nat

/-- Where the next round starts on each diagonal but the highest: a line is removed on the way from
the diagonal below, or added on the way from the one above, whichever is further. -/
def innerStarts : Frontier → Frontier
  | [] => []
  | [last] => [last]
  | above :: below :: rest =>
    (if below < above then above else below + 1) :: innerStarts (below :: rest)

/-- Where the next round starts on each diagonal. Without a round before, it starts at the end. -/
def starts : Frontier → Frontier
  | [] => [0]
  | highest :: rest => (highest + 1) :: innerStarts (highest :: rest)

/-- The diagonal at a position in round `d`. -/
def diagonal (d position : Nat) : Int := d - 2 * position

/-- How many new lines are passed with `x` old ones on a diagonal. -/
def newLines (x : Nat) (k : Int) : Nat := (x - k).toNat

/-- Go as far as possible on each diagonal. -/
def advance (old new : Array String) (d : Nat) (frontier : Frontier) : Frontier :=
  frontier.mapIdx fun position x => slide old new x (newLines x (diagonal d position))

/-- What a search from the other end has behind it on the same diagonal. -/
def opposite? (shift : Int) (d : Nat) (other : Frontier) (k : Int) : Option Nat :=
  let position := (d - (shift - k)) / 2
  if position < 0 then none else other[position.toNat]?

/-! ## Meeting in the middle -/

/-- A point of two lists: how many old and how many new lines lie before it. -/
structure Point where
  old : Nat
  new : Nat
  deriving Repr, DecidableEq

/-- The first diagonal on which a round of a search meets the other one. -/
def meeting? (size : Nat) (shift : Int) (d : Nat) (mine : Frontier) (e : Nat) (other : Frontier) :
    Option Nat :=
  (List.range mine.length).find? fun position =>
    match mine[position]?, opposite? shift e other (diagonal d position) with
    | some x, some x' => decide (size ≤ x + x')
    | _, _ => false

/-- Search from both ends until the searches meet, for a number of rounds at most. -/
def meet? (old new : Array String) (shift : Int) :
    Nat → Nat → Frontier → Frontier → Option Point
  | 0, _, _, _ => none
  | rounds + 1, d, ahead, back =>
    let first := starts ahead
    let ahead' := advance old new d first
    let odd := shift % 2 ≠ 0
    match if odd then meeting? old.size shift d ahead' (d - 1) back else none with
    | some position =>
      let x := first[position]?.getD 0
      some ⟨x, newLines x (diagonal d position)⟩
    | none =>
      let back' := advance old.reverse new.reverse d (starts back)
      match if odd then none else meeting? old.size shift d back' d ahead' with
      | some position =>
        let x := back'[position]?.getD 0
        some ⟨old.size - x, new.size - newLines x (diagonal d position)⟩
      | none => meet? old new shift rounds (d + 1) ahead' back'

/-- A point in the middle of a shortest script. -/
def middle? (old new : List String) : Option Point :=
  let shift : Int := (old.length : Int) - new.length
  meet? old.toArray new.toArray shift ((old.length + new.length + 1) / 2 + 1) 0 [] []

/-! ## The script -/

namespace Script

/-- The script for lists that differ at both ends, given how to handle parts of them. -/
def inner (old new : List String)
    (part : (a b : List String) → a.length + b.length < old.length + new.length → Script) :
    Script :=
  if old.isEmpty || new.isEmpty then stretch .removed old ++ stretch .added new
  else
    match middle? old new with
    | none => stretch .removed old ++ stretch .added new
    | some point =>
      let before := (old.take point.old, new.take point.new)
      let after := (old.drop point.old, new.drop point.new)
      if h : before.1.length + before.2.length < old.length + new.length ∧
          after.1.length + after.2.length < old.length + new.length then
        part before.1 before.2 h.1 ++ part after.1 after.2 h.2
      else stretch .removed old ++ stretch .added new

/-- A shortest script from one list of lines to another. -/
def between (old new : List String) : Script :=
  let start := commonLength old new
  let old' := old.drop start
  let new' := new.drop start
  let ending := commonEnd old' new'
  let old'' := old'.take (old'.length - ending)
  let new'' := new'.take (new'.length - ending)
  stretch .kept (old.take start) ++
    inner old'' new'' (fun a b _ => between a b) ++
    stretch .kept (old'.drop (old'.length - ending))
termination_by old.length + new.length
decreasing_by
  have smaller := ‹a.length + b.length < _›
  simp only [old'', new'', old', new', List.length_take, List.length_drop] at smaller
  omega

end Script

end WorkflowRecipes.Diff
