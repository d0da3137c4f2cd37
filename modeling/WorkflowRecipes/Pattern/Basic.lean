/-!
# Patterns

A pattern describes stretches of text. `Pattern.ends` lists the places where a stretch that starts
at a given place can end; `Pattern.occursIn` asks whether there is a stretch anywhere in a text.

Repetition counts only rounds that move on, so it ends after as many rounds as characters are left.
-/

namespace WorkflowRecipes

/-- What a pattern describes. -/
inductive Pattern where
  /-- Nothing: the stretch without characters. -/
  | empty
  /-- One character of a kind. -/
  | one (admits : Char → Bool)
  /-- No character, between two that are as asked for; none stands for an end of the text. -/
  | between (holds : Option Char → Option Char → Bool)
  | seq (first second : Pattern)
  | alt (first second : Pattern)
  /-- At least `least` times in a row, and at most `most` times if a bound is given. -/
  | times (body : Pattern) (least : Nat) (most : Option Nat)

/-- A place in a text: how many characters precede it, the last of them, and the rest. -/
structure Place where
  position : Nat
  before : Option Char
  rest : List Char
  deriving Repr, DecidableEq

namespace Place

/-- The start of a text. -/
def start (text : List Char) : Place := ⟨0, none, text⟩

/-- The places from a place to the end of the text. -/
def onward (position : Nat) (before : Option Char) : List Char → List Place
  | [] => [⟨position, before, []⟩]
  | c :: rest => ⟨position, before, c :: rest⟩ :: onward (position + 1) (some c) rest

/-- Places in order of position, neighbours with one position counted once. -/
def dropRepeated : List Place → List Place
  | p :: q :: rest =>
    if p.position = q.position then dropRepeated (q :: rest) else p :: dropRepeated (q :: rest)
  | short => short

/-- Each place once. -/
def unite (places : List Place) : List Place :=
  match places with
  | [] => []
  | [p] => [p]
  | _ => dropRepeated (places.mergeSort fun p q => p.position ≤ q.position)

end Place

namespace Pattern

/-- The places after exactly `n` steps. -/
def after (step : Place → List Place) : Nat → List Place → List Place
  | 0, places => places
  | n + 1, places =>
    if places.isEmpty then [] else after step n (Place.unite (places.flatMap step))

/-- The places after up to `n` steps, each of which moves on. -/
def within (step : Place → List Place) : Nat → List Place → List Place
  | 0, places => places
  | n + 1, places =>
    if places.isEmpty then []
    else
      let moved := places.flatMap fun p => (step p).filter fun q => p.position < q.position
      places ++ within step n (Place.unite moved)

/-- The places where a stretch that starts at `p` can end. -/
def ends : Pattern → Place → List Place
  | .empty, p => [p]
  | .one admits, p =>
    match p.rest with
    | c :: rest => if admits c then [⟨p.position + 1, some c, rest⟩] else []
    | [] => []
  | .between holds, p => if holds p.before p.rest.head? then [p] else []
  | .seq first second, p => Place.unite ((ends first p).flatMap (ends second))
  | .alt first second, p => Place.unite (ends first p ++ ends second p)
  | .times body least most, p =>
    let start := after (ends body) least [p]
    let more := match most with
      | some most => min (most - least) p.rest.length
      | none => p.rest.length
    Place.unite (within (ends body) more start)

/-- Whether the text has a stretch that the pattern describes. -/
def occursIn (pattern : Pattern) (text : List Char) : Bool :=
  (Place.onward 0 none text).any fun p => !(pattern.ends p).isEmpty

/-- Whether a string has a stretch that the pattern describes. -/
def isIn (pattern : Pattern) (text : String) : Bool := pattern.occursIn text.toList

/-! ## Building patterns -/

/-- One pattern after another. -/
instance : Append Pattern := ⟨.seq⟩

/-- One pattern or another. -/
instance : OrOp Pattern := ⟨.alt⟩

/-- Patterns one after another. -/
def chain (patterns : List Pattern) : Pattern :=
  match patterns with
  | [] => .empty
  | [last] => last
  | first :: rest => .seq first (chain rest)

/-- One of several patterns, at least one of which is given. -/
def anyOf (first : Pattern) (others : List Pattern) : Pattern := others.foldl .alt first

/-- A given character. -/
def char (c : Char) : Pattern := .one (· == c)

/-- A given text. -/
def text (s : String) : Pattern := chain (s.toList.map char)

/-- One of the characters of a text. -/
def oneOf (s : String) : Pattern := .one s.toList.contains

/-- A character that is none of a text. -/
def noneOf (s : String) : Pattern := .one fun c => !s.toList.contains c

/-- Any number of times. -/
def many (body : Pattern) : Pattern := .times body 0 none

/-- At least once. -/
def many1 (body : Pattern) : Pattern := .times body 1 none

/-- Once or not at all. -/
def maybe (body : Pattern) : Pattern := .times body 0 (some 1)

/-- The start of the text. -/
def atStart : Pattern := .between fun before _ => before.isNone

/-- The end of the text. -/
def atEnd : Pattern := .between fun _ next => next.isNone

/-- The start of a line. -/
def atLineStart : Pattern := .between fun before _ => before.isNone || before == some '\n'

/-- Whether the whole text is a stretch that the pattern describes. -/
def describes (pattern : Pattern) (text : String) : Bool :=
  (atStart ++ pattern ++ atEnd).isIn text

end Pattern

end WorkflowRecipes
