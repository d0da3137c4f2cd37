import WorkflowRecipes.Yaml.Value

/-!
# Pages

A `Page` is text being written, with what the layout needs to know of its last line: the column,
whether a blank stands at its end, and whether the line holds nothing but indentation and the marks
that open block collections.
-/

namespace WorkflowRecipes.Yaml

/-- Text being written, its last character first. -/
structure Page where
  written : List Char := []
  column : Nat := 0
  afterBlank : Bool := true
  opening : Bool := true
  deriving Repr

namespace Page

/-- Write one character on the line. -/
def put (page : Page) (c : Char) : Page :=
  { page with written := c :: page.written, column := page.column + 1 }

/-- Write characters on the line. -/
def putAll (page : Page) (text : List Char) : Page := text.foldl put page

/-- Write a line break. -/
def lineBreak (page : Page) (c : Char) : Page :=
  { page with written := c :: page.written, column := 0 }

/-- A blank, unless one stands there already. -/
def space (page : Page) : Page := if page.afterBlank then page else page.put ' '

/-- Go to the column `indent` of a line that holds nothing else: of this line if it is still
opening and not too far, else of a new one. -/
def indentTo (page : Page) (indent : Nat) : Page :=
  let stays := page.opening &&
    (page.column < indent || (page.column == indent && page.afterBlank))
  let page := if stays then page else page.lineBreak '\n'
  { page.putAll (List.replicate (indent - page.column) ' ') with
    afterBlank := true, opening := true }

/-- A mark in the middle of a line. -/
def mark (page : Page) (text : List Char) : Page :=
  { page.putAll text with afterBlank := false, opening := false }

/-- A mark that opens a block collection and leaves the line opening. -/
def openingMark (page : Page) (c : Char) : Page :=
  { page.space.put c with afterBlank := false }

/-- The text on the page. -/
def text (page : Page) : List Char := page.written.reverse

end Page

end WorkflowRecipes.Yaml
