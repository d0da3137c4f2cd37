import WorkflowRecipes.Yaml.ScalarForm

/-!
# Written documents

`render docs` writes documents in block style, a line `---` between two of them. A sequence in a
mapping stands at the column of its key. Not every tree can be written: see `Value.fault?`.
-/

namespace WorkflowRecipes

/-- Why a tree cannot be written. -/
inductive RenderFault where
  /-- A tag stands directly behind another. -/
  | nestedTag
  /-- The start of a mapping is lost where a value could follow it. -/
  | lostStart
  /-- The start of a mapping is lost at the root, where nothing can follow. -/
  | lostRootStart
  deriving Repr, DecidableEq

/-- The wording of a fault. -/
def RenderFault.message : RenderFault → String
  | .nestedTag => "serializing nested enums in YAML is not supported yet"
  | .lostStart => "expected SCALAR, SEQUENCE-START, MAPPING-START, or ALIAS"
  | .lostRootStart => "expected DOCUMENT-END"

namespace Value

/-- A tagged value, or a mapping of one entry: what cannot be the only key of a mapping. -/
def isLoneHead : Value → Bool
  | .tagged .. => true
  | .mapping [_] => true
  | _ => false

mutual

/-- Why a value cannot be written, if so. No tag can stand directly behind another, and the only key
of a mapping must be no `isLoneHead` unless the mapping stands behind a tag, which `afterTag`
tells: the start of such a mapping is lost, and its key stands at the place of the mapping. -/
def fault? (root afterTag : Bool) : Value → Option RenderFault
  | .tagged _ value => if afterTag then some .nestedTag else fault? root true value
  | .sequence items => itemsFault? items
  | .mapping [(key, value)] =>
    if !afterTag && key.isLoneHead then
      (fault? root false key).or (some (if root then .lostRootStart else .lostStart))
    else (fault? false false key).or (fault? false false value)
  | .mapping entries => entriesFault? entries
  | _ => none

/-- Why the items of a sequence cannot be written, if so. -/
def itemsFault? : List Value → Option RenderFault
  | [] => none
  | item :: rest => (fault? false false item).or (itemsFault? rest)

/-- Why the keys and values of a mapping cannot be written, if so. -/
def entriesFault? : List (Value × Value) → Option RenderFault
  | [] => none
  | (key, value) :: rest =>
    (fault? false false key).or ((fault? false false value).or (entriesFault? rest))

end

end Value

namespace Yaml

/-- The full text of a tag with this name. -/
def namedTag (name : String) : List Char :=
  match name.toList with
  | '!' :: rest => '!' :: rest
  | chars => '!' :: chars

/-- A character in the written name of a tag; those that cannot stand there are written as the
octets of their encoding. -/
def tagChar (c : Char) : List Char :=
  if c.isAlphanum || "_-;/?:@&=+$,.~*'()[]".toList.contains c then [c]
  else
    (String.singleton c).toUTF8.toList.flatMap fun octet =>
      '%' :: Text.largeHexText 2 octet.toNat

/-- A tag as it is written. The tag `!` alone is written in full, for it would mean nothing. -/
def writtenTag (name : String) : List Char :=
  match namedTag name with
  | ['!'] => '!' :: '<' :: tagChar '!' ++ ['>']
  | text => '!' :: (text.drop 1).flatMap tagChar

/-- The text of a value that is no string and no collection. -/
def bareText? : Value → Option (List Char)
  | .null => some "null".toList
  | .bool b => some (if b then "true".toList else "false".toList)
  | .number n => some n.text.toList
  | _ => none

/-- The size of what stands before the colon if a key can be written on its line at all. -/
def inlineSize? : Value → Option Nat
  | .tagged tag value =>
    (inlineSize? value).map (· + (String.ofList (namedTag tag)).utf8ByteSize)
  | .sequence items => if items.isEmpty then some 0 else none
  | .mapping entries => if entries.isEmpty then some 0 else none
  | .string s => if s.toList.any isBreak then none else some s.utf8ByteSize
  | value => (bareText? value).map List.length

/-- The size up to which a key stands before its colon on one line. -/
def inlineLimit : Nat := 128

/-- Whether a key stands before its colon on one line. -/
def isInlineKey (key : Value) : Bool := (inlineSize? key).any (· ≤ inlineLimit)

/-- The place of a value: the column of the collection around it, if there is one, whether that is a
mapping, and whether the value is a key before its colon. -/
structure Place where
  indent : Option Nat := none
  inMapping : Bool := false
  inline : Bool := false

/-- The column of a block collection at a place. A sequence that follows its key on the line stays
at the column of the key. -/
def Place.columnOf (place : Place) (stays : Bool) : Nat :=
  match place.indent with
  | none => 0
  | some n => if stays then n else n + 2

/-- The column of the further lines of a scalar. -/
def Place.textColumn (place : Place) : Nat := place.indent.getD 0 + 2

namespace Page

mutual

/-- Write a value. -/
def value (page : Page) (place : Place) : Value → Page
  | .tagged tag v => value (page.space.mark (writtenTag tag)) place v
  | .null => page.space.mark "null".toList
  | .bool b => page.space.mark (if b then "true".toList else "false".toList)
  | .number n => page.space.mark n.text.toList
  | .string s => page.string place.textColumn (Form.ofText s.toList place.inline) s.toList
  | .sequence [] => page.space.mark ['[', ']']
  | .sequence items =>
    page.items (place.columnOf (place.inMapping && !page.opening)) items
  | .mapping [] => page.space.mark ['\x7b', '\x7d']
  | .mapping entries => page.entries (place.columnOf false) entries

/-- Write the items of a block sequence at a column. -/
def items (page : Page) (column : Nat) : List Value → Page
  | [] => page
  | item :: rest =>
    let page := (page.indentTo column).openingMark '-'
    (page.value ⟨some column, false, false⟩ item).items column rest

/-- Write the entries of a block mapping at a column. -/
def entries (page : Page) (column : Nat) : List (Value × Value) → Page
  | [] => page
  | (key, v) :: rest =>
    let page := page.indentTo column
    let page :=
      if isInlineKey key then (page.value ⟨some column, true, true⟩ key).mark [':']
      else
        let page := page.openingMark '?' |>.value ⟨some column, true, false⟩ key
        (page.indentTo column).openingMark ':'
    (page.value ⟨some column, true, false⟩ v).entries column rest

end

end Page

/-- The text of one document. -/
def renderDocument (doc : Value) : List Char :=
  (Page.value {} {} doc |>.indentTo 0).text

/-- The text of documents, unless one cannot be written. -/
def render (docs : List Value) : Except RenderFault String :=
  match docs.findSome? (Value.fault? true false) with
  | some fault => .error fault
  | none => .ok (String.ofList (Text.join "---\n".toList (docs.map renderDocument)))

end Yaml

end WorkflowRecipes
