import WorkflowRecipes.Yaml.Alias
import WorkflowRecipes.Yaml.Scalar
import WorkflowRecipes.Text.Search

/-!
# Documents

`Value.ofTree?` gives the nodes of a document their meaning; `documents?` reads a whole text. A text
has no meaning at all when one of its documents has none: a mapping with two keys that are the same,
an empty tag on a collection, or a scalar that is not of the kind its tag asks for.
-/

namespace WorkflowRecipes

namespace Yaml

/-- The name of a tag that starts with an exclamation mark, without that mark. A second mark is
dropped as well unless it stands alone. -/
def tagName? : List Char → Option String
  | '!' :: '!' :: c :: name => some (String.ofList (c :: name))
  | '!' :: name => some (String.ofList name)
  | _ => none

/-- How the tags of the kinds of scalars start. -/
def kindTag : List Char := "tag:yaml.org,2002:".toList

/-- The value of a scalar whose tag names a kind. -/
def scalarOfKind? (kind : String) (text : List Char) : Option Value :=
  match kind with
  | "bool" => (Scalar.bool? text).map .bool
  | "int" =>
    (Scalar.integer? text).bind fun i =>
      if Number.InRange i then some (.number (.integer i)) else none
  | "float" => (Scalar.float? text).map fun x => .number (.float x)
  | "null" => if Scalar.isNull text then some .null else none
  | _ => some (.string (String.ofList text))

/-- The value of a scalar. Only a plain one is read by the form of its text. -/
def scalar? (tag : Option (List Char)) (text : List Char) (style : Style) : Option Value :=
  let bare := if style = .plain then Scalar.plain? text else some (.string (String.ofList text))
  match tag with
  | none => bare
  | some tag =>
    match tagName? tag with
    | some name => if name.isEmpty then none else bare.map (.tagged name)
    | none =>
      match Text.dropPrefix? kindTag tag with
      | some kind => scalarOfKind? (String.ofList kind) text
      | none => some (.string (String.ofList text))

/-- A collection under its tag. A tag without an exclamation mark says nothing about a
collection. -/
def collection? (tag : Option (List Char)) (value : Value) : Option Value :=
  match tag.bind tagName? with
  | none => some value
  | some name => if name.isEmpty then none else some (.tagged name value)

/-- Whether no two keys are the same. -/
def keysDiffer : Entries → Bool
  | [] => true
  | (key, _) :: rest => !(rest.any fun e => e.1.same key) && keysDiffer rest

end Yaml

namespace Value

open Yaml

mutual

/-- The value of a tree. -/
def ofTree? : Tree → Option Value
  | .alias target => nomatch target
  | .scalar properties text style => scalar? properties.tag text style
  | .sequence properties items =>
    (ofItems? items).bind fun items => collection? properties.tag (.sequence items)
  | .mapping properties entries =>
    (ofEntries? entries).bind fun entries =>
      if keysDiffer entries then collection? properties.tag (.mapping entries) else none

/-- The values of a sequence's items. -/
def ofItems? : List Tree → Option (List Value)
  | [] => some []
  | item :: rest =>
    (ofTree? item).bind fun item => (ofItems? rest).map fun rest => item :: rest

/-- The values of a mapping's keys and entries. -/
def ofEntries? : List (Tree × Tree) → Option Entries
  | [] => some []
  | (key, value) :: rest =>
    (ofTree? key).bind fun key =>
      (ofTree? value).bind fun value =>
        (ofEntries? rest).map fun rest => (key, value) :: rest

end

end Value

namespace Yaml

/-- The documents of a text. -/
def documents? (text : String) : Option (List Value) :=
  (trees? text.toList).bind fun trees => trees.mapM Value.ofTree?

/-- The document of a text that holds exactly one. -/
def document? (text : String) : Option Value :=
  match documents? text with
  | some [value] => some value
  | _ => none

end Yaml

end WorkflowRecipes
