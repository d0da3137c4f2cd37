import WorkflowRecipes.Config.Basic
import WorkflowRecipes.Recipe.Reading

/-!
# Reading a configuration

`Config.ofText` reads a configuration from the tree of a document, where a field of text takes the
text of any scalar: the version may be written `1.0` without quotes. The options of a recipe are
read by their values instead, and have to be of the kinds that the recipe asks for.

An error tells its place, except that all errors in the options of a recipe stand at the list of
recipes.
-/

namespace WorkflowRecipes

/-- Why a text is no configuration. -/
inductive ConfigError where
  /-- The text is not written correctly. -/
  | unreadable
  | invalid (place : Location) (error : OptionError)
  deriving Repr, DecidableEq

namespace ConfigError

/-- The place of an error in a configuration; the root is not named. -/
def placeText (place : Location) : String :=
  match place.hops with
  | [] => ""
  | .key name :: rest => name ++ String.join (rest.map Location.hopText) ++ ": "
  | hops => "." ++ String.join (hops.map Location.hopText) ++ ": "

/-- The wording of an error in a text that can be read. -/
def message : ConfigError → String
  | .unreadable => "cannot be read"
  | .invalid place error => placeText place ++ error.message

end ConfigError

/-- What is read from a part of a configuration. -/
abbrev Reading (α : Type) := Except ConfigError α

namespace Config

open Yaml

/-- The name of an entry in a place whose key is no scalar. -/
def unnamed : String := "?"

/-- An error at a place. -/
def fail {α : Type} (place : Location) (error : OptionError) : Reading α :=
  .error (.invalid place error)

/-- Name the place of an error. -/
def locate {α : Type} (place : Location) : Except OptionError α → Reading α
  | .ok a => .ok a
  | .error e => fail place e

/-- Whether a tree is under a tag of its own. -/
def isTagged : Tree → Bool
  | .alias target => nomatch target
  | .scalar properties .. | .sequence properties _ | .mapping properties _ =>
    (properties.tag.bind tagName?).isSome

/-- The shape of a tree, tags looked through. -/
def shape : Tree → Shape
  | .alias target => nomatch target
  | .scalar properties text style =>
    Shape.of ((scalar? properties.tag text style).getD .null).untagged
  | .sequence .. => .sequence
  | .mapping .. => .mapping

/-- Refuse a tree of the wrong shape. -/
def refuse {α : Type} (place : Location) (tree : Tree) (expected : String) : Reading α :=
  fail place (.wrongType (shape tree) expected)

/-- Whether nothing is written. -/
def isEmpty : Tree → Bool
  | .scalar _ [] .plain => true
  | _ => false

/-- Whether a tree stands for an option that is not given. -/
def isAbsent : Tree → Bool
  | .scalar properties text .plain =>
    match properties.tag with
    | none => text.isEmpty || Scalar.isNull text
    | some tag => tag == kindTag ++ "null".toList
  | _ => false

/-- The text of a scalar. -/
def readText (expected : String) (place : Location) : Tree → Reading String
  | .scalar _ text _ => .ok (String.ofList text)
  | other => refuse place other expected

/-- A truth value. -/
def readFlag (place : Location) (tree : Tree) : Reading Bool :=
  let flag? := match tree with
    | .scalar properties text style =>
      if style = .plain ∨ (style = .literal ∧ properties.tag = some (kindTag ++ "bool".toList))
      then Scalar.bool? text else none
    | _ => none
  match flag? with
  | some b => .ok b
  | none => refuse place tree "a boolean"

/-- Something that need not be given. -/
def readOptional {α : Type} (read : Tree → Reading α) (tree : Tree) : Reading (Option α) :=
  if isAbsent tree then .ok none else (read tree).map some

/-- The items of a sequence. Where nothing is written there are none. -/
def readItems (place : Location) : Tree → Reading (List Tree)
  | .sequence _ items => .ok items
  | other => if isEmpty other then .ok [] else refuse place other "a sequence"

/-- The entries of a mapping by the texts of their keys. Where nothing is written there are none. -/
def readEntries (typeName : String) (place : Location) : Tree → Reading (List (Tree × Tree))
  | .mapping _ entries => .ok entries
  | other => if isEmpty other then .ok [] else refuse place other ("struct " ++ typeName)

/-- Take the entries of a mapping in order. -/
def takeEntries {α : Type} (place : Location) (take : α → String → Tree → Reading α) (start : α)
    (entries : List (Tree × Tree)) : Reading α :=
  entries.foldlM (fun state (key, value) =>
    (readText "field identifier" place key).bind fun name => take state name value) start

/-- Read a field that must not have been read before. -/
def once {α : Type} (place : Location) (name : String) (before : Option α) (read : Reading α) :
    Reading (Option α) :=
  if before.isSome then fail place (.repeatedField name) else read.map some

/-! ## Recipes -/

mutual

/-- The place of the first tag in a tree. -/
def tagPlace? (place : Location) : Tree → Option Location
  | .alias target => nomatch target
  | .scalar properties text style =>
    if isTagged (.scalar properties text style) then some place else none
  | .sequence properties items =>
    if (properties.tag.bind tagName?).isSome then some place else itemsTagPlace? place 0 items
  | .mapping properties entries =>
    if (properties.tag.bind tagName?).isSome then some place else entriesTagPlace? place entries

/-- The place of the first tag in the items of a sequence. -/
def itemsTagPlace? (place : Location) (position : Nat) : List Tree → Option Location
  | [] => none
  | item :: rest =>
    (tagPlace? (place.index position) item).or (itemsTagPlace? place (position + 1) rest)

/-- The place of the first tag in the entries of a mapping. -/
def entriesTagPlace? (place : Location) : List (Tree × Tree) → Option Location
  | [] => none
  | (key, value) :: rest =>
    let name := match key with
      | .scalar _ text _ => String.ofList text
      | _ => unnamed
    (tagPlace? place key).or
      ((tagPlace? (place.key name) value).or (entriesTagPlace? place rest))

end

/-- What options expect in the place of a recipe. -/
def recipeWord : String := "internally tagged enum RecipeSpec"

/-- The kind of recipe that a tree names. -/
def readKind (place : Location) : Tree → Reading RecipeKind
  | .scalar _ text _ => locate place (RecipeKind.ofName (String.ofList text))
  | other => refuse place other "variant identifier"

/-- The value of an option. -/
def optionValue (tree : Tree) : Value := (Value.ofTree? tree).getD .null

/-- Part the entries of a recipe into its kind and its options. -/
def splitRecipe (place : Location) (kind : Option RecipeKind) (before : Entries) :
    List (Tree × Tree) → Reading (RecipeKind × Entries)
  | [] =>
    match kind with
    | some kind => .ok (kind, before.reverse)
    | none => fail place (.missingField RecipeKind.nameKey)
  | (key, value) :: rest =>
    if (optionValue key).isKey RecipeKind.nameKey then
      match readKind (place.key RecipeKind.nameKey) value with
      | .ok kind => splitRecipe place (some kind) before rest
      | .error e => .error e
    else
      match entriesTagPlace? place [(key, value)] with
      | some tagPlace => fail tagPlace .taggedValue
      | none => splitRecipe place kind ((optionValue key, optionValue value) :: before) rest

/-- A recipe, written as a mapping or as a sequence that starts with its name. -/
def readRecipe (list place : Location) (tree : Tree) : Reading Recipe :=
  if isTagged tree then fail place (.wrongType .tagged recipeWord)
  else
    match tree with
    | .mapping _ entries =>
      (splitRecipe place none [] entries).bind fun (kind, options) =>
        locate list (kind.ofOptions options)
    | .sequence _ [] => fail place (.missingField RecipeKind.nameKey)
    | .sequence _ (name :: items) =>
      (readKind (place.index 0) name).bind fun kind =>
        match itemsTagPlace? place 1 items with
        | some tagPlace => fail tagPlace .taggedValue
        | none => locate list (kind.ofItems (items.map optionValue))
    | other => refuse place other recipeWord

/-- Recipes, `position` of which stand before. -/
def readRecipes (list : Location) (position : Nat) : List Tree → Reading (List Recipe)
  | [] => .ok []
  | tree :: rest =>
    (readRecipe list (list.index position) tree).bind fun recipe =>
      (readRecipes list (position + 1) rest).map (recipe :: ·)

/-! ## The whole -/

/-- The fields of a policy that are read so far. -/
structure PolicyDraft where
  failsOnFindings : Option Bool := none
  eventLog : Option (Option String) := none

/-- Take an entry of a policy. -/
def PolicyDraft.take (place : Location) (draft : PolicyDraft) (name : String) (value : Tree) :
    Reading PolicyDraft :=
  match name with
  | "fail_on_findings" =>
    (once place name draft.failsOnFindings (readFlag (place.key name) value)).map
      fun field => { draft with failsOnFindings := field }
  | "event_log" =>
    (once place name draft.eventLog
        (readOptional (readText "path string" (place.key name)) value)).map
      fun field => { draft with eventLog := field }
  | _ => .ok draft

/-- A policy. -/
def readPolicy (place : Location) (tree : Tree) : Reading Policy :=
  (readEntries "Policy" place tree).bind fun entries =>
    (takeEntries place (PolicyDraft.take place) {} entries).map fun draft =>
      { failsOnFindings := draft.failsOnFindings.getD false
        eventLog := draft.eventLog.join }

/-- The fields of a configuration that are read so far. -/
structure Draft where
  version : Option String := none
  name : Option String := none
  description : Option (Option String) := none
  policy : Option Policy := none
  recipes : Option (List Recipe) := none

/-- Take an entry of a configuration. -/
def Draft.take (draft : Draft) (name : String) (value : Tree) : Reading Draft :=
  let root := Location.root
  let place := root.key name
  match name with
  | "version" =>
    (once root name draft.version (readText "a string" place value)).map
      fun field => { draft with version := field }
  | "name" =>
    (once root name draft.name (readText "a string" place value)).map
      fun field => { draft with name := field }
  | "description" =>
    (once root name draft.description
        (readOptional (readText "a string" place) value)).map
      fun field => { draft with description := field }
  | "policy" =>
    (once root name draft.policy (readPolicy place value)).map
      fun field => { draft with policy := field }
  | "recipes" =>
    (once root name draft.recipes
        ((readItems place value).bind (readRecipes place 0))).map
      fun field => { draft with recipes := field }
  | _ => .ok draft

/-- The configuration of a document. -/
def ofTree (tree : Tree) : Reading Config :=
  (readEntries "RewriteConfig" .root tree).bind fun entries =>
    (takeEntries .root Draft.take {} entries).bind fun draft =>
      match draft.version, draft.name with
      | none, _ => fail .root (.missingField "version")
      | _, none => fail .root (.missingField "name")
      | some version, some name =>
        .ok { version, name
              description := draft.description.join
              policy := draft.policy.getD {}
              recipes := draft.recipes.getD [] }

/-- The configuration of a text, which must hold one document. -/
def ofText (text : String) : Reading Config :=
  match documents? text, trees? text.toList with
  | some _, some (tree :: rest) =>
    (ofTree tree).bind fun config =>
      if rest.isEmpty then .ok config else fail .root .manyDocuments
  | _, _ => .error .unreadable

end Config

end WorkflowRecipes
