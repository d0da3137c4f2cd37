import WorkflowRecipes.Recipe.Catalog
import WorkflowRecipes.Yaml.Document

/-!
# Reading a recipe

A recipe is read from a mapping: the key `recipe` names its kind, and the other entries are its
options. `Recipe.ofTexts` reads it from a name and texts of the form `key=value`.
-/

namespace WorkflowRecipes

namespace Value

mutual

/-- Whether a value holds a tag. -/
def hasTag : Value → Bool
  | .tagged .. => true
  | .sequence items => itemsHaveTag items
  | .mapping entries => entriesHaveTag entries
  | _ => false

/-- Whether an item of a sequence holds a tag. -/
def itemsHaveTag : List Value → Bool
  | [] => false
  | item :: rest => hasTag item || itemsHaveTag rest

/-- Whether a key or a value of a mapping holds a tag. -/
def entriesHaveTag : List (Value × Value) → Bool
  | [] => false
  | (key, value) :: rest => hasTag key || hasTag value || entriesHaveTag rest

end

end Value

namespace RecipeKind

/-- The key that names the kind of a recipe. -/
def nameKey : String := "recipe"

/-- The kind that a name stands for. -/
def ofName (name : String) : Except OptionError RecipeKind :=
  match find? name with
  | some kind => .ok kind
  | none => .error (.unknownVariant name names)

/-- The kind that a value names. -/
def ofValue (value : Value) : Except OptionError RecipeKind :=
  match value.untagged with
  | .string name => ofName name
  | other => OptionKind.refuse other "variant identifier"

/-- Part a mapping into the kind of recipe that it names and the entries of the options, the first
entry that cannot be read deciding the error. -/
def split (kind : Option RecipeKind) (before : Entries) :
    Entries → Except OptionError (RecipeKind × Entries)
  | [] =>
    match kind with
    | some kind => .ok (kind, before.reverse)
    | none => .error (.missingField nameKey)
  | (key, value) :: rest =>
    if key.isKey nameKey then
      match ofValue value with
      | .ok kind => split (some kind) before rest
      | .error e => .error e
    else if key.hasTag || value.hasTag then .error .taggedValue
    else split kind ((key, value) :: before) rest

/-- The recipe of a kind with the options of a mapping. -/
def ofOptions (kind : RecipeKind) (options : Entries) : Except OptionError Recipe :=
  (OptionField.readEntries kind.fields [] options).map kind.make

/-- The recipe of a kind with the options of a sequence. -/
def ofItems (kind : RecipeKind) (items : List Value) : Except OptionError Recipe :=
  (OptionField.readItems kind.typeName kind.fields.length 0 [] kind.fields items).map kind.make

end RecipeKind

/-- What can be wrong with a recipe that is given by a name and texts. -/
inductive RecipeError where
  | unknownRecipe (name : String)
  | invalidOption (text : String)
  | options (error : OptionError)
  deriving Repr, DecidableEq

/-- The wording of an error. -/
def RecipeError.message : RecipeError → String
  | .unknownRecipe name => "unknown recipe '" ++ name ++ "' (see `ghrewrite recipes`)"
  | .invalidOption text => "invalid option '" ++ text ++ "': expected key=value"
  | .options error => error.message

namespace Recipe

/-- The recipe of a mapping. -/
def ofEntries (entries : Entries) : Except OptionError Recipe :=
  match RecipeKind.split none [] entries with
  | .ok (kind, options) => kind.ofOptions options
  | .error e => .error e

/-- The value of an option that is given as text: a document, or else the text itself. -/
def optionValue (text : String) : Value := (Yaml.document? text).getD (.string text)

/-- The entries of options that are given as texts. Of two with one key the later counts. A text is
parted at its first equals sign. -/
def entriesOfTexts (entries : Entries) : List String → Except RecipeError Entries
  | [] => .ok entries
  | text :: rest =>
    match cutAt? text '=' with
    | none => .error (.invalidOption text)
    | some (key, value) =>
      entriesOfTexts (entries.set (trimmed key) (optionValue value)) rest

/-- The recipe with a name and options that are given as texts. -/
def ofTexts (name : String) (options : List String) : Except RecipeError Recipe :=
  if (RecipeKind.find? name).isNone then .error (.unknownRecipe name)
  else
    match entriesOfTexts [(.string RecipeKind.nameKey, .string name)] options with
    | .error e => .error e
    | .ok entries =>
      match ofEntries entries with
      | .ok recipe => .ok recipe
      | .error e => .error (.options e)

end Recipe

end WorkflowRecipes
