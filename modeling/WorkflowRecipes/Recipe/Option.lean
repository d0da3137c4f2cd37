import WorkflowRecipes.Amendment.Command
import WorkflowRecipes.Text.Quoted

/-!
# Options of recipes

`readOptions` reads the options of a recipe from the entries of a mapping, or from a sequence in the
order of the fields. Every key must be the name or the number of a field, no field may be given
twice, and every value must be of the field's kind.
-/

namespace WorkflowRecipes

/-- What stands where something else is expected. -/
inductive Shape where
  | bool (value : Bool)
  | integer (value : Int)
  | float (value : Binary64)
  | string (value : String)
  | null
  | sequence
  | mapping
  | tagged
  deriving Repr, DecidableEq

namespace Shape

/-- The shape of a value. -/
def of : Value → Shape
  | .null => .null
  | .bool b => .bool b
  | .number (.integer i) => .integer i
  | .number (.float x) => .float x
  | .string s => .string s
  | .sequence _ => .sequence
  | .mapping _ => .mapping
  | .tagged .. => .tagged

/-- A shape in words. -/
def text : Shape → String
  | .bool b => "boolean `" ++ (if b then "true" else "false") ++ "`"
  | .integer i => "integer `" ++ toString i ++ "`"
  | .float x => "floating point `" ++ x.plainText ++ "`"
  | .string s => "string " ++ quoted s
  | .null => "unit value"
  | .sequence => "sequence"
  | .mapping => "map"
  | .tagged => "enum"

end Shape

/-- What can be wrong with a configuration or with options. -/
inductive OptionError where
  | wrongType (found : Shape) (expected : String)
  | wrongValue (found : Shape) (expected : String)
  | wrongLength (length : Nat) (expected : String)
  | unknownField (name : String) (known : List String)
  | unknownVariant (name : String) (known : List String)
  | missingField (name : String)
  | repeatedField (name : String)
  | taggedValue
  | manyDocuments
  deriving Repr, DecidableEq

namespace OptionError

/-- A name in back quotes. -/
def named (name : String) : String := "`" ++ name ++ "`"

/-- A list of names in words; `none` is said of no names. -/
def choice (none : String) (names : List String) : String :=
  match names with
  | [] => none
  | [a] => "expected " ++ named a
  | [a, b] => "expected " ++ named a ++ " or " ++ named b
  | names => "expected one of " ++ ", ".intercalate (names.map named)

/-- The wording of an error. -/
def message : OptionError → String
  | .wrongType found expected => "invalid type: " ++ found.text ++ ", expected " ++ expected
  | .wrongValue found expected => "invalid value: " ++ found.text ++ ", expected " ++ expected
  | .wrongLength length expected =>
    "invalid length " ++ toString length ++ ", expected " ++ expected
  | .unknownField name known =>
    "unknown field " ++ named name ++ ", " ++ choice "there are no fields" known
  | .unknownVariant name known =>
    "unknown variant " ++ named name ++ ", " ++ choice "there are no variants" known
  | .missingField name => "missing field " ++ named name
  | .repeatedField name => "duplicate field " ++ named name
  | .taggedValue => "untagged and internally tagged enums do not support enum input"
  | .manyDocuments => "deserializing from YAML containing more than one document is not supported"

end OptionError

/-- The kinds of options. -/
inductive OptionKind where
  | text
  | number
  | flag
  | texts
  | strategy
  | maybe (kind : OptionKind)
  deriving Repr, DecidableEq

/-- The value of an option. -/
inductive OptionValue where
  | text (value : String)
  | number (value : Nat)
  | flag (value : Bool)
  | texts (value : List String)
  | strategy (value : SyncStrategy)
  | absent
  deriving Repr, DecidableEq

/-- A field of a recipe. -/
structure OptionField where
  name : String
  kind : OptionKind
  required : Bool := false
  deriving Repr, DecidableEq

namespace OptionKind

/-- Refuse a value of the wrong type. -/
def refuse {α : Type} (value : Value) (expected : String) : Except OptionError α :=
  .error (.wrongType (.of value) expected)

/-- The strategies by name, in order. -/
def strategies : List (String × SyncStrategy) :=
  [("basic", .basic), ("locked", .locked), ("full", .full)]

/-- Read the name or the number of a strategy. -/
def readStrategyName : Value → Except OptionError SyncStrategy
  | .string s =>
    match strategies.find? fun e => e.1 == s with
    | some (_, found) => .ok found
    | none => .error (.unknownVariant s (strategies.map (·.1)))
  | .number (.integer i) =>
    if i < 0 then refuse (.number (.integer i)) "variant identifier"
    else
      match strategies[i.toNat]? with
      | some (_, found) => .ok found
      | none => .error (.wrongValue (.integer i) "variant index 0 <= i < 3")
  | other => refuse other "variant identifier"

/-- Read a strategy: its name, or a mapping of its name to nothing. -/
def readStrategy : Value → Except OptionError SyncStrategy
  | .string s => readStrategyName (.string s)
  | .mapping [(key, value)] =>
    match readStrategyName key, value with
    | .error e, _ => .error e
    | .ok found, .null => .ok found
    | .ok found, .mapping [] => .ok found
    | .ok _, other => refuse other "unit"
  | .mapping _ => .error (.wrongValue .mapping "map with a single key")
  | other => refuse other "string or map"

/-- Read a text. -/
def readText : Value → Except OptionError String
  | .string s => .ok s
  | other => refuse other "a string"

/-- Read a value of a kind. -/
def read : OptionKind → Value → Except OptionError OptionValue
  | .text, value => (readText value).map .text
  | .number, .number (.integer i) =>
    if 0 ≤ i ∧ i < UInt32.size then .ok (.number i.toNat)
    else .error (.wrongValue (.integer i) "u32")
  | .number, other => refuse other "u32"
  | .flag, .bool b => .ok (.flag b)
  | .flag, other => refuse other "a boolean"
  | .texts, .sequence items => (items.mapM readText).map .texts
  | .texts, other => refuse other "a sequence"
  | .strategy, value => (readStrategy value).map .strategy
  | .maybe _, .null => .ok .absent
  | .maybe kind, value => kind.read value

end OptionKind

/-- The options that are given, by the names of their fields. -/
abbrev GivenOptions := List (String × OptionValue)

namespace GivenOptions

/-- The value of an option. -/
def value? (given : GivenOptions) (name : String) : Option OptionValue :=
  (given.find? fun e => e.1 == name).map (·.2)

/-- The text of an option, if it is given. -/
def text? (given : GivenOptions) (name : String) : Option String :=
  match given.value? name with
  | some (.text s) => some s
  | _ => none

/-- The text of an option that must be given. -/
def text (given : GivenOptions) (name : String) : String := (given.text? name).getD ""

/-- The number of an option, if it is given. -/
def number? (given : GivenOptions) (name : String) : Option Nat :=
  match given.value? name with
  | some (.number n) => some n
  | _ => none

/-- The flag of an option, if it is given. -/
def flag? (given : GivenOptions) (name : String) : Option Bool :=
  match given.value? name with
  | some (.flag b) => some b
  | _ => none

/-- The texts of an option, if they are given. -/
def texts? (given : GivenOptions) (name : String) : Option (List String) :=
  match given.value? name with
  | some (.texts l) => some l
  | _ => none

/-- The texts of an option, or others if it is not given. -/
def textsOr (given : GivenOptions) (name : String) (other : List String) : List String :=
  (given.texts? name).getD other

/-- The strategy of an option, if it is given. -/
def strategy? (given : GivenOptions) (name : String) : Option SyncStrategy :=
  match given.value? name with
  | some (.strategy s) => some s
  | _ => none

end GivenOptions

namespace OptionField

/-- The field that a key names. -/
def ofKey (fields : List OptionField) : Value → Except OptionError OptionField
  | .string s =>
    match fields.find? fun f => f.name == s with
    | some field => .ok field
    | none => .error (.unknownField s (fields.map (·.name)))
  | .number (.integer i) =>
    if i < 0 then OptionKind.refuse (.number (.integer i)) "field identifier"
    else
      match fields[i.toNat]? with
      | some field => .ok field
      | none =>
        .error (.wrongValue (.integer i) ("field index 0 <= i < " ++ toString fields.length))
  | other => OptionKind.refuse other "field identifier"

/-- The first required field that is not given. -/
def missing? (fields : List OptionField) (given : GivenOptions) : Option OptionField :=
  fields.find? fun f => f.required && (given.value? f.name).isNone

/-- Read the entries of a mapping in order. -/
def readEntries (fields : List OptionField) (given : GivenOptions) :
    Entries → Except OptionError GivenOptions
  | [] =>
    match missing? fields given with
    | some field => .error (.missingField field.name)
    | none => .ok given
  | (key, value) :: rest =>
    match ofKey fields key with
    | .error e => .error e
    | .ok field =>
      if (given.value? field.name).isSome then .error (.repeatedField field.name)
      else
        match field.kind.read value with
        | .error e => .error e
        | .ok v => readEntries fields ((field.name, v) :: given) rest

/-- A number of elements in words. -/
def elements (n : Nat) : String := toString n ++ (if n = 1 then " element" else " elements")

/-- Read the items of a sequence in the order of the fields. `position` counts the items before. -/
def readItems (typeName : String) (total position : Nat) (given : GivenOptions) :
    List OptionField → List Value → Except OptionError GivenOptions
  | [], [] => .ok given
  | [], rest =>
    .error (.wrongLength (total + rest.length) (elements total ++ " in sequence"))
  | field :: fields, [] =>
    if field.required then
      .error (.wrongLength position ("struct " ++ typeName ++ " with " ++ elements total))
    else readItems typeName total (position + 1) given fields []
  | field :: fields, value :: rest =>
    match field.kind.read value with
    | .error e => .error e
    | .ok v => readItems typeName total (position + 1) ((field.name, v) :: given) fields rest

end OptionField

end WorkflowRecipes
