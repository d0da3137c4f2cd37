import WorkflowRecipes.CommandLine.Basic
import WorkflowRecipes.Text.Search

/-!
# Taking arguments

The arguments of a command are taken one by one. An option is written `--name`, or `-n` by its
letter; its value is attached (`--name=value`, `-nvalue`, `-n=value`) or is the next argument.
Letters may share one argument. An argument that stands alone goes to the next free place, and after
`--` all arguments stand alone.

A value that is not attached is looked at only when the next option is taken or the arguments end.
So an argument that is not known is reported before it.
-/

namespace WorkflowRecipes

/-- The values that a parameter takes. -/
inductive ValueKind where
  | text
  /-- A path is not empty. -/
  | path
  | shell
  deriving Repr, DecidableEq

/-- Whether a value is of a kind. -/
def ValueKind.accepts (kind : ValueKind) (value : String) : Bool :=
  match kind with
  | .text => true
  | .path => value ≠ ""
  | .shell => (Shell.ofName? value).isSome

/-- What a parameter is for. -/
inductive ParameterUse where
  | help
  | version
  /-- A flag that is counted. -/
  | count
  | flag
  /-- A value. -/
  | one (kind : ValueKind)
  /-- Any number of values, each behind the name. -/
  | many (kind : ValueKind)
  deriving Repr, DecidableEq

/-- An option, or a place for an argument that stands alone. -/
structure Parameter where
  name : String
  letter : Option Char
  use : ParameterUse
  deriving Repr, DecidableEq

/-- Whether a parameter has values. -/
def Parameter.hasValues (parameter : Parameter) : Bool :=
  match parameter.use with
  | .one _ | .many _ => true
  | _ => false

/-- What may be given in front of the next command. -/
structure Form where
  options : List Parameter
  places : List Parameter := []
  commands : List String := []
  deriving Repr

/-- The arguments taken so far. -/
structure Taken where
  /-- The places that are free. -/
  places : List Parameter := []
  verbosity : Nat := 0
  /-- The flags and values by the names of their parameters, in order. -/
  values : List (String × String) := []
  /-- A parameter whose value is still to be looked at, or to come. -/
  pending : Option (Parameter × Option String) := none
  /-- Whether `--` was taken. -/
  standAlone : Bool := false
  deriving Repr

namespace Taken

/-- The greatest count of a flag. -/
def mostCounted : Nat := 255

/-- Whether a parameter is given. -/
def has (taken : Taken) (name : String) : Bool := taken.values.any (·.1 == name)

/-- The value of a parameter. -/
def value? (taken : Taken) (name : String) : Option String := taken.values.lookup name

/-- All values of a parameter. -/
def valuesOf (taken : Taken) (name : String) : List String :=
  (taken.values.filter (·.1 == name)).map (·.2)

/-- Note a value of a parameter. -/
def note (taken : Taken) (name value : String) : Taken :=
  { taken with values := taken.values ++ [(name, value)] }

/-- Note a value that has to be of a kind. -/
def check (taken : Taken) (parameter : Parameter) (kind : ValueKind) (value : String) :
    Except UsageError Taken :=
  if kind.accepts value then .ok (taken.note parameter.name value)
  else .error (.badValue parameter.name value)

/-- Look at a parameter and its value. -/
def store (taken : Taken) (parameter : Parameter) (value : Option String) :
    Except UsageError Taken :=
  match parameter.use, value with
  | .help, _ => .error .help
  | .version, _ => .error .version
  | .count, _ => .ok { taken with verbosity := min (taken.verbosity + 1) mostCounted }
  | .flag, _ =>
    if taken.has parameter.name then .error (.repeated parameter.name)
    else .ok (taken.note parameter.name "")
  | .one _, none | .many _, none => .error (.missingValue parameter.name)
  | .one kind, some value =>
    if taken.has parameter.name then .error (.repeated parameter.name)
    else taken.check parameter kind value
  | .many kind, some value => taken.check parameter kind value

/-- Look at what is pending. -/
def settle (taken : Taken) : Except UsageError Taken :=
  match taken.pending with
  | none => .ok taken
  | some (parameter, value) => { taken with pending := none }.store parameter value

/-- Take a parameter with what is attached to it. -/
def take (taken : Taken) (parameter : Parameter) (value : Option String) :
    Except UsageError Taken :=
  taken.settle.bind fun taken =>
    if parameter.hasValues && value.isNone then .ok { taken with pending := some (parameter, none) }
    else taken.store parameter value

/-- Take an option by its name. -/
def takeName (taken : Taken) (form : Form) (text : String) : Except UsageError Taken :=
  let (name, value) := match cutAt? text '=' with
    | some (name, value) => (name, some value)
    | none => (text, none)
  match form.options.find? fun option => option.name == name with
  | none => .error (.unknownArgument ("--" ++ name))
  | some option =>
    if !option.hasValues && value.isSome then .error (.needlessValue name)
    else taken.take option value

/-- Take options by their letters. -/
def takeLetters (taken : Taken) (form : Form) : List Char → Except UsageError Taken
  | [] => .ok taken
  | letter :: rest =>
    match form.options.find? fun option => option.letter == some letter with
    | none => .error (.unknownArgument ("-" ++ letter.toString))
    | some option =>
      if option.hasValues then
        taken.take option <| match rest with
          | [] => none
          | '=' :: value => some (String.ofList value)
          | value => some (String.ofList value)
      else (taken.take option none).bind fun taken => taken.takeLetters form rest

/-- Take an argument that stands alone. -/
def takePlain (taken : Taken) (form : Form) (text : String) : Except UsageError Taken :=
  match taken.places with
  | place :: rest =>
    taken.settle.map fun taken => { taken with places := rest, pending := some (place, some text) }
  | [] =>
    if form.commands.isEmpty || (taken.standAlone && form.commands.contains text) then
      .error (.unknownArgument text)
    else .error (.unknownCommand text)

/-- Take an argument that may be an option. -/
def takeArgument (taken : Taken) (form : Form) (text : String) : Except UsageError Taken :=
  match dropPrefix? text "--", dropPrefix? text "-", taken.pending with
  | some "", _, _ => .ok { taken with standAlone := true }
  | some name, _, _ => taken.takeName form name
  | none, some "", some (parameter, none) | none, none, some (parameter, none) =>
    .ok { taken with pending := some (parameter, some text) }
  | none, some "", _ | none, none, _ => taken.takePlain form text
  | none, some letters, _ => taken.takeLetters form letters.toList

/-- Take arguments up to the name of a command. -/
def takeAll (form : Form) (taken : Taken) : List String → Except UsageError (Taken × List String)
  | [] => taken.settle.map (·, [])
  | text :: rest =>
    if taken.standAlone then (taken.takePlain form text).bind fun taken => taken.takeAll form rest
    else if form.commands.contains text then .ok (taken, text :: rest)
    else (taken.takeArgument form text).bind fun taken => taken.takeAll form rest

end Taken

end WorkflowRecipes
