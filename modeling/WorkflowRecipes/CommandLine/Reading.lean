import WorkflowRecipes.CommandLine.Taken

/-!
# Reading a command line

`Invocation.ofArguments` reads the arguments of a command line. The flag for verbosity may stand
before and after the name of the command; if it stands in both places, the later ones count.
-/

namespace WorkflowRecipes

/-- A command with the arguments that it takes. -/
structure CommandForm where
  name : String
  options : List Parameter := []
  places : List Parameter := []
  /-- The command of the arguments that were taken. -/
  make : Taken → Except UsageError Command

namespace CommandForm

/-- The flag for verbosity. -/
def verbosity : Parameter := ⟨"verbose", some 'v', .count⟩

/-- The flag for help. -/
def help : Parameter := ⟨"help", some 'h', .help⟩

/-- The flag for the version. -/
def version : Parameter := ⟨"version", some 'V', .version⟩

/-- The option for the file of the configuration. -/
def file : Parameter := ⟨"file", some 'f', .one .path⟩

/-- The option for the root of the repository. -/
def root : Parameter := ⟨"root", none, .one .path⟩

/-- The option for a recipe's options. -/
def setting : Parameter := ⟨"set", some 's', .many .text⟩

/-- The flag for a dry run. -/
def dryRun : Parameter := ⟨"dry-run", none, .flag⟩

/-- The flag for a check. -/
def check : Parameter := ⟨"check", none, .flag⟩

/-- The flag for patches. -/
def patches : Parameter := ⟨"diff", none, .flag⟩

/-- The place for a directory. -/
def directory : Parameter := ⟨"path", none, .one .path⟩

/-- The place for the name of a recipe. -/
def recipe : Parameter := ⟨"recipe", none, .one .text⟩

/-- The place for the name of a shell. -/
def shell : Parameter := ⟨"shell", none, .one .shell⟩

/-- The name of the file with the configuration. -/
def fileName : String := "ghrewrite.yaml"

/-- The file of the configuration that was given. -/
def fileOf (taken : Taken) : String := (taken.value? file.name).getD fileName

/-- The root that was given. -/
def rootOf (taken : Taken) : String := (taken.value? root.name).getD "."

/-- The arguments of `apply`. -/
def makeApply (taken : Taken) : Except UsageError Command :=
  if taken.has check.name && taken.has dryRun.name then .error (.conflict check.name dryRun.name)
  else .ok (.apply (fileOf taken) (rootOf taken) (taken.has dryRun.name) (taken.has check.name))

/-- The arguments of `run`. -/
def makeRun (taken : Taken) : Except UsageError Command :=
  match taken.value? recipe.name with
  | none => .error (.missingArgument recipe.name)
  | some name =>
    .ok (.run name (rootOf taken) (taken.valuesOf setting.name) (taken.has dryRun.name))

/-- The arguments of `completions`. -/
def makeCompletions (taken : Taken) : Except UsageError Command :=
  match taken.value? shell.name with
  | none => .error (.missingArgument shell.name)
  | some name =>
    match Shell.ofName? name with
    | none => .error (.badValue shell.name name)
    | some shell => .ok (.completions shell)

/-- All commands. -/
def all : List CommandForm :=
  [{ name := "init", places := [directory]
     make := fun taken => .ok (.init ((taken.value? directory.name).getD ".")) },
    { name := "validate", options := [file], make := fun taken => .ok (.validate (fileOf taken)) },
    { name := "recipes", make := fun _ => .ok .recipes },
    { name := "plan", options := [file, root, patches]
      make := fun taken => .ok (.plan (fileOf taken) (rootOf taken) (taken.has patches.name)) },
    { name := "apply", options := [file, root, dryRun, check], make := makeApply },
    { name := "run", options := [root, setting, dryRun], places := [recipe], make := makeRun },
    { name := "completions", places := [shell], make := makeCompletions }]

/-- The command that gives help. -/
def helpName : String := "help"

/-- The names of all commands. -/
def names : List String := all.map (·.name) ++ [helpName]

/-- What may be given in front of the name of a command. -/
def beforeName : Form := { options := [verbosity, help, version], commands := names }

/-- What may be given after the name of a command. -/
def afterName (form : CommandForm) : Form :=
  { options := form.options ++ [verbosity, help], places := form.places }

/-- What asking for help on names leads to. -/
def helpOn : List String → UsageError
  | [] => .help
  | name :: rest =>
    if names.contains name then
      match rest with
      | [] => .help
      | other :: _ => .unknownCommand other
    else .unknownCommand name

end CommandForm

namespace Invocation

open CommandForm

/-- Read the arguments after the name of a command. -/
def ofCommand (verbosity : Nat) (form : CommandForm) (arguments : List String) :
    Except UsageError Invocation :=
  (Taken.takeAll form.afterName { places := form.places } arguments).bind fun (taken, _) =>
    (form.make taken).map fun command =>
      { verbosity := if taken.verbosity = 0 then verbosity else taken.verbosity, command }

/-- Read a command line. -/
def ofArguments (arguments : List String) : Except UsageError Invocation :=
  (Taken.takeAll beforeName {} arguments).bind fun
    | (taken, []) => .error (if taken.verbosity = 0 then .nothing else .missingCommand)
    | (taken, name :: rest) =>
      match all.find? fun form => form.name == name with
      | some form => ofCommand taken.verbosity form rest
      | none => .error (helpOn rest)

end Invocation

end WorkflowRecipes
