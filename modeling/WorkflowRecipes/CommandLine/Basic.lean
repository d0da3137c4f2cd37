/-!
# Commands

What can be asked for on the command line, and the ways in which a command line can be at fault.
-/

namespace WorkflowRecipes

/-- The shells that command lines can be completed in. -/
inductive Shell where
  | bash
  | elvish
  | fish
  | powershell
  | zsh
  deriving Repr, DecidableEq

namespace Shell

/-- All shells. -/
def all : List Shell := [.bash, .elvish, .fish, .powershell, .zsh]

/-- The name of a shell. -/
def name : Shell → String
  | .bash => "bash"
  | .elvish => "elvish"
  | .fish => "fish"
  | .powershell => "powershell"
  | .zsh => "zsh"

/-- The shell of a name. -/
def ofName? (name : String) : Option Shell := all.find? fun shell => shell.name == name

theorem ofName?_name (shell : Shell) : ofName? shell.name = some shell := by
  cases shell <;> decide

end Shell

/-- What is asked for. -/
inductive Command where
  /-- Write a configuration to start from into a directory. -/
  | init (path : String)
  /-- Tell the problems with a configuration. -/
  | validate (file : String)
  /-- List the recipes. -/
  | recipes
  /-- List what would be done. -/
  | plan (file root : String) (withPatches : Bool)
  | apply (file root : String) (isDry isCheck : Bool)
  /-- Apply one recipe with the options of texts. -/
  | run (recipe root : String) (options : List String) (isDry : Bool)
  | completions (shell : Shell)
  deriving Repr, DecidableEq

/-- A command line that is understood. -/
structure Invocation where
  /-- How much is to be told about what goes on. -/
  verbosity : Nat
  command : Command
  deriving Repr, DecidableEq

/-- Why a command line does not lead to a command. -/
inductive UsageError where
  /-- Help was asked for. -/
  | help
  /-- The version was asked for. -/
  | version
  /-- Nothing was asked for. -/
  | nothing
  | missingCommand
  | unknownCommand (name : String)
  | unknownArgument (text : String)
  | missingValue (parameter : String)
  | badValue (parameter value : String)
  /-- A flag was given a value. -/
  | needlessValue (parameter : String)
  | repeated (parameter : String)
  | conflict (parameter other : String)
  | missingArgument (parameter : String)
  deriving Repr, DecidableEq

/-- The wording of an error. -/
def UsageError.message : UsageError → String
  | .help | .nothing =>
    "usage: ghrewrite [-v] (init | validate | recipes | plan | apply | run | completions) [options]"
  | .version => "ghrewrite 0.3.0"
  | .missingCommand => "a command is required"
  | .unknownCommand name => "unrecognized command '" ++ name ++ "'"
  | .unknownArgument text => "unexpected argument '" ++ text ++ "'"
  | .missingValue parameter => "a value is required for '" ++ parameter ++ "'"
  | .badValue parameter value => "invalid value '" ++ value ++ "' for '" ++ parameter ++ "'"
  | .needlessValue parameter => "'" ++ parameter ++ "' takes no value"
  | .repeated parameter => "'" ++ parameter ++ "' cannot be used multiple times"
  | .conflict parameter other => "'" ++ parameter ++ "' cannot be used with '" ++ other ++ "'"
  | .missingArgument parameter => "'" ++ parameter ++ "' is required"

end WorkflowRecipes
