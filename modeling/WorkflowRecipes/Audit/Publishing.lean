import WorkflowRecipes.ActionRef
import WorkflowRecipes.Audit.Event
import WorkflowRecipes.Pattern.Reader

/-!
# Publishing

Caches in workflows that publish, and credentials where the registry would trust the workflow.
-/

namespace WorkflowRecipes

namespace CachePoisoning

/-- The actions that use a cache. -/
def cachingActions : List String :=
  ["actions/cache", "actions/setup-java", "actions/setup-go", "actions/setup-node",
    "actions/setup-python", "actions/setup-dotnet", "astral-sh/setup-uv", "Swatinem/rust-cache",
    "ruby/setup-ruby", "PyO3/maturin-action", "mlugg/setup-zig", "oven-sh/setup-bun",
    "DeterminateSystems/magic-nix-cache-action", "graalvm/setup-graalvm",
    "gradle/actions/setup-gradle", "docker/setup-buildx-action",
    "actions-rust-lang/setup-rust-toolchain", "Mozilla-Actions/sccache-action",
    "nix-community/cache-nix-action", "jdx/mise-action"]

/-- The actions that publish. -/
def publishingActions : List String :=
  ["pypa/gh-action-pypi-publish", "rubygems/release-gem", "jreleaser/release-action",
    "goreleaser/goreleaser-action", "softprops/action-gh-release",
    "release-drafter/release-drafter", "googleapis/release-please-action",
    "docker/build-push-action", "redhat-actions/push-to-registry"]

/-- Whether branches hold one for releases. -/
def listsRelease (branches : Value) : Bool :=
  branches.itemsOf.any fun branch => branch.text?.any fun name => holds (lowercase name) "release"

/-- Whether the settings of a push are for tags or branches of releases. The first of the two keys
decides. -/
def isReleasePush : Entries → Bool
  | [] => false
  | (key, value) :: rest =>
    match key.text? with
    | some "tags" => true
    | some "branches" => listsRelease value
    | _ => isReleasePush rest

/-- Whether an event of a workflow is for releases. -/
def publishesOnEvent (doc : Value) : Bool :=
  (Event.names doc).contains "release" ||
    (((doc.get? "on").bind fun on => on.get? "push").any fun push => isReleasePush push.entriesOf)

/-- Whether a step of some job publishes. -/
def hasPublisher (doc : Value) : Bool :=
  (doc.get? "jobs").any fun jobs =>
    jobs.entriesOf.any fun (_, job) =>
      (job.get? "steps").any fun steps =>
        steps.itemsOf.any fun step =>
          ((step.entries?.bind Entries.action?).any fun action =>
            publishingActions.contains action.name)

/-- The caches in a workflow that publishes. -/
def findings (doc : Value) : List Finding :=
  if publishesOnEvent doc || hasPublisher doc then
    Finding.underTextKey doc "uses" fun uses =>
      let name := (ActionRef.ofText uses).name
      if cachingActions.contains name then
        some ("Action '" ++ name ++ "' uses caching in a workflow that publishes artifacts. " ++
          "This could lead to cache poisoning where malicious content gets cached and included " ++
          "in published artifacts. Consider disabling caching for this step or using read-only " ++
          "cache mode.")
      else none
  else []

end CachePoisoning

namespace TrustedPublishing

open Pattern

/-- At least one blank. -/
def blanks : Pattern := many1 (.one Text.isBlank)

/-- Words that may stand in between, on any line. -/
def anything : Pattern := maybe (many1 (.one fun _ => true) ++ blanks)

/-- The commands that publish. -/
def command : Pattern :=
  anyOf (text "twine" ++ blanks ++ anything ++ text "upload")
    [text "cargo" ++ blanks ++ text "publish", text "npm" ++ blanks ++ text "publish",
      text "yarn" ++ blanks ++ anything ++ text "npm" ++ blanks ++ text "publish",
      text "pnpm" ++ blanks ++ text "publish", text "gem" ++ blanks ++ text "push",
      text "uv" ++ blanks ++ text "publish", text "hatch" ++ blanks ++ text "publish",
      text "pdm" ++ blanks ++ text "publish"]

/-- The registries that would trust the workflow. -/
def pypiRegistries : List String :=
  ["https://upload.pypi.org/legacy/", "https://test.pypi.org/legacy/"]

/-- The text of an input. -/
def input? (inputs : Entries) (key : String) : Option String :=
  (inputs.get? key).bind Value.scalarText?

/-- Whether the inputs of an action name credentials for a registry that would trust the workflow
itself. -/
def usesCredentials (uses : String) (inputs : Entries) : Bool :=
  let isOneOf (key : String) (texts : List String) := (input? inputs key).any texts.contains
  if startsWith uses "pypa/gh-action-pypi-publish" then
    inputs.hasKey "password" &&
      (isOneOf "repository-url" pypiRegistries || isOneOf "repository_url" pypiRegistries)
  else if startsWith uses "rubygems/release-gem" then isOneOf "setup-trusted-publisher" ["false"]
  else if startsWith uses "rubygems/configure-rubygems-credentials" then
    inputs.hasKey "api-token" && isOneOf "gem-server" ["https://rubygems.org"]
  else if startsWith uses "actions/setup-node" then
    isOneOf "registry-url" ["https://registry.npmjs.org"] && isOneOf "always-auth" ["true"]
  else false

/-- The actions that publish or prepare for it. -/
def actions : List String :=
  ["pypa/gh-action-pypi-publish", "rubygems/release-gem",
    "rubygems/configure-rubygems-credentials", "actions/setup-node"]

/-- The keys of inputs that hold or switch on a credential. -/
def credentialKeys (inputs : Entries) : List String :=
  inputs.filterMap fun (key, value) =>
    match key.text?, value.scalarText? with
    | some key, some value =>
      if key = "password" ∨ key = "api-token" ∨
          (key = "setup-trusted-publisher" ∧ value = "false") ∨
          (key = "always-auth" ∧ value = "true") then some key
      else none
    | _, _ => none

/-- The credentials in the inputs of a step. -/
def inInputs (location : Location) (step : Entries) : List Finding :=
  match step.uses?, (step.get? "with").bind Value.entries? with
  | some uses, some inputs =>
    if actions.any fun action => startsWith uses action then
      Finding.when (usesCredentials uses inputs) (location.key "uses")
        ("Uses manual credentials instead of trusted publishing. Consider using OIDC trusted " ++
        "publishing for better security.") ++
        (credentialKeys inputs).map fun key =>
          ⟨location.keys ["with", key], "Manual credential used here"⟩
    else []
  | _, _ => []

/-- The commands and credentials of a step. -/
def inStep (location : Location) (step : Entries) : List Finding :=
  Finding.when ((step.text? "run").any command.isIn) (location.key "run")
    "Manual publishing command detected. Consider using trusted publishing actions instead." ++
    inInputs location step

/-- The commands and credentials that publish. -/
def findings (doc : Value) : List Finding :=
  doc.steps.flatMap fun (location, step) => inStep location step

end TrustedPublishing

end WorkflowRecipes
