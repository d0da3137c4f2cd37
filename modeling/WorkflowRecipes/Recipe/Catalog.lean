import WorkflowRecipes.Recipe.Basic
import WorkflowRecipes.Recipe.Option

/-!
# The catalog

The recipes there are, in the order in which they are listed: how each is described, which options
it has, and the recipe that given options make.
-/

namespace WorkflowRecipes

/-- A kind of recipe. -/
structure RecipeKind where
  name : String
  /-- What messages call the options. -/
  typeName : String
  title : String
  summary : String
  /-- A line on each option. -/
  help : List String := []
  fields : List OptionField := []
  make : GivenOptions → Recipe

namespace RecipeKind

/-- The kinds of recipes, in order. -/
def catalog : List RecipeKind :=
  [ { name := "setup-java-adopt-openjdk-to-temurin"
      typeName := "AdoptOpenJdkToTemurin"
      title := "Use actions/setup-java `temurin` distribution in favor of `adopt`"
      summary := "Adopt OpenJDK got moved to Eclipse Temurin and won't be updated anymore."
      make := fun _ => .amendment .adoptToTemurin },
    { name := "setup-java-adopt-openj9-to-semeru"
      typeName := "AdoptOpenJ9ToSemeru"
      title := "Use actions/setup-java IBM `semeru` distribution in favor of `adopt-openj9`"
      summary :=
        "Adopt OpenJDK got moved to Eclipse Temurin; the OpenJ9 builds moved to IBM Semeru."
      make := fun _ => .amendment .openJ9ToSemeru },
    { name := "prefer-temurin-distributions"
      typeName := "PreferTemurinDistributions"
      title := "Use `actions/setup-java` `temurin` distribution"
      summary := "Replace every setup-java distribution with Eclipse Temurin."
      make := fun _ => .amendment .preferTemurin },
    { name := "replace-setup-java-distribution"
      typeName := "ReplaceDistribution"
      title := "Replace actions/setup-java distribution"
      summary := "Replace any of the listed setup-java distributions with another one."
      help :=
        ["from: distributions to replace, e.g. [adopt, adopt-hotspot]",
          "to: replacement distribution, e.g. temurin"]
      fields :=
        [⟨"from", .texts, true⟩,
          ⟨"to", .text, true⟩]
      make := fun given =>
        .amendment <| .replaceDistribution ⟨given.textsOr "from" [], given.text "to"⟩ },
    { name := "setup-java-upgrade-java-version"
      typeName := "UpgradeJavaVersion"
      title := "Upgrade `actions/setup-java` `java-version`"
      summary := "Raise `with.java-version` of setup-java steps to at least the given major."
      help :=
        ["minimum-java-major-version: lowest acceptable major (default 21)"]
      fields :=
        [⟨"minimum-java-major-version", .number, false⟩]
      make := fun given =>
        .amendment <| .raiseJava ((given.number? "minimum-java-major-version").getD 21) },
    { name := "setup-java-caching"
      typeName := "SetupJavaCaching"
      title := "Enable caching for Maven and Gradle builds"
      summary := "Use setup-java's built-in dependency cache instead of actions/cache."
      make := fun _ => .amendment .cacheJava },
    { name := "setup-node-upgrade-node-version"
      typeName := "UpgradeNodeVersion"
      title := "Upgrade `actions/setup-node` `node-version`"
      summary := "Raise `with.node-version` of setup-node steps to at least the given major."
      help :=
        ["minimum-node-major-version: lowest acceptable major (default 24)"]
      fields :=
        [⟨"minimum-node-major-version", .number, false⟩]
      make := fun given =>
        .amendment <| .raiseNode ((given.number? "minimum-node-major-version").getD 24) },
    { name := "add-cron-trigger"
      typeName := "AddCronTrigger"
      title := "Add cron workflow trigger"
      summary :=
        "Schedule a workflow to also run periodically. Macros like @daily resolve to a " ++
        "randomized concrete time."
      help :=
        ["cron: five-field expression, or one of @hourly @daily @weekly @weekdays @weekends " ++
          "@monthly @yearly",
          "workflow-file-matcher: file-name glob within .github/workflows (default: all)"]
      fields :=
        [⟨"cron", .text, true⟩,
          ⟨"workflow-file-matcher", .maybe .text, false⟩]
      make := fun given =>
        .amendment <| .addCron ⟨given.text "cron", given.text? "workflow-file-matcher", none⟩ },
    { name := "remove-all-cron-triggers"
      typeName := "RemoveAllCronTriggers"
      title := "Remove all cron triggers"
      summary := "Remove the `on.schedule` block from every workflow."
      make := fun _ => .amendment .removeCron },
    { name := "add-manual-trigger"
      typeName := "AddManualTrigger"
      title := "Add manual workflow trigger"
      summary := "Allow a workflow to be started by hand by adding `workflow_dispatch`."
      make := fun _ => .amendment .addManual },
    { name := "auto-cancel-in-progress-workflow"
      typeName := "AutoCancelInProgressWorkflow"
      title := "Cancel in-progress workflow when it is triggered again"
      summary :=
        "When a workflow is already running and would be triggered again, cancel the existing " ++
        "run."
      help :=
        ["access-token: secret holding the token (default: the workflow's github.token)",
          "job: job to add the step to (default build)"]
      fields :=
        [⟨"access-token", .maybe .text, false⟩,
          ⟨"job", .text, false⟩]
      make := fun given =>
        .amendment <| .cancelEarlier
          ⟨given.text? "access-token",
            (given.text? "job").getD "build"⟩ },
    { name := "change-dependabot-schedule-interval"
      typeName := "ChangeScheduleInterval"
      title := "Change Dependabot schedule interval"
      summary := "Change how often Dependabot checks a package ecosystem for updates."
      help :=
        ["package-ecosystem: ecosystem name or regex, e.g. maven or npm|yarn",
          "interval: daily, weekly or monthly"]
      fields :=
        [⟨"package-ecosystem", .text, true⟩,
          ⟨"interval", .text, true⟩]
      make := fun given =>
        .amendment <| .changeInterval ⟨given.text "package-ecosystem", given.text "interval"⟩ },
    { name := "add-dependabot-cooldown"
      typeName := "AddCooldown"
      title := "Add cooldown periods to Dependabot configuration"
      summary := "Delay version updates until a release has been public for a number of days."
      help :=
        ["cooldown-days: default delay in days, 1-90 (default 7)",
          "semver-major-days / semver-minor-days / semver-patch-days: per-level delay, 1-90",
          "include: up to 150 dependency patterns the cooldown applies to",
          "exclude: up to 150 dependency patterns exempt from the cooldown"]
      fields :=
        [⟨"cooldown-days", .number, false⟩,
          ⟨"semver-major-days", .maybe .number, false⟩,
          ⟨"semver-minor-days", .maybe .number, false⟩,
          ⟨"semver-patch-days", .maybe .number, false⟩,
          ⟨"include", .maybe .texts, false⟩,
          ⟨"exclude", .maybe .texts, false⟩]
      make := fun given =>
        .amendment <| .addCooldown
          { days := (given.number? "cooldown-days").getD 7
            majorDays := given.number? "semver-major-days"
            minorDays := given.number? "semver-minor-days"
            patchDays := given.number? "semver-patch-days"
            included := given.texts? "include"
            excluded := given.texts? "exclude" } },
    { name := "replace-runners"
      typeName := "ReplaceRunners"
      title := "Replace runners for a job"
      summary := "Replace the runners of a single job with the given list."
      help :=
        ["job-name: job whose runs-on is replaced, e.g. build",
          "runners: runner labels, e.g. [ubuntu-latest, self-hosted]"]
      fields :=
        [⟨"job-name", .text, true⟩,
          ⟨"runners", .texts, true⟩]
      make := fun given =>
        .amendment <| .replaceRunners ⟨given.text "job-name", given.textsOr "runners" []⟩ },
    { name := "change-action"
      typeName := "ChangeAction"
      title := "Change GitHub Action"
      summary := "Replace one action with another, pinned to the given version."
      help :=
        ["old-action: action to replace, e.g. gradle/wrapper-validation-action",
          "new-action: replacement action, e.g. gradle/actions/wrapper-validation",
          "new-version: ref for the new action, e.g. v3"]
      fields :=
        [⟨"old-action", .text, true⟩,
          ⟨"new-action", .text, true⟩,
          ⟨"new-version", .text, true⟩]
      make := fun given =>
        .amendment <| .changeAction
          ⟨given.text "old-action",
            given.text "new-action",
            given.text "new-version"⟩ },
    { name := "change-action-version"
      typeName := "ChangeActionVersion"
      title := "Change GitHub Action version"
      summary := "Pin every use of an action to a specific ref."
      help :=
        ["action: action to pin, e.g. actions/checkout",
          "version: ref to pin to, e.g. v4 or a commit SHA"]
      fields :=
        [⟨"action", .text, true⟩,
          ⟨"version", .text, true⟩]
      make := fun given =>
        .amendment <| .changeActionVersion ⟨given.text "action", given.text "version"⟩ },
    { name := "replace-secrets"
      typeName := "ReplaceSecrets"
      title := "Replace GitHub Action secret names"
      summary := "Replace references to a secret in workflow files."
      help :=
        ["old-secret-name: secret to replace, e.g. OSSRH_S01_USERNAME",
          "new-secret-name: new secret name, e.g. SONATYPE_USERNAME",
          "file-matcher: path glob (default .github/workflows/*.yml)"]
      fields :=
        [⟨"old-secret-name", .text, true⟩,
          ⟨"new-secret-name", .text, true⟩,
          ⟨"file-matcher", .maybe .text, false⟩]
      make := fun given =>
        .amendment <| .replaceSecret
          ⟨given.text "old-secret-name",
            given.text "new-secret-name",
            given.text? "file-matcher"⟩ },
    { name := "replace-secret-keys"
      typeName := "ReplaceSecretKeys"
      title := "Replace secret key names in GitHub Actions"
      summary := "Rename mapping keys used to pass secrets, keeping their position."
      help :=
        ["old-key-name: key to rename, e.g. ossrh_username",
          "new-key-name: new key, e.g. sonatype_username",
          "file-matcher: path glob (default .github/workflows/*.yml)"]
      fields :=
        [⟨"old-key-name", .text, true⟩,
          ⟨"new-key-name", .text, true⟩,
          ⟨"file-matcher", .maybe .text, false⟩]
      make := fun given =>
        .amendment <| .renameKey
          ⟨given.text "old-key-name",
            given.text "new-key-name",
            given.text? "file-matcher"⟩ },
    { name := "prefer-secrets-inherit-workflow"
      typeName := "PreferSecretsInherit"
      title := "Use `secrets: inherit` if possible"
      summary :=
        "Pass all secrets to a reusable workflow using `secrets: inherit` when every secret " ++
        "is forwarded under its own name."
      make := fun _ => .amendment .inheritSecrets },
    { name := "remove-workflow-input-argument"
      typeName := "RemoveWorkflowInputArgument"
      title := "Remove workflow input argument"
      summary := "Remove an input argument from calls to a specific reusable workflow version."
      help :=
        ["workflow-reference: e.g. org/repo/.github/workflows/build.yml",
          "version: e.g. v1.2.3",
          "input-argument-name: input to drop from `with`"]
      fields :=
        [⟨"workflow-reference", .text, true⟩,
          ⟨"version", .text, true⟩,
          ⟨"input-argument-name", .text, true⟩]
      make := fun given =>
        .amendment <| .dropInput
          ⟨given.text "workflow-reference",
            given.text "version",
            given.text "input-argument-name"⟩ },
    { name := "remove-unused-workflow-dispatch-inputs"
      typeName := "RemoveUnusedDispatchInputs"
      title := "Remove unused workflow dispatch inputs"
      summary := "Remove workflow_dispatch inputs that are not referenced anywhere in the workflow."
      make := fun _ => .amendment .dropUnusedInputs },
    { name := "use-gradle-wrapper"
      typeName := "UseGradleWrapper"
      title := "Use Gradle Wrapper instead of Gradle binary directly"
      summary :=
        "Replace calls to `gradle` with the Gradle Wrapper when the repository has a " ++
        "`gradlew` script."
      make := fun _ => .amendment .useGradleWrapper },
    { name := "upgrade-slack-notification-version2"
      typeName := "UpgradeSlackNotification"
      title := "Upgrade `slackapi/slack-github-action`"
      summary :=
        "Update the Slack GitHub Action to version 2.0, moving the channel and message into a " ++
        "chat.postMessage payload."
      make := fun _ => .amendment .upgradeSlack },
    { name := "find-missing-timeout"
      typeName := "FindMissingTimeout"
      title := "Find jobs missing timeout"
      summary := "Report jobs with no `timeout-minutes`; they run for up to six hours by default."
      make := fun _ => .audit .missingTimeout },
    { name := "find-unpinned-actions"
      typeName := "FindUnpinnedActions"
      title := "Find unpinned uses of third-party actions"
      summary :=
        "Report actions referenced by branch, tag or not at all instead of a full commit SHA."
      make := fun _ => .audit .unpinnedAction },
    { name := "setup-python-to-uv"
      typeName := "SetupPythonToUv"
      title := "Replace `actions/setup-python` with `astral-sh/setup-uv`"
      summary :=
        "Switch Python jobs to uv: the setup action, its pip cache, and the `pip install` / " ++
        "`python -m` commands of the same job."
      help :=
        ["uv-version: ref of astral-sh/setup-uv (default v6)",
          "sync-strategy: basic | locked | full (default basic)",
          "transform-pip-commands: rewrite pip and python -m run steps (default true)",
          "enable-cache: turn `cache: pip` into `enable-cache: \"true\"` (default true)"]
      fields :=
        [⟨"uv-version", .text, false⟩,
          ⟨"sync-strategy", .strategy, false⟩,
          ⟨"transform-pip-commands", .flag, false⟩,
          ⟨"enable-cache", .flag, false⟩]
      make := fun given =>
        .amendment <| .moveToUv
          { version := (given.text? "uv-version").getD "v6"
            strategy := (given.strategy? "sync-strategy").getD .basic
            convertCommands := (given.flag? "transform-pip-commands").getD true
            enableCache := (given.flag? "enable-cache").getD true } },
    { name := "template-injection"
      typeName := "TemplateInjection"
      title := "Find template injection"
      summary :=
        "Report `$\x7b\x7b \x7d\x7d` expressions over attacker-controlled context (issue " ++
        "titles, PR bodies, branch names, step outputs) expanded into `run` or script inputs."
      make := fun _ => .audit .templateInjection },
    { name := "github-env"
      typeName := "GithubEnv"
      title := "Find dangerous GITHUB_ENV usage"
      summary :=
        "Report writes to `GITHUB_ENV` or `GITHUB_PATH` in workflows triggered by " ++
        "`pull_request_target` or `workflow_run`."
      make := fun _ => .audit .environmentFile },
    { name := "insecure-commands"
      typeName := "InsecureCommands"
      title := "Find insecure commands configuration"
      summary :=
        "Report `ACTIONS_ALLOW_UNSECURE_COMMANDS` set to a true value, which re-enables the " ++
        "deprecated `set-env` and `add-path` workflow commands."
      make := fun _ => .audit .insecureCommand },
    { name := "obfuscation"
      typeName := "Obfuscation"
      title := "Find obfuscated GitHub Actions features"
      summary :=
        "Report action references with `.`, `..` or empty path components, and run scripts " ++
        "whose expressions play quoting tricks."
      make := fun _ => .audit .obfuscation },
    { name := "excessive-permissions"
      typeName := "ExcessivePermissions"
      title := "Find excessive permissions"
      summary :=
        "Report `permissions` blocks that grant `write-all`, `read-all`, or write access to " ++
        "sensitive scopes."
      make := fun _ => .audit .permission },
    { name := "dangerous-triggers"
      typeName := "DangerousTriggers"
      title := "Find dangerous workflow triggers"
      summary :=
        "Report workflows triggered by `pull_request_target` or `workflow_run`, which run " ++
        "privileged in the context of the target repository."
      make := fun _ => .audit .dangerousTrigger },
    { name := "secrets-inherit"
      typeName := "SecretsInherit"
      title := "Find unconditional secrets inheritance"
      summary :=
        "Report reusable workflow calls that pass every parent secret with `secrets: inherit`."
      make := fun _ => .audit .inheritedSecret },
    { name := "self-hosted-runner"
      typeName := "SelfHostedRunner"
      title := "Find usage of self-hosted runners"
      summary := "Report jobs that run on `self-hosted` runners, directly or through a matrix."
      make := fun _ => .audit .selfHosted },
    { name := "bot-conditions"
      typeName := "BotConditions"
      title := "Find spoofable bot actor checks"
      summary :=
        "Report `if:` conditions that trust a bot by actor name or by `contains`, both of " ++
        "which an attacker account can imitate."
      make := fun _ => .audit .botCondition },
    { name := "anonymous-jobs"
      typeName := "AnonymousJobs"
      title := "Find jobs without descriptive names"
      summary := "Report jobs with no `name`; reusable workflow calls are exempt."
      make := fun _ => .audit .anonymousJob },
    { name := "unpinned-docker-images"
      typeName := "UnpinnedDockerImages"
      title := "Pin Docker images to digests"
      summary :=
        "Report container and service `image:` references not pinned to a `sha256` digest. " ++
        "Tags can be repointed by the image author; digests cannot."
      make := fun _ => .audit .unpinnedImage },
    { name := "forbidden-uses"
      typeName := "ForbiddenUses"
      title := "Find forbidden action usage"
      summary :=
        "Report actions with known vulnerabilities, names matching suspicious patterns, or " ++
        "single-character owners."
      help :=
        ["additional-dangerous-actions: extra `owner/repo@ref` values to flag",
          "additional-suspicious-patterns: extra substrings to flag"]
      fields :=
        [⟨"additional-dangerous-actions", .texts, false⟩,
          ⟨"additional-suspicious-patterns", .texts, false⟩]
      make := fun given =>
        .audit <| .forbidden
          ⟨given.textsOr "additional-dangerous-actions" [],
            given.textsOr "additional-suspicious-patterns" []⟩ },
    { name := "ref-version-mismatch"
      typeName := "RefVersionMismatch"
      title := "Find commit SHAs with potentially mismatched version comments"
      summary :=
        "Report actions pinned to a commit SHA that carry a version comment, so the comment " ++
        "can be checked against what the SHA really is."
      make := fun _ => .audit .commitRemark },
    { name := "cache-poisoning"
      typeName := "CachePoisoning"
      title := "Find cache poisoning vulnerabilities"
      summary :=
        "Report caching actions in workflows that publish artifacts, where a poisoned cache " ++
        "could end up in a release."
      make := fun _ => .audit .cachePoisoning },
    { name := "hardcoded-credentials"
      typeName := "HardcodedCredentials"
      title := "Find hardcoded container credentials"
      summary :=
        "Report registry `password:` values written inline instead of read from `$\x7b\x7b " ++
        "secrets.* \x7d\x7d`."
      make := fun _ => .audit .writtenPassword },
    { name := "artifact-security"
      typeName := "ArtifactSecurity"
      title := "Find credential persistence through GitHub Actions artifacts"
      summary :=
        "Report checkouts that keep the git credential in a workflow that uploads artifacts, " ++
        "and uploads of paths likely to hold credentials."
      make := fun _ => .audit .artifact },
    { name := "trusted-publishing"
      typeName := "TrustedPublishing"
      title := "Find manual credentials instead of trusted publishing"
      summary :=
        "Report publishing steps and commands that use long-lived registry tokens where the " ++
        "registry supports OIDC trusted publishing."
      make := fun _ => .audit .trustedPublishing } ]

/-- The kind of recipe with a name. -/
def find? (name : String) : Option RecipeKind := catalog.find? fun kind => kind.name == name

/-- The names of all kinds of recipes, in order. -/
def names : List String := catalog.map (·.name)

end RecipeKind

end WorkflowRecipes
