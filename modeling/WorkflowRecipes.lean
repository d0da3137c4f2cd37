import WorkflowRecipes.ActionRef
import WorkflowRecipes.Amendment.Action
import WorkflowRecipes.Amendment.Basic
import WorkflowRecipes.Amendment.Command
import WorkflowRecipes.Amendment.Dependabot
import WorkflowRecipes.Amendment.Edit
import WorkflowRecipes.Amendment.Input
import WorkflowRecipes.Amendment.Java
import WorkflowRecipes.Amendment.Job
import WorkflowRecipes.Amendment.Secret
import WorkflowRecipes.Amendment.Trigger
import WorkflowRecipes.Audit.Basic
import WorkflowRecipes.Audit.Credential
import WorkflowRecipes.Audit.Event
import WorkflowRecipes.Audit.Finding
import WorkflowRecipes.Audit.Job
import WorkflowRecipes.Audit.Permission
import WorkflowRecipes.Audit.Publishing
import WorkflowRecipes.Audit.Reference
import WorkflowRecipes.Audit.Script
import WorkflowRecipes.CommandLine.Basic
import WorkflowRecipes.CommandLine.Perform
import WorkflowRecipes.CommandLine.Reading
import WorkflowRecipes.CommandLine.Taken
import WorkflowRecipes.Config.Basic
import WorkflowRecipes.Config.Loading
import WorkflowRecipes.Config.Reading
import WorkflowRecipes.Cron
import WorkflowRecipes.Diff.Compact
import WorkflowRecipes.Diff.Patch
import WorkflowRecipes.Diff.Script
import WorkflowRecipes.Digest
import WorkflowRecipes.Document.Access
import WorkflowRecipes.Document.Location
import WorkflowRecipes.Document.Walk
import WorkflowRecipes.FileTree.Basic
import WorkflowRecipes.FileTree.Change
import WorkflowRecipes.FileTree.Disk
import WorkflowRecipes.FileTree.Resolve
import WorkflowRecipes.Main
import WorkflowRecipes.Number.Basic
import WorkflowRecipes.Number.Binary64
import WorkflowRecipes.Number.Shortest
import WorkflowRecipes.Path.Basic
import WorkflowRecipes.Path.Glob
import WorkflowRecipes.Path.Kind
import WorkflowRecipes.Pattern.Basic
import WorkflowRecipes.Pattern.Reader
import WorkflowRecipes.Plan.Basic
import WorkflowRecipes.Plan.Discover
import WorkflowRecipes.Plan.File
import WorkflowRecipes.Plan.Listing
import WorkflowRecipes.Proofs.Amendment.InheritedSecrets
import WorkflowRecipes.Proofs.Amendment.NoticedChanges
import WorkflowRecipes.Proofs.Amendment.PinnedCommits
import WorkflowRecipes.Proofs.Amendment.RaisedVersions
import WorkflowRecipes.Proofs.Amendment.RenamedKeys
import WorkflowRecipes.Proofs.Amendment.ReplacedSecrets
import WorkflowRecipes.Proofs.Amendment.SecretReferences
import WorkflowRecipes.Proofs.Amendment.SettledKeys
import WorkflowRecipes.Proofs.Amendment.SettledSteps
import WorkflowRecipes.Proofs.Amendment.SlackPayload
import WorkflowRecipes.Proofs.Amendment.ToldChanges
import WorkflowRecipes.Proofs.Amendment.UpdateIntervals
import WorkflowRecipes.Proofs.Amendment.UsedInputs
import WorkflowRecipes.Proofs.Audit.CommitRemarks
import WorkflowRecipes.Proofs.Audit.EnvironmentWrites
import WorkflowRecipes.Proofs.Audit.ForeignExpressions
import WorkflowRecipes.Proofs.Audit.OwnMachines
import WorkflowRecipes.Proofs.Audit.ReleasePushes
import WorkflowRecipes.Proofs.Audit.SurroundingTexts
import WorkflowRecipes.Proofs.Config.Keys
import WorkflowRecipes.Proofs.Document.Entries
import WorkflowRecipes.Proofs.Document.Equality
import WorkflowRecipes.Proofs.Document.Framing
import WorkflowRecipes.Proofs.Document.Looking
import WorkflowRecipes.Proofs.Document.Noticing
import WorkflowRecipes.Proofs.Document.Reaching
import WorkflowRecipes.Proofs.Document.Reading
import WorkflowRecipes.Proofs.Document.Sameness
import WorkflowRecipes.Proofs.Document.Settling
import WorkflowRecipes.Proofs.Document.Stepwise
import WorkflowRecipes.Proofs.Document.Strings
import WorkflowRecipes.Proofs.Document.Swapping
import WorkflowRecipes.Proofs.Document.Telling
import WorkflowRecipes.Proofs.Document.Walks
import WorkflowRecipes.Proofs.FileTree.Extension
import WorkflowRecipes.Proofs.FileTree.Replacement
import WorkflowRecipes.Proofs.FileTree.Work
import WorkflowRecipes.Proofs.Path.Kinds
import WorkflowRecipes.Proofs.Path.Names
import WorkflowRecipes.Proofs.Pattern.Classes
import WorkflowRecipes.Proofs.Pattern.Openings
import WorkflowRecipes.Proofs.Pattern.Reading
import WorkflowRecipes.Proofs.Pattern.Stretches
import WorkflowRecipes.Proofs.Pattern.Wrapping
import WorkflowRecipes.Proofs.Plan.Composition
import WorkflowRecipes.Proofs.Plan.Discovery
import WorkflowRecipes.Proofs.Plan.Isolation
import WorkflowRecipes.Proofs.Plan.Planning
import WorkflowRecipes.Proofs.Plan.Repetition
import WorkflowRecipes.Proofs.Plan.Searching
import WorkflowRecipes.Proofs.Plan.Silence
import WorkflowRecipes.Proofs.Plan.Targeting
import WorkflowRecipes.Proofs.Recipe.Keys
import WorkflowRecipes.Proofs.Recipe.Naming
import WorkflowRecipes.Proofs.Run.Completion
import WorkflowRecipes.Proofs.Run.Deeds
import WorkflowRecipes.Proofs.Run.Editors
import WorkflowRecipes.Proofs.Run.Effect
import WorkflowRecipes.Proofs.Run.Interruption
import WorkflowRecipes.Proofs.Run.LogLines
import WorkflowRecipes.Proofs.Run.Performance
import WorkflowRecipes.Proofs.Run.Preview
import WorkflowRecipes.Proofs.Text.Folding
import WorkflowRecipes.Proofs.Text.Json
import WorkflowRecipes.Proofs.Text.Occurrences
import WorkflowRecipes.Proofs.Text.Pieces
import WorkflowRecipes.Proofs.Text.Versions
import WorkflowRecipes.Proofs.Yaml.FirstToken
import WorkflowRecipes.Proofs.Yaml.FoldedText
import WorkflowRecipes.Proofs.Yaml.MarkedText
import WorkflowRecipes.Proofs.Yaml.MovedText
import WorkflowRecipes.Proofs.Yaml.MovedTokens
import WorkflowRecipes.Proofs.Yaml.Pages
import WorkflowRecipes.Proofs.Yaml.QuotedEntries
import WorkflowRecipes.Proofs.Yaml.QuotedText
import WorkflowRecipes.Proofs.Yaml.Segments
import WorkflowRecipes.Proofs.Yaml.Starts
import WorkflowRecipes.Proofs.Yaml.Streams
import WorkflowRecipes.Recipe.Basic
import WorkflowRecipes.Recipe.Catalog
import WorkflowRecipes.Recipe.Context
import WorkflowRecipes.Recipe.Option
import WorkflowRecipes.Recipe.Reading
import WorkflowRecipes.Run.Basic
import WorkflowRecipes.Run.Error
import WorkflowRecipes.Run.Event
import WorkflowRecipes.Run.Moment
import WorkflowRecipes.Text.Blank
import WorkflowRecipes.Text.Case
import WorkflowRecipes.Text.Category
import WorkflowRecipes.Text.Digits
import WorkflowRecipes.Text.Hex
import WorkflowRecipes.Text.JsonString
import WorkflowRecipes.Text.Quoted
import WorkflowRecipes.Text.Search
import WorkflowRecipes.Text.Table
import WorkflowRecipes.Version
import WorkflowRecipes.Yaml.Alias
import WorkflowRecipes.Yaml.Cursor
import WorkflowRecipes.Yaml.Document
import WorkflowRecipes.Yaml.Node
import WorkflowRecipes.Yaml.Page
import WorkflowRecipes.Yaml.Render
import WorkflowRecipes.Yaml.Scalar
import WorkflowRecipes.Yaml.ScalarForm
import WorkflowRecipes.Yaml.ScalarText
import WorkflowRecipes.Yaml.Segment
import WorkflowRecipes.Yaml.Token
import WorkflowRecipes.Yaml.Value
import WorkflowRecipes.Proofs.Amendment.AddedEvents
import WorkflowRecipes.Proofs.Text.References
import WorkflowRecipes.Proofs.Amendment.MigratedMessages
import WorkflowRecipes.Proofs.Amendment.SwitchedCaches
import WorkflowRecipes.Proofs.Amendment.MovedToUv
import WorkflowRecipes.Proofs.Amendment.WrappedScripts
import WorkflowRecipes.Proofs.Amendment.RetargetedSteps
import WorkflowRecipes.Proofs.Plan.FixedOnUse
import WorkflowRecipes.Proofs.Document.Addresses
import WorkflowRecipes.Proofs.Document.Slots
import WorkflowRecipes.Proofs.Document.Visits
import WorkflowRecipes.Proofs.Text.Octets
import WorkflowRecipes.Proofs.Plan.Walking
import WorkflowRecipes.Proofs.Plan.FoundFiles
