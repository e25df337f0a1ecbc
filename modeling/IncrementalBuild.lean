import IncrementalBuild.Jobs.Pool
import IncrementalBuild.Text.Utf8
import IncrementalBuild.State.Manifest.Store
import IncrementalBuild.State.DependencyFile
import IncrementalBuild.State.Layout
import IncrementalBuild.Version.Files
import IncrementalBuild.CommandLine.Run
import IncrementalBuild.Tool.Gnu
import IncrementalBuild.Main
import IncrementalBuild.Proofs.Graph.Visit
import IncrementalBuild.Proofs.Jobs.Bookkeeping
import IncrementalBuild.Proofs.Jobs.Calls
import IncrementalBuild.Proofs.Jobs.Work
import IncrementalBuild.Proofs.Jobs.History
import IncrementalBuild.Proofs.Jobs.Run
import IncrementalBuild.Proofs.Jobs.Completion
import IncrementalBuild.Proofs.Jobs.Links
import IncrementalBuild.Proofs.Jobs.Counters
import IncrementalBuild.Proofs.Jobs.Waiting
import IncrementalBuild.Proofs.Settings.Reachable
import IncrementalBuild.Proofs.Settings.Growth
import IncrementalBuild.Proofs.Settings.Answers
import IncrementalBuild.Proofs.Settings.Resolution
import IncrementalBuild.Proofs.Disk.Walk
import IncrementalBuild.Proofs.Disk.Frame
import IncrementalBuild.Proofs.Json.Scalar
import IncrementalBuild.Proofs.Json.RoundTrip
import IncrementalBuild.Proofs.Path
import IncrementalBuild.Proofs.State.Manifest
import IncrementalBuild.Proofs.Build.Plan
import IncrementalBuild.Proofs.World
import IncrementalBuild.Proofs.Build.Tasks
import IncrementalBuild.Proofs.State.Freshness
import IncrementalBuild.Proofs.State.Recording
import IncrementalBuild.Proofs.State.Store
import IncrementalBuild.Proofs.Build.Site
import IncrementalBuild.Proofs.Build.Check
import IncrementalBuild.Proofs.Build.Refresh
import IncrementalBuild.Proofs.Build.Soundness
import IncrementalBuild.Proofs.Build.Copying
import IncrementalBuild.Proofs.Disk.Spelling
import IncrementalBuild.Proofs.State.Unchanged
import IncrementalBuild.Proofs.Settings.Grammar.Condition
import IncrementalBuild.Proofs.Settings.Grammar.Program
import IncrementalBuild.Proofs.Settings.Grammar.Statements
import IncrementalBuild.Proofs.Settings.Grammar.Tokens
import IncrementalBuild.Proofs.Settings.Grammar.Lexemes
import IncrementalBuild.Proofs.Settings.Grammar.Printed
import IncrementalBuild.Proofs.Build.Precedence
import IncrementalBuild.Proofs.Build.Staging
import IncrementalBuild.Proofs.Build.Calls
import IncrementalBuild.Proofs.Build.Crew
import IncrementalBuild.Proofs.Build.Interleaving
import IncrementalBuild.Proofs.Build.Termination
import IncrementalBuild.Proofs.Build.Ordering
import IncrementalBuild.Proofs.Build.Work
import IncrementalBuild.Proofs.Build.Policy
import IncrementalBuild.Proofs.Build.Panics
import IncrementalBuild.Proofs.Build.Positions
import IncrementalBuild.Proofs.Build.OneWorker
import IncrementalBuild.Proofs.Build.ProjectOrder
import IncrementalBuild.Proofs.Disk.Grounded
import IncrementalBuild.Proofs.Disk.Directories
import IncrementalBuild.Proofs.State.RoundTrip
import IncrementalBuild.Proofs.Settings.Locality
import IncrementalBuild.Proofs.Disk.Leaves
import IncrementalBuild.Proofs.State.Lasting
import IncrementalBuild.Proofs.Version.Files
import IncrementalBuild.Proofs.Build.Copier
import IncrementalBuild.Proofs.Build.Repetition
import IncrementalBuild.Proofs.Settings.Sequences
import IncrementalBuild.Proofs.Settings.Branches
import IncrementalBuild.Proofs.Path.Components
import IncrementalBuild.Proofs.Path.Extension
import IncrementalBuild.Proofs.State.Layout
import IncrementalBuild.Proofs.Build.Cleaning
import IncrementalBuild.Proofs.Build.Rebuild
import IncrementalBuild.Proofs.Build.Changes
import IncrementalBuild.Proofs.Text.Blank
import IncrementalBuild.Proofs.Settings.Grammar.Spelling
import IncrementalBuild.Proofs.Settings.Grammar.Rendering
import IncrementalBuild.Proofs.Settings.Grammar.Nesting
import IncrementalBuild.Proofs.Settings.Grammar.Offsets
import IncrementalBuild.Proofs.Settings.Grammar.Places
import IncrementalBuild.Proofs.Settings.Histories
import IncrementalBuild.Proofs.Settings.Slicing
import IncrementalBuild.Proofs.Settings.Terminated
import IncrementalBuild.Proofs.Settings.Calm
import IncrementalBuild.Proofs.Build.Commitment
import IncrementalBuild.Proofs.Text.Split
import IncrementalBuild.Proofs.State.CompilerMessage
import IncrementalBuild.Proofs.State.DependencyFile
import IncrementalBuild.Proofs.Build.Completion
import IncrementalBuild.Proofs.Build.Retention
import IncrementalBuild.Proofs.State.CommonRoot
import IncrementalBuild.Proofs.State.Containment
import IncrementalBuild.Proofs.Workspace.Wildcard
import IncrementalBuild.Proofs.Workspace.Expansion
import IncrementalBuild.Proofs.Settings.Unconditional
import IncrementalBuild.Proofs.Version.Literal
import IncrementalBuild.Proofs.Workspace.Injection
