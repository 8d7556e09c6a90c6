import WorkflowCompiler.Main
import WorkflowCompiler.Proofs.CommandLine.Checks
import WorkflowCompiler.Proofs.CommandLine.Spellings
import WorkflowCompiler.Proofs.Compilation.Agents
import WorkflowCompiler.Proofs.Compilation.Agreement
import WorkflowCompiler.Proofs.Compilation.Circles
import WorkflowCompiler.Proofs.Compilation.Commands
import WorkflowCompiler.Proofs.Compilation.Deferral
import WorkflowCompiler.Proofs.Compilation.InlineBatches
import WorkflowCompiler.Proofs.Compilation.Misreadings
import WorkflowCompiler.Proofs.Compilation.Needs
import WorkflowCompiler.Proofs.Compilation.Outcomes
import WorkflowCompiler.Proofs.Compilation.Positions
import WorkflowCompiler.Proofs.Compilation.References
import WorkflowCompiler.Proofs.Compilation.Resolved
import WorkflowCompiler.Proofs.Compilation.Schedule
import WorkflowCompiler.Proofs.Compilation.Scoping
import WorkflowCompiler.Proofs.Compilation.Sequences
import WorkflowCompiler.Proofs.Compilation.Variables
import WorkflowCompiler.Proofs.Compilation.Verbatim
import WorkflowCompiler.Proofs.Compilation.Waiting
import WorkflowCompiler.Proofs.Context.Asking
import WorkflowCompiler.Proofs.Context.Expansion
import WorkflowCompiler.Proofs.Context.Quoting
import WorkflowCompiler.Proofs.Context.Readings
import WorkflowCompiler.Proofs.Context.Settled
import WorkflowCompiler.Proofs.Document.Shapes
import WorkflowCompiler.Proofs.Document.Workflows
import WorkflowCompiler.Proofs.Library.Circular
import WorkflowCompiler.Proofs.Needs.Levels
import WorkflowCompiler.Proofs.Needs.Links
import WorkflowCompiler.Proofs.Needs.Stuck
import WorkflowCompiler.Proofs.Reference.NormalPaths
import WorkflowCompiler.Proofs.Validation.Suggestions
import WorkflowCompiler.Proofs.Workflow.RoundTrip
