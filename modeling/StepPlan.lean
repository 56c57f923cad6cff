import StepPlan.Main
import StepPlan.Files.Directory
import StepPlan.Snapshot.Json
import StepPlan.Proofs.Plan.Enumeration
import StepPlan.Proofs.Plan.Directive
import StepPlan.Proofs.Text.Utf8
import StepPlan.Proofs.Plan.Spelling
import StepPlan.Proofs.Snapshot.Currency
import StepPlan.Proofs.Snapshot.RoundTrip
import StepPlan.Proofs.Snapshot.Truncation
import StepPlan.Proofs.Tree.ZeroSigns
import StepPlan.Proofs.Definition.RoundTrip
import StepPlan.Proofs.Cli.Arguments
import StepPlan.Proofs.Cli.Session
import StepPlan.Proofs.Cli.Reuse
import StepPlan.Proofs.Plan.Noninterference
import StepPlan.Proofs.Definition.Conversion
import StepPlan.Proofs.Plan.PrunePoints
import StepPlan.Proofs.Definition.Presentation
import StepPlan.Proofs.Snapshot.ReadBack
import StepPlan.Proofs.Definition.Kernel
import StepPlan.Proofs.Plan.Verdict
import StepPlan.Proofs.Definition.Canonical
import StepPlan.Proofs.Plan.Blocks
import StepPlan.Proofs.Snapshot.Shortest
import StepPlan.Proofs.Definition.Resaving
import StepPlan.Proofs.Definition.Truncation
import StepPlan.Proofs.Plan.Appending
import StepPlan.Proofs.Plan.AnyStart
import StepPlan.Proofs.Definition.FaultyNodes
import StepPlan.Proofs.Tree.Drawing
import StepPlan.Proofs.Snapshot.ValueTexts
import StepPlan.Proofs.Plan.PathTexts
