import DeadCode.CommandLine.Run
import DeadCode.Main
import DeadCode.Proofs.Analysis.Evidence
import DeadCode.Proofs.Analysis.Modes
import DeadCode.Proofs.Analysis.Order
import DeadCode.Proofs.CommandLine.Frame
import DeadCode.Proofs.Edit.Modes
import DeadCode.Proofs.Edit.Survival
import DeadCode.Proofs.Fix.DryRun
import DeadCode.Proofs.Fix.Isolation
import DeadCode.Proofs.Mark.Exact
import DeadCode.Proofs.Project.Calls
import DeadCode.Proofs.Edit.Cover
import DeadCode.Proofs.Edit.Slices
import DeadCode.Proofs.Json.Record
import DeadCode.Proofs.Manifest.Document
import DeadCode.Proofs.Json.Render
import DeadCode.Proofs.Manifest.RoundTrip
import DeadCode.Proofs.Edit.Absorption
import DeadCode.Proofs.Edit.Batches
import DeadCode.Proofs.Repair.Occurrence
import DeadCode.Proofs.Repair.Binding
import DeadCode.Proofs.Edit.Deletion
import DeadCode.Proofs.Cycle.Exact
import DeadCode.Proofs.Repair.NameList
import DeadCode.Proofs.Repair.Remains
import DeadCode.Proofs.Mark.Commute
import DeadCode.Proofs.Mark.Work
import DeadCode.Proofs.CommandLine.OutputPath
import DeadCode.Proofs.Dot.Drawing
import DeadCode.Proofs.Repair.Rounds
import DeadCode.Proofs.Analysis.Progress
