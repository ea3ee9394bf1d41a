import DiffLang.Event
import DiffLang.Main
import DiffLang.Pipeline
import DiffLang.Proofs.Abstract.Backtracking
import DiffLang.Proofs.Code.Terms
import DiffLang.Proofs.Comparison
import DiffLang.Proofs.Dataflow.Closure
import DiffLang.Proofs.Gradient.Adjoint
import DiffLang.Proofs.Gradient.Closed
import DiffLang.Proofs.Graph.Construction
import DiffLang.Proofs.Graph.Drawing
import DiffLang.Proofs.Machine.Arguments
import DiffLang.Proofs.Rewriting.Elimination
import DiffLang.Proofs.Stage.Memory
import DiffLang.Report.Abstract
import DiffLang.Report.Dataflow
import DiffLang.Report.Debugging
import DiffLang.Report.Frames
import DiffLang.Report.Functions
import DiffLang.Report.Places
import DiffLang.Report.Validation
import DiffLang.Report.Values
import DiffLang.Runs
