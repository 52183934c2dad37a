import TraceReplay.CommandLine.Workspace
import TraceReplay.Json.Printer
import TraceReplay.Main
import TraceReplay.Replay.Report
import TraceReplay.Replay.Step
import TraceReplay.Solver.Query
import TraceReplay.Proofs.BitFields
import TraceReplay.Proofs.Meaning
import TraceReplay.Proofs.SortedMap
import TraceReplay.Proofs.Build
import TraceReplay.Proofs.Memory.ByteStore
import TraceReplay.Proofs.Memory.Cells
import TraceReplay.Proofs.Memory.Histories
import TraceReplay.Proofs.Memory.Refinement
import TraceReplay.Proofs.Hybrid
import TraceReplay.Proofs.Construction
import TraceReplay.Proofs.Digits
import TraceReplay.Proofs.Formulas
import TraceReplay.Proofs.Solver.Semantics
import TraceReplay.Proofs.Solver.Reader
import TraceReplay.Proofs.Solver.Translation
import TraceReplay.Proofs.Solver.Agreement
import TraceReplay.Proofs.Solver.Equivalence
import TraceReplay.Proofs.RegisterViews
import TraceReplay.Proofs.Replay.Plan
import TraceReplay.Proofs.Replay.Reference
import TraceReplay.Proofs.Replay.Simulation
import TraceReplay.Proofs.Replay.Dataflow
import TraceReplay.Proofs.Replay.Atomicity
import TraceReplay.Proofs.Replay.Soundness
import TraceReplay.Proofs.Replay.Shape
import TraceReplay.Proofs.Replay.Frame
import TraceReplay.Proofs.Regular
import TraceReplay.Proofs.Replay.Binding
import TraceReplay.Proofs.Solver.Question
import TraceReplay.Proofs.Solver.BitQuery
import TraceReplay.Proofs.Replay.Effects
import TraceReplay.Proofs.Replay.Origins
import TraceReplay.Proofs.Replay.Footprint
import TraceReplay.Proofs.Trace.Spellings
import TraceReplay.Proofs.JsonText
import TraceReplay.Proofs.Trace.Records
import TraceReplay.Proofs.Checked.Arithmetic
import TraceReplay.Proofs.Checked.Building
import TraceReplay.Proofs.Checked.Replay
import TraceReplay.Proofs.Checked.Reading
import TraceReplay.Proofs.Evaluation
import TraceReplay.Proofs.Folding
import TraceReplay.Proofs.Shifts
import TraceReplay.Proofs.Replay.Alignment
import TraceReplay.Proofs.Masks
import TraceReplay.Proofs.RegisterWrites
import TraceReplay.Proofs.Solver.Unambiguous
import TraceReplay.Proofs.Replay.SplitBytes
import TraceReplay.Proofs.Solver.Acceptance
import TraceReplay.Proofs.Memory.Placements
import TraceReplay.Proofs.Replay.WriteChecks
import TraceReplay.Proofs.Replay.SavedRegisters
import TraceReplay.Proofs.Replay.RecordedAddresses
import TraceReplay.Proofs.Trace.Literals
import TraceReplay.Proofs.InputWalk
import TraceReplay.Proofs.MemoisedEvaluation
import TraceReplay.Proofs.CommandLine.SkipOptions
import TraceReplay.Proofs.CommandLine.Invocations
import TraceReplay.Proofs.PieceMaps
import TraceReplay.Proofs.HexText
