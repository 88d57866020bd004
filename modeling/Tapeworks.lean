import Tapeworks.Main
import Tapeworks.Machine.Json
import Tapeworks.Proofs.Gather
import Tapeworks.Proofs.Table
import Tapeworks.Proofs.Text.Numeral
import Tapeworks.Store
import Tapeworks.Symbol.Json
import Tapeworks.Proofs.Compile
import Tapeworks.Proofs.Code.Drawing
import Tapeworks.Proofs.Code.Reading
import Tapeworks.Proofs.Code.Writing
import Tapeworks.Proofs.Code.RoundTrip
import Tapeworks.Proofs.Machine.Session
import Tapeworks.Proofs.Machine.Simulation
import Tapeworks.Proofs.Code.Runs
import Tapeworks.Proofs.Code.NormalForm
import Tapeworks.Proofs.Code.Spelling
import Tapeworks.Proofs.Code.Diagnosis
import Tapeworks.Proofs.Compile.Conservation
import Tapeworks.Proofs.Machine.Steps
import Tapeworks.Proofs.Machine.Textbook
import Tapeworks.Proofs.Machine.Coherent
import Tapeworks.Proofs.Machine.Resume
import Tapeworks.Proofs.Machine.Bound
import Tapeworks.Proofs.Machine.Pace
import Tapeworks.Proofs.Machine.TraceLimit
import Tapeworks.Proofs.Machine.LongerTape
import Tapeworks.Proofs.Analysis
import Tapeworks.Proofs.Machine.Analyzed
import Tapeworks.Proofs.Diagram.Edits
import Tapeworks.Proofs.Diagram.FreeId
import Tapeworks.Proofs.Diagram.WellFormed
import Tapeworks.Proofs.Diagram.Editing
import Tapeworks.Proofs.Machine.InPlace
import Tapeworks.Proofs.Machine.Atomic
import Tapeworks.Proofs.Machine.Exchange
import Tapeworks.Proofs.Compile.Order
import Tapeworks.Proofs.Machine.Sweep
import Tapeworks.Proofs.Library.BinaryIncrement
import Tapeworks.Proofs.Library.EvenA
import Tapeworks.Proofs.Code.Loading
import Tapeworks.Proofs.Machine.Endless
import Tapeworks.Proofs.Position.Inert
import Tapeworks.Proofs.CommandLine.Modes
import Tapeworks.Proofs.Store.History
import Tapeworks.Proofs.Compile.Warnings
import Tapeworks.Proofs.Analysis.Findings
import Tapeworks.Proofs.MachineFile
import Tapeworks.Proofs.Code.Conflicts
import Tapeworks.Proofs.Machine.StepLimit
import Tapeworks.Proofs.Code.Depiction
import Tapeworks.Proofs.Code.Emission
import Tapeworks.Proofs.Diagram.LocalEffect
import Tapeworks.Proofs.Diagram.Undo
import Tapeworks.Proofs.Label.Writing
import Tapeworks.Proofs.Machine.Visited
import Tapeworks.Proofs.MachineFile.Folder
import Tapeworks.Proofs.Compile.Exported
