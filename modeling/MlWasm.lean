import MlWasm.Main
import MlWasm.Machine.Run
import MlWasm.Proofs.Scope
import MlWasm.Proofs.Ty.Subst
import MlWasm.Proofs.Ty.Unify
import MlWasm.Proofs.Ty.Scheme
import MlWasm.Proofs.Ty.HasType
import MlWasm.Proofs.Ty.Session
import MlWasm.Proofs.Ty.Checker
import MlWasm.Proofs.Ty.Reach
import MlWasm.Proofs.Ty.Soundness
import MlWasm.Proofs.Ty.Completeness
import MlWasm.Proofs.Ty.Principal
import MlWasm.Proofs.Ty.Parts
import MlWasm.Proofs.Ty.Recursion
import MlWasm.Proofs.Ty.Discipline
import MlWasm.Proofs.Ty.Alpha
import MlWasm.Proofs.Ty.Renaming
import MlWasm.Proofs.Ty.Renumbering
import MlWasm.Proofs.Eval.Natural
import MlWasm.Proofs.Eval.Adequacy
import MlWasm.Proofs.Eval.Agreement
import MlWasm.Proofs.Eval.Limit
import MlWasm.Proofs.Eval.Safety
import MlWasm.Proofs.Machine.Memory
import MlWasm.Proofs.Machine.Blocks
import MlWasm.Proofs.Machine.Runs
import MlWasm.Proofs.Machine.Passes
import MlWasm.Proofs.Machine.Alloc
import MlWasm.Proofs.Ir.Lift
import MlWasm.Proofs.Ir.Temps
import MlWasm.Proofs.Machine.Records
import MlWasm.Proofs.Machine.Safe
import MlWasm.Proofs.Wasm.Valid
import MlWasm.Proofs.Machine.Steady
import MlWasm.Proofs.Wasm.Blocks
import MlWasm.Proofs.Wasm.Image
import MlWasm.Proofs.Wasm.Table
import MlWasm.Proofs.Compile.Validity
import MlWasm.Proofs.Compile.Forms
import MlWasm.Proofs.Compile.Represents
import MlWasm.Proofs.Compile.Matches
import MlWasm.Proofs.Compile.Entry
import MlWasm.Proofs.Compile.Simulation
import MlWasm.Proofs.Compile.Correctness
import MlWasm.Proofs.Compile.HeapTyping
import MlWasm.Proofs.Compile.Safety
import MlWasm.Proofs.Source.Spelling
import MlWasm.Proofs.Source.Reading
import MlWasm.Proofs.Source.RoundTrip
import MlWasm.Proofs.Source.Grammar
import MlWasm.Proofs.Source.Viable
import MlWasm.Proofs.Source.Position
import MlWasm.Proofs.Source.Tokenization
import MlWasm.Proofs.Source.Negative
import MlWasm.Proofs.Machine.Allocations
import MlWasm.Proofs.Ir.Indices
import MlWasm.Proofs.Machine.Straight
import MlWasm.Proofs.Machine.Heap
import MlWasm.Proofs.Machine.Closures
import MlWasm.Proofs.Compile.Heap
import MlWasm.Proofs.Compile.Table
import MlWasm.Proofs.Ir.WellFormed
import MlWasm.Proofs.Scoping
import MlWasm.Proofs.Wasm.Encoding
import MlWasm.Proofs.Wasm.TextReader
import MlWasm.Proofs.Wasm.TextLayout
import MlWasm.Proofs.Wasm.TextForm
import MlWasm.Proofs.Machine.Termination
import MlWasm.Proofs.Compile.Divergence
import MlWasm.Proofs.Compile.Origins
import MlWasm.Proofs.Machine.Entries
import MlWasm.Proofs.Compile.Captures
import MlWasm.Proofs.Eval.Tail
import MlWasm.Proofs.Eval.Positive
import MlWasm.Proofs.Machine.Shared
import MlWasm.Proofs.Machine.Isolation
import MlWasm.Proofs.Compile.Restart
import MlWasm.Proofs.Machine.Bytes
import MlWasm.Proofs.Machine.AllocCall
import MlWasm.Proofs.Machine.Nesting
import MlWasm.Proofs.Machine.Structured
import MlWasm.Proofs.Eval.FreeNames
import MlWasm.Proofs.Ty.Capture
import MlWasm.Proofs.Ty.Environment
import MlWasm.Proofs.Ty.Text
