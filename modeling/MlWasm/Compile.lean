import MlWasm.Ir.Lift
import MlWasm.Ty.Infer
import MlWasm.Wasm.Text

/-!
Compiling a program to module text. A program without a type is refused before any code is made.
-/

namespace MlWasm

inductive CompileError where
  | type (e : TypeError)
  | lift (e : LiftError)

def CompileError.message : CompileError → String
  | type e => "type error: " ++ e.message
  | lift e => "internal error: " ++ e.message

def Expr.compile (e : Expr) : Except CompileError String := do
  let _ ← e.typeOf.mapError .type
  let program ← e.lift.mapError .lift
  return (Wasm.ofProgram program).text

end MlWasm
