import MlWasm.Machine.Trap
import MlWasm.Wasm.Module

/-!
Modules made ready to run. The blocks of each body are matched once, so that a jump is a number of
instructions to skip. All jumps go forward.
-/

namespace MlWasm.Machine

open MlWasm.Wasm (Instr Import Module)

/-- A block seen from inside: where it ends, and where its second arm begins if that is known. Both
are positions just past a mark. -/
structure Block where
  stop : Nat
  second : Option Nat
  deriving DecidableEq, Repr, Inhabited

/-- One instruction more, from the last to the first: the jump targets of the instructions seen and
the blocks still open to the left. -/
def matchBlock (instr : Instr) (pc : Nat) :
    List (Option Nat) × List Block → Option (List (Option Nat) × List Block)
  | (targets, blocks) =>
      match instr, blocks with
      | .end_, blocks => some (none :: targets, ⟨pc + 1, none⟩ :: blocks)
      | .else_, ⟨stop, none⟩ :: blocks =>
          some (some stop :: targets, ⟨stop, some (pc + 1)⟩ :: blocks)
      | .else_, _ => none
      | .if_, b :: blocks => some (some (b.second.getD b.stop) :: targets, blocks)
      | .if_, [] => none
      | _, blocks => some (none :: targets, blocks)

/-- For each `if_` the position just past its `else_`, or past its `end_` if it has none; for each
`else_` the position just past its `end_`. There is none if the blocks do not nest. -/
def jumpTable (body : List Instr) : Option (List (Option Nat)) :=
  match body.zipIdx.foldr (fun (instr, pc) acc => acc.bind (matchBlock instr pc))
      (some ([], [])) with
  | some (targets, []) => some targets
  | _ => none

/-- An instruction, and how many of those after it a jump from it skips. -/
structure Placed where
  instr : Instr
  skip : Option Nat
  deriving DecidableEq, Repr, Inhabited

def place (body : List Instr) (targets : List (Option Nat)) : List Placed :=
  (body.zip targets).zipIdx.map fun ((instr, target), pc) =>
    ⟨instr, target.map fun t => t - (pc + 1)⟩

/-- A defined function. -/
structure Body where
  type : Nat
  localCount : Nat
  code : List Placed
  deriving DecidableEq, Repr, Inhabited

structure Image where
  imports : List Import
  bodies : List Body
  table : List Nat
  main : Nat
  deriving DecidableEq, Repr, Inhabited

namespace Image

def loadBody (index : Nat) (f : Wasm.Function) : Except Trap Body :=
  match jumpTable f.body with
  | none => .error (.malformedControl index)
  | some targets => .ok ⟨f.type, f.locals.count, place f.body targets⟩

def load (m : Module) : Except Trap Image := do
  let bodies ← (m.functions.zipIdx m.imports.length).mapM fun (f, index) => loadBody index f
  return ⟨m.imports, bodies, m.table, m.main⟩

def body? (image : Image) (index : Nat) : Option Body :=
  if index < image.imports.length then none else image.bodies[index - image.imports.length]?

def typeOf? (image : Image) (index : Nat) : Option Nat :=
  match image.imports[index]? with
  | some i => some i.type
  | none => (image.body? index).map (·.type)

end Image

end MlWasm.Machine
