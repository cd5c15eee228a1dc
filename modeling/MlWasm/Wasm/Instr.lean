import MlWasm.Operator

/-!
Instructions of the stack code. Every value is a 32-bit word. Code is a flat list in which `if_`,
`else_` and `end_` mark blocks.
-/

namespace MlWasm.Wasm

inductive Instr where
  | const (n : Int32)
  | localGet (index : Nat)
  | localSet (index : Nat)
  /-- Sets a local and keeps the value. -/
  | localTee (index : Nat)
  | globalGet (index : Nat)
  | globalSet (index : Nat)
  | add
  | sub
  | mul
  | eq
  | ltS
  | leS
  | shrU
  | load (offset : Nat)
  | store (offset : Nat)
  | call (function : Nat)
  /-- Calls through a table slot, whose function must have the given type. -/
  | callIndirect (type : Nat)
  /-- Pages of memory. -/
  | memorySize
  /-- Adds pages and yields how many there were, or -1 if that many cannot be had. -/
  | memoryGrow
  | drop
  /-- Begins a block of two arms that leave one word each. -/
  | if_
  | else_
  | end_
  deriving DecidableEq, Repr, Inhabited

def Instr.ofOp : Op → Instr
  | .add => .add
  | .sub => .sub
  | .mul => .mul
  | .eq => .eq
  | .lt => .ltS
  | .le => .leS

end MlWasm.Wasm
