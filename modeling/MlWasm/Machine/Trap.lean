/-!
Why the machine stops without a result.
-/

namespace MlWasm.Machine

inductive Trap where
  | unknownFunction (index : Nat)
  | unknownImport (name : String)
  | unknownLocal (index : Nat)
  | unknownGlobal (index : Nat)
  | outOfBounds (address : Nat)
  | tableOutOfBounds (slot : Int32)
  | signatureMismatch (expected found : Nat)
  | stackUnderflow
  | unbalancedStack (function : Nat)
  /-- The blocks of a function do not nest. -/
  | malformedControl (function : Nat)
  | callStackExhausted
  deriving DecidableEq, Repr, Inhabited

def Trap.message : Trap → String
  | unknownFunction index => s!"function {index} does not exist"
  | unknownImport name => s!"import `{name}` is not provided by the host"
  | unknownLocal index => s!"local {index} is out of range"
  | unknownGlobal index => s!"global {index} is out of range"
  | outOfBounds address => s!"out of bounds memory access at {address}"
  | tableOutOfBounds slot => s!"table index {slot.toInt} is out of bounds"
  | signatureMismatch expected found =>
      s!"indirect call type mismatch: expected type {expected}, found type {found}"
  | stackUnderflow => "operand stack underflow"
  | unbalancedStack function => s!"function {function} returned with an unbalanced operand stack"
  | malformedControl function =>
      s!"unmatched structured control instruction in function {function}"
  | callStackExhausted => "call stack exhausted"

end MlWasm.Machine
