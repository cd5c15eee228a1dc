/-!
The binary operators of the language.
-/

namespace MlWasm

inductive Op where
  | add
  | sub
  | mul
  | eq
  | lt
  | le
  deriving DecidableEq, Repr, Inhabited

namespace Op

def symbol : Op → String
  | add => "+"
  | sub => "-"
  | mul => "*"
  | eq => "="
  | lt => "<"
  | le => "<="

/-- Arithmetic operators yield an integer, the comparisons a boolean. -/
def isArithmetic : Op → Bool
  | add | sub | mul => true
  | eq | lt | le => false

end Op

end MlWasm
