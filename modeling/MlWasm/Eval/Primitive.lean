import MlWasm.Eval.Value
import MlWasm.Host

/-!
Operators and builtins on values. Arithmetic wraps around at 32 bits.
-/

namespace MlWasm

namespace Value

mutual

/-- Compares tuples from the left and stops at the first difference. Functions, and values of
different kinds, cannot be compared. -/
def equal : Value → Value → Except RuntimeError Bool
  | int l, int r => .ok (l == r)
  | bool l, bool r => .ok (l == r)
  | unit, unit => .ok true
  | tuple ls, tuple rs =>
      if ls.length = rs.length then equalAll ls rs
      else .error (.tupleArity ls.length rs.length)
  | _, _ => .error (.invalidOperands .eq)

def equalAll : List Value → List Value → Except RuntimeError Bool
  | l :: ls, r :: rs => do if ← equal l r then equalAll ls rs else return false
  | _, _ => .ok true

end

end Value

/-- An operator on integers. -/
def Op.onInts (op : Op) (l r : Int32) : Value :=
  match op with
  | add => .int (l + r)
  | sub => .int (l - r)
  | mul => .int (l * r)
  | eq => .bool (l == r)
  | lt => .bool (l < r)
  | le => .bool (l ≤ r)

def Op.apply (op : Op) (left right : Value) : Except RuntimeError Value :=
  if op = .eq then Value.bool <$> left.equal right
  else match left, right with
    | .int l, .int r => .ok (op.onInts l r)
    | _, _ => .error (.invalidOperands op)

def Builtin.call {H : Type} [Host H] (b : Builtin) (arg : Value) (host : H) :
    Except RuntimeError (Value × H) :=
  match b, arg with
  | printInt, .int n => .ok (.unit, Host.printInt n host)
  | printBool, .bool v => .ok (.unit, Host.printBool v host)
  | printUnit, .unit => .ok (.unit, Host.printUnit host)
  | nowMs, .unit =>
      let (now, host) := Host.nowMs host
      .ok (.int now, host)
  | _, _ => .error (.builtinArgument b arg)

end MlWasm
