import MlWasm.Builtin
import MlWasm.Expr
import MlWasm.Scope

/-!
Values of expressions, and what can go wrong while one is computed.
-/

namespace MlWasm

inductive Value where
  | int (n : Int32)
  | bool (b : Bool)
  | unit
  /-- A function in the scope of its definition; `self` is the name it calls itself by. -/
  | closure (param : String) (body : Expr) (env : Scope Value) (self : Option String)
  | tuple (elts : List Value)
  | builtin (b : Builtin)
  deriving Inhabited

abbrev Env := Scope Value

namespace Value

def kind : Value → String
  | int _ => "int"
  | bool _ => "bool"
  | unit => "unit"
  | closure .. | builtin _ => "function"
  | tuple _ => "tuple"

/-- The word that stands for a value without parts. -/
def word? : Value → Option Int32
  | int n => some n
  | bool b => some (if b then 1 else 0)
  | unit => some 0
  | closure .. | tuple _ | builtin _ => none

mutual

def text : Value → String
  | int n => toString n.toInt
  | bool b => if b then "true" else "false"
  | unit => "()"
  | closure .. => "<fun>"
  | builtin b => "<builtin " ++ b.name ++ ">"
  | tuple vs => "(" ++ ", ".intercalate (textAll vs) ++ ")"

def textAll : List Value → List String
  | [] => []
  | v :: vs => text v :: textAll vs

end

end Value

inductive RuntimeError where
  | unboundVariable (name : String)
  | nonBooleanCondition (found : Value)
  | notAFunction (found : Value)
  | builtinArgument (b : Builtin) (found : Value)
  | invalidOperands (op : Op)
  | tupleArity (left right : Nat)
  /-- More than `limit` frames were pending. -/
  | stackExhausted (limit : Nat)

/-- What a builtin takes, in words. -/
def Builtin.argumentText : Builtin → String
  | printInt => "an int"
  | printBool => "a bool"
  | printUnit | nowMs => "()"

def RuntimeError.message : RuntimeError → String
  | unboundVariable x => s!"unbound variable `{x}`"
  | nonBooleanCondition v => s!"if condition is not a boolean: {v.text}"
  | notAFunction v => s!"attempt to call non-function {v.text}"
  | builtinArgument b v => s!"{b.name} expects {b.argumentText}, got {v.text}"
  | invalidOperands op => s!"invalid operands for {op.symbol}"
  | tupleArity l r => s!"tuple arity mismatch in equality: {l} and {r} elements"
  | stackExhausted limit => s!"evaluation exceeded {limit} pending continuations"

/-- The builtins, for evaluating a program. -/
def Env.initial : Env := .ofList (Builtin.all.map fun b => (b.name, .builtin b))

end MlWasm
