import MlWasm.Operator

/-!
Programs without nested functions. Every intermediate value has a numbered temp, and each function
numbers its temps from zero. A function value is a record that holds the index of the function and
the values it captured; a call hands that record over together with the argument.
-/

namespace MlWasm

inductive Ir where
  | int (n : Int32)
  | bool (b : Bool)
  | unit
  | var (temp : Nat)
  | letIn (temp : Nat) (value body : Ir)
  | ite (cond thenBranch elseBranch : Ir)
  | prim (op : Op) (left right : Ir)
  /-- A record for a function and the temps it captures. -/
  | closure (function : Nat) (captures : List Nat)
  /-- The function in the record `callee`, applied to `arg`. -/
  | call (callee arg : Nat)
  | tuple (elts : List Nat)
  /-- Slot `index` of a record. -/
  | proj (record index : Nat)
  deriving DecidableEq, Inhabited

namespace Ir

/-- Number of nodes. -/
def size : Ir → Nat
  | letIn _ value body => 1 + value.size + body.size
  | ite c t e => 1 + c.size + t.size + e.size
  | prim _ l r => 1 + l.size + r.size
  | _ => 1

/-- A function of the program. It is called with its argument and its own record. -/
structure Function where
  index : Nat
  /-- Temp of the argument. -/
  param : Nat
  /-- Temp of the record. -/
  env : Nat
  body : Ir
  /-- Captured names, in the order of the record's slots. -/
  free : List String
  /-- Number of temps. -/
  frameSize : Nat
  deriving DecidableEq, Inhabited

structure Program where
  main : Ir
  /-- A function comes after the functions nested in it. -/
  functions : List Function
  /-- Number of temps of `main`. -/
  frameSize : Nat
  deriving DecidableEq, Inhabited

namespace Program

def function? (p : Program) (index : Nat) : Option Function :=
  p.functions.find? (·.index == index)

def byIndex (p : Program) : List Function :=
  p.functions.mergeSort fun f g => decide (f.index ≤ g.index)

end Program

def tempText (t : Nat) : String := s!"t{t}"

def tempsText (ts : List Nat) : String := "[" ++ ", ".intercalate (ts.map tempText) ++ "]"

def text : Ir → String
  | int n => toString n.toInt
  | bool b => if b then "true" else "false"
  | unit => "()"
  | var t => tempText t
  | letIn t value body => "let " ++ tempText t ++ " = " ++ value.text ++ " in\n" ++ body.text
  | ite c t e => "if " ++ c.text ++ " then (" ++ t.text ++ ") else (" ++ e.text ++ ")"
  | prim op l r => "(" ++ l.text ++ " " ++ op.symbol ++ " " ++ r.text ++ ")"
  | closure f captures => s!"closure f{f} " ++ tempsText captures
  | call callee arg => "call " ++ tempText callee ++ " " ++ tempText arg
  | tuple elts => "tuple " ++ tempsText elts
  | proj record index => tempText record ++ s!".{index}"

def Function.text (f : Function) : String :=
  s!"fun f{f.index} (param {tempText f.param}, env {tempText f.env}) frame {f.frameSize} captures ["
    ++ ", ".intercalate f.free ++ "]\n" ++ f.body.text ++ "\n\n"

def Program.text (p : Program) : String :=
  String.join (p.byIndex.map Function.text) ++ s!"main frame {p.frameSize}\n" ++ p.main.text ++ "\n"

end Ir

end MlWasm
