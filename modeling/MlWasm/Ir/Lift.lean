import MlWasm.Builtin
import MlWasm.Scope
import MlWasm.Expr
import MlWasm.Ir.Basic

/-!
Lifting functions out of an expression. Every `fun` and `let rec` becomes a function of the program
that reads the names it captured out of its own record, in the order of the names. A `let rec`
function also builds a record for itself out of them, so that its body can call it.

How many functions an expression gives rise to, and how many temps of the frame around it, can be
counted ahead; so the numbers of its parts follow from where it starts.
-/

namespace MlWasm

inductive LiftError where
  | unboundVariable (name : String)
  /-- A function captures a name that is not in scope where the function is defined. -/
  | unboundCapture (name : String)
  deriving DecidableEq, Repr, Inhabited

def LiftError.message : LiftError → String
  | unboundVariable x => s!"unbound variable `{x}` during closure conversion"
  | unboundCapture x => s!"free variable `{x}` has no binding at the closure construction site"

namespace Expr

mutual

/-- Number of functions in the expression. -/
def functionCount : Expr → Nat
  | int _ | bool _ | unit | var _ => 0
  | letIn _ value body => functionCount value + functionCount body
  | letRec _ _ body rest => 1 + functionCount body + functionCount rest
  | fn _ body => 1 + functionCount body
  | app f a => functionCount f + functionCount a
  | ite c t e => functionCount c + functionCount t + functionCount e
  | prim _ l r => functionCount l + functionCount r
  | tuple elts => functionCountAll elts

def functionCountAll : List Expr → Nat
  | [] => 0
  | e :: es => functionCountAll es + functionCount e

end

mutual

/-- Number of temps the expression needs in the frame of the function around it. -/
def tempCount : Expr → Nat
  | int _ | bool _ | unit | var _ | fn _ _ => 0
  | letIn _ value body => 1 + tempCount value + tempCount body
  | letRec _ _ _ rest => 1 + tempCount rest
  | app f a => 2 + tempCount f + tempCount a
  | ite c t e => tempCount c + tempCount t + tempCount e
  | prim _ l r => tempCount l + tempCount r
  | tuple elts => tempCountAll elts

def tempCountAll : List Expr → Nat
  | [] => 0
  | e :: es => tempCountAll es + 1 + tempCount e

end

end Expr

namespace Ir

/-- The part of a function that comes before its body: the argument in temp 0, the record in temp 1,
a record for itself if it has a name, and a temp for each captured name. -/
structure Prologue where
  self : Option String
  param : String
  captured : List String

namespace Prologue

def ofFunction (self : Option String) (param : String) (body : Expr) : Prologue :=
  let names := body.freeNames.erase param
  let names := match self with
    | none => names
    | some f => names.erase f
  ⟨self, param, names.toList⟩

def firstCapture (p : Prologue) : Nat := if p.self.isSome then 3 else 2

def captureTemps (p : Prologue) : List Nat :=
  List.range' p.firstCapture p.captured.length

/-- Number of temps before the body. -/
def size (p : Prologue) : Nat := p.firstCapture + p.captured.length

/-- Scope of the body. The parameter hides the function's own name, and both hide a capture. -/
def scope (p : Prologue) : Scope Nat :=
  let captures := Scope.ofList (p.captured.zip p.captureTemps)
  let outer := match p.self with
    | none => captures
    | some f => captures.extend f 2
  outer.extend p.param 0

/-- The body after the bindings of the captures and of the record for itself. -/
def wrap (p : Prologue) (index : Nat) (body : Ir) : Ir :=
  let body := match p.self with
    | none => body
    | some _ => .letIn 2 (.closure index p.captureTemps) body
  p.captureTemps.zipIdx.foldr (fun (temp, slot) rest => .letIn temp (.proj 1 slot) rest) body

/-- The function, and the record for it where it is defined. -/
def finish (p : Prologue) (index : Nat) (source : Expr) (body : Ir) (env : Scope Nat) :
    Except LiftError (Ir × Function) := do
  let captures ← p.captured.mapM fun x =>
    match env.lookup x with
    | none => .error (.unboundCapture x)
    | some temp => .ok temp
  return (.closure index captures,
    { index, param := 0, env := 1, body := p.wrap index body, free := p.captured,
      frameSize := p.size + source.tempCount })

end Prologue

mutual

/-- The expression over temps, and the functions lifted out of it. `k` is the next function index
and `t` the next temp. -/
def lift (env : Scope Nat) (k t : Nat) : Expr → Except LiftError (Ir × List Function)
  | .int n => return (.int n, [])
  | .bool b => return (.bool b, [])
  | .unit => return (.unit, [])
  | .var x =>
      match env.lookup x with
      | none => throw (.unboundVariable x)
      | some temp => return (.var temp, [])
  | .letIn x value body => do
      let (v, fs) ← lift env k (t + 1) value
      let (b, gs) ← lift (env.extend x t) (k + value.functionCount) (t + 1 + value.tempCount) body
      return (.letIn t v b, fs ++ gs)
  | .letRec f x body rest => do
      let env := env.extend f t
      let p := Prologue.ofFunction (some f) x body
      let (b, fs) ← lift p.scope (k + 1) p.size body
      let (record, g) ← p.finish k body b env
      let (r, hs) ← lift env (k + 1 + body.functionCount) (t + 1) rest
      return (.letIn t record r, fs ++ g :: hs)
  | .fn x body => do
      let p := Prologue.ofFunction none x body
      let (b, fs) ← lift p.scope (k + 1) p.size body
      let (record, g) ← p.finish k body b env
      return (record, fs ++ [g])
  | .app f a => do
      let (callee, fs) ← lift env k (t + 2) f
      let (arg, gs) ← lift env (k + f.functionCount) (t + 2 + f.tempCount) a
      return (.letIn t callee (.letIn (t + 1) arg (.call t (t + 1))), fs ++ gs)
  | .ite c th el => do
      let (c', fs) ← lift env k t c
      let (th', gs) ← lift env (k + c.functionCount) (t + c.tempCount) th
      let (el', hs) ← lift env (k + c.functionCount + th.functionCount)
        (t + c.tempCount + th.tempCount) el
      return (.ite c' th' el', fs ++ gs ++ hs)
  | .prim op l r => do
      let (l', fs) ← lift env k t l
      let (r', gs) ← lift env (k + l.functionCount) (t + l.tempCount) r
      return (.prim op l' r', fs ++ gs)
  | .tuple elts => do
      let (bound, fs) ← liftAll env k t elts
      return (bound.foldr (fun b rest => .letIn b.1 b.2 rest) (.tuple (bound.map (·.1))), fs)

/-- Elements with the temps that hold them. Numbers are given out from the last element to the
first. -/
def liftAll (env : Scope Nat) (k t : Nat) :
    List Expr → Except LiftError (List (Nat × Ir) × List Function)
  | [] => return ([], [])
  | e :: es => do
      let (bound, fs) ← liftAll env k t es
      let temp := t + Expr.tempCountAll es
      let (v, gs) ← lift env (k + Expr.functionCountAll es) (temp + 1) e
      return ((temp, v) :: bound, fs ++ gs)

end

/-- The builtins, in the first temps of the main program. -/
def builtinScope : Scope Nat := .ofList (Builtin.all.map (·.name)).zipIdx

end Ir

/-- The program of an expression. -/
def Expr.lift (e : Expr) : Except LiftError Ir.Program := do
  let (main, functions) ← Ir.lift Ir.builtinScope Builtin.count Builtin.count e
  return ⟨main, functions, Builtin.count + e.tempCount⟩

end MlWasm
