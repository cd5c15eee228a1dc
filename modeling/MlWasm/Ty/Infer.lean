import MlWasm.Expr
import MlWasm.Ty.Env
import MlWasm.Ty.Unify

/-!
Inference of principal types. Inference of an expression yields its type and what it learned about
the variables of the environment. Each subexpression is checked under what was learned from those
before it.

How type variables are numbered is left to the computation that inference runs in, which says how to
draw a fresh one. A session numbers them without end; a variable stays drawn when the inference that
drew it fails, so no two inferences of a session share one. A checker numbers them with 32 bits and
can run out of them: once the last one is drawn, its counter overflows. A build that checks for
overflow stops there, without an answer; one that does not goes on from zero, and hands out
variables that may be in use.
-/

namespace MlWasm

/-- Demands an integer on both sides of an operator. -/
def demandInts (left right : Ty) : Except TypeError Subst := do
  let s₁ ← unify .int left "prim left"
  let s₂ ← unify .int (s₁.apply right) "prim right"
  return .compose s₂ s₁

namespace Inference

variable {m : Type → Type} [Monad m] [MonadExceptOf TypeError m] (fresh : m Ty)

def solve (r : Except TypeError Subst) : m Subst :=
  match r with
  | .ok s => pure s
  | .error e => throw e

/-- Gives each quantified variable a fresh variable in its place. -/
def freshen (vars : List Nat) : m Subst :=
  vars.foldlM (fun acc v => do return .compose (.singleton v (← fresh)) acc) ∅

def instantiate (σ : Scheme) : m Ty :=
  if σ.vars.isEmpty then return σ.ty
  else return (← freshen fresh σ.vars).apply σ.ty

mutual

def infer (env : TypeEnv) : Expr → m (Subst × Ty)
  | .int _ => return (∅, .int)
  | .bool _ => return (∅, .bool)
  | .unit => return (∅, .unit)
  | .var x =>
      match env.lookup x with
      | none => throw (.unboundVariable x)
      | some σ => do return (∅, ← instantiate fresh σ)
  | .prim op l r => do
      let (s₁, left) ← infer env l
      let (s₂, right) ← infer (env.apply s₁) r
      let s := Subst.compose s₂ s₁
      match demandInts (s₂.apply left) right with
      | .ok s₃ => return (.compose s₃ s, if op.isArithmetic then .int else .bool)
      | .error _ => throw (.operands op (s.apply left) (s.apply right))
  | .ite c t e => do
      let (s₀, cond) ← infer env c
      let isBool ← solve (unify .bool cond "if condition")
      let s₁ := Subst.compose isBool s₀
      let env₁ := env.apply s₁
      let (s₂, thenTy) ← infer env₁ t
      let (s₃, elseTy) ← infer (env₁.apply s₂) e
      let s₄ ← solve (unify (s₃.apply thenTy) elseTy "if branches")
      let s := Subst.compose s₄ (.compose s₃ (.compose s₂ s₁))
      return (s, s.apply thenTy)
  | .fn x body => do
      let param ← fresh
      let (s, result) ← infer (env.extend x (.mono param)) body
      return (s, .fn (s.apply param) result)
  | .app f a => do
      let (s₁, callee) ← infer env f
      let (s₂, arg) ← infer (env.apply s₁) a
      let result ← fresh
      let s₃ ← solve (unify (s₂.apply callee) (.fn arg result) "application")
      let s := Subst.compose s₃ (.compose s₂ s₁)
      return (s, s.apply result)
  | .letIn x value body => do
      let (s₁, valueTy) ← infer env value
      let env₁ := env.apply s₁
      let (s₂, bodyTy) ← infer (env₁.extend x (env₁.generalize valueTy)) body
      let s := Subst.compose s₂ s₁
      return (s, s.apply bodyTy)
  | .letRec f x body rest => do
      let domain ← fresh
      let codomain ← fresh
      let fnTy := Ty.fn domain codomain
      let (s₁, bodyTy) ← infer ((env.extend f (.mono fnTy)).extend x (.mono domain)) body
      let s₂ ← solve (unify (s₁.apply codomain) bodyTy "let rec body")
      let s₃ := Subst.compose s₂ s₁
      let outer := env.apply s₃
      let (s₄, restTy) ← infer (outer.extend f (outer.generalize (s₃.apply fnTy))) rest
      let s := Subst.compose s₄ s₃
      return (s, s.apply restTy)
  | .tuple elts => do
      let (s, tys) ← inferAll env ∅ elts
      return (s, .tuple (tys.map s.apply))

/-- Types of expressions in turn, on top of what `known` says. -/
def inferAll (env : TypeEnv) (known : Subst) : List Expr → m (Subst × List Ty)
  | [] => return (known, [])
  | e :: es => do
      let (s, t) ← infer env e
      let (s', ts) ← inferAll (env.apply s) (.compose s known) es
      return (s', t :: ts)

end

/-- The principal type of a program, which may use the builtins. -/
def typeOf (e : Expr) : m Ty := do
  let (s, t) ← infer fresh .initial e
  return s.apply t

end Inference

/-- A computation of a session, whose state is the next unused variable. -/
abbrev Session := EStateM TypeError Nat

namespace Session

def fresh : Session Ty := modifyGet fun n => (.var n, n + 1)

abbrev solve (r : Except TypeError Subst) : Session Subst := Inference.solve r

abbrev freshen (vars : List Nat) : Session Subst := Inference.freshen fresh vars

abbrev instantiate (σ : Scheme) : Session Ty := Inference.instantiate fresh σ

abbrev infer (env : TypeEnv) (e : Expr) : Session (Subst × Ty) := Inference.infer fresh env e

/-- Types of expressions in turn, on top of what is known. -/
abbrev inferAll (env : TypeEnv) (known : Subst) (es : List Expr) : Session (Subst × List Ty) :=
  Inference.inferAll fresh env known es

abbrev typeOf (e : Expr) : Session Ty := Inference.typeOf fresh e

end Session

/-- The principal type of a program in a session of its own. -/
def Expr.typeOf (e : Expr) : Except TypeError Ty :=
  match (Session.typeOf e).run 0 with
  | .ok t _ => .ok t
  | .error err _ => .error err

/-! ### Variables that can run out -/

/-- A computation of a session with 32-bit variables, which has no outcome if it stops. -/
abbrev Checker := ExceptT TypeError (StateT UInt32 Option)

namespace Checker

/-- The outcome with `n` the next unused variable, and the next unused one after it. -/
def run {α : Type} (x : Checker α) (n : UInt32) : Option (Except TypeError α × UInt32) :=
  StateT.run (ExceptT.run x) n

variable (checks : Bool)

/-- The counter moves on as the variable is drawn, so drawing the last one overflows already. -/
def fresh : Checker Ty :=
  .mk fun n => if checks && n + 1 == 0 then none else some (.ok (.var n.toNat), n + 1)

abbrev instantiate (σ : Scheme) : Checker Ty := Inference.instantiate (fresh checks) σ

abbrev infer (env : TypeEnv) (e : Expr) : Checker (Subst × Ty) :=
  Inference.infer (fresh checks) env e

abbrev typeOf (e : Expr) : Checker Ty := Inference.typeOf (fresh checks) e

end Checker

end MlWasm
