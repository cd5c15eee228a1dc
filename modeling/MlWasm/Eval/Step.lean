import MlWasm.Eval.Primitive

/-!
Evaluation one step at a time. Work that waits for a value is kept on a stack of frames, so the
depth of a computation is the height of that stack, and a limit on it can be checked after every
step. A tail position (the body of a `let`, the rest of a `let rec`, a branch, the body of a called
function) starts with the stack its construct started with.
-/

namespace MlWasm

namespace Eval

/-- What is to be done with the value being computed. -/
inductive Frame where
  | letBody (name : String) (body : Expr) (env : Env)
  | appArg (arg : Expr) (env : Env)
  | appCall (callee : Value)
  | branch (thenBranch elseBranch : Expr) (env : Env)
  | primRight (op : Op) (right : Expr) (env : Env)
  | primApply (op : Op) (left : Value)
  /-- Elements still to compute, and the values of those before them, last first. -/
  | tupleRest (rest : List Expr) (done : List Value) (env : Env)

/-- Frames, innermost first, with their number at hand. -/
structure Stack where
  frames : List Frame
  height : Nat
  height_eq : height = frames.length

namespace Stack

def empty : Stack := ⟨[], 0, rfl⟩

def push (s : Stack) (f : Frame) : Stack :=
  ⟨f :: s.frames, s.height + 1, by simp [s.height_eq]⟩

def pop? (s : Stack) : Option (Frame × Stack) :=
  match h : s.frames with
  | [] => none
  | f :: fs => some (f, ⟨fs, s.height - 1, by simp [s.height_eq, h]⟩)

end Stack

inductive Control where
  | eval (e : Expr) (env : Env)
  | give (v : Value)

structure Config (H : Type) where
  control : Control
  stack : Stack
  host : H

/-- What a step, or a run, of the evaluator comes to. -/
inductive Progress (H : Type) where
  | running (c : Config H)
  | done (v : Value) (host : H)
  | failed (e : RuntimeError) (host : H)

namespace Config

variable {H : Type}

def start (e : Expr) (env : Env) (host : H) : Config H := ⟨.eval e env, .empty, host⟩

/-- Scope of a function's body when it is called: its parameter hides its own name. -/
def enter (param : String) (body : Expr) (env : Env) (self : Option String) (arg : Value) : Env :=
  let env := match self with
    | none => env
    | some f => env.extend f (.closure param body env self)
  env.extend param arg

def evalStep (e : Expr) (env : Env) (stack : Stack) (host : H) : Progress H :=
  match e with
  | .int n => .running ⟨.give (.int n), stack, host⟩
  | .bool b => .running ⟨.give (.bool b), stack, host⟩
  | .unit => .running ⟨.give .unit, stack, host⟩
  | .var x =>
      match env.lookup x with
      | none => .failed (.unboundVariable x) host
      | some v => .running ⟨.give v, stack, host⟩
  | .letIn x value body => .running ⟨.eval value env, stack.push (.letBody x body env), host⟩
  | .letRec f x body rest =>
      .running ⟨.eval rest (env.extend f (.closure x body env (some f))), stack, host⟩
  | .fn x body => .running ⟨.give (.closure x body env none), stack, host⟩
  | .app f a => .running ⟨.eval f env, stack.push (.appArg a env), host⟩
  | .ite c t e => .running ⟨.eval c env, stack.push (.branch t e env), host⟩
  | .prim op l r => .running ⟨.eval l env, stack.push (.primRight op r env), host⟩
  | .tuple [] => .running ⟨.give (.tuple []), stack, host⟩
  | .tuple (e :: es) => .running ⟨.eval e env, stack.push (.tupleRest es [] env), host⟩

def resume [Host H] (frame : Frame) (v : Value) (stack : Stack) (host : H) : Progress H :=
  match frame with
  | .letBody x body env => .running ⟨.eval body (env.extend x v), stack, host⟩
  | .appArg arg env => .running ⟨.eval arg env, stack.push (.appCall v), host⟩
  | .appCall (.closure x body env self) =>
      .running ⟨.eval body (enter x body env self v), stack, host⟩
  | .appCall (.builtin b) =>
      match b.call v host with
      | .error e => .failed e host
      | .ok (r, host) => .running ⟨.give r, stack, host⟩
  | .appCall other => .failed (.notAFunction other) host
  | .branch t e env =>
      match v with
      | .bool true => .running ⟨.eval t env, stack, host⟩
      | .bool false => .running ⟨.eval e env, stack, host⟩
      | other => .failed (.nonBooleanCondition other) host
  | .primRight op r env => .running ⟨.eval r env, stack.push (.primApply op v), host⟩
  | .primApply op l =>
      match op.apply l v with
      | .error e => .failed e host
      | .ok r => .running ⟨.give r, stack, host⟩
  | .tupleRest [] done _ => .running ⟨.give (.tuple (v :: done).reverse), stack, host⟩
  | .tupleRest (e :: es) done env =>
      .running ⟨.eval e env, stack.push (.tupleRest es (v :: done) env), host⟩

def step [Host H] (c : Config H) : Progress H :=
  match c.control with
  | .eval e env => evalStep e env c.stack c.host
  | .give v =>
      match c.stack.pop? with
      | none => .done v c.host
      | some (frame, stack) => resume frame v stack c.host

/-- A step after which at most `limit` frames may be pending. -/
def limitedStep [Host H] (limit : Nat) (c : Config H) : Progress H :=
  match c.step with
  | .running c' =>
      if limit < c'.stack.height then .failed (.stackExhausted limit) c'.host else .running c'
  | other => other

/-- At most `fuel` steps. -/
def run [Host H] (limit : Nat) : (fuel : Nat) → Config H → Progress H
  | 0, c => .running c
  | fuel + 1, c =>
      match c.limitedStep limit with
      | .running c' => run limit fuel c'
      | other => other

end Config

/-- Pending frames a program may have. -/
def defaultLimit : Nat := 1000000

end Eval

end MlWasm
