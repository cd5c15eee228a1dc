import Mathlib
import MlWasm.Eval.Step
import MlWasm.Proofs.Host

/-!
Natural semantics: the value of an expression by recursion on the expression, without a stack. What
a call does is a parameter. Filling it in again and again gives evaluation with a bound on the
nesting of calls, and the bound only ever decides whether there is an answer yet, not which.
-/

namespace MlWasm

/-- A builtin calls the host once or not at all. -/
theorem Builtin.noted_call {H : Type} [Noting H] {b : Builtin} {arg v : Value} {host host' : H}
    (h : b.call arg host = .ok (v, host')) : noted host <:+ noted host' := by
  unfold Builtin.call at h
  split at h
  · cases h
    exact Noting.noted_printInt _ host
  · cases h
    exact Noting.noted_printBool _ host
  · cases h
    exact Noting.noted_printUnit host
  · cases h
    exact Noting.noted_nowMs host
  · cases h

namespace Eval

variable {H α β : Type}

inductive Outcome (H α : Type) where
  | value (a : α) (host : H)
  | failed (e : RuntimeError) (host : H)
  /-- Calls were nested too deeply. -/
  | unfinished (host : H)

namespace Outcome

def bind : Outcome H α → (α → H → Outcome H β) → Outcome H β
  | value a host, f => f a host
  | failed e host, _ => failed e host
  | unfinished host, _ => unfinished host

@[simp] theorem bind_value (a : α) (host : H) (f : α → H → Outcome H β) :
    (value a host).bind f = f a host := rfl

@[simp] theorem bind_failed (e : RuntimeError) (host : H) (f : α → H → Outcome H β) :
    (failed e host).bind f = failed e host := rfl

def ofExcept (host : H) : Except RuntimeError α → Outcome H α
  | .ok a => value a host
  | .error e => failed e host

/-- The right side is what the left side is if that has an answer. -/
def Le (a b : Outcome H α) : Prop := (∃ host, a = unfinished host) ∨ a = b

theorem Le.refl (a : Outcome H α) : Le a a := .inr rfl

theorem Le.value_eq {b : Outcome H α} {a : α} {host : H} (h : Le (value a host) b) :
    b = value a host := by
  rcases h with ⟨_, h⟩ | h
  · cases h
  · exact h.symm

theorem Le.failed_eq {b : Outcome H α} {e : RuntimeError} {host : H} (h : Le (failed e host) b) :
    b = failed e host := by
  rcases h with ⟨_, h⟩ | h
  · cases h
  · exact h.symm

theorem Le.bind {a a' : Outcome H α} {f f' : α → H → Outcome H β} (ha : Le a a')
    (hf : ∀ x host, Le (f x host) (f' x host)) : Le (a.bind f) (a'.bind f') := by
  rcases ha with ⟨host, rfl⟩ | rfl
  · exact .inl ⟨host, rfl⟩
  · cases a with
    | value x host => exact hf x host
    | failed e host => exact .refl _
    | unfinished host => exact .refl _

theorem bind_assoc {γ : Type} (a : Outcome H α) (f : α → H → Outcome H β)
    (g : β → H → Outcome H γ) :
    (a.bind f).bind g = a.bind fun x host => (f x host).bind g := by
  cases a <;> rfl

end Outcome

/-- What a call of a value comes to. -/
abbrev CallWith (H : Type) := Value → Value → H → Outcome H Value

/-- Chooses a branch. -/
def branchWith (cond : Value) (host : H) (th el : Outcome H Value) : Outcome H Value :=
  match cond with
  | .bool true => th
  | .bool false => el
  | other => .failed (.nonBooleanCondition other) host

mutual

def evalWith (call : CallWith H) : Expr → Env → H → Outcome H Value
  | .int n, _, host => .value (.int n) host
  | .bool b, _, host => .value (.bool b) host
  | .unit, _, host => .value .unit host
  | .var x, env, host =>
      match env.lookup x with
      | none => .failed (.unboundVariable x) host
      | some v => .value v host
  | .letIn x value body, env, host =>
      (evalWith call value env host).bind fun v => evalWith call body (env.extend x v)
  | .letRec f x body rest, env, host =>
      evalWith call rest (env.extend f (.closure x body env (some f))) host
  | .fn x body, env, host => .value (.closure x body env none) host
  | .app f a, env, host =>
      (evalWith call f env host).bind fun callee host =>
        (evalWith call a env host).bind fun arg => call callee arg
  | .ite c t e, env, host =>
      (evalWith call c env host).bind fun cond host =>
        branchWith cond host (evalWith call t env host) (evalWith call e env host)
  | .prim op l r, env, host =>
      (evalWith call l env host).bind fun left host =>
        (evalWith call r env host).bind fun right host => .ofExcept host (op.apply left right)
  | .tuple es, env, host =>
      (evalAllWith call es env host).bind fun vs host => .value (.tuple vs) host

def evalAllWith (call : CallWith H) : List Expr → Env → H → Outcome H (List Value)
  | [], _, host => .value [] host
  | e :: es, env, host =>
      (evalWith call e env host).bind fun v host =>
        (evalAllWith call es env host).bind fun vs host => .value (v :: vs) host

end

/-- A call whose body may nest `n` calls less one. Builtins nest nothing. -/
def callAt [Host H] : Nat → CallWith H
  | _, .builtin b, arg, host =>
      match b.call arg host with
      | .error e => .failed e host
      | .ok (v, host) => .value v host
  | 0, .closure .., _, host => .unfinished host
  | n + 1, .closure x body env self, arg, host =>
      evalWith (callAt n) body (Config.enter x body env self arg) host
  | _, other, _, host => .failed (.notAFunction other) host

/-- The value of an expression, with at most `n` calls nested. -/
def evalAt [Host H] (n : Nat) : Expr → Env → H → Outcome H Value := evalWith (callAt n)

/-! ### A higher bound keeps every answer -/

mutual

theorem evalWith_le {call call' : CallWith H}
    (h : ∀ c v host, (call c v host).Le (call' c v host)) (e : Expr) (env : Env) (host : H) :
    (evalWith call e env host).Le (evalWith call' e env host) := by
  cases e with
  | int n => exact .refl _
  | bool b => exact .refl _
  | unit => exact .refl _
  | var x => exact .refl _
  | letIn x value body =>
      exact (evalWith_le h value env host).bind fun v host => evalWith_le h body _ host
  | letRec f x body rest => exact evalWith_le h rest _ host
  | fn x body => exact .refl _
  | app f a =>
      refine (evalWith_le h f env host).bind fun callee host => ?_
      exact (evalWith_le h a env host).bind fun arg host => h callee arg host
  | ite c t e =>
      refine (evalWith_le h c env host).bind fun cond host => ?_
      unfold branchWith
      split
      · exact evalWith_le h t env host
      · exact evalWith_le h e env host
      · exact .refl _
  | prim op l r =>
      refine (evalWith_le h l env host).bind fun left host => ?_
      exact (evalWith_le h r env host).bind fun right host => .refl _
  | tuple es => exact (evalAllWith_le h es env host).bind fun vs host => .refl _

theorem evalAllWith_le {call call' : CallWith H}
    (h : ∀ c v host, (call c v host).Le (call' c v host)) (es : List Expr) (env : Env) (host : H) :
    (evalAllWith call es env host).Le (evalAllWith call' es env host) := by
  cases es with
  | nil => exact .refl _
  | cons e es =>
      refine (evalWith_le h e env host).bind fun v host => ?_
      exact (evalAllWith_le h es env host).bind fun vs host => .refl _

end

theorem callAt_le [Host H] (n : Nat) (callee arg : Value) (host : H) :
    (callAt n callee arg host).Le (callAt (n + 1) callee arg host) := by
  induction n generalizing callee arg host with
  | zero =>
      cases callee with
      | closure x body env self => exact .inl ⟨host, rfl⟩
      | _ => exact .refl _
  | succ n ih =>
      cases callee with
      | closure x body env self => exact evalWith_le ih body _ host
      | _ => exact .refl _

/-! ### A log only grows -/

def Outcome.host : Outcome H α → H
  | value _ host => host
  | failed _ host => host
  | unfinished host => host

section Noted

variable [Noting H]

/-- What was noted before stays noted. -/
def Noted (host : H) (o : Outcome H α) : Prop := noted host <:+ noted o.host

theorem Noted.refl {host : H} {o : Outcome H α} (h : o.host = host) :
    Noted host o := by
  subst h
  exact List.suffix_rfl

theorem Noted.bind {host : H} {o : Outcome H α}
    {f : α → H → Outcome H β} (h : Noted host o)
    (hf : ∀ a host', Noted host' (f a host')) : Noted host (o.bind f) := by
  cases o with
  | value a host' => exact List.IsSuffix.trans h (hf a host')
  | failed e host' => exact h
  | unfinished host' => exact h

theorem noted_ofExcept (host : H) (r : Except RuntimeError α) :
    Noted host (Outcome.ofExcept host r) := by
  cases r with
  | error e => exact .refl rfl
  | ok a => exact .refl rfl

theorem noted_branch {cond : Value} {host : H} {th el : Outcome H Value}
    (hth : Noted host th) (hel : Noted host el) : Noted host (branchWith cond host th el) := by
  unfold branchWith
  split
  · exact hth
  · exact hel
  · exact .refl rfl

mutual

theorem noted_evalWith {call : CallWith H} (h : ∀ c v host, Noted host (call c v host))
    (e : Expr) (env : Env) (host : H) : Noted host (evalWith call e env host) := by
  cases e with
  | int n => exact .refl rfl
  | bool b => exact .refl rfl
  | unit => exact .refl rfl
  | var x =>
      rw [evalWith]
      split
      · exact .refl rfl
      · exact .refl rfl
  | letIn x value body =>
      exact (noted_evalWith h value env host).bind fun v host => noted_evalWith h body _ host
  | letRec f x body rest => exact noted_evalWith h rest _ host
  | fn x body => exact .refl rfl
  | app f a =>
      refine (noted_evalWith h f env host).bind fun callee host => ?_
      exact (noted_evalWith h a env host).bind fun arg host => h callee arg host
  | ite c t e =>
      refine (noted_evalWith h c env host).bind fun cond host => ?_
      exact noted_branch (noted_evalWith h t env host) (noted_evalWith h e env host)
  | prim op l r =>
      refine (noted_evalWith h l env host).bind fun left host => ?_
      exact (noted_evalWith h r env host).bind fun right host => noted_ofExcept host _
  | tuple es => exact (noted_evalAllWith h es env host).bind fun vs host => .refl rfl

theorem noted_evalAllWith {call : CallWith H} (h : ∀ c v host, Noted host (call c v host))
    (es : List Expr) (env : Env) (host : H) :
    Noted host (evalAllWith call es env host) := by
  cases es with
  | nil => exact .refl rfl
  | cons e es =>
      refine (noted_evalWith h e env host).bind fun v host => ?_
      exact (noted_evalAllWith h es env host).bind fun vs host => .refl rfl

end

theorem noted_builtin (n : Nat) (b : Builtin) (arg : Value) (host : H) :
    Noted host (callAt n (.builtin b) arg host) := by
  rw [callAt]
  split
  · exact .refl rfl
  · rename_i hcall
    exact Builtin.noted_call hcall

theorem noted_callAt (n : Nat) (callee arg : Value) (host : H) :
    Noted host (callAt n callee arg host) := by
  induction n generalizing callee arg host with
  | zero =>
      cases callee with
      | builtin b => exact noted_builtin 0 b arg host
      | _ => exact .refl rfl
  | succ n ih =>
      cases callee with
      | builtin b => exact noted_builtin (n + 1) b arg host
      | closure x body env self => exact noted_evalWith ih body _ host
      | _ => exact .refl rfl

end Noted

/-! ### The stack as a function -/

/-- What a frame does with the value it waits for. -/
def resumeWith (call : CallWith H) : Frame → Value → H → Outcome H Value
  | .letBody x body env, v, host => evalWith call body (env.extend x v) host
  | .appArg arg env, v, host => (evalWith call arg env host).bind fun arg => call v arg
  | .appCall callee, v, host => call callee v host
  | .branch t e env, v, host =>
      branchWith v host (evalWith call t env host) (evalWith call e env host)
  | .primRight op r env, v, host =>
      (evalWith call r env host).bind fun right host => .ofExcept host (op.apply v right)
  | .primApply op l, v, host => .ofExcept host (op.apply l v)
  | .tupleRest rest done env, v, host =>
      (evalAllWith call rest env host).bind fun vs host =>
        .value (.tuple ((v :: done).reverse ++ vs)) host

def unwindWith (call : CallWith H) : List Frame → Value → H → Outcome H Value
  | [], v, host => .value v host
  | f :: fs, v, host => (resumeWith call f v host).bind (unwindWith call fs)

/-- What a configuration comes to. -/
def Config.outcomeWith (call : CallWith H) (c : Config H) : Outcome H Value :=
  match c.control with
  | .eval e env => (evalWith call e env c.host).bind (unwindWith call c.stack.frames)
  | .give v => unwindWith call c.stack.frames v c.host

end Eval

end MlWasm
