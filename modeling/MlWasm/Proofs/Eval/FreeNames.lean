import MlWasm.Proofs.Eval.Agreement
import MlWasm.Proofs.Ir.Lift

/-!
Evaluation depends on the free names of an expression only. A closure keeps the whole scope of its
definition, so in two scopes that bind the free names alike the same function is two different
values. Values agree if they differ in this way at most: the scopes of two closures have to agree
where the body can look something up. Agreement is kept by every step, so two runs from scopes that
agree go together, and since functions are not printed nothing can be told from what they yield.
-/

namespace MlWasm

/-- Equal, but for what closures have in scope without referring to it. -/
inductive Value.Agrees : Value → Value → Prop where
  | int (n : Int32) : Agrees (.int n) (.int n)
  | bool (b : Bool) : Agrees (.bool b) (.bool b)
  | unit : Agrees .unit .unit
  | builtin (b : Builtin) : Agrees (.builtin b) (.builtin b)
  | closure {param : String} {body : Expr} {env env' : Env} {self : Option String} :
      (∀ x ∈ body.freeNames, x ≠ param → self ≠ some x →
        Option.Rel Agrees (env.lookup x) (env'.lookup x)) →
      Agrees (.closure param body env self) (.closure param body env' self)
  | tuple {vs vs' : List Value} : List.Forall₂ Agrees vs vs' → Agrees (.tuple vs) (.tuple vs')

namespace Value

mutual

theorem Agrees.refl (v : Value) : v.Agrees v := by
  cases v with
  | int n => exact .int n
  | bool b => exact .bool b
  | unit => exact .unit
  | builtin b => exact .builtin b
  | closure param body env self =>
      obtain ⟨bindings⟩ := env
      exact .closure fun x _ _ _ => agrees_lookup bindings x
  | tuple vs => exact .tuple (agrees_all vs)

theorem agrees_all (vs : List Value) : List.Forall₂ Agrees vs vs := by
  cases vs with
  | nil => exact .nil
  | cons v vs => exact .cons (Agrees.refl v) (agrees_all vs)

theorem agrees_lookup (bindings : List (String × Value)) (x : String) :
    Option.Rel Agrees (Scope.lookup ⟨bindings⟩ x) (Scope.lookup ⟨bindings⟩ x) := by
  cases bindings with
  | nil => exact .none
  | cons b bindings =>
      obtain ⟨y, v⟩ := b
      have hextend := Scope.lookup_extend ⟨bindings⟩ y v x
      simp only [Scope.extend] at hextend
      rw [hextend]
      split
      · exact .some (Agrees.refl v)
      · exact agrees_lookup bindings x

end

/-! ### What is printed and compared -/

mutual

theorem Agrees.text_eq {v v' : Value} (h : v.Agrees v') : v.text = v'.text := by
  cases v with
  | int | bool | unit | builtin | closure =>
      cases h
      rfl
  | tuple vs =>
      cases h with
      | tuple hvs => rw [text, text, textAll_eq hvs]

theorem textAll_eq {vs vs' : List Value} (h : List.Forall₂ Agrees vs vs') :
    textAll vs = textAll vs' := by
  cases vs with
  | nil =>
      cases h
      rfl
  | cons v vs =>
      cases h with
      | cons hv hvs => rw [textAll, textAll, Agrees.text_eq hv, textAll_eq hvs]

end

mutual

/-- Functions cannot be compared, so a comparison does not look into them. -/
theorem Agrees.equal_eq {l l' r r' : Value} (hl : l.Agrees l') (hr : r.Agrees r') :
    l.equal r = l'.equal r' := by
  cases l with
  | int | bool | unit | builtin | closure =>
      cases hl
      cases hr <;> rfl
  | tuple ls =>
      cases hl with
      | tuple hls =>
          cases hr with
          | tuple hrs => simp only [equal, hls.length_eq, hrs.length_eq, equalAll_eq hls hrs]
          | int | bool | unit | builtin | closure => rfl

theorem equalAll_eq {ls ls' rs rs' : List Value} (hls : List.Forall₂ Agrees ls ls')
    (hrs : List.Forall₂ Agrees rs rs') : equalAll ls rs = equalAll ls' rs' := by
  cases ls with
  | nil =>
      cases hls
      rfl
  | cons l ls =>
      cases hls with
      | cons hl hls =>
          cases hrs with
          | nil => rfl
          | cons hr hrs => rw [equalAll, equalAll, Agrees.equal_eq hl hr, equalAll_eq hls hrs]

end

end Value

/-- An operator does not tell values that agree apart. -/
theorem Op.apply_agrees {op : Op} {l l' r r' : Value} (hl : l.Agrees l') (hr : r.Agrees r') :
    op.apply l r = op.apply l' r' := by
  by_cases hop : op = .eq
  · simp only [apply, if_pos hop, hl.equal_eq hr]
  · simp only [apply, if_neg hop]
    cases hl <;> cases hr <;> rfl

/-- The same errors about values that agree. -/
inductive RuntimeError.Agrees : RuntimeError → RuntimeError → Prop where
  | refl (e : RuntimeError) : Agrees e e
  | nonBooleanCondition {v v' : Value} : v.Agrees v' →
      Agrees (.nonBooleanCondition v) (.nonBooleanCondition v')
  | notAFunction {v v' : Value} : v.Agrees v' → Agrees (.notAFunction v) (.notAFunction v')
  | builtinArgument {b : Builtin} {v v' : Value} : v.Agrees v' →
      Agrees (.builtinArgument b v) (.builtinArgument b v')

/-! ### Scopes -/

/-- The names bind values that agree, or nothing. -/
def Env.AgreesOn (names : String → Prop) (env env' : Env) : Prop :=
  ∀ x, names x → Option.Rel Value.Agrees (env.lookup x) (env'.lookup x)

namespace Env

variable {names names' : String → Prop} {env env' : Env}

theorem AgreesOn.mono (h : env.AgreesOn names env') (hsub : ∀ x, names' x → names x) :
    env.AgreesOn names' env' :=
  fun x hx => h x (hsub x hx)

theorem AgreesOn.of_eq (h : ∀ x, names x → env.lookup x = env'.lookup x) :
    env.AgreesOn names env' := by
  intro x hx
  rw [h x hx]
  cases env'.lookup x with
  | none => exact .none
  | some v => exact .some (.refl v)

theorem AgreesOn.extend {x : String} {v v' : Value}
    (h : env.AgreesOn (fun y => names y ∧ y ≠ x) env') (hv : v.Agrees v') :
    Env.AgreesOn names (env.extend x v) (env'.extend x v') := by
  intro y hy
  rw [Scope.lookup_extend, Scope.lookup_extend]
  by_cases heq : y = x
  · rw [if_pos heq, if_pos heq]
    exact .some hv
  · rw [if_neg heq, if_neg heq]
    exact h y ⟨hy, heq⟩

end Env

namespace Eval

variable {H : Type}

/-! ### Configurations -/

inductive Frame.Agrees : Frame → Frame → Prop where
  | letBody {x : String} {body : Expr} {env env' : Env} :
      env.AgreesOn (fun y => y ∈ body.freeNames ∧ y ≠ x) env' →
      Agrees (.letBody x body env) (.letBody x body env')
  | appArg {arg : Expr} {env env' : Env} : env.AgreesOn (· ∈ arg.freeNames) env' →
      Agrees (.appArg arg env) (.appArg arg env')
  | appCall {v v' : Value} : v.Agrees v' → Agrees (.appCall v) (.appCall v')
  | branch {t e : Expr} {env env' : Env} :
      env.AgreesOn (fun y => y ∈ t.freeNames ∨ y ∈ e.freeNames) env' →
      Agrees (.branch t e env) (.branch t e env')
  | primRight {op : Op} {r : Expr} {env env' : Env} : env.AgreesOn (· ∈ r.freeNames) env' →
      Agrees (.primRight op r env) (.primRight op r env')
  | primApply {op : Op} {v v' : Value} : v.Agrees v' → Agrees (.primApply op v) (.primApply op v')
  | tupleRest {es : List Expr} {done done' : List Value} {env env' : Env} :
      List.Forall₂ Value.Agrees done done' →
      env.AgreesOn (· ∈ Expr.freeNamesAll es) env' →
      Agrees (.tupleRest es done env) (.tupleRest es done' env')

structure Stack.Agrees (s s' : Stack) : Prop where
  frames : List.Forall₂ Frame.Agrees s.frames s'.frames

inductive Control.Agrees : Control → Control → Prop where
  | eval {e : Expr} {env env' : Env} : env.AgreesOn (· ∈ e.freeNames) env' →
      Agrees (.eval e env) (.eval e env')
  | give {v v' : Value} : v.Agrees v' → Agrees (.give v) (.give v')

structure Config.Agrees (c c' : Config H) : Prop where
  control : c.control.Agrees c'.control
  stack : c.stack.Agrees c'.stack
  host : c.host = c'.host

inductive Progress.Agrees : Progress H → Progress H → Prop where
  | running {c c' : Config H} : c.Agrees c' → Agrees (.running c) (.running c')
  | done {v v' : Value} {host : H} : v.Agrees v' → Agrees (.done v host) (.done v' host)
  | failed {e e' : RuntimeError} {host : H} : e.Agrees e' →
      Agrees (.failed e host) (.failed e' host)

theorem Stack.Agrees.push {s s' : Stack} {f f' : Frame} (hs : s.Agrees s') (hf : f.Agrees f') :
    (s.push f).Agrees (s'.push f') := ⟨.cons hf hs.frames⟩

theorem Stack.Agrees.height_eq {s s' : Stack} (h : s.Agrees s') : s.height = s'.height := by
  rw [s.height_eq, s'.height_eq, h.frames.length_eq]

/-- The scopes in which two closures that agree run their body. -/
theorem Config.enter_agrees {param : String} {body : Expr} {env env' : Env} {self : Option String}
    {v v' : Value}
    (h : (Value.closure param body env self).Agrees (.closure param body env' self))
    (hv : v.Agrees v') :
    Env.AgreesOn (· ∈ body.freeNames) (enter param body env self v)
      (enter param body env' self v') := by
  cases h with
  | closure hbody =>
      refine .extend ?_ hv
      cases self with
      | none => exact fun x hx => hbody x hx.1 hx.2 (by simp)
      | some f =>
          refine .extend (fun x hx => hbody x hx.1.1 hx.1.2 ?_) (.closure hbody)
          simpa using Ne.symm hx.2

theorem Config.evalStep_agrees {e : Expr} {env env' : Env} {stack stack' : Stack}
    (henv : env.AgreesOn (· ∈ e.freeNames) env') (hstack : stack.Agrees stack') (host : H) :
    (evalStep e env stack host).Agrees (evalStep e env' stack' host) := by
  cases e with
  | int n => exact .running ⟨.give (.int n), hstack, rfl⟩
  | bool b => exact .running ⟨.give (.bool b), hstack, rfl⟩
  | unit => exact .running ⟨.give .unit, hstack, rfl⟩
  | var x =>
      simp only [Expr.freeNames, mem_singleton] at henv
      have hx := henv x rfl
      rw [evalStep, evalStep]
      cases hv : env.lookup x <;> cases hv' : env'.lookup x <;> rw [hv, hv'] at hx <;> cases hx
      · exact .failed (.refl _)
      · rename_i hv
        exact .running ⟨.give hv, hstack, rfl⟩
  | letIn x value body =>
      simp only [Expr.freeNames, Std.TreeSet.mem_union_iff, mem_erase] at henv
      exact .running ⟨.eval (henv.mono fun y hy => .inl hy),
        hstack.push (.letBody (henv.mono fun y hy => .inr hy.symm)), rfl⟩
  | letRec f x body rest =>
      simp only [Expr.freeNames, Std.TreeSet.mem_union_iff, mem_erase] at henv
      have hclosure : (Value.closure x body env (some f)).Agrees (.closure x body env' (some f)) :=
        .closure fun y hy hx hf => henv y (.inl ⟨hx, fun h => hf (by rw [h]), hy⟩)
      exact .running ⟨.eval (.extend (henv.mono fun y hy => .inr hy.symm) hclosure), hstack, rfl⟩
  | fn x body =>
      simp only [Expr.freeNames, mem_erase] at henv
      exact .running ⟨.give (.closure fun y hy hx _ => henv y ⟨hx, hy⟩), hstack, rfl⟩
  | app f a =>
      simp only [Expr.freeNames, Std.TreeSet.mem_union_iff] at henv
      exact .running ⟨.eval (henv.mono fun y hy => .inl hy),
        hstack.push (.appArg (henv.mono fun y hy => .inr hy)), rfl⟩
  | ite c t e =>
      simp only [Expr.freeNames, Std.TreeSet.mem_union_iff, or_assoc] at henv
      exact .running ⟨.eval (henv.mono fun y hy => .inl hy),
        hstack.push (.branch (henv.mono fun y hy => .inr hy)), rfl⟩
  | prim op l r =>
      simp only [Expr.freeNames, Std.TreeSet.mem_union_iff] at henv
      exact .running ⟨.eval (henv.mono fun y hy => .inl hy),
        hstack.push (.primRight (henv.mono fun y hy => .inr hy)), rfl⟩
  | tuple es =>
      cases es with
      | nil => exact .running ⟨.give (.tuple .nil), hstack, rfl⟩
      | cons e es =>
          simp only [Expr.freeNames, Expr.freeNamesAll, Std.TreeSet.mem_union_iff] at henv
          exact .running ⟨.eval (henv.mono fun y hy => .inl hy),
            hstack.push (.tupleRest .nil (henv.mono fun y hy => .inr hy)), rfl⟩

section Host

variable [Host H]

/-- A builtin takes words only, and on words there is nothing to differ in. -/
theorem Config.resume_builtin_agrees (b : Builtin) {v v' : Value} {stack stack' : Stack}
    (hv : v.Agrees v') (hstack : stack.Agrees stack') (host : H) :
    (resume (.appCall (.builtin b)) v stack host).Agrees
      (resume (.appCall (.builtin b)) v' stack' host) := by
  cases hv with
  | int | bool | unit | builtin =>
      simp only [resume]
      split
      · exact .failed (.refl _)
      · exact .running ⟨.give (.refl _), hstack, rfl⟩
  | closure hbody => cases b <;> exact .failed (.builtinArgument (.closure hbody))
  | tuple hvs => cases b <;> exact .failed (.builtinArgument (.tuple hvs))

theorem Config.resume_agrees {frame frame' : Frame} {v v' : Value} {stack stack' : Stack}
    (hframe : frame.Agrees frame') (hv : v.Agrees v') (hstack : stack.Agrees stack') (host : H) :
    (resume frame v stack host).Agrees (resume frame' v' stack' host) := by
  cases hframe with
  | letBody henv => exact .running ⟨.eval (.extend henv hv), hstack, rfl⟩
  | appArg henv => exact .running ⟨.eval henv, hstack.push (.appCall hv), rfl⟩
  | appCall hcallee =>
      cases hcallee with
      | closure hbody => exact .running ⟨.eval (enter_agrees (.closure hbody) hv), hstack, rfl⟩
      | builtin b => exact resume_builtin_agrees b hv hstack host
      | int n => exact .failed (.refl _)
      | bool b => exact .failed (.refl _)
      | unit => exact .failed (.refl _)
      | tuple hvs => exact .failed (.notAFunction (.tuple hvs))
  | branch henv =>
      cases hv with
      | bool b =>
          cases b with
          | true => exact .running ⟨.eval (henv.mono fun y hy => .inl hy), hstack, rfl⟩
          | false => exact .running ⟨.eval (henv.mono fun y hy => .inr hy), hstack, rfl⟩
      | int n => exact .failed (.refl _)
      | unit => exact .failed (.refl _)
      | builtin b => exact .failed (.refl _)
      | closure hbody => exact .failed (.nonBooleanCondition (.closure hbody))
      | tuple hvs => exact .failed (.nonBooleanCondition (.tuple hvs))
  | primRight henv => exact .running ⟨.eval henv, hstack.push (.primApply hv), rfl⟩
  | @primApply op l l' hl =>
      rw [resume, resume, Op.apply_agrees hl hv]
      cases op.apply l' v' with
      | error e => exact .failed (.refl e)
      | ok r => exact .running ⟨.give (.refl r), hstack, rfl⟩
  | @tupleRest es done done' env env' hdone henv =>
      cases es with
      | nil =>
          exact .running ⟨.give (.tuple (List.forall₂_reverse_iff.2 (.cons hv hdone))), hstack, rfl⟩
      | cons e es =>
          simp only [Expr.freeNamesAll, Std.TreeSet.mem_union_iff] at henv
          exact .running ⟨.eval (henv.mono fun y hy => .inl hy),
            hstack.push (.tupleRest (.cons hv hdone) (henv.mono fun y hy => .inr hy)), rfl⟩

theorem Config.Agrees.step {c c' : Config H} (h : c.Agrees c') : c.step.Agrees c'.step := by
  obtain ⟨control, stack, host⟩ := c
  obtain ⟨control', stack', host'⟩ := c'
  obtain ⟨hcontrol, hstack, rfl⟩ := h
  cases hcontrol with
  | eval henv => exact evalStep_agrees henv hstack host
  | give hv =>
      obtain ⟨frames, height, hheight⟩ := stack
      obtain ⟨frames', height', hheight'⟩ := stack'
      obtain ⟨hframes⟩ := hstack
      cases hframes with
      | nil => exact .done hv
      | cons hframe hframes => exact resume_agrees hframe hv ⟨hframes⟩ host

theorem Config.Agrees.limitedStep (limit : Nat) {c c' : Config H} (h : c.Agrees c') :
    (c.limitedStep limit).Agrees (c'.limitedStep limit) := by
  have hstep := h.step
  rw [Config.limitedStep, Config.limitedStep]
  generalize c.step = p, c'.step = p' at hstep
  cases hstep with
  | running hd =>
      simp only [hd.stack.height_eq, hd.host]
      split
      · exact .failed (.refl _)
      · exact .running hd
  | done hv => exact .done hv
  | failed he => exact .failed he

theorem Config.Agrees.run (limit fuel : Nat) {c c' : Config H} (h : c.Agrees c') :
    (c.run limit fuel).Agrees (c'.run limit fuel) := by
  induction fuel generalizing c c' with
  | zero => exact .running h
  | succ fuel ih =>
      have hstep := h.limitedStep limit
      rw [Config.run, Config.run]
      generalize c.limitedStep limit = p, c'.limitedStep limit = p' at hstep
      cases hstep with
      | running hd => exact ih hd
      | done hv => exact .done hv
      | failed he => exact .failed he

end Host

/-! ### What can be told -/

end Eval

/-- The same errors about values that are printed alike. -/
inductive RuntimeError.PrintsAs : RuntimeError → RuntimeError → Prop where
  | refl (e : RuntimeError) : PrintsAs e e
  | nonBooleanCondition {v v' : Value} : v.text = v'.text →
      PrintsAs (.nonBooleanCondition v) (.nonBooleanCondition v')
  | notAFunction {v v' : Value} : v.text = v'.text → PrintsAs (.notAFunction v) (.notAFunction v')
  | builtinArgument {b : Builtin} {v v' : Value} : v.text = v'.text →
      PrintsAs (.builtinArgument b v) (.builtinArgument b v')

namespace RuntimeError

variable {e e' : RuntimeError}

theorem Agrees.printsAs (h : e.Agrees e') : e.PrintsAs e' := by
  cases h with
  | refl => exact .refl e
  | nonBooleanCondition hv => exact .nonBooleanCondition hv.text_eq
  | notAFunction hv => exact .notAFunction hv.text_eq
  | builtinArgument hv => exact .builtinArgument hv.text_eq

end RuntimeError

namespace Eval

variable {H : Type}

/-- Both runs go on, or both have come to values or to errors that are printed alike, and the host
is in the same state. -/
inductive Progress.PrintsAs : Progress H → Progress H → Prop where
  | running {c c' : Config H} : c.host = c'.host → PrintsAs (.running c) (.running c')
  | done {v v' : Value} {host : H} : v.text = v'.text → PrintsAs (.done v host) (.done v' host)
  | failed {e e' : RuntimeError} {host : H} : e.PrintsAs e' →
      PrintsAs (.failed e host) (.failed e' host)

theorem Progress.Agrees.printsAs {p p' : Progress H} (h : p.Agrees p') : p.PrintsAs p' := by
  cases h with
  | running hc => exact .running hc.host
  | done hv => exact .done hv.text_eq
  | failed he => exact .failed he.printsAs

theorem Progress.Agrees.host_eq {p p' : Progress H} (h : p.Agrees p') : p.host = p'.host := by
  cases h with
  | running hc => exact hc.host
  | done | failed => rfl

theorem Config.start_agrees {e : Expr} {env env' : Env}
    (h : ∀ x ∈ e.freeNames, env.lookup x = env'.lookup x) (host : H) :
    (start e env host).Agrees (start e env' host) :=
  ⟨.eval (.of_eq h), ⟨.nil⟩, rfl⟩

/-- In two scopes that bind the free names of an expression alike, evaluation goes the same way as
far as anything can be told from it: it yields values or errors that are printed alike, or goes on,
after the same calls of the host. -/
theorem run_of_freeNames [Host H] {e : Expr} {env env' : Env}
    (h : ∀ x ∈ e.freeNames, env.lookup x = env'.lookup x) (limit fuel : Nat) (host : H) :
    (Config.run limit fuel (.start e env host)).PrintsAs
        (Config.run limit fuel (.start e env' host)) ∧
      Config.runCalls limit fuel e env host = Config.runCalls limit fuel e env' host := by
  refine ⟨((Config.start_agrees h host).run limit fuel).printsAs, ?_⟩
  have hwatched := (Config.start_agrees h (Watched.mk host [])).run limit fuel
  rw [Config.runCalls, Config.runCalls, hwatched.host_eq]

/-- A function that keeps its scope in what it returns. The scopes differ in a name that it does not
refer to and in the value of one that it binds itself. -/
theorem run_of_freeNames_returned :
    let e : Expr := .app (.fn "x" (.letIn "u" (.app (.var "print_int") (.var "x"))
      (.tuple [.var "x", .fn "y" (.var "u")]))) (.int 3)
    let env : Env := Env.initial.extend "u" (.int 1)
    let env' : Env := (Env.initial.extend "u" .unit).extend "v" (.bool true)
    (Config.run 10 20 (.start e env ({} : Recorder))).PrintsAs
        (Config.run 10 20 (.start e env' ({} : Recorder))) ∧
      Config.runCalls 10 20 e env ({} : Recorder) = [.printInt 3] ∧
      Config.runCalls 10 20 e env' ({} : Recorder) = [.printInt 3] := by
  intro e env env'
  have hfree : ∀ x ∈ e.freeNames, env.lookup x = env'.lookup x := by
    intro x hx
    simp only [e, Expr.freeNames, Expr.freeNamesAll, Std.TreeSet.mem_union_iff, mem_erase,
      mem_singleton, Std.TreeSet.not_mem_emptyc, or_false] at hx
    have hx : x = "print_int" := by tauto
    subst hx
    rfl
  obtain ⟨hprints, hcalls⟩ := run_of_freeNames hfree 10 20 ({} : Recorder)
  exact ⟨hprints, rfl, hcalls.symm.trans rfl⟩

end Eval

end MlWasm
