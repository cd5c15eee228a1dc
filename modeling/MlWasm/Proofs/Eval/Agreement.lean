import MlWasm.Proofs.Eval.Adequacy

/-!
The evaluator and the natural semantics also make the same calls of the host, in the same order. The
calls are kept by a host that watches another one. A watched host does what it would do unwatched,
so what holds of every host, and then of watched ones, says which calls any host receives.
-/

namespace MlWasm

variable {H K α β : Type}

/-- A host with the calls it has received, in order. -/
structure Watched (H : Type) where
  host : H
  calls : List Event := []

instance [Host H] : Host (Watched H) where
  printInt n w := ⟨Host.printInt n w.host, w.calls ++ [.printInt n]⟩
  printBool b w := ⟨Host.printBool b w.host, w.calls ++ [.printBool b]⟩
  printUnit w := ⟨Host.printUnit w.host, w.calls ++ [.printUnit]⟩
  nowMs w :=
    let (now, host) := Host.nowMs w.host
    (now, ⟨host, w.calls ++ [.nowMs now]⟩)

theorem Builtin.call_watched [Host H] (b : Builtin) (arg : Value) (w : Watched H) :
    (b.call arg w).map (fun r => (r.1, r.2.host)) = b.call arg w.host := by
  cases b <;> cases arg <;> rfl

namespace Eval

/-! ### Watching changes nothing -/

def Outcome.mapHost (f : H → K) : Outcome H α → Outcome K α
  | value a host => value a (f host)
  | failed e host => failed e (f host)
  | unfinished host => unfinished (f host)

theorem Outcome.mapHost_bind {g : H → K} {o : Outcome H α} {o' : Outcome K α}
    {f : α → H → Outcome H β} {f' : α → K → Outcome K β} (ho : o.mapHost g = o')
    (hf : ∀ a host, (f a host).mapHost g = f' a (g host)) :
    (o.bind f).mapHost g = o'.bind f' := by
  subst ho
  cases o with
  | value a host => exact hf a host
  | failed e host => rfl
  | unfinished host => rfl

theorem Outcome.mapHost_eq_value {f : H → K} {o : Outcome H α} {a : α} {host : K} :
    o.mapHost f = .value a host ↔ ∃ h, o = .value a h ∧ f h = host := by
  cases o <;> simp [mapHost, and_assoc]

theorem Outcome.mapHost_eq_failed {f : H → K} {o : Outcome H α} {e : RuntimeError} {host : K} :
    o.mapHost f = .failed e host ↔ ∃ h, o = .failed e h ∧ f h = host := by
  cases o <;> simp [mapHost, and_assoc]

/-- Calls are what they are for the host that is watched. -/
def Unwatched (call : CallWith (Watched H)) (call' : CallWith H) : Prop :=
  ∀ callee arg w, (call callee arg w).mapHost Watched.host = call' callee arg w.host

theorem mapHost_branch {cond : Value} {w : Watched H} {th el : Outcome (Watched H) Value}
    {th' el' : Outcome H Value} (ht : th.mapHost Watched.host = th')
    (he : el.mapHost Watched.host = el') :
    (branchWith cond w th el).mapHost Watched.host = branchWith cond w.host th' el' := by
  subst ht he
  unfold branchWith
  split <;> rfl

mutual

theorem evalWith_watched {call : CallWith (Watched H)} {call' : CallWith H}
    (h : Unwatched call call') (e : Expr) (env : Env) (w : Watched H) :
    (evalWith call e env w).mapHost Watched.host = evalWith call' e env w.host := by
  cases e with
  | int | bool | unit | fn => rfl
  | var x =>
      rw [evalWith, evalWith]
      split <;> rfl
  | letIn x value body =>
      exact Outcome.mapHost_bind (evalWith_watched h value env w)
        fun v w => evalWith_watched h body _ w
  | letRec f x body rest => exact evalWith_watched h rest _ w
  | app f a =>
      refine Outcome.mapHost_bind (evalWith_watched h f env w) fun callee w => ?_
      exact Outcome.mapHost_bind (evalWith_watched h a env w) fun arg w => h callee arg w
  | ite c t e =>
      refine Outcome.mapHost_bind (evalWith_watched h c env w) fun cond w => ?_
      exact mapHost_branch (evalWith_watched h t env w) (evalWith_watched h e env w)
  | prim op l r =>
      refine Outcome.mapHost_bind (evalWith_watched h l env w) fun left w => ?_
      refine Outcome.mapHost_bind (evalWith_watched h r env w) fun right w => ?_
      cases op.apply left right <;> rfl
  | tuple es => exact Outcome.mapHost_bind (evalAllWith_watched h es env w) fun vs w => rfl

theorem evalAllWith_watched {call : CallWith (Watched H)} {call' : CallWith H}
    (h : Unwatched call call') (es : List Expr) (env : Env) (w : Watched H) :
    (evalAllWith call es env w).mapHost Watched.host = evalAllWith call' es env w.host := by
  cases es with
  | nil => rfl
  | cons e es =>
      refine Outcome.mapHost_bind (evalWith_watched h e env w) fun v w => ?_
      exact Outcome.mapHost_bind (evalAllWith_watched h es env w) fun vs w => rfl

end

theorem callAt_builtin_watched [Host H] (n : Nat) (b : Builtin) (arg : Value) (w : Watched H) :
    (callAt n (.builtin b) arg w).mapHost Watched.host = callAt n (.builtin b) arg w.host := by
  rw [callAt, callAt, ← Builtin.call_watched]
  cases b.call arg w <;> rfl

theorem callAt_watched [Host H] (n : Nat) :
    Unwatched (callAt n : CallWith (Watched H)) (callAt n) := by
  induction n with
  | zero =>
      intro callee arg w
      cases callee with
      | builtin b => exact callAt_builtin_watched 0 b arg w
      | closure | int | bool | unit | tuple => rfl
  | succ n ih =>
      intro callee arg w
      cases callee with
      | builtin b => exact callAt_builtin_watched (n + 1) b arg w
      | closure x body env self => exact evalWith_watched ih body _ w
      | int | bool | unit | tuple => rfl

theorem evalAt_watched [Host H] (n : Nat) (e : Expr) (env : Env) (w : Watched H) :
    (evalAt n e env w).mapHost Watched.host = evalAt n e env w.host :=
  evalWith_watched (callAt_watched n) e env w

def Config.mapHost (f : H → K) (c : Config H) : Config K := ⟨c.control, c.stack, f c.host⟩

namespace Progress

def mapHost (f : H → K) : Progress H → Progress K
  | running c => running (c.mapHost f)
  | done v host => done v (f host)
  | failed e host => failed e (f host)

theorem mapHost_eq_done {f : H → K} {p : Progress H} {v : Value} {host : K} :
    p.mapHost f = .done v host ↔ ∃ h, p = .done v h ∧ f h = host := by
  cases p <;> simp [mapHost, and_assoc]

theorem mapHost_eq_failed {f : H → K} {p : Progress H} {e : RuntimeError} {host : K} :
    p.mapHost f = .failed e host ↔ ∃ h, p = .failed e h ∧ f h = host := by
  cases p <;> simp [mapHost, and_assoc]

def host : Progress H → H
  | running c => c.host
  | done _ host => host
  | failed _ host => host

end Progress

namespace Config

theorem evalStep_watched (e : Expr) (env : Env) (stack : Stack) (w : Watched H) :
    (evalStep e env stack w).mapHost Watched.host = evalStep e env stack w.host := by
  cases e with
  | var x =>
      rw [evalStep, evalStep]
      split <;> rfl
  | tuple es => cases es <;> rfl
  | int | bool | unit | letIn | letRec | fn | app | ite | prim => rfl

theorem resume_watched [Host H] (frame : Frame) (v : Value) (stack : Stack) (w : Watched H) :
    (resume frame v stack w).mapHost Watched.host = resume frame v stack w.host := by
  cases frame with
  | appCall callee =>
      cases callee with
      | builtin b =>
          rw [resume, resume, ← Builtin.call_watched]
          cases b.call v w <;> rfl
      | closure | int | bool | unit | tuple => rfl
  | branch t e env =>
      cases v with
      | bool b => cases b <;> rfl
      | int | unit | closure | tuple | builtin => rfl
  | primApply op l =>
      rw [resume, resume]
      cases op.apply l v <;> rfl
  | tupleRest rest done env => cases rest <;> rfl
  | letBody | appArg | primRight => rfl

theorem step_watched [Host H] (c : Config (Watched H)) :
    c.step.mapHost Watched.host = (c.mapHost Watched.host).step := by
  obtain ⟨control, stack, w⟩ := c
  cases control with
  | eval e env => exact evalStep_watched e env stack w
  | give v =>
      simp only [step, mapHost]
      cases stack.pop? with
      | none => rfl
      | some r => exact resume_watched r.1 v r.2 w

theorem limitedStep_watched [Host H] (limit : Nat) (c : Config (Watched H)) :
    (c.limitedStep limit).mapHost Watched.host = (c.mapHost Watched.host).limitedStep limit := by
  rw [limitedStep, limitedStep, ← step_watched]
  cases c.step with
  | running c' =>
      by_cases hlimit : limit < c'.stack.height <;>
        simp [Progress.mapHost, mapHost, hlimit]
  | done v w => rfl
  | failed e w => rfl

theorem run_watched [Host H] (limit fuel : Nat) (c : Config (Watched H)) :
    (run limit fuel c).mapHost Watched.host = run limit fuel (c.mapHost Watched.host) := by
  induction fuel generalizing c with
  | zero => rfl
  | succ fuel ih =>
      rw [run, run, ← limitedStep_watched]
      cases c.limitedStep limit with
      | running c' => exact ih c'
      | done v w => rfl
      | failed e w => rfl

/-! ### Agreement -/

/-- The calls that the host receives in a run, in order. -/
def runCalls [Host H] (limit fuel : Nat) (e : Expr) (env : Env) (host : H) : List Event :=
  (run limit fuel (start e env (Watched.mk host []))).host.calls

end Config

/-- The calls that the host receives in the natural semantics, in order. -/
def callsAt [Host H] (n : Nat) (e : Expr) (env : Env) (host : H) : List Event :=
  (evalAt n e env (Watched.mk host [])).host.calls

section Agreement

variable [Host H] {e : Expr} {env : Env} {host host' : H} {v : Value} {err : RuntimeError}

theorem run_start_watched (limit fuel : Nat) (e : Expr) (env : Env) (host : H) :
    (Config.run limit fuel (.start e env (Watched.mk host []))).mapHost Watched.host =
      Config.run limit fuel (.start e env host) :=
  Config.run_watched limit fuel _

theorem evalAt_of_done {limit fuel : Nat}
    (h : Config.run limit fuel (.start e env host) = .done v host') :
    ∃ n, evalAt n e env host = .value v host' ∧
      callsAt n e env host = Config.runCalls limit fuel e env host := by
  rw [← run_start_watched, Progress.mapHost_eq_done] at h
  obtain ⟨w, hrun, rfl⟩ := h
  have houtcome := Config.outcome_of_run limit fuel (.start e env (Watched.mk host []))
  rw [hrun] at houtcome
  obtain ⟨n, hn⟩ := houtcome
  rw [Config.outcomeWith_start] at hn
  refine ⟨n, ?_, ?_⟩
  · exact (evalAt_watched n e env ⟨host, []⟩).symm.trans
      (Outcome.mapHost_eq_value.2 ⟨w, hn, rfl⟩)
  · rw [callsAt, evalAt, hn, Config.runCalls, hrun]
    rfl

theorem evalAt_of_failed {limit fuel : Nat}
    (h : Config.run limit fuel (.start e env host) = .failed err host')
    (hroom : err ≠ .stackExhausted limit) :
    ∃ n, evalAt n e env host = .failed err host' ∧
      callsAt n e env host = Config.runCalls limit fuel e env host := by
  rw [← run_start_watched, Progress.mapHost_eq_failed] at h
  obtain ⟨w, hrun, rfl⟩ := h
  have houtcome := Config.outcome_of_run limit fuel (.start e env (Watched.mk host []))
  rw [hrun] at houtcome
  obtain ⟨n, hn⟩ := houtcome.resolve_left hroom
  rw [Config.outcomeWith_start] at hn
  refine ⟨n, ?_, ?_⟩
  · exact (evalAt_watched n e env ⟨host, []⟩).symm.trans
      (Outcome.mapHost_eq_failed.2 ⟨w, hn, rfl⟩)
  · rw [callsAt, evalAt, hn, Config.runCalls, hrun]
    rfl

theorem done_of_evalAt {n : Nat} (h : evalAt n e env host = .value v host') :
    ∃ least, ∀ limit, least ≤ limit → ∃ fuel,
      Config.run limit fuel (.start e env host) = .done v host' ∧
        Config.runCalls limit fuel e env host = callsAt n e env host := by
  rw [← evalAt_watched n e env ⟨host, []⟩, Outcome.mapHost_eq_value] at h
  obtain ⟨w, hn, rfl⟩ := h
  obtain ⟨least, hleast⟩ := Config.run_of_evalAt hn
  refine ⟨least, fun limit hlimit => ?_⟩
  obtain ⟨fuel, hrun⟩ := hleast limit hlimit
  refine ⟨fuel, ?_, ?_⟩
  · rw [← run_start_watched, Progress.mapHost_eq_done]
    exact ⟨w, hrun, rfl⟩
  · rw [Config.runCalls, hrun, callsAt, hn]
    rfl

theorem failed_of_evalAt {n : Nat} (h : evalAt n e env host = .failed err host') :
    ∃ least, ∀ limit, least ≤ limit → ∃ fuel,
      Config.run limit fuel (.start e env host) = .failed err host' ∧
        Config.runCalls limit fuel e env host = callsAt n e env host := by
  rw [← evalAt_watched n e env ⟨host, []⟩, Outcome.mapHost_eq_failed] at h
  obtain ⟨w, hn, rfl⟩ := h
  obtain ⟨least, hleast⟩ := Config.run_of_evalAt_failed hn
  refine ⟨least, fun limit hlimit => ?_⟩
  obtain ⟨fuel, hrun⟩ := hleast limit hlimit
  refine ⟨fuel, ?_, ?_⟩
  · rw [← run_start_watched, Progress.mapHost_eq_failed]
    exact ⟨w, hrun, rfl⟩
  · rw [Config.runCalls, hrun, callsAt, hn]
    rfl

end Agreement

/-- What a run returns within its limit is what the natural semantics yields, and all that the
natural semantics yields is returned within every large enough limit: values and errors, the state
of the host and the calls that led to it. -/
theorem run_agrees_evalAt {H : Type} [Host H] (e : Expr) (env : Env) (host : H) :
    (∀ limit fuel v host', Config.run limit fuel (.start e env host) = .done v host' →
      ∃ n, evalAt n e env host = .value v host' ∧
        callsAt n e env host = Config.runCalls limit fuel e env host) ∧
    (∀ limit fuel err host', Config.run limit fuel (.start e env host) = .failed err host' →
      (∀ depth, err ≠ .stackExhausted depth) →
      ∃ n, evalAt n e env host = .failed err host' ∧
        callsAt n e env host = Config.runCalls limit fuel e env host) ∧
    (∀ n v host', evalAt n e env host = .value v host' →
      ∃ least, ∀ limit, least ≤ limit → ∃ fuel,
        Config.run limit fuel (.start e env host) = .done v host' ∧
          Config.runCalls limit fuel e env host = callsAt n e env host) ∧
    ∀ n err host', evalAt n e env host = .failed err host' →
      ∃ least, ∀ limit, least ≤ limit → ∃ fuel,
        Config.run limit fuel (.start e env host) = .failed err host' ∧
          Config.runCalls limit fuel e env host = callsAt n e env host :=
  ⟨fun _ _ _ _ => evalAt_of_done, fun limit _ _ _ h hroom => evalAt_of_failed h (hroom limit),
    fun _ _ _ => done_of_evalAt, fun _ _ _ => failed_of_evalAt⟩

/-- A function that is none is called after its argument has read the clock, and a function that
calls itself once. -/
theorem run_agrees_evalAt_effects :
    let failing : Expr := .prim .add (.app (.var "print_int") (.int 1))
      (.app (.int 2) (.app (.var "now_ms") .unit))
    let calling : Expr := .letRec "f" "x" (.ite (.var "x") (.app (.var "f") (.bool false)) .unit)
      (.app (.var "f") (.bool true))
    (∃ n host', evalAt n failing .initial ({} : Recorder) = .failed (.notAFunction (.int 2)) host' ∧
      callsAt n failing .initial ({} : Recorder) = [.printInt 1, .nowMs 1000]) ∧
    ∃ least, ∀ limit, least ≤ limit → ∃ fuel,
      Config.run limit fuel (.start calling .initial ({} : Recorder)) = .done .unit {} ∧
        Config.runCalls limit fuel calling .initial ({} : Recorder) = [] := by
  intro failing calling
  constructor
  · obtain ⟨n, hfailed, hcalls⟩ := (run_agrees_evalAt failing .initial ({} : Recorder)).2.1 10 20
      (.notAFunction (.int 2)) ⟨[.nowMs 1000, .printInt 1], 1001⟩ rfl (by simp)
    exact ⟨n, _, hfailed, hcalls.trans rfl⟩
  · exact (run_agrees_evalAt calling .initial ({} : Recorder)).2.2.1 2 .unit {} rfl

end Eval

end MlWasm
