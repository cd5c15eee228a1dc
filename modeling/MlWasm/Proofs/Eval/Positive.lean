import MlWasm.Proofs.Eval.Tail
import MlWasm.Proofs.Source.Negative

/-!
Evaluation of an expression whose negative integers are written as subtractions from zero. All that
an evaluation holds can be rewritten in the same way: values, scopes, pending frames. Each step then
is a step of the rewritten configuration, except that of a negative integer, which takes four steps
more and one frame more, without a call of the host. So the two evaluations go together, if that of
the rewritten expression has room for one more frame.
-/

namespace MlWasm

mutual

/-- The value with the bodies of functions rewritten. -/
def Value.positive : Value → Value
  | .int n => .int n
  | .bool b => .bool b
  | .unit => .unit
  | .closure x body env self => .closure x body.positive (Env.positive env) self
  | .tuple vs => .tuple (Value.positiveAll vs)
  | .builtin b => .builtin b

def Value.positiveAll : List Value → List Value
  | [] => []
  | v :: vs => v.positive :: Value.positiveAll vs

def Env.positive : Env → Env
  | ⟨bindings⟩ => ⟨Env.positiveBindings bindings⟩

def Env.positiveBindings : List (String × Value) → List (String × Value)
  | [] => []
  | (x, v) :: bs => (x, v.positive) :: Env.positiveBindings bs

end

def RuntimeError.positive : RuntimeError → RuntimeError
  | unboundVariable x => unboundVariable x
  | nonBooleanCondition v => nonBooleanCondition v.positive
  | notAFunction v => notAFunction v.positive
  | builtinArgument b v => builtinArgument b v.positive
  | invalidOperands op => invalidOperands op
  | tupleArity l r => tupleArity l r
  | stackExhausted limit => stackExhausted limit

namespace Expr

theorem positive_int_of_neg {n : Int32} (hn : n < 0) :
    (int n).positive = .prim .sub (.int 0) (.int (-n)) := if_pos hn

theorem positive_int_of_not_neg {n : Int32} (hn : ¬ n < 0) : (int n).positive = .int n := if_neg hn

end Expr

namespace Value

theorem positiveAll_eq_map (vs : List Value) : positiveAll vs = vs.map positive := by
  induction vs with
  | nil => rfl
  | cons v vs ih => rw [positiveAll, ih, List.map_cons]

mutual

theorem equal_positive (l r : Value) :
    l.positive.equal r.positive = (l.equal r).mapError RuntimeError.positive := by
  cases l <;> cases r <;> try rfl
  case tuple.tuple ls rs =>
    have hlength (vs : List Value) : (positiveAll vs).length = vs.length := by
      rw [positiveAll_eq_map, List.length_map]
    simp only [positive, equal, hlength]
    split
    · exact equalAll_positive ls rs
    · rfl

theorem equalAll_positive (ls rs : List Value) :
    equalAll (positiveAll ls) (positiveAll rs) =
      (equalAll ls rs).mapError RuntimeError.positive := by
  cases ls with
  | nil => rfl
  | cons l ls =>
      cases rs with
      | nil => rfl
      | cons r rs =>
          simp only [positiveAll, equalAll, equal_positive l r, equalAll_positive ls rs]
          cases l.equal r with
          | error err => rfl
          | ok b => cases b <;> rfl

end

end Value

theorem Env.lookup_positive (env : Env) (x : String) :
    env.positive.lookup x = (env.lookup x).map Value.positive := by
  obtain ⟨bindings⟩ := env
  simp only [positive, Scope.lookup]
  induction bindings with
  | nil => rfl
  | cons b bs ih =>
      obtain ⟨y, v⟩ := b
      rw [positiveBindings, List.lookup_cons, List.lookup_cons, ih]
      cases x == y <;> rfl

theorem Env.positive_extend (env : Env) (x : String) (v : Value) :
    Env.positive (env.extend x v) = env.positive.extend x v.positive := by
  cases env
  rfl

theorem Op.onInts_positive (op : Op) (l r : Int32) : (op.onInts l r).positive = op.onInts l r := by
  cases op <;> rfl

theorem Op.apply_positive (op : Op) (l r : Value) :
    op.apply l.positive r.positive =
      ((op.apply l r).map Value.positive).mapError RuntimeError.positive := by
  by_cases hop : op = .eq
  · simp only [apply, hop, if_true, Value.equal_positive]
    cases l.equal r <;> rfl
  · simp only [apply, hop, if_false]
    cases l <;> cases r <;> try rfl
    simp [Value.positive, Except.map, Except.mapError, onInts_positive]

theorem Builtin.call_positive {H : Type} [Host H] (b : Builtin) (v : Value) (host : H) :
    b.call v.positive host =
      ((b.call v host).map fun r => (r.1.positive, r.2)).mapError RuntimeError.positive := by
  cases b <;> cases v <;> rfl

namespace Eval

variable {H : Type}

/-! ### Configurations -/

def Frame.positive : Frame → Frame
  | letBody x body env => letBody x body.positive env.positive
  | appArg arg env => appArg arg.positive env.positive
  | appCall callee => appCall callee.positive
  | branch t e env => branch t.positive e.positive env.positive
  | primRight op r env => primRight op r.positive env.positive
  | primApply op l => primApply op l.positive
  | tupleRest rest done env =>
      tupleRest (rest.map Expr.positive) (done.map Value.positive) env.positive

def Stack.positive (s : Stack) : Stack :=
  ⟨s.frames.map Frame.positive, s.height, by rw [List.length_map, s.height_eq]⟩

def Control.positive : Control → Control
  | eval e env => eval e.positive env.positive
  | give v => give v.positive

def Config.positive (c : Config H) : Config H := ⟨c.control.positive, c.stack.positive, c.host⟩

def Progress.positive : Progress H → Progress H
  | running c => running c.positive
  | done v host => done v.positive host
  | failed err host => failed err.positive host

theorem Stack.pop?_positive (s : Stack) :
    s.positive.pop? = s.pop?.map fun r => (r.1.positive, r.2.positive) := by
  cases hpop : s.pop? with
  | none =>
      have hempty : s = .empty := eq_of_frames (pop?_eq_none hpop)
      rw [hempty]
      rfl
  | some r =>
      obtain ⟨f, rest⟩ := r
      have hpush : s = rest.push f := eq_of_frames (pop?_eq_some hpop)
      rw [hpush]
      rfl

namespace Config

theorem enter_positive (x : String) (body : Expr) (env : Env) (self : Option String)
    (arg : Value) :
    enter x body.positive env.positive self arg.positive =
      (enter x body env self arg).positive := by
  cases self <;> simp only [enter, Env.positive_extend, Value.positive]

/-- The expression is a negative integer. -/
def IsNegative (c : Config H) : Prop := ∃ n env, c.control = .eval (.int n) env ∧ n < 0

theorem evalStep_positive {e : Expr} (he : ∀ n, e = .int n → ¬ n < 0) (env : Env) (stack : Stack)
    (host : H) :
    evalStep e.positive env.positive stack.positive host =
      (evalStep e env stack host).positive := by
  cases e with
  | int n =>
      rw [Expr.positive_int_of_not_neg (he n rfl)]
      rfl
  | var x =>
      have hlookup := Env.lookup_positive env x
      change evalStep (.var x) _ _ _ = _
      rw [evalStep, evalStep, hlookup]
      cases env.lookup x <;> rfl
  | tuple es =>
      change evalStep (.tuple (Expr.mapIntsAll Expr.signed es)) _ _ _ = _
      rw [Expr.mapIntsAll_eq_map]
      cases es <;> rfl
  | letRec f x b r =>
      change evalStep (.letRec f x b.positive r.positive) _ _ _ = _
      simp only [evalStep, Progress.positive, Config.positive, Control.positive,
        Env.positive_extend, Value.positive]
  | bool | unit | letIn | fn | app | ite | prim => rfl

variable [Host H]

theorem resume_positive (frame : Frame) (v : Value) (stack : Stack) (host : H) :
    resume frame.positive v.positive stack.positive host =
      (resume frame v stack host).positive := by
  cases frame with
  | appCall callee =>
      cases callee with
      | builtin b =>
          simp only [Frame.positive, Value.positive, resume, Builtin.call_positive]
          cases b.call v host <;> rfl
      | closure x body env self =>
          simp only [Frame.positive, Value.positive, resume, enter_positive]
          rfl
      | int | bool | unit | tuple => rfl
  | branch t e env =>
      cases v with
      | bool b => cases b <;> rfl
      | int | unit | closure | tuple | builtin => rfl
  | primApply op l =>
      simp only [Frame.positive, resume, Op.apply_positive]
      cases op.apply l v <;> rfl
  | tupleRest rest done env =>
      cases rest with
      | nil =>
          simp only [Frame.positive, resume, Progress.positive, Config.positive, Control.positive,
            Value.positive, Value.positiveAll_eq_map]
          simp
      | cons e es => rfl
  | letBody x body env =>
      simp only [Frame.positive, resume, Progress.positive, Config.positive, Control.positive,
        Env.positive_extend]
  | appArg | primRight => rfl

/-- A step of anything but a negative integer is one of the rewritten configuration. -/
theorem step_positive {c : Config H} (h : ¬ c.IsNegative) : c.positive.step = c.step.positive := by
  obtain ⟨control, stack, host⟩ := c
  cases control with
  | eval e env =>
      exact evalStep_positive (fun n he hn => h ⟨n, env, by rw [he], hn⟩) env stack host
  | give v =>
      simp only [Config.positive, Control.positive, step, Stack.pop?_positive]
      cases stack.pop? with
      | none => rfl
      | some r => exact resume_positive r.1 v r.2 host

/-- With room for one more frame, a negative integer is given after five steps. -/
theorem run_negative {c : Config H} (h : c.IsNegative) {limit : Nat}
    (hroom : c.stack.height < limit) :
    ∃ d, c.step = .running d ∧ d.stack = c.stack ∧
      c.positive.run limit 5 = .running d.positive ∧
      ∀ k, k < 5 → ∃ d', c.positive.run limit k = .running d' ∧ d'.host = c.host := by
  obtain ⟨control, stack, host⟩ := c
  obtain ⟨n, env, rfl, hn⟩ := h
  let left := stack.positive.push (.primRight .sub (.int (-n)) env.positive)
  let right := stack.positive.push (.primApply .sub (.int 0))
  let c₀ : Config H := ⟨.eval (.prim .sub (.int 0) (.int (-n))) env.positive, stack.positive, host⟩
  let c₁ : Config H := ⟨.eval (.int 0) env.positive, left, host⟩
  let c₂ : Config H := ⟨.give (.int 0), left, host⟩
  let c₃ : Config H := ⟨.eval (.int (-n)) env.positive, right, host⟩
  let c₄ : Config H := ⟨.give (.int (-n)), right, host⟩
  let c₅ : Config H := ⟨.give (.int n), stack.positive, host⟩
  have hstart : Config.positive ⟨.eval (.int n) env, stack, host⟩ = c₀ := by
    rw [Config.positive, Control.positive, Expr.positive_int_of_neg hn]
  have hvalue : 0 - -n = n := by simp
  have hlast : c₄.step = .running c₅ := by
    change Progress.running ⟨.give (.int (0 - -n)), stack.positive, host⟩ = _
    rw [hvalue]
  have h₁ (k : Nat) : c₀.run limit (k + 1) = c₁.run limit k := run_succ_within rfl hroom k
  have h₂ (k : Nat) : c₁.run limit (k + 1) = c₂.run limit k := run_succ_within rfl hroom k
  have h₃ (k : Nat) : c₂.run limit (k + 1) = c₃.run limit k := run_succ_within rfl hroom k
  have h₄ (k : Nat) : c₃.run limit (k + 1) = c₄.run limit k := run_succ_within rfl hroom k
  have h₅ (k : Nat) : c₄.run limit (k + 1) = c₅.run limit k :=
    run_succ_within hlast (Nat.le_of_lt hroom) k
  rw [hstart]
  refine ⟨⟨.give (.int n), stack, host⟩, rfl, rfl, ?_, fun k hk => ?_⟩
  · rw [h₁, h₂, h₃, h₄, h₅]
    rfl
  · match k, hk with
    | 0, _ => exact ⟨c₀, rfl, rfl⟩
    | 1, _ => exact ⟨c₁, h₁ 0, rfl⟩
    | 2, _ => exact ⟨c₂, (h₁ 1).trans (h₂ 0), rfl⟩
    | 3, _ => exact ⟨c₃, (h₁ 2).trans ((h₂ 1).trans (h₃ 0)), rfl⟩
    | 4, _ => exact ⟨c₄, (h₁ 3).trans ((h₂ 2).trans ((h₃ 1).trans (h₄ 0))), rfl⟩

/-- Without that room the limit is exceeded. -/
theorem run_negative_exceeded {c : Config H} (h : c.IsNegative) {limit : Nat}
    (hroom : limit ≤ c.stack.height) (k : Nat) :
    c.positive.run limit (k + 1) = .failed (.stackExhausted limit) c.host := by
  obtain ⟨control, stack, host⟩ := c
  obtain ⟨n, env, rfl, hn⟩ := h
  refine run_succ_exceeded (d := ⟨.eval (.int 0) env.positive,
    stack.positive.push (.primRight .sub (.int (-n)) env.positive), host⟩) ?_ ?_ k
  · rw [Config.positive, Control.positive, Expr.positive_int_of_neg hn]
    rfl
  · exact Nat.lt_succ_of_le hroom

end Config

/-! ### Runs -/

/-- Both go on, or the second ends with what the first ends with, rewritten. -/
inductive Progress.Alike : Progress H → Progress H → Prop where
  | running {c d : Config H} : d.host = c.host → Alike (running c) (running d)
  | done (v : Value) (host : H) : Alike (done v host) (done v.positive host)
  | failed (err : RuntimeError) (host : H) : Alike (failed err host) (failed err.positive host)

namespace Config

variable [Host H] {limit limit' fuel k k' : Nat} {c d : Config H}

theorem alike_of_end (hneg : ¬ c.IsNegative) (hend : ∀ d, c.step ≠ .running d) :
    (c.run limit (k + 1)).Alike (c.positive.run limit' (k' + 1)) := by
  have hpos := step_positive hneg
  rw [run_succ_end hend]
  cases hstep : c.step with
  | running d => exact absurd hstep (hend d)
  | done v host =>
      rw [hstep] at hpos
      rw [run_succ_end (by simp [hpos, Progress.positive]), hpos]
      exact .done v host
  | failed err host =>
      rw [hstep] at hpos
      rw [run_succ_end (by simp [hpos, Progress.positive]), hpos]
      exact .failed err host

theorem height_le_of_run (hstep : c.step = .running d)
    (h : ∀ host, c.run limit (k + 1) ≠ .failed (.stackExhausted limit) host) :
    d.stack.height ≤ limit := by
  by_contra hroom
  exact h d.host (run_succ_exceeded hstep (Nat.lt_of_not_le hroom) k)

/-- A run that its limit does not cut off, and the run of the rewritten configuration with room for
one more frame. -/
theorem alike_run (hc : c.stack.height ≤ limit)
    (h : ∀ host, c.run limit fuel ≠ .failed (.stackExhausted limit) host) :
    ∃ fuel', fuel ≤ fuel' ∧ (c.run limit fuel).Alike (c.positive.run (limit + 1) fuel') := by
  induction fuel generalizing c with
  | zero => exact ⟨0, Nat.le_refl 0, .running rfl⟩
  | succ fuel ih =>
      by_cases hneg : c.IsNegative
      · obtain ⟨d, hstep, hd, hfive, -⟩ := run_negative hneg (Nat.lt_succ_of_le hc)
        rw [← hd] at hc
        rw [run_succ_within hstep hc] at h ⊢
        obtain ⟨fuel', hfuel, halike⟩ := ih hc h
        refine ⟨5 + fuel', by omega, ?_⟩
        rwa [run_add hfive]
      · by_cases hend : ∀ d, c.step ≠ .running d
        · exact ⟨fuel + 1, Nat.le_refl _, alike_of_end hneg hend⟩
        · obtain ⟨d, hstep⟩ : ∃ d, c.step = .running d := by simpa using hend
          have hpos : c.positive.step = .running d.positive := by
            rw [step_positive hneg, hstep]
            rfl
          have hd := height_le_of_run hstep h
          rw [run_succ_within hstep hd] at h ⊢
          obtain ⟨fuel', hfuel, halike⟩ := ih hd h
          refine ⟨fuel' + 1, by omega, ?_⟩
          rwa [run_succ_within hpos (Nat.le_succ_of_le hd)]

/-- A run of the rewritten configuration that its limit does not cut off, and a run within the same
limit. -/
theorem alike_run_positive (hc : c.stack.height ≤ limit)
    (h : ∀ host, c.positive.run limit fuel ≠ .failed (.stackExhausted limit) host) :
    ∃ fuel', fuel ≤ 5 * fuel' + 4 ∧ (c.run limit fuel').Alike (c.positive.run limit fuel) := by
  induction hn : fuel using Nat.strong_induction_on generalizing c fuel with
  | _ n ih =>
      subst hn
      cases fuel with
      | zero => exact ⟨0, by omega, .running rfl⟩
      | succ fuel =>
          by_cases hneg : c.IsNegative
          · have hroom : c.stack.height < limit := by
              by_contra hroom
              exact h c.host (run_negative_exceeded hneg (Nat.le_of_not_lt hroom) fuel)
            obtain ⟨d, hstep, hd, hfive, hless⟩ := run_negative hneg hroom
            rcases Nat.lt_or_ge (fuel + 1) 5 with hlt | hge
            · obtain ⟨d', hrun, hhost⟩ := hless _ hlt
              refine ⟨0, by omega, ?_⟩
              rw [hrun]
              exact .running hhost
            · obtain ⟨rest, hrest⟩ := Nat.exists_eq_add_of_le hge
              rw [← hd] at hc
              rw [hrest, run_add hfive] at h ⊢
              obtain ⟨fuel', hfuel, halike⟩ := ih rest (by omega) hc h rfl
              refine ⟨fuel' + 1, by omega, ?_⟩
              rwa [run_succ_within hstep hc]
          · by_cases hend : ∀ d, c.step ≠ .running d
            · exact ⟨fuel + 1, by omega, alike_of_end hneg hend⟩
            · obtain ⟨d, hstep⟩ : ∃ d, c.step = .running d := by simpa using hend
              have hpos : c.positive.step = .running d.positive := by
                rw [step_positive hneg, hstep]
                rfl
              have hd : d.positive.stack.height ≤ limit := height_le_of_run hpos h
              rw [run_succ_within hpos hd] at h ⊢
              obtain ⟨fuel', hfuel, halike⟩ := ih fuel (by omega) (c := d) hd h rfl
              refine ⟨fuel' + 1, by omega, ?_⟩
              rwa [run_succ_within hstep hd]

end Config

/-! ### Programs -/

namespace Progress.Alike

variable {K : Type} {p q : Progress H}

theorem host_eq (h : p.Alike q) : q.host = p.host := by
  cases h with
  | running h => exact h
  | done | failed => rfl

theorem mapHost (f : H → K) (h : p.Alike q) : (p.mapHost f).Alike (q.mapHost f) := by
  cases h with
  | running h => exact .running (congrArg f h)
  | done v host => exact .done v (f host)
  | failed err host => exact .failed err (f host)

theorem eq_of_done {v : Value} {host : H} (h : Progress.Alike (.done v host) q) :
    q = .done v.positive host := by
  cases h
  rfl

end Progress.Alike

section Start

variable [Host H] {limit fuel : Nat} {e : Expr} {env : Env} {host : H}

/-- A limit cuts off the run of a watched host where it cuts off that of the host. -/
theorem not_exhausted_watched
    (h : ∀ host', Config.run limit fuel (.start e env host) ≠
      .failed (.stackExhausted limit) host') (w : Watched H) :
    Config.run limit fuel (.start e env (Watched.mk host [])) ≠
      .failed (.stackExhausted limit) w := by
  intro hrun
  refine h w.host ?_
  rw [← run_start_watched, hrun]
  rfl

/-- What holds of a host that is watched holds of the host and of its calls. -/
theorem alike_of_watched {limit' fuel' : Nat} {e' : Expr} {env' : Env}
    (h : (Config.run limit fuel (.start e env (Watched.mk host []))).Alike
      (Config.run limit' fuel' (.start e' env' (Watched.mk host [])))) :
    (Config.run limit fuel (.start e env host)).Alike
        (Config.run limit' fuel' (.start e' env' host)) ∧
      Config.runCalls limit' fuel' e' env' host = Config.runCalls limit fuel e env host := by
  have hmap := h.mapHost Watched.host
  rw [run_start_watched, run_start_watched] at hmap
  exact ⟨hmap, congrArg Watched.calls h.host_eq⟩

theorem run_start_positive
    (h : ∀ host', Config.run limit fuel (.start e env host) ≠
      .failed (.stackExhausted limit) host') :
    ∃ fuel', fuel ≤ fuel' ∧
      (Config.run limit fuel (.start e env host)).Alike
        (Config.run (limit + 1) fuel' (.start e.positive env.positive host)) ∧
      Config.runCalls (limit + 1) fuel' e.positive env.positive host =
        Config.runCalls limit fuel e env host := by
  obtain ⟨fuel', hfuel, halike⟩ := Config.alike_run (Nat.zero_le _) (not_exhausted_watched h)
  exact ⟨fuel', hfuel, alike_of_watched halike⟩

theorem run_of_start_positive
    (h : ∀ host', Config.run limit fuel (.start e.positive env.positive host) ≠
      .failed (.stackExhausted limit) host') :
    ∃ fuel', fuel ≤ 5 * fuel' + 4 ∧
      (Config.run limit fuel' (.start e env host)).Alike
        (Config.run limit fuel (.start e.positive env.positive host)) ∧
      Config.runCalls limit fuel e.positive env.positive host =
        Config.runCalls limit fuel' e env host := by
  obtain ⟨fuel', hfuel, halike⟩ := Config.alike_run_positive
    (c := .start e env (Watched.mk host [])) (Nat.zero_le _) (not_exhausted_watched h)
  exact ⟨fuel', hfuel, alike_of_watched halike⟩

end Start

/-- An expression with legal names and tuples is parsed back from what is printed, with every
negative integer as a subtraction from zero, if the least integer does not occur in it; if it does,
the source is refused for the magnitude of that integer.

The expression with the subtractions evaluates like the expression itself. All that happens within
a limit happens with the subtractions if one more frame may be pending, and what happens with the
subtractions happens without: both go on, after calls of the host that are the same, or both end
with the same value or error, but for the bodies of the functions in it. -/
theorem printed_evaluates_alike {H : Type} [Host H] (e : Expr) (h : e.writable = true) :
    (Int32.minValue ∉ e.literals → Expr.parse e.print = .ok e.positive) ∧
    (Int32.minValue ∈ e.literals → ∃ position,
      Expr.parse e.print = .error ⟨position, .integerOutOfRange "2147483648"⟩) ∧
    ∀ (env : Env) (host : H) (limit fuel : Nat),
      ((∀ host', Config.run limit fuel (.start e env host) ≠
          .failed (.stackExhausted limit) host') →
        ∃ fuel', fuel ≤ fuel' ∧
          (Config.run limit fuel (.start e env host)).Alike
            (Config.run (limit + 1) fuel' (.start e.positive env.positive host)) ∧
          Config.runCalls (limit + 1) fuel' e.positive env.positive host =
            Config.runCalls limit fuel e env host) ∧
      ((∀ host', Config.run limit fuel (.start e.positive env.positive host) ≠
          .failed (.stackExhausted limit) host') →
        ∃ fuel', fuel ≤ 5 * fuel' + 4 ∧
          (Config.run limit fuel' (.start e env host)).Alike
            (Config.run limit fuel (.start e.positive env.positive host)) ∧
          Config.runCalls limit fuel e.positive env.positive host =
            Config.runCalls limit fuel' e env host) :=
  ⟨Expr.parse_print_positive h, Expr.parse_print_minValue h,
    fun _ _ _ _ => ⟨run_start_positive, run_of_start_positive⟩⟩

/-- A negative argument and a negative factor. The product needs a third frame where a subtraction
stands for the factor. -/
theorem printed_evaluates_alike_product :
    let e : Expr := .letIn "u" (.app (.var "print_int") (.int (-5)))
      (.prim .mul (.int 3) (.int (-2)))
    let e' : Expr := .letIn "u" (.app (.var "print_int") (.prim .sub (.int 0) (.int 5)))
      (.prim .mul (.int 3) (.prim .sub (.int 0) (.int 2)))
    e.writable = true ∧ Expr.parse e.print = .ok e' ∧
      ∃ fuel host', Config.run 3 fuel (.start e' .initial ({} : Recorder)) =
          .done (.int (-6)) host' ∧
        Config.runCalls 3 fuel e' .initial ({} : Recorder) = [.printInt (-5)] := by
  intro e e'
  have hwritable : e.writable = true := by decide
  obtain ⟨hparse, -, hrun⟩ := printed_evaluates_alike (H := Recorder) e hwritable
  have hdone : ∃ host', Config.run 2 20 (.start e .initial ({} : Recorder)) =
      .done (.int (-6)) host' := ⟨_, rfl⟩
  obtain ⟨host', hdone⟩ := hdone
  obtain ⟨fuel, -, halike, hcalls⟩ := (hrun .initial {} 2 20).1 (by simp [hdone])
  rw [hdone] at halike
  exact ⟨hwritable, hparse (by decide), fuel, host', halike.eq_of_done, hcalls⟩

/-- The magnitude of the least integer is printed, and no literal. -/
theorem not_parse_print_minValue :
    (Expr.int Int32.minValue).writable = true ∧
      (Expr.int Int32.minValue).print = "0 - 2147483648" ∧
      Expr.parse "0 - 2147483648" = .error ⟨⟨1, 5⟩, .integerOutOfRange "2147483648"⟩ :=
  ⟨rfl, by decide, by cbv⟩

end Eval

end MlWasm
