import MlWasm.Proofs.Eval.Natural

/-!
The evaluator and the natural semantics agree. A step of the evaluator keeps what the configuration
comes to, up to one call of nesting, so an answer of a run is an answer of the natural semantics.
The other way round, an expression with an answer is evaluated to it on top of every stack, as long
as the limit leaves room for the frames it needs in between.
-/

namespace MlWasm

namespace Eval

variable {H : Type}

@[simp] theorem Stack.frames_push (s : Stack) (f : Frame) : (s.push f).frames = f :: s.frames := rfl

@[simp] theorem Stack.height_push (s : Stack) (f : Frame) : (s.push f).height = s.height + 1 := rfl

theorem Stack.pop?_eq_none {s : Stack} (h : s.pop? = none) : s.frames = [] := by
  unfold Stack.pop? at h
  split at h
  · assumption
  · cases h

theorem Stack.pop?_eq_some {s s' : Stack} {f : Frame} (h : s.pop? = some (f, s')) :
    s.frames = f :: s'.frames := by
  unfold Stack.pop? at h
  split at h
  · cases h
  · rename_i hs
    cases h
    exact hs

theorem Stack.pop?_push (s : Stack) (f : Frame) : (s.push f).pop? = some (f, s) := rfl

theorem unwindWith_le {call call' : CallWith H}
    (h : ∀ c v host, (call c v host).Le (call' c v host)) (frames : List Frame) (v : Value)
    (host : H) : (unwindWith call frames v host).Le (unwindWith call' frames v host) := by
  induction frames generalizing v host with
  | nil => exact .refl _
  | cons f fs ih =>
      refine Outcome.Le.bind ?_ ih
      cases f with
      | letBody x body env => exact evalWith_le h body _ host
      | appArg arg env => exact (evalWith_le h arg env host).bind fun w host => h v w host
      | appCall callee => exact h callee v host
      | branch t e env =>
          simp only [resumeWith, branchWith]
          split
          · exact evalWith_le h t env host
          · exact evalWith_le h e env host
          · exact .refl _
      | primRight op r env => exact (evalWith_le h r env host).bind fun w host => .refl _
      | primApply op l => exact .refl _
      | tupleRest rest done env => exact (evalAllWith_le h rest env host).bind fun w host => .refl _

namespace Config

theorem outcomeWith_le {call call' : CallWith H}
    (h : ∀ c v host, (call c v host).Le (call' c v host)) (c : Config H) :
    (c.outcomeWith call).Le (c.outcomeWith call') := by
  unfold outcomeWith
  split
  · exact (evalWith_le h _ _ _).bind (unwindWith_le h _)
  · exact unwindWith_le h _ _ _

/-- What a step says about what the configuration comes to. -/
def Keeps (n : Nat) [Host H] (before : Nat → Outcome H Value) : Progress H → Prop
  | .running c => (c.outcomeWith (callAt n)).Le (before (n + 1))
  | .done v host => ∀ m, before m = .value v host
  | .failed e host => ∀ m, before m = .failed e host

/-- A step that makes no call. -/
theorem Keeps.of_eq [Host H] {n : Nat} {before : Nat → Outcome H Value} {c : Config H}
    (h : ∀ call : CallWith H, ∀ m, call = callAt m → c.outcomeWith call = before m) :
    Keeps n before (.running c) := by
  rw [Keeps, ← h (callAt (n + 1)) (n + 1) rfl]
  exact outcomeWith_le (callAt_le n) c

theorem keeps_evalStep [Host H] (n : Nat) (e : Expr) (env : Env) (stack : Stack) (host : H) :
    Keeps n (fun m => (evalWith (callAt m) e env host).bind (unwindWith (callAt m) stack.frames))
      (evalStep e env stack host) := by
  cases e with
  | var x =>
      cases hx : env.lookup x with
      | none => simp [evalStep, hx, Keeps, evalWith]
      | some v =>
          simp only [evalStep, hx]
          exact .of_eq fun call m h => by simp [outcomeWith, evalWith, hx, h]
  | int | bool | unit | fn | letRec =>
      exact .of_eq fun call m h => by simp [outcomeWith, evalWith, h]
  | letIn | app | ite | prim =>
      exact .of_eq fun call m h => by
        simp [outcomeWith, evalWith, unwindWith, resumeWith, Outcome.bind_assoc, h]
  | tuple es =>
      cases es with
      | nil =>
          exact .of_eq fun call m h => by
            simp [outcomeWith, evalWith, evalAllWith, h]
      | cons e es =>
          exact .of_eq fun call m h => by
            simp [outcomeWith, evalWith, evalAllWith, unwindWith, resumeWith, Outcome.bind_assoc, h]

theorem keeps_resume [Host H] (n : Nat) (frame : Frame) (v : Value) (stack : Stack) (host : H) :
    Keeps n
      (fun m => (resumeWith (callAt m) frame v host).bind (unwindWith (callAt m) stack.frames))
      (resume frame v stack host) := by
  cases frame with
  | letBody x body env => exact .of_eq fun call m h => by simp [outcomeWith, resumeWith, h]
  | appArg arg env =>
      exact .of_eq fun call m h => by
        simp [outcomeWith, resumeWith, unwindWith, Outcome.bind_assoc, h]
  | appCall callee =>
      cases callee with
      | closure x body env self =>
          -- The one step that spends a call.
          refine Outcome.Le.bind ?_ (unwindWith_le (callAt_le n) _)
          exact .refl _
      | builtin b =>
          cases hb : b.call v host with
          | error e => simp [resume, hb, Keeps, resumeWith, callAt]
          | ok r =>
              simp only [resume, hb]
              exact .of_eq fun call m h => by
                simp [outcomeWith, resumeWith, callAt, hb, h]
      | int | bool | unit | tuple => simp [resume, Keeps, resumeWith, callAt]
  | branch t e env =>
      cases v with
      | bool b =>
          cases b <;> exact .of_eq fun call m h => by simp [outcomeWith, resumeWith, branchWith, h]
      | int | unit | closure | tuple | builtin =>
          simp [resume, Keeps, resumeWith, branchWith]
  | primRight op r env =>
      exact .of_eq fun call m h => by
        simp [outcomeWith, resumeWith, unwindWith, Outcome.bind_assoc, h]
  | primApply op l =>
      cases hop : op.apply l v with
      | error e => simp [resume, hop, Keeps, resumeWith, Outcome.ofExcept]
      | ok r =>
          simp only [resume, hop]
          exact .of_eq fun call m h => by
            simp [outcomeWith, resumeWith, hop, Outcome.ofExcept, h]
  | tupleRest rest done env =>
      cases rest with
      | nil =>
          exact .of_eq fun call m h => by
            simp [outcomeWith, resumeWith, evalAllWith, h]
      | cons e es =>
          exact .of_eq fun call m h => by
            simp [outcomeWith, resumeWith, evalAllWith, unwindWith, Outcome.bind_assoc, h]

theorem keeps_step [Host H] (n : Nat) (c : Config H) :
    Keeps n (fun m => c.outcomeWith (callAt m)) c.step := by
  obtain ⟨control, stack, host⟩ := c
  cases control with
  | eval e env => exact keeps_evalStep n e env stack host
  | give v =>
      simp only [step, outcomeWith]
      cases hpop : stack.pop? with
      | none =>
          rw [Stack.pop?_eq_none hpop]
          exact fun m => rfl
      | some r =>
          obtain ⟨f, rest⟩ := r
          rw [Stack.pop?_eq_some hpop]
          exact keeps_resume n f v rest host

/-- The answers of a run, and its errors other than an exhausted stack, are those of the natural
semantics. -/
theorem outcome_of_run [Host H] (limit fuel : Nat) (c : Config H) :
    match run limit fuel c with
    | .running _ => True
    | .done v host => ∃ n, c.outcomeWith (callAt n) = .value v host
    | .failed e host =>
        e = .stackExhausted limit ∨ ∃ n, c.outcomeWith (callAt n) = .failed e host := by
  induction fuel generalizing c with
  | zero => trivial
  | succ fuel ih =>
      have hstep (n : Nat) := keeps_step n c
      simp only [run, limitedStep]
      cases hc : c.step with
      | done v host =>
          rw [hc] at hstep
          exact ⟨0, hstep 0 0⟩
      | failed e host =>
          rw [hc] at hstep
          exact .inr ⟨0, hstep 0 0⟩
      | running c' =>
          rw [hc] at hstep
          by_cases hlimit : limit < c'.stack.height
          · simp [hlimit]
          · simp only [hlimit, if_false]
            have hrest := ih c'
            cases hr : run limit fuel c' with
            | running _ => trivial
            | done v host =>
                rw [hr] at hrest
                obtain ⟨n, hn⟩ := hrest
                exact ⟨n + 1, (hn ▸ hstep n : Outcome.Le _ _).value_eq⟩
            | failed e host =>
                rw [hr] at hrest
                refine hrest.imp id fun ⟨n, hn⟩ => ?_
                exact ⟨n + 1, (hn ▸ hstep n : Outcome.Le _ _).failed_eq⟩

theorem outcomeWith_start (call : CallWith H) (e : Expr) (env : Env) (host : H) :
    (start e env host).outcomeWith call = evalWith call e env host := by
  change (evalWith call e env host).bind (unwindWith call []) = _
  cases evalWith call e env host <;> rfl

/-- Some number of steps leads from one configuration to the other. -/
def Reaches [Host H] (limit : Nat) (c c' : Config H) : Prop :=
  ∃ k, ∀ fuel, run limit (k + fuel) c = run limit fuel c'

theorem Reaches.trans [Host H] {limit : Nat} {a b c : Config H} (h₁ : Reaches limit a b)
    (h₂ : Reaches limit b c) : Reaches limit a c := by
  obtain ⟨k₁, h₁⟩ := h₁
  obtain ⟨k₂, h₂⟩ := h₂
  exact ⟨k₁ + k₂, fun fuel => by rw [Nat.add_assoc, h₁, h₂]⟩

/-- On every stack that leaves room below the limit for a fixed number of frames. -/
def Leads [Host H] (before after : Stack → Config H) : Prop :=
  ∃ room, ∀ limit stack, stack.height + room ≤ limit → Reaches limit (before stack) (after stack)

theorem Leads.trans [Host H] {a b c : Stack → Config H} (h₁ : Leads a b) (h₂ : Leads b c) :
    Leads a c := by
  obtain ⟨d₁, h₁⟩ := h₁
  obtain ⟨d₂, h₂⟩ := h₂
  refine ⟨d₁ + d₂, fun limit stack hroom => ?_⟩
  exact (h₁ limit stack (by omega)).trans (h₂ limit stack (by omega))

theorem Leads.pushed [Host H] {a b : Stack → Config H} (h : Leads a b) (f : Frame) :
    Leads (fun stack => a (stack.push f)) (fun stack => b (stack.push f)) := by
  obtain ⟨d, h⟩ := h
  refine ⟨d + 1, fun limit stack hroom => h limit (stack.push f) ?_⟩
  rw [Stack.height_push]
  omega

theorem Leads.step [Host H] {a b : Stack → Config H}
    (hstep : ∀ stack, (a stack).step = .running (b stack))
    (hheight : ∀ stack, (b stack).stack.height ≤ stack.height + 1) : Leads a b := by
  refine ⟨1, fun limit stack hroom => ⟨1, fun fuel => ?_⟩⟩
  have := hheight stack
  rw [Nat.add_comm, run, limitedStep, hstep]
  simp only [Nat.not_lt.2 (Nat.le_trans this hroom), if_false]

/-- The error occurs on every stack that leaves room below the limit for a fixed number of
frames. -/
def Fails [Host H] (before : Stack → Config H) (e : RuntimeError) (host : H) : Prop :=
  ∃ room, ∀ limit stack, stack.height + room ≤ limit →
    ∃ fuel, run limit fuel (before stack) = .failed e host

theorem Fails.step [Host H] {a : Stack → Config H} {e : RuntimeError} {host : H}
    (hstep : ∀ stack, (a stack).step = .failed e host) : Fails a e host := by
  refine ⟨0, fun limit stack _ => ⟨1, ?_⟩⟩
  rw [run, limitedStep, hstep]

theorem Fails.pushed [Host H] {a : Stack → Config H} {e : RuntimeError} {host : H}
    (h : Fails a e host) (f : Frame) : Fails (fun stack => a (stack.push f)) e host := by
  obtain ⟨d, h⟩ := h
  refine ⟨d + 1, fun limit stack hroom => h limit (stack.push f) ?_⟩
  rw [Stack.height_push]
  omega

theorem Leads.fails [Host H] {a b : Stack → Config H} {e : RuntimeError} {host : H}
    (hleads : Leads a b) (hfails : Fails b e host) : Fails a e host := by
  obtain ⟨d₁, hleads⟩ := hleads
  obtain ⟨d₂, hfails⟩ := hfails
  refine ⟨d₁ + d₂, fun limit stack hroom => ?_⟩
  obtain ⟨k, hk⟩ := hleads limit stack (by omega)
  obtain ⟨fuel, hfuel⟩ := hfails limit stack (by omega)
  exact ⟨k + fuel, (hk fuel).trans hfuel⟩

/-- The evaluator finds the answer, if there is one. -/
def Comes [Host H] (before : Stack → Config H) : Outcome H Value → Prop
  | .value v host => Leads before fun stack => ⟨.give v, stack, host⟩
  | .failed e host => Fails before e host
  | .unfinished _ => True

theorem Leads.comes [Host H] {a b : Stack → Config H} {o : Outcome H Value} (hleads : Leads a b)
    (hb : Comes b o) : Comes a o := by
  cases o with
  | value v host => exact hleads.trans hb
  | failed e host => exact hleads.fails hb
  | unfinished host => trivial

/-- A value is left to the frame that waits for it, and an error is left alone. -/
theorem Comes.bind [Host H] {a : Stack → Config H} {o : Outcome H Value}
    {f : Value → H → Outcome H Value} (ha : Comes a o) (frame : Frame)
    (hf : ∀ v host, Comes (fun stack => ⟨.give v, stack.push frame, host⟩) (f v host)) :
    Comes (fun stack => a (stack.push frame)) (o.bind f) := by
  cases o with
  | value v host => exact (Leads.pushed ha frame).comes (hf v host)
  | failed e host => exact Fails.pushed ha frame
  | unfinished host => trivial

/-- The evaluator finds the answer of every call. -/
def ComesToCalls [Host H] (call : CallWith H) : Prop :=
  ∀ callee arg host,
    Comes (fun stack => ⟨.give arg, stack.push (.appCall callee), host⟩) (call callee arg host)

theorem comes_branch [Host H] {cond : Value} {t e : Expr} {env : Env} {host : H}
    {th el : Outcome H Value} (ht : Comes (fun stack => ⟨.eval t env, stack, host⟩) th)
    (he : Comes (fun stack => ⟨.eval e env, stack, host⟩) el) :
    Comes (fun stack => ⟨.give cond, stack.push (.branch t e env), host⟩)
      (branchWith cond host th el) := by
  cases cond with
  | bool b =>
      cases b with
      | true => exact (Leads.step (fun _ => rfl) fun _ => Nat.le_succ _).comes ht
      | false => exact (Leads.step (fun _ => rfl) fun _ => Nat.le_succ _).comes he
  | int | unit | closure | tuple | builtin => exact Fails.step fun _ => rfl

theorem comes_primApply [Host H] (op : Op) (left right : Value) (host : H) :
    Comes (fun stack => ⟨.give right, stack.push (.primApply op left), host⟩)
      (.ofExcept host (op.apply left right)) := by
  cases hop : op.apply left right with
  | error err =>
      exact Fails.step fun stack => by simp [Config.step, Stack.pop?_push, resume, hop]
  | ok w =>
      exact Leads.step (fun stack => by simp [Config.step, Stack.pop?_push, resume, hop])
        fun _ => Nat.le_succ _

mutual

theorem comes_evalWith [Host H] {call : CallWith H} (hcall : ComesToCalls call) (e : Expr)
    (env : Env) (host : H) :
    Comes (fun stack => ⟨.eval e env, stack, host⟩) (evalWith call e env host) := by
  cases e with
  | int | bool | unit | fn => exact Leads.step (fun _ => rfl) fun _ => Nat.le_succ _
  | var x =>
      rw [evalWith]
      split
      · rename_i hx
        exact Fails.step fun stack => by simp [Config.step, evalStep, hx]
      · rename_i v hx
        exact Leads.step (fun stack => by simp [Config.step, evalStep, hx]) fun _ => Nat.le_succ _
  | letIn x value body =>
      rw [evalWith]
      refine (Leads.step (fun _ => rfl) fun _ => Nat.le_refl _).comes
        ((comes_evalWith hcall value env host).bind (.letBody x body env) fun v host₁ => ?_)
      exact (Leads.step (fun _ => rfl) fun _ => Nat.le_succ _).comes
        (comes_evalWith hcall body _ host₁)
  | letRec f x body rest =>
      rw [evalWith]
      exact (Leads.step (fun _ => rfl) fun _ => Nat.le_succ _).comes
        (comes_evalWith hcall rest _ host)
  | app f a =>
      rw [evalWith]
      refine (Leads.step (fun _ => rfl) fun _ => Nat.le_refl _).comes
        ((comes_evalWith hcall f env host).bind (.appArg a env) fun callee host₁ => ?_)
      refine (Leads.step (fun _ => rfl) fun _ => Nat.le_refl _).comes
        ((comes_evalWith hcall a env host₁).bind (.appCall callee) fun arg host₂ => ?_)
      exact hcall callee arg host₂
  | ite c t e =>
      rw [evalWith]
      refine (Leads.step (fun _ => rfl) fun _ => Nat.le_refl _).comes
        ((comes_evalWith hcall c env host).bind (.branch t e env) fun cond host₁ => ?_)
      exact comes_branch (comes_evalWith hcall t env host₁) (comes_evalWith hcall e env host₁)
  | prim op l r =>
      rw [evalWith]
      refine (Leads.step (fun _ => rfl) fun _ => Nat.le_refl _).comes
        ((comes_evalWith hcall l env host).bind (.primRight op r env) fun left host₁ => ?_)
      refine (Leads.step (fun _ => rfl) fun _ => Nat.le_refl _).comes
        ((comes_evalWith hcall r env host₁).bind (.primApply op left) fun right host₂ => ?_)
      exact comes_primApply op left right host₂
  | tuple es =>
      cases es with
      | nil => exact Leads.step (fun _ => rfl) fun _ => Nat.le_succ _
      | cons e es =>
          rw [evalWith, evalAllWith, Outcome.bind_assoc]
          simp only [Outcome.bind_assoc, Outcome.bind_value]
          refine (Leads.step (fun _ => rfl) fun _ => Nat.le_refl _).comes
            ((comes_evalWith hcall e env host).bind (.tupleRest es [] env) fun v host₁ => ?_)
          exact comes_evalAllWith hcall es env host₁ [] v

/-- The elements after the first. -/
theorem comes_evalAllWith [Host H] {call : CallWith H} (hcall : ComesToCalls call)
    (es : List Expr) (env : Env) (host : H) (done : List Value) (v : Value) :
    Comes (fun stack => ⟨.give v, stack.push (.tupleRest es done env), host⟩)
      ((evalAllWith call es env host).bind fun vs host =>
        .value (.tuple ((v :: done).reverse ++ vs)) host) := by
  cases es with
  | nil =>
      rw [evalAllWith, Outcome.bind_value, List.append_nil]
      exact Leads.step (fun _ => rfl) fun _ => Nat.le_succ _
  | cons e es =>
      rw [evalAllWith, Outcome.bind_assoc]
      simp only [Outcome.bind_assoc, Outcome.bind_value]
      refine (Leads.step (fun _ => rfl) fun _ => Nat.le_refl _).comes
        ((comes_evalWith hcall e env host).bind (.tupleRest es (v :: done) env) fun w host₁ => ?_)
      have hrest := comes_evalAllWith hcall es env host₁ (v :: done) w
      simpa using hrest

end

theorem comes_builtin [Host H] (n : Nat) (b : Builtin) (arg : Value) (host : H) :
    Comes (fun stack => ⟨.give arg, stack.push (.appCall (.builtin b)), host⟩)
      (callAt n (.builtin b) arg host) := by
  rw [callAt]
  split
  · rename_i hb
    exact Fails.step fun stack => by simp [Config.step, Stack.pop?_push, resume, hb]
  · rename_i hb
    exact Leads.step (fun stack => by simp [Config.step, Stack.pop?_push, resume, hb])
      fun _ => Nat.le_succ _

theorem comesToCalls_callAt [Host H] (n : Nat) : ComesToCalls (callAt n : CallWith H) := by
  induction n with
  | zero =>
      intro callee arg host
      cases callee with
      | builtin b => exact comes_builtin 0 b arg host
      | closure => trivial
      | int | bool | unit | tuple => exact Fails.step fun _ => rfl
  | succ n ih =>
      intro callee arg host
      cases callee with
      | builtin b => exact comes_builtin (n + 1) b arg host
      | closure x body env self =>
          exact (Leads.step (fun _ => rfl) fun _ => Nat.le_succ _).comes
            (comes_evalWith ih body _ host)
      | int | bool | unit | tuple => exact Fails.step fun _ => rfl

theorem comes_evalAt [Host H] (n : Nat) (e : Expr) (env : Env) (host : H) :
    Comes (fun stack => ⟨.eval e env, stack, host⟩) (evalAt n e env host) :=
  comes_evalWith (comesToCalls_callAt n) e env host

/-- A value of the natural semantics is computed under every large enough limit. -/
theorem run_of_evalAt [Host H] {n : Nat} {e : Expr} {env : Env} {host host' : H} {v : Value}
    (h : evalAt n e env host = .value v host') :
    ∃ least, ∀ limit, least ≤ limit →
      ∃ fuel, run limit fuel (start e env host) = .done v host' := by
  obtain ⟨room, hleads⟩ := (h ▸ comes_evalAt n e env host : Comes _ (.value v host'))
  refine ⟨room, fun limit hlimit => ?_⟩
  obtain ⟨k, hk⟩ := hleads limit .empty (by simpa [Stack.empty] using hlimit)
  exact ⟨k + 1, hk 1⟩

/-- An error of the natural semantics occurs under every large enough limit. -/
theorem run_of_evalAt_failed [Host H] {n : Nat} {e : Expr} {env : Env} {host host' : H}
    {err : RuntimeError} (h : evalAt n e env host = .failed err host') :
    ∃ least, ∀ limit, least ≤ limit →
      ∃ fuel, run limit fuel (start e env host) = .failed err host' := by
  obtain ⟨room, hfails⟩ := (h ▸ comes_evalAt n e env host : Comes _ (.failed err host'))
  exact ⟨room, fun limit hlimit => hfails limit .empty (by simpa [Stack.empty] using hlimit)⟩

end Config

end Eval

end MlWasm
