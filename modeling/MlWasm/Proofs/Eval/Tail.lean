import MlWasm.Proofs.Eval.Limit

/-!
Tail positions. What is pending when the evaluation of an expression begins stays where it is, below
all that this evaluation adds, until its value is returned; so evaluation on top of pending frames
is evaluation by itself with these frames put below. An expression in tail position begins when
nothing has been added, or all of it is gone. So a chain of tail calls needs room for what its calls
evaluate on the way to the next one, which is no more for a long chain than for a short one.
-/

namespace MlWasm

namespace Eval

variable {H : Type}

/-! ### Frames below -/

theorem Stack.eq_of_frames {s s' : Stack} (h : s.frames = s'.frames) : s = s' := by
  obtain ⟨frames, height, hheight⟩ := s
  obtain ⟨frames', height', hheight'⟩ := s'
  cases h
  cases hheight.trans hheight'.symm
  rfl

/-- The stack with the frames of another one below. -/
def Stack.on (s below : Stack) : Stack :=
  ⟨s.frames ++ below.frames, below.height + s.height, by
    rw [List.length_append, ← s.height_eq, ← below.height_eq, Nat.add_comm]⟩

@[simp] theorem Stack.height_empty : Stack.empty.height = 0 := rfl

theorem Stack.empty_on (below : Stack) : Stack.empty.on below = below := eq_of_frames rfl

theorem Stack.push_on (s : Stack) (f : Frame) (below : Stack) :
    (s.push f).on below = (s.on below).push f := rfl

theorem Stack.pop?_on {s s' : Stack} {f : Frame} (h : s.pop? = some (f, s')) (below : Stack) :
    (s.on below).pop? = some (f, s'.on below) := by
  have hs : s = s'.push f := eq_of_frames (Stack.pop?_eq_some h)
  rw [hs, push_on, Stack.pop?_push]

def Config.on (c : Config H) (below : Stack) : Config H := { c with stack := c.stack.on below }

def Progress.on (below : Stack) : Progress H → Progress H
  | running c => running (c.on below)
  | done v host => done v host
  | failed err host => failed err host

namespace Config

theorem evalStep_on (e : Expr) (env : Env) (stack : Stack) (host : H) (below : Stack) :
    evalStep e env (stack.on below) host = (evalStep e env stack host).on below := by
  cases e with
  | var x =>
      rw [evalStep, evalStep]
      split <;> rfl
  | tuple es => cases es <;> rfl
  | int | bool | unit | letIn | letRec | fn | app | ite | prim => rfl

variable [Host H] {c d : Config H} {k n p q : Nat}

theorem resume_on (frame : Frame) (v : Value) (stack : Stack) (host : H) (below : Stack) :
    resume frame v (stack.on below) host = (resume frame v stack host).on below := by
  cases frame with
  | appCall callee =>
      cases callee with
      | builtin b =>
          rw [resume, resume]
          split <;> rfl
      | closure | int | bool | unit | tuple => rfl
  | branch t e env =>
      cases v with
      | bool b => cases b <;> rfl
      | int | unit | closure | tuple | builtin => rfl
  | primApply op l =>
      rw [resume, resume]
      split <;> rfl
  | tupleRest rest done env => cases rest <;> rfl
  | letBody | appArg | primRight => rfl

/-- Without frames, a value is the result. Otherwise a step does not look at the frames below. -/
theorem step_on (c : Config H) (below : Stack) :
    (∃ v host, c = ⟨.give v, .empty, host⟩) ∨ (c.on below).step = c.step.on below := by
  obtain ⟨control, stack, host⟩ := c
  cases control with
  | eval e env => exact .inr (evalStep_on e env stack host below)
  | give v =>
      cases hpop : stack.pop? with
      | none =>
          have hempty : stack = .empty := Stack.eq_of_frames (Stack.pop?_eq_none hpop)
          exact .inl ⟨v, host, by rw [hempty]⟩
      | some r =>
          refine .inr ?_
          simp only [step, on, hpop, Stack.pop?_on hpop]
          exact resume_on r.1 v r.2 host below

theorem step_on_of_running (h : c.step = .running d) (below : Stack) :
    (c.on below).step = .running (d.on below) := by
  rcases c.step_on below with ⟨v, host, rfl⟩ | hstep
  · cases h
  · rw [hstep, h]
    rfl

/-- A step on top of other frames returns a value to them, or it is a step without them. -/
theorem exists_step_of_on {below : Stack} (h : (c.on below).step = .running d) :
    (∃ v host, c = ⟨.give v, .empty, host⟩) ∨ ∃ c', c.step = .running c' ∧ d = c'.on below := by
  rcases c.step_on below with hgive | hon
  · exact .inl hgive
  · rw [h] at hon
    cases hstep : c.step with
    | running c' =>
        rw [hstep] at hon
        exact .inr ⟨c', rfl, Progress.running.inj hon⟩
    | done | failed =>
        rw [hstep] at hon
        cases hon

omit [Host H] in
/-- Nothing but the frames below is pending, so without them nothing is. -/
theorem eq_of_on {below : Stack} {control : Control} {host : H}
    (h : c.on below = ⟨control, below, host⟩) : c = ⟨control, .empty, host⟩ := by
  obtain ⟨control', stack, host'⟩ := c
  have hstack : stack.on below = below := congrArg Config.stack h
  have hframes : stack.frames ++ below.frames = below.frames := congrArg Stack.frames hstack
  have hempty : stack = .empty := Stack.eq_of_frames (List.append_left_eq_self.1 hframes)
  have hcontrol : control' = control := congrArg Config.control h
  have hhost : host' = host := congrArg Config.host h
  rw [hempty, hcontrol, hhost]

/-! ### Paths and their peaks -/

/-- The number of steps leads from one configuration to the other. The second number is the largest
number of frames that are pending on the way, at both ends included. -/
inductive Path : Config H → Nat → Nat → Config H → Prop where
  | refl (c : Config H) : Path c 0 c.stack.height c
  | step {c c' d : Config H} {n p : Nat} : c.step = .running c' → Path c' n p d →
      Path c (n + 1) (max c.stack.height p) d

namespace Path

theorem height_le (h : Path c n p d) : c.stack.height ≤ p := by
  cases h with
  | refl => exact Nat.le_refl _
  | step => exact Nat.le_max_left ..

theorem cast (h : Path c n p d) (hp : p = q) : Path c n q d := hp ▸ h

theorem trans {e : Config H} (h₁ : Path c k p d) (h₂ : Path d n q e) :
    Path c (k + n) (max p q) e := by
  induction h₁ with
  | refl c => rwa [Nat.zero_add, Nat.max_eq_right h₂.height_le]
  | step hstep _ ih =>
      rw [Nat.succ_add, Nat.max_assoc]
      exact .step hstep (ih h₂)

theorem lift (h : Path c n p d) (below : Stack) :
    Path (c.on below) n (below.height + p) (d.on below) := by
  induction h with
  | refl c => exact .refl (c.on below)
  | step hstep _ ih =>
      rw [← Nat.add_max_add_left]
      exact .step (step_on_of_running hstep below) ih

/-- Nothing follows a value that no frame waits for. -/
theorem of_give {v : Value} {host : H} (h : Path ⟨.give v, .empty, host⟩ n p d) :
    d = ⟨.give v, .empty, host⟩ := by
  cases h with
  | refl => rfl
  | step hstep => cases hstep

/-- Evaluation on top of other frames has not returned a value to them while it goes on without
them. -/
theorem not_give {below : Stack} {v : Value} {host : H} (h : Path c n p d) (hk : k < n) :
    ¬ Path (c.on below) k q ⟨.give v, below, host⟩ := by
  induction h generalizing k q with
  | refl c => omega
  | @step c c' d n p hstep _ ih =>
      intro hgive
      generalize hend : (⟨.give v, below, host⟩ : Config H) = e at hgive
      cases hgive with
      | refl =>
          rw [eq_of_on hend.symm] at hstep
          cases hstep
      | step hstep' hrest =>
          subst hend
          cases (step_on_of_running hstep below).symm.trans hstep'
          exact ih (by omega) hrest

/-- A path that keeps within the limit is what a run takes. -/
theorem run_iff {limit : Nat} (hc : c.stack.height ≤ limit) :
    c.run limit n = .running d ↔ ∃ p, p ≤ limit ∧ Path c n p d := by
  constructor
  · intro h
    induction n generalizing c with
    | zero =>
        cases h
        exact ⟨_, hc, .refl _⟩
    | succ n ih =>
        cases hstep : c.step with
        | running c' =>
            by_cases hroom : c'.stack.height ≤ limit
            · rw [run_succ_within hstep hroom] at h
              obtain ⟨p, hp, hpath⟩ := ih hroom h
              exact ⟨_, Nat.max_le.2 ⟨hc, hp⟩, .step hstep hpath⟩
            · rw [run_succ_exceeded hstep (by omega)] at h
              cases h
        | done v host =>
            rw [run_succ_end (by simp [hstep]), hstep] at h
            cases h
        | failed err host =>
            rw [run_succ_end (by simp [hstep]), hstep] at h
            cases h
  · rintro ⟨p, hp, hpath⟩
    induction hpath with
    | refl c => rfl
    | step hstep hrest ih =>
        obtain ⟨-, hp⟩ := Nat.max_le.1 hp
        have hroom := Nat.le_trans hrest.height_le hp
        rw [run_succ_within hstep hroom]
        exact ih hroom hp

/-- Until it returns its value to the frames below, evaluation is as it is without them. -/
theorem exists_on {below : Stack} (h : Path (c.on below) n p d)
    (hpending : ∀ k q v host, k < n → ¬ Path (c.on below) k q ⟨.give v, below, host⟩) :
    ∃ d' q, d = d'.on below ∧ p = below.height + q ∧ Path c n q d' := by
  induction n generalizing c p with
  | zero =>
      cases h
      exact ⟨c, _, rfl, rfl, .refl c⟩
  | succ n ih =>
      cases h with
      | @step _ c₁ _ _ p hstep hrest =>
          rcases exists_step_of_on hstep with ⟨v, host, rfl⟩ | ⟨c₁, hstep', rfl⟩
          · exact absurd (.refl _) (hpending 0 _ v host (Nat.succ_pos n))
          · obtain ⟨d', q, hd, hp, hpath⟩ := ih hrest fun k q v host hk hreturns =>
              hpending (k + 1) _ v host (by omega) (.step hstep hreturns)
            refine ⟨d', _, hd, ?_, .step hstep' hpath⟩
            rw [hp, ← Nat.add_max_add_left]
            rfl

/-- Evaluation that comes to be without the frames below has returned a value to them. -/
theorem exists_give {below : Stack} (h : Path (c.on below) n p d)
    (hgone : ¬ below.frames <:+ d.stack.frames) :
    ∃ m k q r v host, Path c m q ⟨.give v, .empty, host⟩ ∧
      Path ⟨.give v, below, host⟩ k r d ∧ n = m + k ∧ p = max (below.height + q) r := by
  induction n generalizing c p with
  | zero =>
      cases h
      exact absurd (List.suffix_append ..) hgone
  | succ n ih =>
      cases h with
      | @step _ c₁ _ _ p hstep hrest =>
          rcases exists_step_of_on hstep with ⟨v, host, rfl⟩ | ⟨c₁, hstep', rfl⟩
          · have hgive : Path ⟨.give v, below, host⟩ (n + 1) (max below.height p) d := by
              rw [Config.on, Stack.empty_on] at hstep
              exact .step hstep hrest
            exact ⟨0, n + 1, 0, _, v, host, .refl _, hgive, by omega,
              (Nat.max_eq_right hgive.height_le).symm⟩
          · obtain ⟨m, k, q, r, v, host, hto, hfrom, hn, hp⟩ := ih hrest
            refine ⟨m + 1, k, _, r, v, host, .step hstep' hto, hfrom, by omega, ?_⟩
            rw [hp, ← Nat.max_assoc, ← Nat.add_max_add_left]
            rfl

end Path

end Config

/-! ### Tail positions -/

/-- An expression about to be evaluated. -/
structure Job (H : Type) where
  expr : Expr
  env : Env
  host : H

namespace Job

/-- The expression is evaluated while the frames are pending. -/
def on (t : Job H) (pending : Stack) : Config H := ⟨.eval t.expr t.env, pending, t.host⟩

theorem empty_on (t : Job H) (pending : Stack) : (t.on .empty).on pending = t.on pending := by
  rw [Config.on, on, Stack.empty_on]
  rfl

variable [Host H]

/-- Evaluated by itself, the expression has the value, and at most `peak` frames are pending on the
way to it. -/
def Yields (t : Job H) (peak : Nat) (v : Value) (host : H) : Prop :=
  ∃ n, Config.Path (t.on .empty) n peak ⟨.give v, .empty, host⟩

/-- What is in tail position of the first expression when it is evaluated, and the number of frames
that are pending at most until that begins: those of the parts that come before, evaluated by
themselves, and the frame that waits for them. -/
inductive Tail : Job H → Nat → Job H → Prop where
  | letBody {x : String} {value body : Expr} {env : Env} {host host' : H} {peak : Nat} {v : Value} :
      Yields ⟨value, env, host⟩ peak v host' →
      Tail ⟨.letIn x value body, env, host⟩ (peak + 1) ⟨body, env.extend x v, host'⟩
  | letRec {f x : String} {body rest : Expr} {env : Env} {host : H} :
      Tail ⟨.letRec f x body rest, env, host⟩ 0
        ⟨rest, env.extend f (.closure x body env (some f)), host⟩
  | branch {c t e : Expr} {env : Env} {host host' : H} {peak : Nat} {b : Bool} :
      Yields ⟨c, env, host⟩ peak (.bool b) host' →
      Tail ⟨.ite c t e, env, host⟩ (peak + 1) ⟨if b then t else e, env, host'⟩
  | call {f a : Expr} {env env' : Env} {host host₁ host₂ : H} {peak₁ peak₂ : Nat} {x : String}
      {body : Expr} {self : Option String} {arg : Value} :
      Yields ⟨f, env, host⟩ peak₁ (.closure x body env' self) host₁ →
      Yields ⟨a, env, host₁⟩ peak₂ arg host₂ →
      Tail ⟨.app f a, env, host⟩ (max peak₁ peak₂ + 1)
        ⟨body, Config.enter x body env' self arg, host₂⟩

/-- The second job is the first one, or it is in tail position of it, at any depth. -/
inductive Tails : Job H → Nat → Job H → Prop where
  | refl (t : Job H) : Tails t 0 t
  | head {t t' t'' : Job H} {peak peak' : Nat} :
      Tail t peak t' → Tails t' peak' t'' → Tails t (max peak peak') t''

/-- From a job to the body of the next function called in tail position, and the number of frames
that are pending at most on the way. -/
inductive TailCall : Job H → Nat → Job H → Prop where
  | call {f a : Expr} {env : Env} {host : H} {t : Job H} {peak : Nat} :
      Tail ⟨.app f a, env, host⟩ peak t → TailCall ⟨.app f a, env, host⟩ peak t
  | inside {t t' t'' : Job H} {peak peak' : Nat} : (∀ f a, t.expr ≠ .app f a) →
      Tail t peak t' → TailCall t' peak' t'' → TailCall t (max peak peak') t''

/-- Tail calls one after another, with the number for each of them. -/
inductive Chain : Job H → List Nat → Job H → Prop where
  | nil (t : Job H) : Chain t [] t
  | cons {t t' t'' : Job H} {peak : Nat} {peaks : List Nat} :
      TailCall t peak t' → Chain t' peaks t'' → Chain t (peak :: peaks) t''

variable {t t' : Job H} {peak : Nat}

open Config (Path)

/-- A part that is evaluated while only the frame is pending. -/
theorem Yields.pushed {v : Value} {host : H} (h : t.Yields peak v host) (frame : Frame) :
    ∃ n, Path (t.on (Stack.empty.push frame)) n (peak + 1)
      ⟨.give v, Stack.empty.push frame, host⟩ := by
  obtain ⟨n, hpath⟩ := h
  have hpath := hpath.lift (Stack.empty.push frame)
  rw [empty_on, Config.on, Stack.empty_on] at hpath
  exact ⟨n, hpath.cast (Nat.add_comm 1 peak)⟩

theorem Tail.path (h : Tail t peak t') : ∃ n, Path (t.on .empty) n peak (t'.on .empty) := by
  cases h with
  | @letBody x value body env host host' peak v hvalue =>
      obtain ⟨n, hpath⟩ := hvalue.pushed (.letBody x body env)
      have hbody := hpath.trans (.step rfl (.refl (on ⟨body, env.extend x v, host'⟩ .empty)))
      exact ⟨_, .cast (.step rfl hbody) (by simp [on])⟩
  | letRec => exact ⟨1, .step rfl (.refl _)⟩
  | @branch c t e env host host' peak b hcond =>
      obtain ⟨n, hpath⟩ := hcond.pushed (.branch t e env)
      have hbranch := hpath.trans (.step (by cases b <;> rfl)
        (.refl (on ⟨if b then t else e, env, host'⟩ .empty)))
      exact ⟨_, .cast (.step rfl hbranch) (by simp [on])⟩
  | @call f a env env' host host₁ host₂ peak₁ peak₂ x body self arg hcallee harg =>
      obtain ⟨n, hpath⟩ := hcallee.pushed (.appArg a env)
      obtain ⟨n', hpath'⟩ := harg.pushed (.appCall (.closure x body env' self))
      have hbody := hpath'.trans
        (.step rfl (.refl (on ⟨body, Config.enter x body env' self arg, host₂⟩ .empty)))
      have hcall := hpath.trans (.step rfl hbody)
      exact ⟨_, .cast (.step rfl hcall) (by simp [on])⟩

theorem Tails.path (h : Tails t peak t') : ∃ n, Path (t.on .empty) n peak (t'.on .empty) := by
  induction h with
  | refl t => exact ⟨0, .refl _⟩
  | head htail _ ih =>
      obtain ⟨n, hpath⟩ := htail.path
      obtain ⟨n', hpath'⟩ := ih
      exact ⟨n + n', hpath.trans hpath'⟩

theorem TailCall.tails (h : TailCall t peak t') : Tails t peak t' := by
  induction h with
  | call htail =>
      have htails := Tails.head htail (.refl _)
      rwa [Nat.max_zero] at htails
  | inside _ htail _ ih => exact .head htail ih

theorem Chain.path {peaks : List Nat} (h : Chain t peaks t') :
    ∃ n, Path (t.on .empty) n (peaks.foldr max 0) (t'.on .empty) := by
  induction h with
  | nil t => exact ⟨0, .refl _⟩
  | cons hcall _ ih =>
      obtain ⟨n, hpath⟩ := hcall.tails.path
      obtain ⟨n', hpath'⟩ := ih
      exact ⟨n + n', hpath.trans hpath'⟩

/-! ### What begins with nothing added -/

/-- What begins without any frame after a part was evaluated begins after the frame that waits for
the part has gone on with its value. -/
theorem exists_resumed {frame : Frame} {n p : Nat}
    (h : Path (t.on (Stack.empty.push frame)) n p (t'.on .empty)) :
    ∃ peak v host d k q, t.Yields peak v host ∧
      Config.resume frame v .empty host = .running d ∧ Path d k q (t'.on .empty) ∧ k < n ∧
      p = max (peak + 1) q := by
  have hbelow : t.on (Stack.empty.push frame) = (t.on .empty).on (Stack.empty.push frame) :=
    (empty_on ..).symm
  rw [hbelow] at h
  obtain ⟨m, k, peak, r, v, host, hto, hfrom, hn, hp⟩ :=
    h.exists_give (fun hsuffix => by simpa [on, Stack.empty] using hsuffix.length_le)
  generalize hd : t'.on .empty = d at hfrom
  cases hfrom with
  | refl => cases hd
  | @step _ d _ k q hstep hrest =>
      subst hd
      refine ⟨peak, v, host, d, k, q, ⟨m, hto⟩, hstep, hrest, by omega, ?_⟩
      rw [hp]
      simp only [Stack.height_push, Stack.height_empty]
      omega

/-- After an element of a tuple, nothing begins without a frame: another element has the frame that
waits for it, and after the last one the tuple is returned. -/
theorem not_path_element {es : List Expr} {done : List Value} {e : Expr} {env : Env} {host : H}
    {n p : Nat} : ¬ Path (on ⟨e, env, host⟩ (Stack.empty.push (.tupleRest es done env))) n p
      (t'.on .empty) := by
  induction es generalizing done e host n p with
  | nil =>
      intro h
      obtain ⟨_, v, host₁, d, _, _, _, hresume, hpath, _⟩ := exists_resumed h
      cases hresume
      cases hpath.of_give
  | cons e' es ih =>
      intro h
      obtain ⟨_, v, host₁, d, _, _, _, hresume, hpath, _⟩ := exists_resumed h
      cases hresume
      exact ih hpath

/-- After the right operand the result is returned, so nothing begins without a frame. -/
theorem not_path_operand {op : Op} {left : Value} {e : Expr} {env : Env} {host : H} {n p : Nat} :
    ¬ Path (on ⟨e, env, host⟩ (Stack.empty.push (.primApply op left))) n p (t'.on .empty) := by
  intro h
  obtain ⟨_, right, host₁, d, _, _, _, hresume, hpath, _⟩ := exists_resumed h
  rw [Config.resume] at hresume
  split at hresume
  · cases hresume
  · cases hresume
    cases hpath.of_give

/-- What begins later with nothing added begins with, or after, what is in tail position. -/
theorem exists_tail {n : Nat} (h : Path (t.on .empty) (n + 1) peak (t'.on .empty)) :
    ∃ t₁ added k p, Tail t added t₁ ∧ Path (t₁.on .empty) k p (t'.on .empty) ∧ k ≤ n ∧
      peak = max added p := by
  obtain ⟨e, env, host⟩ := t
  cases h with
  | @step _ d _ _ p hstep hrest =>
      have hpeak : max (on ⟨e, env, host⟩ .empty).stack.height p = p := Nat.zero_max p
      rw [hpeak]
      cases e with
      | int | bool | unit | fn =>
          cases hstep
          cases hrest.of_give
      | var x =>
          simp only [Config.step, on, Config.evalStep] at hstep
          split at hstep
          · cases hstep
          · cases hstep
            cases hrest.of_give
      | letRec f x body rest =>
          cases hstep
          exact ⟨_, 0, n, p, .letRec, hrest, Nat.le_refl n, (Nat.zero_max p).symm⟩
      | letIn x value body =>
          cases hstep
          obtain ⟨added, v, host₁, d, k, q, hyields, hresume, hpath, hk, rfl⟩ :=
            exists_resumed (t := ⟨value, env, host⟩) hrest
          cases hresume
          exact ⟨_, added + 1, k, q, .letBody hyields, hpath, Nat.le_of_lt hk, rfl⟩
      | ite c th el =>
          cases hstep
          obtain ⟨added, v, host₁, d, k, q, hyields, hresume, hpath, hk, rfl⟩ :=
            exists_resumed (t := ⟨c, env, host⟩) hrest
          cases v with
          | bool b =>
              refine ⟨_, added + 1, k, q, .branch hyields, ?_, Nat.le_of_lt hk, rfl⟩
              cases b <;> cases hresume <;> exact hpath
          | int | unit | closure | tuple | builtin => cases hresume
      | app f a =>
          cases hstep
          obtain ⟨added₁, callee, host₁, d, k₁, q₁, hcallee, hresume, hpath, hk₁, rfl⟩ :=
            exists_resumed (t := ⟨f, env, host⟩) hrest
          cases hresume
          obtain ⟨added₂, arg, host₂, d, k₂, q₂, harg, hresume, hpath, hk₂, rfl⟩ :=
            exists_resumed (t := ⟨a, env, host₁⟩) hpath
          cases callee with
          | closure x body env' self =>
              cases hresume
              refine ⟨_, _, k₂, q₂, .call hcallee harg, hpath, by omega, ?_⟩
              rw [← Nat.max_assoc, Nat.add_max_add_right]
          | builtin b =>
              rw [Config.resume] at hresume
              split at hresume
              · cases hresume
              · cases hresume
                cases hpath.of_give
          | int | bool | unit | tuple => cases hresume
      | prim op l r =>
          cases hstep
          obtain ⟨_, left, host₁, d, _, _, _, hresume, hpath, _⟩ :=
            exists_resumed (t := ⟨l, env, host⟩) hrest
          cases hresume
          exact absurd hpath not_path_operand
      | tuple es =>
          cases es with
          | nil =>
              cases hstep
              cases hrest.of_give
          | cons e es =>
              cases hstep
              exact absurd hrest not_path_element

/-- What begins when nothing has been added is in tail position. -/
theorem tails_of_path {n : Nat} (h : Path (t.on .empty) n peak (t'.on .empty)) :
    Tails t peak t' := by
  induction n using Nat.strongRecOn generalizing t peak with
  | ind n ih =>
      cases n with
      | zero =>
          obtain ⟨e, env, host⟩ := t
          obtain ⟨e', env', host'⟩ := t'
          cases h
          exact .refl _
      | succ n =>
          obtain ⟨t₁, added, k, p, htail, hpath, hk, rfl⟩ := exists_tail h
          exact .head htail (ih k (Nat.lt_succ_of_le hk) hpath)

/-- In fewer steps than the given number, evaluation does not return a value to the frames that were
pending when it began. -/
def BusyFor (t : Job H) (pending : Stack) (steps : Nat) : Prop :=
  ∀ k peak v host, k < steps → ¬ Path (t.on pending) k peak ⟨.give v, pending, host⟩

/-- The same steps are taken while other frames are pending. -/
theorem exists_path_on {n : Nat} (h : Path (t.on .empty) n peak (t'.on .empty)) (pending : Stack) :
    Path (t.on pending) n (pending.height + peak) (t'.on pending) ∧ t.BusyFor pending n := by
  have hpath := h.lift pending
  rw [empty_on, empty_on] at hpath
  refine ⟨hpath, fun k q v host hk => ?_⟩
  rw [← empty_on]
  exact h.not_give hk

end Job

open Job (Tail Tails Chain)
open Config (Path)

/-- The frames that are pending when an expression is evaluated stay below all others until its
value is returned to them. Each expression in tail position begins when just these frames are
pending, and of all that is evaluated before the value is returned only an expression in tail
position does. So with tail calls one after another, however many, there are never more frames added
than the largest number that one of the calls needs for the parts on the way to the next, and within
a limit that leaves room for as many all calls are made. -/
theorem tails_in_place {H : Type} [Host H] (t : Job H) (pending : Stack) :
    (∀ n peak c, Path (t.on pending) n peak c → t.BusyFor pending n →
      pending.frames <:+ c.stack.frames) ∧
    (∀ peak t', Tail t peak t' → ∃ n,
      Path (t.on pending) n (pending.height + peak) (t'.on pending) ∧ t.BusyFor pending n) ∧
    (∀ n peak t', Path (t.on pending) n peak (t'.on pending) → t.BusyFor pending n →
      ∃ added, Tails t added t' ∧ peak = pending.height + added) ∧
    ∀ peaks t', Chain t peaks t' → ∃ n,
      Path (t.on pending) n (pending.height + peaks.foldr max 0) (t'.on pending) ∧
        t.BusyFor pending n ∧ ∀ limit, pending.height + peaks.foldr max 0 ≤ limit →
          (t.on pending).run limit n = .running (t'.on pending) := by
  refine ⟨fun n peak c hpath hbusy => ?_, fun peak t' htail => ?_, fun n peak t' hpath hbusy => ?_,
    fun peaks t' hchain => ?_⟩
  · rw [← Job.empty_on] at hpath
    obtain ⟨c', q, rfl, -, -⟩ := hpath.exists_on fun k q v host hk => by
      rw [Job.empty_on]
      exact hbusy k q v host hk
    exact List.suffix_append ..
  · obtain ⟨n, hpath⟩ := htail.path
    exact ⟨n, Job.exists_path_on hpath pending⟩
  · rw [← Job.empty_on] at hpath
    obtain ⟨c', q, hc, rfl, halone⟩ := hpath.exists_on fun k q v host hk => by
      rw [Job.empty_on]
      exact hbusy k q v host hk
    rw [Config.eq_of_on hc.symm] at halone
    exact ⟨q, Job.tails_of_path halone, rfl⟩
  · obtain ⟨n, hpath⟩ := hchain.path
    obtain ⟨hpath, hbusy⟩ := Job.exists_path_on hpath pending
    refine ⟨n, hpath, hbusy, fun limit hlimit => ?_⟩
    have hroom : (t.on pending).stack.height ≤ limit := Nat.le_trans hpath.height_le hlimit
    exact (Path.run_iff hroom).2 ⟨_, hlimit, hpath⟩

/-- A call of `loop` with the body `if x <= 0 then 7 else loop (x - 1)`. -/
def looping (x : Int32) : Job Recorder :=
  let body : Expr := .ite (.prim .le (.var "x") (.int 0)) (.int 7)
    (.app (.var "loop") (.prim .sub (.var "x") (.int 1)))
  ⟨body, Config.enter "x" body ∅ (some "loop") (.int x), {}⟩

theorem tail_looping {x : Int32} (hx : ¬ x ≤ 0) : Tail (looping x) 2
    ⟨.app (.var "loop") (.prim .sub (.var "x") (.int 1)), (looping x).env, {}⟩ := by
  have htest : Job.Yields ⟨.prim .le (.var "x") (.int 0), (looping x).env, {}⟩ 1
      (.bool (x ≤ 0)) ({} : Recorder) := by
    refine ⟨5, .cast (.step rfl (.step rfl (.step rfl (.step rfl (.step rfl (.refl _)))))) ?_⟩
    rfl
  rw [decide_eq_false hx] at htest
  exact .branch htest

/-- The test and the argument each need two frames. -/
theorem tailCall_looping {x : Int32} (hx : ¬ x ≤ 0) :
    Job.TailCall (looping x) 2 (looping (x - 1)) := by
  have hcallee : Job.Yields ⟨.var "loop", (looping x).env, {}⟩ 0
      (.closure "x" (looping x).expr ∅ (some "loop")) ({} : Recorder) := by
    refine ⟨1, .cast (.step rfl (.refl _)) ?_⟩
    rfl
  have harg : Job.Yields ⟨.prim .sub (.var "x") (.int 1), (looping x).env, {}⟩ 1
      (.int (x - 1)) ({} : Recorder) := by
    refine ⟨5, .cast (.step rfl (.step rfl (.step rfl (.step rfl (.step rfl (.refl _)))))) ?_⟩
    rfl
  refine .inside ?_ (tail_looping hx) (.call (.call hcallee harg))
  simp [looping]

/-- Two calls, made while one frame is pending. -/
theorem tails_in_place_looping :
    let pending := Stack.empty.push (.primApply .add (.int 1))
    (∃ n, Path ((looping 2).on pending) n 3 ((looping 0).on pending) ∧
      (looping 2).BusyFor pending n ∧
      pending.frames <:+ ((looping 0).on pending).stack.frames ∧
      (∃ added, Tails (looping 2) added (looping 0) ∧ 3 = 1 + added) ∧
      ∀ limit, 3 ≤ limit →
        ((looping 2).on pending).run limit n = .running ((looping 0).on pending)) ∧
    ∃ n, Path ((looping 2).on pending) n 3
      (Job.on ⟨.app (.var "loop") (.prim .sub (.var "x") (.int 1)), (looping 2).env, {}⟩ pending) ∧
      (looping 2).BusyFor pending n := by
  intro pending
  obtain ⟨hbelow, htail, hon, hchain⟩ := tails_in_place (looping 2) pending
  have hcalls : Chain (looping 2) [2, 2] (looping 0) :=
    .cons (tailCall_looping (by decide)) (.cons (tailCall_looping (by decide)) (.nil _))
  obtain ⟨n, hpath, hbusy, hrun⟩ := hchain _ _ hcalls
  exact ⟨⟨n, hpath, hbusy, hbelow _ _ _ hpath hbusy, hon _ _ _ hpath hbusy, hrun⟩,
    htail _ _ (tail_looping (by decide))⟩

end Eval

end MlWasm
