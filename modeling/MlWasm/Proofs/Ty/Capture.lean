import MlWasm.Proofs.Ty.Discipline

/-!
Schemes keep the names of their quantified variables, so a substitution may neither bind such a
variable nor bring it in: it would replace what is quantified or have it caught. In a run of
inference this does not happen. What was quantified is not free in the scope and is not drawn again,
and what inference learns is about variables that are free in the scope or drawn later. So wherever
a substitution is applied to a scope, it is substitution for the free variables and nothing else.
-/

namespace MlWasm

open TypeEnv Session

/-! ### Substitution in a scheme -/

/-- The substitution has nothing to do with the quantified variables of the scheme, and what it does
to the others is substitution that avoids capture. -/
structure Subst.CapturesNothing (s : Subst) (σ : Scheme) : Prop where
  apart : ∀ v ∈ σ.vars, s.get? v = none ∧ ∀ w t, s.get? w = some t → v ∉ t.vars
  applied : s.applyScheme σ =
    ⟨σ.vars, σ.ty.subst fun v => if v ∈ σ.vars then .var v else s.apply (.var v)⟩
  instances : ∀ t, (s.applyScheme σ).Instance t ↔
    (σ.subst fun v => s.apply (.var v)).Instance t
  freeVars : ∀ w, w ∈ (s.applyScheme σ).freeVars ↔
    ∃ v ∈ σ.freeVars, w ∈ (s.apply (.var v)).freeVars

theorem Ty.mem_freeVars {t : Ty} {v : Nat} : v ∈ t.freeVars ↔ v ∈ t.vars := by
  simp [freeVars]

namespace Subst

variable {s : Subst} {σ : Scheme}

theorem Resolved.apply_var (hs : s.Resolved) (v : Nat) : s.apply (.var v) = s.image v := by
  rw [hs.apply_eq, Ty.subst]

theorem free_applyScheme_iff (hs : s.Resolved) (hq : ∀ v ∈ σ.vars, ¬ s.Mentions v) {w : Nat} :
    (s.applyScheme σ).Free w ↔ ∃ v, σ.Free v ∧ w ∈ (s.image v).vars :=
  ⟨Scheme.free_applyScheme hs,
    fun ⟨_, hv, hw⟩ => Scheme.free_applyScheme_of_free hs hq hv hw⟩

theorem Resolved.capturesNothing (hs : s.Resolved) (hq : ∀ v ∈ σ.vars, ¬ s.Mentions v) :
    s.CapturesNothing σ where
  apart v hv := ⟨get?_of_not_binds fun hb => hq v hv (.inl hb),
    fun w t ht hmem => hq v hv (.inr ⟨w, t, ht, hmem⟩)⟩
  applied := by
    rw [applyScheme, hs.applyExcept_eq]
    simp only [hs.apply_var]
  instances t := by
    simp only [hs.apply_var]
    have hinstance := Scheme.instance_applyScheme_subst hs hq .var (t := t)
    simpa only [Scheme.instance_subst_var, Ty.subst_var] using hinstance
  freeVars w := by
    simp only [Scheme.mem_freeVars, Ty.mem_freeVars, hs.apply_var]
    exact free_applyScheme_iff hs hq

end Subst

/-! ### Substitution in a scope -/

/-- The substitution captures nothing in any scheme of the scope that can be looked up. -/
structure TypeEnv.CapturesNothing (env : TypeEnv) (s : Subst) : Prop where
  lookup : ∀ x, (env.apply s).lookup x = (env.lookup x).map s.applyScheme
  schemes : ∀ x σ, env.lookup x = some σ → s.CapturesNothing σ
  freeVars : ∀ w, w ∈ (env.apply s).freeVars ↔
    ∃ v ∈ env.freeVars, w ∈ (s.apply (.var v)).freeVars

theorem TypeEnv.Spares.capturesNothing {env : TypeEnv} {s : Subst} (h : env.Spares s)
    (hs : s.Resolved) : env.CapturesNothing s := by
  have hquantified {x : String} {σ : Scheme} (hx : env.lookup x = some σ) :
      ∀ v ∈ σ.vars, ¬ s.Mentions v := fun v hv => h v ⟨x, σ, hx, hv⟩
  refine ⟨lookup_apply env s, fun x σ hx => hs.capturesNothing (hquantified hx), fun w => ?_⟩
  simp only [mem_freeVars, Ty.mem_freeVars, hs.apply_var]
  refine ⟨free_apply hs, fun ⟨v, ⟨x, σ, hx, hv⟩, hw⟩ => ⟨x, s.applyScheme σ, ?_, ?_⟩⟩
  · rw [lookup_apply, hx, Option.map_some]
  · exact (Subst.free_applyScheme_iff hs (hquantified hx)).2 ⟨v, hv, hw⟩

/-! ### In a run -/

/-- A call applies a substitution to a scope. What it needs to have found out before it gets there
stands in front. -/
inductive Applies : Call → TypeEnv → Subst → Prop where
  | callee {env : TypeEnv} {n n₁ : Nat} {f : Expr} {s : Subst} {t : Ty} (a : Expr) :
      infer env f n = .ok (s, t) n₁ → Applies (.infer env n (.app f a)) env s
  | left {env : TypeEnv} {n n₁ : Nat} {l : Expr} {s : Subst} {t : Ty} (op : Op) (r : Expr) :
      infer env l n = .ok (s, t) n₁ → Applies (.infer env n (.prim op l r)) env s
  | cond {env : TypeEnv} {n n₀ : Nat} {c : Expr} {s u : Subst} {t : Ty} (th el : Expr) :
      infer env c n = .ok (s, t) n₀ → unify .bool t "if condition" = .ok u →
      Applies (.infer env n (.ite c th el)) env (.compose u s)
  | thenBranch {env : TypeEnv} {n n₀ n₁ : Nat} {c th : Expr} {s u s₂ : Subst} {t a : Ty}
      (el : Expr) :
      infer env c n = .ok (s, t) n₀ → unify .bool t "if condition" = .ok u →
      infer (env.apply (.compose u s)) th n₀ = .ok (s₂, a) n₁ →
      Applies (.infer env n (.ite c th el)) (env.apply (.compose u s)) s₂
  | value {env : TypeEnv} {n n₁ : Nat} {v : Expr} {s : Subst} {t : Ty} (x : String) (b : Expr) :
      infer env v n = .ok (s, t) n₁ → Applies (.infer env n (.letIn x v b)) env s
  | recBody {env : TypeEnv} {n n₁ : Nat} {f x : String} {b : Expr} {s u : Subst} {t : Ty}
      (r : Expr) :
      infer ((env.extend f (.mono (.fn (.var n) (.var (n + 1))))).extend x (.mono (.var n))) b
        (n + 2) = .ok (s, t) n₁ →
      unify (s.apply (.var (n + 1))) t "let rec body" = .ok u →
      Applies (.infer env n (.letRec f x b r)) env (.compose u s)
  | elt {env : TypeEnv} {n n₁ : Nat} {e : Expr} {s : Subst} {t : Ty} (known : Subst)
      (es : List Expr) :
      infer env e n = .ok (s, t) n₁ → Applies (.inferAll env known n (e :: es)) env s

/-- A call instantiates a scheme, with the next variable. -/
inductive Instantiates : Call → Scheme → Nat → Prop where
  | var {env : TypeEnv} {x : String} {σ : Scheme} (n : Nat) :
      env.lookup x = some σ → Instantiates (.infer env n (.var x)) σ n

theorem TypeEnv.WellScoped.capturesNothing {env : TypeEnv} {n n' : Nat} {s : Subst}
    (hw : env.WellScoped n) (hn : env.Narrows n s n') : env.CapturesNothing s :=
  (hw.spares hn).capturesNothing hn.resolved

theorem Applies.capturesNothing {c : Call} {env : TypeEnv} {s : Subst} (h : Applies c env s)
    (hc : c.Ready) : env.CapturesNothing s := by
  cases h with
  | callee a h => exact hc.1.capturesNothing (inferred _ hc.1 h).narrows
  | left op r h => exact hc.1.capturesNothing (inferred _ hc.1 h).narrows
  | cond th el h hu => exact hc.1.capturesNothing ((inferred _ hc.1 h).isBool hc.1 hu).narrows
  | thenBranch el h hu h₂ =>
      have hscope := hc.1.apply ((inferred _ hc.1 h).isBool hc.1 hu).narrows
      exact hscope.capturesNothing (inferred _ hscope h₂).narrows
  | value x b h => exact hc.1.capturesNothing (inferred _ hc.1 h).narrows
  | recBody r h hu =>
      have hbody := inferred _ (hc.1.extend_recursive _ _) h
      exact hc.1.capturesNothing (hbody.recursive hc.1 hu).1
  | elt known es h => exact hc.1.capturesNothing (inferred _ hc.1 h).narrows

theorem Instantiates.distinct {c : Call} {σ : Scheme} {n : Nat} (h : Instantiates c σ n)
    (hc : c.Ready) : σ.vars.Nodup ∧ ∀ v ∈ σ.vars, v < n := by
  cases h with
  | var n hx => exact ⟨hc.2 _ _ hx, fun v hv => hc.1.quantified_lt v ⟨_, _, hx, hv⟩⟩

/-- Whatever calls typing a program makes, whether or not it comes to a type: a substitution that is
applied to a scope captures nothing, and a scheme that is instantiated has different quantified
variables, all of them drawn before. -/
theorem typeOf_captures_nothing (e : Expr) (n : Nat) (c : Call)
    (h : Reaches (.infer .initial n e) c) :
    (∀ env s, Applies c env s → env.CapturesNothing s) ∧
      ∀ σ m, Instantiates c σ m → σ.vars.Nodup ∧ ∀ v ∈ σ.vars, v < m := by
  have hstart : (Call.infer .initial n e).Ready := ⟨wellScoped_initial n, distinct_initial⟩
  have hready := h.ready hstart
  exact ⟨fun env s happly => happly.capturesNothing hready,
    fun σ m hinstantiate => hinstantiate.distinct hready⟩

/-- In `fun y -> let f = fun x -> x in y 1 f` what is learned about `y` is applied to a scope in
which `f` is polymorphic, before `f` is instantiated there. -/
theorem typeOf_captures_nothing_polymorphic :
    let body : Expr := .app (.app (.var "y") (.int 1)) (.var "f")
    let e : Expr := .fn "y" (.letIn "f" (.fn "x" (.var "x")) body)
    ∃ env s, Reaches (.infer .initial 0 e) (.infer env 2 body) ∧
      Applies (.infer env 2 body) env s ∧ env.CapturesNothing s ∧
      s.apply (.var 0) = .fn .int (.var 2) ∧
      (env.apply s).lookup "f" = some ⟨[1], .fn (.var 1) (.var 1)⟩ ∧
      Instantiates (.infer (env.apply s) 3 (.var "f")) ⟨[1], .fn (.var 1) (.var 1)⟩ 3 := by
  intro body e
  let env : TypeEnv := TypeEnv.initial.extend "y" (.mono (.var 0))
  let σ : Scheme := ⟨[1], .fn (.var 1) (.var 1)⟩
  let s : Subst := .compose (.compose (.singleton 0 (.fn .int (.var 2))) ∅) (.compose ∅ ∅)
  have hvalue : infer env (.fn "x" (.var "x")) 1 = .ok (∅, .fn (.var 1) (.var 1)) 2 := rfl
  have hσ : env.generalize (.fn (.var 1) (.var 1)) = σ := by decide +kernel
  have hreach : Reaches (.infer .initial 0 e) (.infer (env.extend "f" σ) 2 body) := by
    rw [← hσ, ← apply_empty env]
    exact .step (.step (.refl _) (.visit (.body "y" _))) (.visit (.letBody "f" body hvalue))
  have hunify : unify (.var 0) (.fn .int (.var 2)) "application" =
      .ok (.compose (.singleton 0 (.fn .int (.var 2))) ∅) := by
    rw [unify, Equations.solve, if_neg (by simp), if_neg (by decide), Equations.assign,
      List.map_nil, Equations.solve]
  have happly : Applies (.infer (env.extend "f" σ) 2 body) (env.extend "f" σ) s :=
    .callee (.var "f") (infer_app_iff.2 ⟨∅, .var 0, 2, ∅, .int, 2, _, rfl, rfl, hunify, rfl, rfl,
      rfl⟩)
  have hlookup : (TypeEnv.apply (env.extend "f" σ) s).lookup "f" = some σ := by
    rw [lookup_apply]
    rfl
  exact ⟨_, s, hreach, happly, (typeOf_captures_nothing e 0 _ hreach).1 _ _ happly, rfl, hlookup,
    .var 3 hlookup⟩

end MlWasm
