import MlWasm.Proofs.Ty.Parts
import MlWasm.Proofs.Ty.Principal

/-!
The discipline that inference keeps with substitutions. A run of inference is a tree of calls; each
call is made from a state in which its substitutions are resolved and apart from each other, and
each call leaves its own calls such a state. So wherever a run gets to, applying a substitution
never runs in a circle and composition is composition.
-/

namespace MlWasm

open TypeEnv Session

/-! ### Following chains -/

namespace Subst

mutual

/-- Following the bindings of `s` outside `skip` takes a type to another one. There is a way to go
for a type exactly if following them comes to an end. -/
inductive Chases (s : Subst) (skip : List Nat) : Ty → Ty → Prop where
  | int : Chases s skip .int .int
  | bool : Chases s skip .bool .bool
  | unit : Chases s skip .unit .unit
  | skipped {v : Nat} : v ∈ skip → Chases s skip (.var v) (.var v)
  | unbound {v : Nat} : v ∉ skip → s.get? v = none → Chases s skip (.var v) (.var v)
  | bound {v : Nat} {t u : Ty} : v ∉ skip → s.get? v = some t → Chases s skip t u →
      Chases s skip (.var v) u
  | fn {a b c d : Ty} : Chases s skip a c → Chases s skip b d →
      Chases s skip (.fn a b) (.fn c d)
  | tuple {ts us : List Ty} : ChasesAll s skip ts us → Chases s skip (.tuple ts) (.tuple us)

inductive ChasesAll (s : Subst) (skip : List Nat) : List Ty → List Ty → Prop where
  | nil : ChasesAll s skip [] []
  | cons {t u : Ty} {ts us : List Ty} : Chases s skip t u → ChasesAll s skip ts us →
      ChasesAll s skip (t :: ts) (u :: us)

end

mutual

/-- A chase goes through a type variable by variable. -/
theorem chases_subst {s : Subst} {skip : List Nat} {f : Nat → Ty} (t : Ty)
    (h : ∀ v ∈ t.vars, s.Chases skip (.var v) (f v)) : s.Chases skip t (t.subst f) := by
  cases t with
  | int => exact .int
  | bool => exact .bool
  | unit => exact .unit
  | var v => exact h v (by simp [Ty.vars])
  | fn a b =>
      simp only [Ty.vars, List.mem_append] at h
      exact .fn (chases_subst a fun v hv => h v (.inl hv))
        (chases_subst b fun v hv => h v (.inr hv))
  | tuple ts => exact .tuple (chasesAll_subst ts h)

theorem chasesAll_subst {s : Subst} {skip : List Nat} {f : Nat → Ty} (ts : List Ty)
    (h : ∀ v ∈ Ty.varsAll ts, s.Chases skip (.var v) (f v)) :
    s.ChasesAll skip ts (Ty.substAll f ts) := by
  cases ts with
  | nil => exact .nil
  | cons t ts =>
      simp only [Ty.varsAll, List.mem_append] at h
      exact .cons (chases_subst t fun v hv => h v (.inl hv))
        (chasesAll_subst ts fun v hv => h v (.inr hv))

end

theorem Resolved.chases {s : Subst} (hs : s.Resolved) (skip : List Nat) (t : Ty) :
    s.Chases skip t (s.applyExcept skip t) := by
  have hopen (v : Nat) (hv : ¬ s.Binds v) : s.Chases skip (.var v) (.var v) := by
    by_cases hskip : v ∈ skip
    · exact .skipped hskip
    · exact .unbound hskip (get?_of_not_binds hv)
  rw [hs.applyExcept_eq]
  refine chases_subst t fun v _ => ?_
  by_cases hskip : v ∈ skip
  · rw [if_pos hskip]
    exact .skipped hskip
  rw [if_neg hskip]
  cases hv : s.get? v with
  | none =>
      have hunbound : ¬ s.Binds v := by simp [Binds, hv]
      rw [image_of_not_binds hunbound]
      exact hopen v hunbound
  | some u =>
      -- The type bound to `v` holds no bound variable, so the chain ends there.
      rw [image_of_get? hv]
      refine .bound hskip hv ?_
      have hend : s.Chases skip u (u.subst .var) :=
        chases_subst u fun w hw => hopen w (hs v u hv w hw)
      rwa [Ty.subst_var] at hend

theorem Resolved.apply_apply {s : Subst} (hs : s.Resolved) (t : Ty) :
    s.apply (s.apply t) = s.apply t := by
  refine hs.apply_eq_self fun v hv => ?_
  rw [hs.apply_eq, Ty.mem_vars_subst] at hv
  obtain ⟨u, -, hv⟩ := hv
  exact hs.not_binds_of_mem_image hv

end Subst

/-! ### Calls -/

/-- Calls that a run of inference makes. A call that reads the supply of variables comes with the
next variable. -/
inductive Call where
  | infer (env : TypeEnv) (n : Nat) (e : Expr)
  | inferAll (env : TypeEnv) (known : Subst) (n : Nat) (es : List Expr)
  | freshen (vars : List Nat) (n : Nat)
  | unify (a b : Ty) (context : String)
  | solve (context : String) (eqs : Equations) (solved : Subst)
  | compose (second first : Subst)

/-- One call makes another. What a call needs to have found out before it gets there stands in
front; a call that fails later has made the calls up to there. -/
inductive Calls : Call → Call → Prop where
  | visit {env env' : TypeEnv} {n n' : Nat} {e e' : Expr} :
      Visits env n e env' n' e' → Calls (.infer env n e) (.infer env' n' e')
  | freshen {env : TypeEnv} {x : String} {σ : Scheme} (n : Nat) :
      env.lookup x = some σ → σ.vars ≠ [] → Calls (.infer env n (.var x)) (.freshen σ.vars n)
  | freshenOne {before : List Nat} {n m : Nat} {acc : Subst} (v : Nat) (after : List Nat) :
      Session.freshen before n = .ok acc m →
      Calls (.freshen (before ++ v :: after) n) (.compose (.singleton v (.var m)) acc)
  -- Applications.
  | appUnify {env : TypeEnv} {n n₁ n₂ : Nat} {f a : Expr} {s₁ s₂ : Subst} {callee arg : Ty} :
      Session.infer env f n = .ok (s₁, callee) n₁ →
      Session.infer (env.apply s₁) a n₁ = .ok (s₂, arg) n₂ →
      Calls (.infer env n (.app f a)) (.unify (s₂.apply callee) (.fn arg (.var n₂)) "application")
  | appCompose {env : TypeEnv} {n n₁ n₂ : Nat} {f a : Expr} {s₁ s₂ s₃ : Subst}
      {callee arg : Ty} {call : Call} :
      Session.infer env f n = .ok (s₁, callee) n₁ →
      Session.infer (env.apply s₁) a n₁ = .ok (s₂, arg) n₂ →
      MlWasm.unify (s₂.apply callee) (.fn arg (.var n₂)) "application" = .ok s₃ →
      call ∈ [Call.compose s₂ s₁, .compose s₃ (.compose s₂ s₁)] →
      Calls (.infer env n (.app f a)) call
  -- Conditionals.
  | condUnify {env : TypeEnv} {n n₀ : Nat} {c : Expr} {s₀ : Subst} {cond : Ty} (t e : Expr) :
      Session.infer env c n = .ok (s₀, cond) n₀ →
      Calls (.infer env n (.ite c t e)) (.unify .bool cond "if condition")
  | condCompose {env : TypeEnv} {n n₀ : Nat} {c : Expr} {s₀ u : Subst} {cond : Ty} (t e : Expr) :
      Session.infer env c n = .ok (s₀, cond) n₀ →
      MlWasm.unify .bool cond "if condition" = .ok u →
      Calls (.infer env n (.ite c t e)) (.compose u s₀)
  | iteUnify {env : TypeEnv} {n n₀ n₁ n₂ : Nat} {c t e : Expr} {s₀ u s₂ s₃ : Subst}
      {cond thenTy elseTy : Ty} :
      Session.infer env c n = .ok (s₀, cond) n₀ →
      MlWasm.unify .bool cond "if condition" = .ok u →
      Session.infer (env.apply (.compose u s₀)) t n₀ = .ok (s₂, thenTy) n₁ →
      Session.infer ((env.apply (.compose u s₀)).apply s₂) e n₁ = .ok (s₃, elseTy) n₂ →
      Calls (.infer env n (.ite c t e)) (.unify (s₃.apply thenTy) elseTy "if branches")
  | iteCompose {env : TypeEnv} {n n₀ n₁ n₂ : Nat} {c t e : Expr} {s₀ u s₂ s₃ s₄ : Subst}
      {cond thenTy elseTy : Ty} {call : Call} :
      Session.infer env c n = .ok (s₀, cond) n₀ →
      MlWasm.unify .bool cond "if condition" = .ok u →
      Session.infer (env.apply (.compose u s₀)) t n₀ = .ok (s₂, thenTy) n₁ →
      Session.infer ((env.apply (.compose u s₀)).apply s₂) e n₁ = .ok (s₃, elseTy) n₂ →
      MlWasm.unify (s₃.apply thenTy) elseTy "if branches" = .ok s₄ →
      call ∈ [Call.compose s₂ (.compose u s₀), .compose s₃ (.compose s₂ (.compose u s₀)),
        .compose s₄ (.compose s₃ (.compose s₂ (.compose u s₀)))] →
      Calls (.infer env n (.ite c t e)) call
  -- Operators.
  | operandsCompose {env : TypeEnv} {n n₁ n₂ : Nat} {l r : Expr} {s₁ s₂ : Subst} {left right : Ty}
      (op : Op) :
      Session.infer env l n = .ok (s₁, left) n₁ →
      Session.infer (env.apply s₁) r n₁ = .ok (s₂, right) n₂ →
      Calls (.infer env n (.prim op l r)) (.compose s₂ s₁)
  | leftUnify {env : TypeEnv} {n n₁ n₂ : Nat} {l r : Expr} {s₁ s₂ : Subst} {left right : Ty}
      (op : Op) :
      Session.infer env l n = .ok (s₁, left) n₁ →
      Session.infer (env.apply s₁) r n₁ = .ok (s₂, right) n₂ →
      Calls (.infer env n (.prim op l r)) (.unify .int (s₂.apply left) "prim left")
  | rightUnify {env : TypeEnv} {n n₁ n₂ : Nat} {l r : Expr} {s₁ s₂ s₃ : Subst} {left right : Ty}
      (op : Op) :
      Session.infer env l n = .ok (s₁, left) n₁ →
      Session.infer (env.apply s₁) r n₁ = .ok (s₂, right) n₂ →
      MlWasm.unify .int (s₂.apply left) "prim left" = .ok s₃ →
      Calls (.infer env n (.prim op l r)) (.unify .int (s₃.apply right) "prim right")
  | primCompose {env : TypeEnv} {n n₁ n₂ : Nat} {l r : Expr} {s₁ s₂ s₃ s₄ : Subst}
      {left right : Ty} {call : Call} (op : Op) :
      Session.infer env l n = .ok (s₁, left) n₁ →
      Session.infer (env.apply s₁) r n₁ = .ok (s₂, right) n₂ →
      MlWasm.unify .int (s₂.apply left) "prim left" = .ok s₃ →
      MlWasm.unify .int (s₃.apply right) "prim right" = .ok s₄ →
      call ∈ [Call.compose s₄ s₃, .compose (.compose s₄ s₃) (.compose s₂ s₁)] →
      Calls (.infer env n (.prim op l r)) call
  -- Definitions.
  | letCompose {env : TypeEnv} {n n₁ n₂ : Nat} {x : String} {v b : Expr} {s₁ s₂ : Subst}
      {a t : Ty} :
      Session.infer env v n = .ok (s₁, a) n₁ →
      Session.infer ((env.apply s₁).extend x ((env.apply s₁).generalize a)) b n₁ =
        .ok (s₂, t) n₂ →
      Calls (.infer env n (.letIn x v b)) (.compose s₂ s₁)
  | recUnify {env : TypeEnv} {n n₁ : Nat} {f x : String} {b : Expr} {s₁ : Subst} {t : Ty}
      (r : Expr) :
      Session.infer ((env.extend f (.mono (.fn (.var n) (.var (n + 1))))).extend x
        (.mono (.var n))) b (n + 2) = .ok (s₁, t) n₁ →
      Calls (.infer env n (.letRec f x b r)) (.unify (s₁.apply (.var (n + 1))) t "let rec body")
  | recCompose {env : TypeEnv} {n n₁ : Nat} {f x : String} {b : Expr} {s₁ s₂ : Subst} {t : Ty}
      (r : Expr) :
      Session.infer ((env.extend f (.mono (.fn (.var n) (.var (n + 1))))).extend x
        (.mono (.var n))) b (n + 2) = .ok (s₁, t) n₁ →
      MlWasm.unify (s₁.apply (.var (n + 1))) t "let rec body" = .ok s₂ →
      Calls (.infer env n (.letRec f x b r)) (.compose s₂ s₁)
  | restCompose {env : TypeEnv} {n n₁ n₂ : Nat} {f x : String} {b r : Expr} {s₁ s₂ s₃ s₄ : Subst}
      {t u : Ty} :
      Session.infer ((env.extend f (.mono (.fn (.var n) (.var (n + 1))))).extend x
        (.mono (.var n))) b (n + 2) = .ok (s₁, t) n₁ →
      MlWasm.unify (s₁.apply (.var (n + 1))) t "let rec body" = .ok s₂ → s₃ = .compose s₂ s₁ →
      Session.infer ((env.apply s₃).extend f
        ((env.apply s₃).generalize (s₃.apply (.fn (.var n) (.var (n + 1)))))) r n₁ =
        .ok (s₄, u) n₂ →
      Calls (.infer env n (.letRec f x b r)) (.compose s₄ s₃)
  -- Tuples.
  | elts (env : TypeEnv) (n : Nat) (es : List Expr) :
      Calls (.infer env n (.tuple es)) (.inferAll env ∅ n es)
  | eltCompose {env : TypeEnv} {n n₁ : Nat} {e : Expr} {s : Subst} {t : Ty} (known : Subst)
      (es : List Expr) :
      Session.infer env e n = .ok (s, t) n₁ →
      Calls (.inferAll env known n (e :: es)) (.compose s known)
  | eltRest {env : TypeEnv} {n n₁ : Nat} {e : Expr} {s : Subst} {t : Ty} (known : Subst)
      (es : List Expr) :
      Session.infer env e n = .ok (s, t) n₁ →
      Calls (.inferAll env known n (e :: es)) (.inferAll (env.apply s) (.compose s known) n₁ es)
  -- Unification.
  | solve (a b : Ty) (context : String) :
      Calls (.unify a b context) (.solve context [(a, b)] ∅)
  | assign {e : Ty × Ty} {v : Nat} {t : Ty} (context : String) (rest : Equations)
      (solved : Subst) :
      e = (.var v, t) ∨ e = (t, .var v) → t ≠ .var v → t.occurs v = false →
      Calls (.solve context (e :: rest) solved) (.compose (.singleton v t) solved)
  | assigned {e : Ty × Ty} {v : Nat} {t : Ty} (context : String) (rest : Equations)
      (solved : Subst) :
      e = (.var v, t) ∨ e = (t, .var v) → t ≠ .var v → t.occurs v = false →
      Calls (.solve context (e :: rest) solved)
        (.solve context (rest.assign v t) (.compose (.singleton v t) solved))
  | fnParts (a b c d : Ty) (context : String) (rest : Equations) (solved : Subst) :
      Calls (.solve context ((.fn a b, .fn c d) :: rest) solved)
        (.solve context ((a, c) :: (b, d) :: rest) solved)
  | tupleParts {xs ys : List Ty} (context : String) (rest : Equations) (solved : Subst) :
      xs.length = ys.length →
      Calls (.solve context ((.tuple xs, .tuple ys) :: rest) solved)
        (.solve context (xs.zip ys ++ rest) solved)
  | same {t : Ty} (context : String) (rest : Equations) (solved : Subst) :
      t ∈ [Ty.int, .bool, .unit] ∨ (∃ v, t = .var v) →
      Calls (.solve context ((t, t) :: rest) solved) (.solve context rest solved)

/-- A call is made, sooner or later, by another. -/
inductive Reaches : Call → Call → Prop where
  | refl (c : Call) : Reaches c c
  | step {a b c : Call} : Reaches a b → Calls b c → Reaches a c

/-! ### What each call relies on -/

namespace TypeEnv

/-- No scheme of the scope lists a variable twice. -/
def Distinct (env : TypeEnv) : Prop := ∀ x σ, env.lookup x = some σ → σ.vars.Nodup

theorem distinct_initial : TypeEnv.initial.Distinct := by
  intro x σ hx
  have hbuiltin : ∀ b ∈ TypeEnv.initial.visible, b.2.vars = [] := by decide
  rw [hbuiltin _ (Scope.mem_visible.2 hx)]
  exact List.nodup_nil

theorem Distinct.extend {env : TypeEnv} (h : env.Distinct) {x : String} {σ : Scheme}
    (hσ : σ.vars.Nodup) : TypeEnv.Distinct (env.extend x σ) := by
  intro y τ hy
  obtain ⟨-, rfl⟩ | ⟨-, hy⟩ := Scope.lookup_extend_eq_some.1 hy
  · exact hσ
  · exact h y τ hy

theorem Distinct.apply {env : TypeEnv} (h : env.Distinct) (s : Subst) :
    (env.apply s).Distinct := by
  intro x τ hx
  rw [lookup_apply, Option.map_eq_some_iff] at hx
  obtain ⟨σ, hσ, rfl⟩ := hx
  exact h x σ hσ

theorem nodup_generalize (env : TypeEnv) (t : Ty) : (env.generalize t).vars.Nodup :=
  Std.TreeSet.distinct_toList.imp fun hne he => hne (by simp [he])

end TypeEnv

theorem VisitsAll.distinct {env env' : TypeEnv} {n n' : Nat} {es : List Expr} {e : Expr}
    (h : VisitsAll env n es env' n' e) (hd : env.Distinct) : env'.Distinct := by
  induction es generalizing env n with
  | nil => nomatch h
  | cons d es ih =>
      cases h with
      | head => exact hd
      | tail _ h => exact ih h (hd.apply _)

theorem Visits.distinct {env env' : TypeEnv} {n n' : Nat} {e e' : Expr}
    (h : Visits env n e env' n' e') (hd : env.Distinct) : env'.Distinct := by
  cases h with
  | body => exact hd.extend List.nodup_nil
  | callee | left | cond | value => exact hd
  | arg | right | thenBranch => exact hd.apply _
  | elseBranch => exact (hd.apply _).apply _
  | letBody => exact (hd.apply _).extend (nodup_generalize _ _)
  | recBody => exact (hd.extend List.nodup_nil).extend List.nodup_nil
  | rest => exact (hd.apply _).extend (nodup_generalize _ _)
  | elt h => exact h.distinct hd

namespace Call

/-- What holds whenever the call is made. -/
def Ready : Call → Prop
  | infer env n _ => env.WellScoped n ∧ env.Distinct
  | inferAll env known n _ => env.WellScoped n ∧ Settled env known n
  | freshen vars n => (∀ v ∈ vars, v < n) ∧ vars.Nodup
  | unify .. => True
  | solve _ eqs solved => Equations.Starts solved eqs
  | compose second first => second.Resolved ∧ first.Resolved ∧ Subst.Apart second first

end Call

theorem TypeEnv.Follows.ready {env : TypeEnv} {n n₂ : Nat} {s₁ s₂ : Subst}
    (h : env.Follows n s₁ s₂ n₂) (h₁ : s₁.Resolved) : (Call.compose s₂ s₁).Ready :=
  ⟨h.resolved, h₁, h.apart⟩

namespace Inferred

variable {env : TypeEnv} {n n₀ n₁ n₂ : Nat} {s s₀ s₁ s₂ s₃ s₄ : Subst} {a b t : Ty}

theorem app_follows {callee arg : Expr} (hw : env.WellScoped n)
    (h₁ : Inferred env n callee s₁ a n₁) (h₂ : Inferred (env.apply s₁) n₁ arg s₂ b n₂)
    (h₃ : MlWasm.unify (s₂.apply a) (.fn b (.var n₂)) "application" = .ok s₃) :
    env.Follows n (.compose s₂ s₁) s₃ (n₂ + 1) := by
  have hΓ := After.apply hw h₁.narrows
  have hcallee := h₁.follow hw (hΓ.follows h₂.narrows) h₂.narrows.le
  have harg := of_after hΓ h₂
  rw [h₂.narrows.resolved.apply_eq] at h₃
  exact (hcallee.clear.mono (Nat.le_succ n₂)).follows
    ((harg.clear.mono (Nat.le_succ n₂)).fn (clear_fresh hw harg.narrows)) (unify_unifier h₃)

theorem ite_ready {c th el : Expr} {call : Call} (hw : env.WellScoped n)
    (hc : Inferred env n c s₁ .bool n₀) (ht : Inferred (env.apply s₁) n₀ th s₂ a n₁)
    (he : Inferred ((env.apply s₁).apply s₂) n₁ el s₃ b n₂)
    (h : MlWasm.unify (s₃.apply a) b "if branches" = .ok s₄)
    (hcall : call ∈ [Call.compose s₂ s₁, .compose s₃ (.compose s₂ s₁),
      .compose s₄ (.compose s₃ (.compose s₂ s₁))]) : call.Ready := by
  have hΓ := After.apply hw hc.narrows
  have hΓ₂ := hΓ.trans ht.narrows
  have hf₃ := hΓ₂.follows he.narrows
  have hthen := (of_after hΓ ht).follow hw hf₃ he.narrows.le
  have helse := of_after hΓ₂ he
  rw [he.narrows.resolved.apply_eq] at h
  have hf₄ := hthen.clear.follows helse.clear (unify_unifier h)
  simp only [List.mem_cons, List.not_mem_nil, or_false] at hcall
  rcases hcall with rfl | rfl | rfl
  · exact (hΓ.follows ht.narrows).ready hc.narrows.resolved
  · exact hf₃.ready hΓ₂.narrows.resolved
  · exact hf₄.ready hthen.narrows.resolved

/-- The second demand says nothing about what the first one bound. -/
theorem prim_ready {l r : Expr} {call : Call} (hw : env.WellScoped n)
    (h₁ : Inferred env n l s₁ a n₁) (h₂ : Inferred (env.apply s₁) n₁ r s₂ b n₂)
    (h₃ : MlWasm.unify .int (s₂.apply a) "prim left" = .ok s₃)
    (h₄ : MlWasm.unify .int (s₃.apply b) "prim right" = .ok s₄)
    (hcall : call ∈ [Call.compose s₄ s₃, .compose (.compose s₄ s₃) (.compose s₂ s₁)]) :
    call.Ready := by
  have hΓ := After.apply hw h₁.narrows
  have hdemand : demandInts (s₂.apply a) b = .ok (.compose s₄ s₃) :=
    demandInts_eq_ok.2 ⟨s₃, s₄, h₃, h₄, rfl⟩
  rw [h₂.narrows.resolved.apply_eq] at hdemand
  obtain ⟨hf, -, -⟩ := demandInts_spec
    (h₁.follow hw (hΓ.follows h₂.narrows) h₂.narrows.le).clear (of_after hΓ h₂).clear hdemand
  simp only [List.mem_cons, List.not_mem_nil, or_false] at hcall
  rcases hcall with rfl | rfl
  · have hu := unify_unifier h₃
    have hv := unify_unifier h₄
    refine ⟨hv.resolved, hu.resolved, fun v hb hm => ?_⟩
    rcases hv.mentions v hm with hmem | hmem
    · simp [Ty.vars] at hmem
    · rw [hu.resolved.apply_eq, Ty.mem_vars_subst] at hmem
      obtain ⟨w, -, hmem⟩ := hmem
      exact hu.resolved.not_binds_of_mem_image hmem hb
  · exact hf.ready (hΓ.compose h₂.narrows).resolved

theorem rest_ready {f : String} {rest : Expr} (hw : env.WellScoped n) (hn : env.Narrows n s₃ n₁)
    (hfn : ∀ v ∈ t.vars, v < n₁)
    (h : Inferred ((env.apply s₃).extend f ((env.apply s₃).generalize t)) n₁ rest s₄ b n₂) :
    (Call.compose s₄ s₃).Ready := by
  have hΓ := After.apply hw hn
  obtain ⟨hn₂, -⟩ := of_generalize hΓ.wellScoped hfn h
  exact (hΓ.follows hn₂).ready hn.resolved

end Inferred

theorem freshen_ready {before after : List Nat} {v n m : Nat} {acc : Subst}
    (hlt : ∀ w ∈ before ++ v :: after, w < n) (hnodup : (before ++ v :: after).Nodup)
    (h : freshen before n = .ok acc m) : (Call.compose (.singleton v (.var m)) acc).Ready := by
  obtain ⟨s, hs, hren, hbinds⟩ :=
    freshen_ok fun w hw => hlt w (List.mem_append_left (v :: after) hw)
  rw [hs] at h
  cases h
  have hv : v < n := hlt v (by simp)
  refine ⟨Subst.resolved_singleton (by simp [Ty.vars]; omega), hren.resolved, fun w hb hm => ?_⟩
  rcases Subst.mentions_singleton.1 hm with rfl | hm
  · exact (List.nodup_append.1 hnodup).2.2 w ((hbinds w).1 hb) w List.mem_cons_self rfl
  · have hlt := hren.old w hb
    simp only [Ty.vars, List.mem_singleton] at hm
    omega

/-- A call that is ready makes its own calls ready. -/
theorem Calls.ready {c c' : Call} (h : Calls c c') (hc : c.Ready) : c'.Ready := by
  cases h with
  | visit h => exact ⟨h.wellScoped hc.1, h.distinct hc.2⟩
  | freshen n hx _ => exact ⟨fun v hv => hc.1.quantified_lt v ⟨_, _, hx, hv⟩, hc.2 _ _ hx⟩
  | freshenOne v after h => exact freshen_ready hc.1 hc.2 h
  | appUnify | condUnify | iteUnify | leftUnify | rightUnify | recUnify => trivial
  | appCompose h₁ h₂ h₃ hcall =>
      have hf := inferred _ hc.1 h₁
      have ha := inferred _ (hc.1.apply hf.narrows) h₂
      have hΓ := After.apply hc.1 hf.narrows
      simp only [List.mem_cons, List.not_mem_nil, or_false] at hcall
      rcases hcall with rfl | rfl
      · exact (hΓ.follows ha.narrows).ready hf.narrows.resolved
      · exact (hf.app_follows hc.1 ha h₃).ready (hΓ.compose ha.narrows).resolved
  | condCompose t e h hu =>
      have hcond := inferred _ hc.1 h
      exact ((clear_of_no_vars rfl).follows hcond.clear (unify_unifier hu)).ready
        hcond.narrows.resolved
  | iteCompose h hu h₂ h₃ h₄ hcall =>
      have hcond := (inferred _ hc.1 h).isBool hc.1 hu
      have hscope := hc.1.apply hcond.narrows
      have hthen := inferred _ hscope h₂
      exact hcond.ite_ready hc.1 hthen (inferred _ (hscope.apply hthen.narrows) h₃) h₄ hcall
  | operandsCompose op h₁ h₂ =>
      have hl := inferred _ hc.1 h₁
      have hr := inferred _ (hc.1.apply hl.narrows) h₂
      exact ((After.apply hc.1 hl.narrows).follows hr.narrows).ready hl.narrows.resolved
  | primCompose op h₁ h₂ h₃ h₄ hcall =>
      have hl := inferred _ hc.1 h₁
      exact hl.prim_ready hc.1 (inferred _ (hc.1.apply hl.narrows) h₂) h₃ h₄ hcall
  | letCompose h₁ h₂ =>
      have hv := inferred _ hc.1 h₁
      have hlt := hv.clear.lt hc.1 hv.narrows.le
      exact (inferred _ ((hc.1.apply hv.narrows).extend_generalize _ hlt) h₂).rest_ready hc.1
        hv.narrows hlt
  | recCompose r h hu =>
      obtain ⟨hn, hf⟩ := (inferred _ (hc.1.extend_recursive _ _) h).recursive_follows hu
      exact hf.ready hn.resolved
  | restCompose h hu heq h₄ =>
      subst heq
      have hbody := inferred _ (hc.1.extend_recursive _ _) h
      have hle := hbody.narrows.le
      obtain ⟨hn, -⟩ := hbody.recursive hc.1 hu
      have hlt := ((hn.clear_apply (.inr ⟨Nat.le_refl _, by omega⟩)).fn
        (hn.clear_apply (.inr ⟨Nat.le_succ _, by omega⟩))).lt hc.1 hn.le
      exact (inferred _ ((hc.1.apply hn).extend_generalize _ hlt) h₄).rest_ready hc.1 hn hlt
  | elts env n es => exact ⟨hc.1, settled_empty env n⟩
  | eltCompose known es h =>
      have he := inferred _ hc.1 h
      exact ⟨he.narrows.resolved, hc.2.resolved, hc.2.apart he.narrows⟩
  | eltRest known es h =>
      have he := inferred _ hc.1 h
      exact ⟨hc.1.apply he.narrows, hc.2.compose hc.1 he.narrows⟩
  | solve a b context => exact Equations.starts_empty _
  | assign context rest solved he _ hv =>
      exact ⟨Subst.resolved_singleton (Equations.not_mem_vars hv), hc.resolved, hc.apart he⟩
  | assigned context rest solved he _ hv => exact hc.assign he (Equations.not_mem_vars hv)
  | fnParts a b c d context rest solved =>
      refine hc.mono fun v hv => ?_
      simp only [Equations.vars, List.flatMap_cons, Ty.vars, List.mem_append] at hv ⊢
      grind
  | tupleParts context rest solved _ =>
      rename_i xs ys _
      refine hc.mono (Equations.Turn.vars_parts (fun v hv => ?_) rest)
      simpa [Equations.vars, Ty.vars] using Equations.vars_zip_subset xs ys hv
  | same context rest solved _ => exact hc.mono (List.subset_append_right _ _)

theorem Reaches.ready {c c' : Call} (h : Reaches c c') (hc : c.Ready) : c'.Ready := by
  induction h with
  | refl => exact hc
  | step _ hcall ih => exact hcall.ready ih

/-- What the call returns is resolved, the type beside an inferred substitution holds nothing that
the substitution binds, and composition is composition of functions. -/
def Call.Disciplined : Call → Prop
  | .infer env n e => ∀ s t n', Session.infer env e n = .ok (s, t) n' →
      s.Resolved ∧ ∀ v ∈ t.vars, ¬ s.Binds v
  | .inferAll env known n es => ∀ s ts n', Session.inferAll env known es n = .ok (s, ts) n' →
      s.Resolved
  | .freshen vars n => ∀ s n', Session.freshen vars n = .ok s n' → s.Resolved
  | .unify a b context => ∀ s, MlWasm.unify a b context = .ok s → s.Resolved
  | .solve context eqs solved => ∀ s, eqs.solve context solved = .ok s → s.Resolved
  | .compose second first => Subst.Apart second first ∧
      ∀ t, (Subst.compose second first).apply t = second.apply (first.apply t)

theorem Call.Ready.disciplined {c : Call} (h : c.Ready) : c.Disciplined := by
  cases c with
  | infer env n e =>
      intro s t n' hinfer
      have hinferred := inferred e h.1 hinfer
      exact ⟨hinferred.narrows.resolved, fun v hv => (hinferred.clear v hv).2⟩
  | inferAll env known n es =>
      intro s ts n' hinfer
      obtain ⟨r, hr⟩ := inferredAll es h.1 h.2 hinfer
      exact hr.resolved
  | freshen vars n =>
      intro s n' hfreshen
      obtain ⟨r, hr, hren, -⟩ := freshen_ok h.1
      rw [hr] at hfreshen
      cases hfreshen
      exact hren.resolved
  | unify a b context => exact fun s hs => (unify_unifier hs).resolved
  | solve context eqs solved =>
      intro s hs
      have hsettles := Equations.solve_settles context eqs solved h.resolved h.free
      rw [hs] at hsettles
      exact hsettles.resolved
  | compose second first => exact ⟨h.2.2, Subst.apply_compose h.1 h.2.1 h.2.2⟩

/-- Every call that typing a program makes, whether or not it comes to a type, keeps the discipline.
Applying a resolved substitution follows chains to their end and is done with a type once and for
all. The unifier of compound types is composed of unifiers of their parts, which are apart. -/
theorem typeOf_disciplined :
    (∀ (e : Expr) (n : Nat) (c : Call), Reaches (.infer .initial n e) c → c.Disciplined) ∧
    (∀ s : Subst, s.Resolved → (∀ skip t, s.Chases skip t (s.applyExcept skip t)) ∧
      ∀ t, s.apply (s.apply t) = s.apply t) ∧
    (∀ (a b c d : Ty) (context : String) (s₁ s₂ : Subst), unify a c context = .ok s₁ →
      unify (s₁.apply b) (s₁.apply d) context = .ok s₂ →
      (Call.compose s₂ s₁).Disciplined ∧ ∃ s, unify (.fn a b) (.fn c d) context = .ok s ∧
        ∀ t, s.apply t = (Subst.compose s₂ s₁).apply t) ∧
    (∀ (xs ys : List Ty) (x y : Ty) (context : String) (s₁ s₂ : Subst), xs.length = ys.length →
      unify (.tuple xs) (.tuple ys) context = .ok s₁ →
      unify (s₁.apply x) (s₁.apply y) context = .ok s₂ →
      (Call.compose s₂ s₁).Disciplined ∧
        ∃ s, unify (.tuple (xs ++ [x])) (.tuple (ys ++ [y])) context = .ok s ∧
          ∀ t, s.apply t = (Subst.compose s₂ s₁).apply t) := by
  refine ⟨fun e n c h => ?_, fun s hs => ⟨hs.chases, hs.apply_apply⟩,
    fun a b c d context s₁ s₂ h₁ h₂ => ?_, fun xs ys x y context s₁ s₂ hlen h₁ h₂ => ?_⟩
  · have hstart : (Call.infer .initial n e).Ready := ⟨wellScoped_initial n, distinct_initial⟩
    exact (h.ready hstart).disciplined
  · obtain ⟨hapart, hwhole⟩ := unify_fn h₁ h₂
    have hready : (Call.compose s₂ s₁).Ready :=
      ⟨(unify_unifier h₂).resolved, (unify_unifier h₁).resolved, hapart⟩
    exact ⟨hready.disciplined, hwhole⟩
  · obtain ⟨hapart, hwhole⟩ := unify_tuple hlen h₁ h₂
    have hready : (Call.compose s₂ s₁).Ready :=
      ⟨(unify_unifier h₂).resolved, (unify_unifier h₁).resolved, hapart⟩
    exact ⟨hready.disciplined, hwhole⟩

/-- `fun f -> f 1` composes what it learns about `f` with what it knew, and the unifier that makes
`f` a function is the first part of one for a pair of arguments and for a curried function. -/
theorem typeOf_disciplined_application :
    ∃ s r r', unify (.var 0) (.fn .int (.var 1)) "application" = .ok s ∧
      Reaches (.infer .initial 0 (.fn "f" (.app (.var "f") (.int 1))))
        (.compose s (.compose ∅ ∅)) ∧
      (Call.compose s (.compose ∅ ∅)).Disciplined ∧
      (s.Resolved ∧ s.Chases [] (.var 0) (s.apply (.var 0))) ∧
      (unify (.fn (.var 0) .bool) (.fn (.fn .int (.var 1)) .bool) "application" = .ok r ∧
        r.apply (.var 0) = (Subst.compose ∅ s).apply (.var 0)) ∧
      unify (.tuple [.var 0, .bool]) (.tuple [.fn .int (.var 1), .bool]) "application" = .ok r' ∧
        r'.apply (.var 0) = (Subst.compose ∅ s).apply (.var 0) := by
  let θ (v : Nat) : Ty := if v = 0 then .fn .int .int else .int
  have hcommon : (Ty.var 0).subst θ = (Ty.fn .int (.var 1)).subst θ := rfl
  obtain ⟨s, hs⟩ := exists_unify "application" hcommon
  have hbool : unify (s.apply .bool) (s.apply .bool) "application" = .ok ∅ := by
    rw [show s.apply .bool = .bool from rfl, unify, Equations.solve, Equations.solve]
  have htuple : unify (.tuple [.var 0]) (.tuple [.fn .int (.var 1)]) "application" = .ok s := by
    rw [unify, Equations.solve]
    exact hs
  have hreach : Reaches (.infer .initial 0 (.fn "f" (.app (.var "f") (.int 1))))
      (.compose s (.compose ∅ ∅)) := by
    have hcallee : infer (Scope.extend TypeEnv.initial "f" (.mono (.var 0))) (.var "f") 1 =
        .ok (∅, .var 0) 1 :=
      infer_var_iff.2 ⟨_, Scope.lookup_extend_self _ _ _, rfl, rfl⟩
    have harg : infer (TypeEnv.apply (Scope.extend TypeEnv.initial "f" (.mono (.var 0))) ∅)
        (.int 1) 1 = .ok (∅, .int) 1 := rfl
    have hunify : unify ((∅ : Subst).apply (.var 0)) (.fn .int (.var 1)) "application" = .ok s := by
      rwa [Subst.resolved_empty.apply_eq_self (by simp)]
    exact .step (.step (.refl _) (.visit (.body "f" _)))
      (.appCompose hcallee harg hunify (by simp))
  obtain ⟨hcalls, hresolved, hfn, htuples⟩ := typeOf_disciplined
  obtain ⟨-, r, hr, hrapply⟩ := hfn _ _ _ _ _ _ _ hs hbool
  obtain ⟨-, r', hr', hrapply'⟩ := htuples [.var 0] [.fn .int (.var 1)] _ _ _ _ _ rfl htuple hbool
  have hs' := (unify_unifier hs).resolved
  exact ⟨s, r, r', hs, hreach, hcalls _ _ _ hreach, ⟨hs', (hresolved s hs').1 [] _⟩,
    ⟨hr, hrapply _⟩, hr', hrapply' _⟩

end MlWasm
