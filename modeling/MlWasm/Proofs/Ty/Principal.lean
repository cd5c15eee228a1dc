import MlWasm.Proofs.Ty.Checker
import MlWasm.Proofs.Ty.Completeness

/-!
The main statements about inference: it is sound, it is complete, and the type it finds for a
program is principal. They hold in every scope that is well scoped for the session, and inference
never leaves such scopes: each scope in which it looks at a part of an expression is well scoped
again.

They are about 32-bit variables. Where the counter of variables would overflow, a build that checks
for overflow stops without an answer, and nothing is said about one that does not.
-/

namespace MlWasm

open TypeEnv Session

mutual

/-- Inference of an expression in a scope, with `n` the next variable to draw, looks at one of its
parts in the scope and with the next variable that stand on the right. -/
inductive Visits : TypeEnv → Nat → Expr → TypeEnv → Nat → Expr → Prop where
  | body {env : TypeEnv} {n : Nat} (x : String) (body : Expr) :
      Visits env n (.fn x body) (env.extend x (.mono (.var n))) (n + 1) body
  | callee {env : TypeEnv} {n : Nat} (f a : Expr) : Visits env n (.app f a) env n f
  | arg {env : TypeEnv} {n n₁ : Nat} {f : Expr} {s : Subst} {t : Ty} (a : Expr) :
      infer env f n = .ok (s, t) n₁ → Visits env n (.app f a) (env.apply s) n₁ a
  | left {env : TypeEnv} {n : Nat} (op : Op) (l r : Expr) : Visits env n (.prim op l r) env n l
  | right {env : TypeEnv} {n n₁ : Nat} {l : Expr} {s : Subst} {t : Ty} (op : Op) (r : Expr) :
      infer env l n = .ok (s, t) n₁ → Visits env n (.prim op l r) (env.apply s) n₁ r
  | cond {env : TypeEnv} {n : Nat} (c t e : Expr) : Visits env n (.ite c t e) env n c
  | thenBranch {env : TypeEnv} {n n₀ : Nat} {c : Expr} {s u : Subst} {a : Ty} (t e : Expr) :
      infer env c n = .ok (s, a) n₀ → unify .bool a "if condition" = .ok u →
      Visits env n (.ite c t e) (env.apply (.compose u s)) n₀ t
  | elseBranch {env : TypeEnv} {n n₀ n₁ : Nat} {c t : Expr} {s u s₂ : Subst} {a b : Ty}
      (e : Expr) :
      infer env c n = .ok (s, a) n₀ → unify .bool a "if condition" = .ok u →
      infer (env.apply (.compose u s)) t n₀ = .ok (s₂, b) n₁ →
      Visits env n (.ite c t e) ((env.apply (.compose u s)).apply s₂) n₁ e
  | value {env : TypeEnv} {n : Nat} (x : String) (v b : Expr) : Visits env n (.letIn x v b) env n v
  | letBody {env : TypeEnv} {n n₁ : Nat} {v : Expr} {s : Subst} {a : Ty} (x : String) (b : Expr) :
      infer env v n = .ok (s, a) n₁ → Visits env n (.letIn x v b)
        ((env.apply s).extend x ((env.apply s).generalize a)) n₁ b
  | recBody {env : TypeEnv} {n : Nat} (f x : String) (b r : Expr) :
      Visits env n (.letRec f x b r)
        ((env.extend f (.mono (.fn (.var n) (.var (n + 1))))).extend x (.mono (.var n))) (n + 2) b
  | rest {env : TypeEnv} {n n₁ : Nat} {f x : String} {b : Expr} {s u : Subst} {a : Ty} (r : Expr) :
      infer ((env.extend f (.mono (.fn (.var n) (.var (n + 1))))).extend x (.mono (.var n))) b
        (n + 2) = .ok (s, a) n₁ →
      unify (s.apply (.var (n + 1))) a "let rec body" = .ok u →
      Visits env n (.letRec f x b r)
        ((env.apply (.compose u s)).extend f ((env.apply (.compose u s)).generalize
          ((Subst.compose u s).apply (.fn (.var n) (.var (n + 1)))))) n₁ r
  | elt {env env' : TypeEnv} {n n' : Nat} {es : List Expr} {e : Expr} :
      VisitsAll env n es env' n' e → Visits env n (.tuple es) env' n' e

inductive VisitsAll : TypeEnv → Nat → List Expr → TypeEnv → Nat → Expr → Prop where
  | head {env : TypeEnv} {n : Nat} (e : Expr) (es : List Expr) :
      VisitsAll env n (e :: es) env n e
  | tail {env env' : TypeEnv} {n n₁ n' : Nat} {e e' : Expr} {es : List Expr} {s : Subst} {t : Ty} :
      infer env e n = .ok (s, t) n₁ → VisitsAll (env.apply s) n₁ es env' n' e' →
      VisitsAll env n (e :: es) env' n' e'

end

theorem VisitsAll.wellScoped {env env' : TypeEnv} {n n' : Nat} {es : List Expr} {e : Expr}
    (h : VisitsAll env n es env' n' e) (hw : env.WellScoped n) : env'.WellScoped n' := by
  induction es generalizing env n with
  | nil => nomatch h
  | cons d es ih =>
      cases h with
      | head => exact hw
      | tail h₁ h => exact ih h (hw.apply (inferred d hw h₁).narrows)

theorem Visits.wellScoped {env env' : TypeEnv} {n n' : Nat} {e e' : Expr}
    (h : Visits env n e env' n' e') (hw : env.WellScoped n) : env'.WellScoped n' := by
  cases h with
  | body x _ => exact hw.extend_fresh x
  | callee | left | cond | value => exact hw
  | arg _ h => exact hw.apply (inferred _ hw h).narrows
  | right _ _ h => exact hw.apply (inferred _ hw h).narrows
  | thenBranch _ _ h hu => exact hw.apply ((inferred _ hw h).isBool hw hu).narrows
  | elseBranch _ h hu h₂ =>
      have hscope := hw.apply ((inferred _ hw h).isBool hw hu).narrows
      exact hscope.apply (inferred _ hscope h₂).narrows
  | letBody x _ h =>
      have hvalue := inferred _ hw h
      exact (hw.apply hvalue.narrows).extend_generalize x (hvalue.clear.lt hw hvalue.narrows.le)
  | recBody f x => exact hw.extend_recursive f x
  | rest _ h hu =>
      have hbody := inferred _ (hw.extend_recursive _ _) h
      have hle := hbody.narrows.le
      obtain ⟨hn, -⟩ := hbody.recursive hw hu
      exact (hw.apply hn).extend_generalize _
        (((hn.clear_apply (.inr ⟨Nat.le_refl n, by omega⟩)).fn
          (hn.clear_apply (.inr ⟨Nat.le_succ n, by omega⟩))).lt hw hn.le)
  | elt h => exact h.wellScoped hw

/-- A program with a type has a principal one, whatever variables it takes. -/
theorem exists_session {e : Expr} {t : Ty} (h : HasType .initial e t) (n : Nat) :
    ∃ u n', Session.typeOf e n = .ok u n' ∧ ∃ ρ : Nat → Ty, u.subst ρ = t := by
  have hclosed : HasType (TypeEnv.initial.subst .var) e t :=
    h.mono specializes_self_subst_var e
  obtain ⟨s, u, n', ρ, hfound⟩ := found e (wellScoped_initial n) hclosed
  exact ⟨u, n', typeOf_eq_ok.2 ⟨s, u, hfound.success,
    (hfound.inferred.clear.apply_eq hfound.inferred.narrows.resolved).symm⟩, ρ, hfound.ty⟩

theorem exists_typeOf {e : Expr} {t : Ty} (h : HasType .initial e t) :
    ∃ u, e.typeOf = .ok u ∧ ∃ ρ : Nat → Ty, u.subst ρ = t := by
  obtain ⟨u, n', hrun, hu⟩ := exists_session h 0
  exact ⟨u, by simp only [Expr.typeOf, EStateM.run, hrun], hu⟩

end MlWasm
