import MlWasm.Proofs.Ty.Renaming
import MlWasm.Ty.Infer

/-!
Inference does not depend on the session. The number a session starts at is the number of the first
variable it draws, and nothing but these draws brings variables in. So two sessions that start apart
stay as far apart all along, and what they come to, a type or an error, differs by that distance in
every variable.
-/

namespace MlWasm

namespace Session

/-- The results are those of sessions `k` apart. -/
def Distant {α : Type} (k : Nat) (R : α → α → Prop) :
    EStateM.Result TypeError Nat α → EStateM.Result TypeError Nat α → Prop
  | .ok a n, .ok b m => R a b ∧ m = n + k
  | .error e n, .error e' m => e' = e.rename (· + k) ∧ m = n + k
  | _, _ => False

/-- Started `k` apart, the computations end `k` apart. -/
def Shifted {α : Type} (k : Nat) (R : α → α → Prop) (x y : Session α) : Prop :=
  ∀ n, Distant k R (x n) (y (n + k))

variable {α β : Type} {k : Nat} {R : α → α → Prop} {S : β → β → Prop}

theorem Shifted.bind {x y : Session α} {g h : α → Session β} (hxy : Shifted k R x y)
    (hgh : ∀ a b, R a b → Shifted k S (g a) (h b)) : Shifted k S (x >>= g) (y >>= h) := by
  intro n
  have hfirst := hxy n
  simp only [Bind.bind, EStateM.bind]
  cases hx : x n <;> cases hy : y (n + k) <;> rw [hx, hy] at hfirst
  case ok.ok a m b m' =>
    obtain ⟨hR, rfl⟩ := hfirst
    exact hgh a b hR m
  case error.error => exact hfirst
  all_goals exact hfirst.elim

theorem shifted_pure {a b : α} (h : R a b) : Shifted k R (pure a) (pure b) := fun _ => ⟨h, rfl⟩

theorem shifted_throw (e : TypeError) :
    Shifted k R (throw e) (throw (e.rename (· + k))) := fun _ => ⟨rfl, rfl⟩

theorem shifted_fresh : Shifted k (fun t u => u = t.rename (· + k)) fresh fresh := fun n =>
  ⟨rfl, Nat.add_right_comm n k 1⟩

theorem shifted_solve {r r' : Except TypeError Subst}
    (h : Except.Renamed (· + k) (Subst.Renamed (· + k)) r r') :
    Shifted k (Subst.Renamed (· + k)) (solve r) (solve r') := by
  cases r <;> cases r'
  case error.error e e' =>
    obtain rfl : e' = e.rename (· + k) := h
    exact shifted_throw e
  case ok.ok => exact shifted_pure h
  all_goals exact h.elim

/-! ### Steps of inference -/

theorem shifted_unify (a b : Ty) (context : String) :
    Shifted k (Subst.Renamed (· + k)) (solve (unify a b context))
      (solve (unify (a.rename (· + k)) (b.rename (· + k)) context)) :=
  shifted_solve (unify_renamed (add_left_injective k) a b context)

theorem shifted_freshen (vars : List Nat) :
    Shifted k (Subst.Renamed (· + k)) (freshen vars) (freshen (vars.map (· + k))) := by
  have hfold (acc acc' : Subst) (h : Subst.Renamed (· + k) acc acc') :
      Shifted k (Subst.Renamed (· + k))
        (vars.foldlM (fun acc v => do return .compose (.singleton v (← fresh)) acc) acc)
        ((vars.map (· + k)).foldlM
          (fun acc v => do return .compose (.singleton v (← fresh)) acc) acc') := by
    induction vars generalizing acc acc' with
    | nil => exact shifted_pure h
    | cons v vars ih =>
        simp only [List.map_cons, List.foldlM_cons]
        refine .bind (.bind shifted_fresh fun t u ht => ?_) ih
        subst ht
        exact shifted_pure
          ((Subst.renamed_singleton (add_left_injective k) v t).compose (add_left_injective k) h)
  exact hfold ∅ ∅ (Subst.renamed_empty _)

theorem shifted_instantiate (σ : Scheme) :
    Shifted k (fun t u => u = t.rename (· + k)) (instantiate σ)
      (instantiate (σ.rename (· + k))) := by
  unfold instantiate Inference.instantiate
  have hempty : (σ.rename (· + k)).vars.isEmpty = σ.vars.isEmpty := by simp [Scheme.rename]
  rw [hempty]
  split
  · exact shifted_pure rfl
  · refine .bind (shifted_freshen σ.vars) fun s s' hs => shifted_pure ?_
    exact hs.apply (add_left_injective k) σ.ty

theorem demandInts_renamed (left right : Ty) :
    Except.Renamed (· + k) (Subst.Renamed (· + k)) (demandInts left right)
      (demandInts (left.rename (· + k)) (right.rename (· + k))) := by
  have hf := add_left_injective k
  refine .bind (unify_renamed hf .int left _) fun s₁ s₁' h₁ => ?_
  rw [h₁.apply hf]
  exact .bind (unify_renamed hf .int _ _) fun s₂ s₂' h₂ => h₂.compose hf h₁

/-! ### Inference -/

/-- An inferred substitution and the type beside it, each renamed. -/
def Pair (k : Nat) (a b : Subst × Ty) : Prop :=
  Subst.Renamed (· + k) a.1 b.1 ∧ b.2 = a.2.rename (· + k)

def PairAll (k : Nat) (a b : Subst × List Ty) : Prop :=
  Subst.Renamed (· + k) a.1 b.1 ∧ b.2 = a.2.map (Ty.rename (· + k))

theorem Shifted.andThen {x y : Session (Subst × Ty)} {g h : Subst × Ty → Session β}
    (hxy : Shifted k (Pair k) x y)
    (hgh : ∀ s s' t, Subst.Renamed (· + k) s s' →
      Shifted k S (g (s, t)) (h (s', t.rename (· + k)))) :
    Shifted k S (x >>= g) (y >>= h) := by
  refine hxy.bind ?_
  rintro ⟨s, t⟩ ⟨s', _⟩ ⟨hs, rfl⟩
  exact hgh s s' t hs

variable (k)

mutual

theorem shifted_infer (env : TypeEnv) (e : Expr) :
    Shifted k (Pair k) (infer env e) (infer (env.rename (· + k)) e) := by
  have hf := add_left_injective k
  cases e with
  | int n => exact shifted_pure ⟨Subst.renamed_empty _, rfl⟩
  | bool b => exact shifted_pure ⟨Subst.renamed_empty _, rfl⟩
  | unit => exact shifted_pure ⟨Subst.renamed_empty _, rfl⟩
  | var x =>
      rw [infer, infer, Inference.infer, Inference.infer, TypeEnv.lookup_rename]
      cases env.lookup x with
      | none => exact shifted_throw (.unboundVariable x)
      | some σ =>
          exact .bind (shifted_instantiate σ) fun t u ht =>
            shifted_pure ⟨Subst.renamed_empty _, ht⟩
  | prim op l r =>
      rw [infer, infer, Inference.infer, Inference.infer]
      refine .andThen (shifted_infer env l) fun s₁ s₁' left h₁ => ?_
      simp only [TypeEnv.rename_apply hf h₁]
      refine .andThen (shifted_infer (env.apply s₁) r) fun s₂ s₂' right h₂ => ?_
      have hs := h₂.compose hf h₁
      have hdemand := demandInts_renamed (k := k) (s₂.apply left) right
      simp only [h₂.apply hf, hs.apply hf]
      cases hx : demandInts (s₂.apply left) right <;>
        cases hy : demandInts ((s₂.apply left).rename (· + k)) (right.rename (· + k)) <;>
        rw [hx, hy] at hdemand
      case error.error => exact shifted_throw (.operands op _ _)
      case ok.ok s₃ s₃' =>
        refine shifted_pure ⟨hdemand.compose hf hs, ?_⟩
        cases op.isArithmetic <;> rfl
      all_goals exact hdemand.elim
  | ite c t e =>
      rw [infer, infer, Inference.infer, Inference.infer]
      refine .andThen (shifted_infer env c) fun s₀ s₀' cond h₀ => ?_
      refine .bind (shifted_unify .bool cond "if condition") fun isBool isBool' hbool => ?_
      have h₁ := hbool.compose hf h₀
      simp only [TypeEnv.rename_apply hf h₁]
      refine .andThen (shifted_infer _ t) fun s₂ s₂' thenTy h₂ => ?_
      simp only [TypeEnv.rename_apply hf h₂]
      refine .andThen (shifted_infer _ e) fun s₃ s₃' elseTy h₃ => ?_
      simp only [h₃.apply hf]
      refine .bind (shifted_unify _ elseTy "if branches") fun s₄ s₄' h₄ => ?_
      have hs := h₄.compose hf (h₃.compose hf (h₂.compose hf h₁))
      exact shifted_pure ⟨hs, hs.apply hf thenTy⟩
  | fn x body =>
      rw [infer, infer, Inference.infer, Inference.infer]
      refine .bind shifted_fresh fun param _ hparam => ?_
      subst hparam
      refine .andThen (shifted_infer (env.extend x (.mono param)) body) fun s s' result hs => ?_
      exact shifted_pure ⟨hs, by simp [hs.apply hf]⟩
  | app f a =>
      rw [infer, infer, Inference.infer, Inference.infer]
      refine .andThen (shifted_infer env f) fun s₁ s₁' callee h₁ => ?_
      simp only [TypeEnv.rename_apply hf h₁]
      refine .andThen (shifted_infer _ a) fun s₂ s₂' arg h₂ => ?_
      refine .bind shifted_fresh fun result _ hresult => ?_
      subst hresult
      simp only [h₂.apply hf]
      refine .bind (shifted_unify _ (.fn arg result) "application") fun s₃ s₃' h₃ => ?_
      have hs := h₃.compose hf (h₂.compose hf h₁)
      exact shifted_pure ⟨hs, hs.apply hf result⟩
  | letIn x value body =>
      rw [infer, infer, Inference.infer, Inference.infer]
      refine .andThen (shifted_infer env value) fun s₁ s₁' valueTy h₁ => ?_
      simp only [TypeEnv.rename_apply hf h₁,
        TypeEnv.rename_generalize (add_left_strictMono (a := k))]
      refine .andThen (shifted_infer (Scope.extend (env.apply s₁) x _) body) ?_
      intro s₂ s₂' bodyTy h₂
      have hs := h₂.compose hf h₁
      exact shifted_pure ⟨hs, hs.apply hf bodyTy⟩
  | letRec f x body rest =>
      rw [infer, infer, Inference.infer, Inference.infer]
      refine .bind shifted_fresh fun domain _ hdomain => ?_
      refine .bind shifted_fresh fun codomain _ hcodomain => ?_
      subst hdomain hcodomain
      refine .andThen (shifted_infer ((env.extend f (.mono (.fn domain codomain))).extend x
        (.mono domain)) body) fun s₁ s₁' bodyTy h₁ => ?_
      simp only [h₁.apply hf]
      refine .bind (shifted_unify _ bodyTy "let rec body") fun s₂ s₂' h₂ => ?_
      have h₃ := h₂.compose hf h₁
      have hfn := h₃.apply hf (.fn domain codomain)
      rw [Ty.rename_fn] at hfn
      simp only [TypeEnv.rename_apply hf h₃, hfn,
        TypeEnv.rename_generalize (add_left_strictMono (a := k))]
      refine .andThen (shifted_infer (Scope.extend (env.apply _) f _) rest) ?_
      intro s₄ s₄' restTy h₄
      have hs := h₄.compose hf h₃
      exact shifted_pure ⟨hs, hs.apply hf restTy⟩
  | tuple elts =>
      rw [infer, infer, Inference.infer, Inference.infer]
      refine .bind (shifted_inferAll env elts (Subst.renamed_empty _)) ?_
      rintro ⟨s, tys⟩ ⟨s', _⟩ ⟨hs, rfl⟩
      exact shifted_pure ⟨hs, by simp [hs.apply hf, Function.comp_def]⟩

theorem shifted_inferAll (env : TypeEnv) (es : List Expr) {known known' : Subst}
    (h : Subst.Renamed (· + k) known known') :
    Shifted k (PairAll k) (inferAll env known es)
      (inferAll (env.rename (· + k)) known' es) := by
  have hf := add_left_injective k
  cases es with
  | nil => exact shifted_pure ⟨h, rfl⟩
  | cons e es =>
      rw [inferAll, inferAll, Inference.inferAll, Inference.inferAll]
      refine .andThen (shifted_infer env e) fun s s' t hs => ?_
      simp only [TypeEnv.rename_apply hf hs]
      refine .bind (shifted_inferAll (env.apply s) es (hs.compose hf h)) ?_
      rintro ⟨r, ts⟩ ⟨r', _⟩ ⟨hr, rfl⟩
      exact shifted_pure ⟨hr, rfl⟩

end

theorem shifted_typeOf (e : Expr) :
    Shifted k (fun t u => u = t.rename (· + k)) (typeOf e) (typeOf e) :=
  (shifted_infer k .initial e).andThen fun _ _ t hs =>
    shifted_pure (hs.apply (add_left_injective k) t)

/-- What a run comes to, with its variables and the next unused one renamed. -/
def renamed (f : Nat → Nat) :
    EStateM.Result TypeError Nat Ty → EStateM.Result TypeError Nat Ty
  | .ok t n => .ok (t.rename f) (f n)
  | .error e n => .error (e.rename f) (f n)

theorem renamed_renamed (f g : Nat → Nat) (r : EStateM.Result TypeError Nat Ty) :
    renamed g (renamed f r) = renamed (fun v => g (f v)) r := by
  cases r with
  | ok t n => simp [renamed, Ty.rename_rename]
  | error e n => cases e <;> simp [renamed, TypeError.rename, Ty.rename_rename]

theorem typeOf_eq_renamed (e : Expr) (n : Nat) :
    (typeOf e).run n = renamed (· + n) ((typeOf e).run 0) := by
  have h := shifted_typeOf n e 0
  rw [Nat.zero_add] at h
  simp only [EStateM.run]
  cases h₀ : typeOf e 0 <;> cases hn : typeOf e n <;> rw [h₀, hn] at h
  case ok.ok =>
    obtain ⟨rfl, rfl⟩ := h
    rfl
  case error.error =>
    obtain ⟨rfl, rfl⟩ := h
    rfl
  all_goals exact h.elim

end Session

open Session

/-- The type of a program, or the error, is the one that a session starting at zero comes to, with
every variable as much higher as the session starts. So of two sessions each comes to what the other
one does with its variables renumbered, and to types that are equal up to renaming. -/
theorem typeOf_renumbered (e : Expr) :
    (∀ n, (typeOf e).run n = renamed (· + n) ((typeOf e).run 0)) ∧
    (∀ a b, (typeOf e).run b = renamed (fun i => i - a + b) ((typeOf e).run a)) ∧
    ∀ a b t t' n n', (typeOf e).run a = .ok t n → (typeOf e).run b = .ok t' n' →
      t.alphaEq t' = true := by
  refine ⟨typeOf_eq_renamed e, fun a b => ?_, fun a b t t' n n' ht ht' => ?_⟩
  · rw [typeOf_eq_renamed e a, typeOf_eq_renamed e b, renamed_renamed]
    simp only [Nat.add_sub_cancel]
  · rw [typeOf_eq_renamed] at ht ht'
    cases h : (typeOf e).run 0 with
    | error err m =>
        rw [h] at ht
        cases ht
    | ok u m =>
        rw [h] at ht ht'
        cases ht
        cases ht'
        have hinj : Set.InjOn (fun i => i - a + b) {v | v ∈ (u.rename (· + a)).vars} := by
          intro v hv w hw heq
          obtain ⟨v, -, rfl⟩ := Ty.mem_vars_rename.1 hv
          obtain ⟨w, -, rfl⟩ := Ty.mem_vars_rename.1 hw
          simp only [Nat.add_sub_cancel] at heq
          omega
        have heq := Ty.alphaEq_rename hinj
        rw [Ty.rename_rename] at heq
        simpa only [Nat.add_sub_cancel] using heq

/-- `fun x -> fun y -> (y, x)` in two sessions. -/
theorem typeOf_renumbered_swap :
    let e : Expr := .fn "x" (.fn "y" (.tuple [.var "y", .var "x"]))
    let t : Ty := .fn (.var 3) (.fn (.var 4) (.tuple [.var 4, .var 3]))
    let t' : Ty := .fn (.var 8) (.fn (.var 9) (.tuple [.var 9, .var 8]))
    (typeOf e).run 3 = .ok t 5 ∧ (typeOf e).run 8 = .ok t' 10 ∧ t.alphaEq t' = true := by
  intro e t t'
  have h : (typeOf e).run 3 = .ok t 5 := rfl
  have h' : (typeOf e).run 8 = .ok t' 10 := by
    rw [(typeOf_renumbered e).2.1 3 8, h]
    rfl
  exact ⟨h, h', (typeOf_renumbered e).2.2 3 8 t t' 5 10 h h'⟩

end MlWasm
