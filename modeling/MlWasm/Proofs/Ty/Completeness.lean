import MlWasm.Proofs.Ty.Soundness

/-!
Inference finds every derivation. Let an expression have a type under a scope in which the variables
were replaced in some way. Then inference under the scope as it was succeeds, and both the type and
the replacement come from what it finds by one further substitution. So the inferred type is
principal, and inference fails only where there is no type.

The induction is on the expression. It keeps the further substitution for all variables drawn so
far and not only for those of the scope, since the later parts of a construct are inferred under
what the earlier ones have taught about any of them.
-/

namespace MlWasm

open TypeEnv Session

/-- After `s`, `ρ` is `θ` on the variables below `n`. -/
def Subst.Agrees (n : Nat) (s : Subst) (ρ θ : Nat → Ty) : Prop :=
  ∀ v < n, (s.image v).subst ρ = θ v

theorem TypeEnv.Narrows.image_lt {env : TypeEnv} {n n' : Nat} {s : Subst} (hs : env.Narrows n s n')
    (hw : env.WellScoped n) {v w : Nat} (hv : v < n') (h : w ∈ (s.image v).vars) : w < n' := by
  rcases Subst.mem_vars_image h with ⟨rfl, -⟩ | ⟨-, hm⟩
  · exact hv
  · exact hw.lt_of_reach hs.le (hs.mentions w hm)

namespace Subst.Agrees

variable {env : TypeEnv} {n n₁ n₂ : Nat} {s s₁ s₂ : Subst} {ρ ρ₁ ρ₂ θ : Nat → Ty} {t : Ty}

theorem subst (h : Subst.Agrees n s ρ θ) (ht : ∀ v ∈ t.vars, v < n) :
    (t.subst s.image).subst ρ = t.subst θ := by
  rw [Ty.subst_subst]
  exact Ty.subst_congr t fun v hv => h v (ht v hv)

/-- What was learned first and then something more. -/
theorem compose (h₁ : Subst.Agrees n s₁ ρ₁ θ) (h₂ : Subst.Agrees n₁ s₂ ρ₂ ρ₁)
    (hf : env.Follows n s₁ s₂ n₂) (hs : env.Narrows n s₁ n₁) (hw : env.WellScoped n) :
    Subst.Agrees n (.compose s₂ s₁) ρ₂ θ := by
  intro v hv
  rw [hf.image, h₂.subst fun w => hs.image_lt hw (Nat.lt_of_lt_of_le hv hs.le)]
  exact h₁ v hv

/-- Variables that were not drawn yet do not matter. -/
theorem congr (h : Subst.Agrees n s ρ₁ θ) (hs : env.Narrows n s n₁) (hw : env.WellScoped n)
    (hρ : ∀ v < n₁, ρ₂ v = ρ₁ v) : Subst.Agrees n s ρ₂ θ := by
  intro v hv
  rw [← h v hv]
  exact Ty.subst_congr _ fun w hmem => hρ w (hs.image_lt hw (Nat.lt_of_lt_of_le hv hs.le) hmem)

end Subst.Agrees

/-- A unifier changes nothing for a substitution that solves the equation. -/
theorem Subst.Unifier.agrees {s : Subst} {a b : Ty} {ρ : Nat → Ty} (h : s.Unifier a b)
    (hρ : a.subst ρ = b.subst ρ) (n : Nat) : Subst.Agrees n s ρ ρ :=
  fun v _ => h.general ρ hρ v

/-- `θ` with one more variable given a type. -/
def assigned (θ : Nat → Ty) (n : Nat) (t : Ty) : Nat → Ty := fun v => if v = n then t else θ v

@[simp] theorem assigned_self (θ : Nat → Ty) (n : Nat) (t : Ty) : assigned θ n t n = t :=
  if_pos rfl

theorem assigned_of_lt {θ : Nat → Ty} {n v : Nat} (t : Ty) (h : v < n) :
    assigned θ n t v = θ v :=
  if_neg (by omega)

/-- A derivation under a replaced scope is one under the scope that inference has narrowed. -/
theorem TypeEnv.After.carry {Γ env : TypeEnv} {n n₁ : Nat} {s : Subst} {θ ρ : Nat → Ty}
    (h : Γ.After env n s n₁) (hρ : Subst.Agrees n s ρ θ) :
    (env.subst θ).Specializes (Γ.subst ρ) :=
  (specializes_subst fun v hv => (hρ v (h.start.free_lt v hv)).symm).trans (h.toward ρ)

/-- What was generalized in a derivation is generalized by inference too: the type that inference
finds for the bound expression has, over the narrowed scope, all those instances. -/
theorem TypeEnv.After.generalizes {Γ env : TypeEnv} {n n₁ : Nat} {s : Subst} {θ ρ : Nat → Ty}
    (h : Γ.After env n s n₁) (hρ : Subst.Agrees n s ρ θ) {vars : List Nat}
    (hfree : ∀ v ∈ vars, ¬ (env.subst θ).Free v) (A : Ty) (x : String) :
    TypeEnv.Specializes ((env.subst θ).extend x ⟨vars, A.subst ρ⟩)
      (TypeEnv.subst ρ (Γ.extend x (Γ.generalize A))) := by
  have hscope := h.carry hρ
  refine (hscope.extend x fun t ht => ?_).trans (extend_subst ρ Γ x _)
  obtain ⟨f, hf, rfl⟩ := ht
  refine Scheme.instance_subst.2
    ⟨fun v => (ρ v).subst f, fun v hv => ?_, Ty.subst_subst ρ f A⟩
  -- A variable that the narrowed scope mentions cannot lead to one that was generalized.
  refine Ty.subst_eq_self fun w hw => hf w fun hmem => hfree w hmem ?_
  exact hscope.free (free_subst.2 ⟨v, (free_generalize.1 hv).2, hw⟩)

/-- Inference succeeds, and what it finds gives `t` and `θ` by a further substitution `ρ`. -/
structure Found (env : TypeEnv) (n : Nat) (e : Expr) (θ : Nat → Ty) (t : Ty) (s : Subst) (u : Ty)
    (n' : Nat) (ρ : Nat → Ty) : Prop where
  success : infer env e n = .ok (s, u) n'
  inferred : Inferred env n e s u n'
  ty : u.subst ρ = t
  agrees : Subst.Agrees n s ρ θ

structure FoundAll (env : TypeEnv) (known : Subst) (n : Nat) (es : List Expr) (θ : Nat → Ty)
    (ts : List Ty) (r s : Subst) (us : List Ty) (n' : Nat) (ρ : Nat → Ty) : Prop where
  success : inferAll env known es n = .ok (s, us) n'
  inferred : InferredAll env known n es r s us n'
  tys : us.map (fun u => (s.apply u).subst ρ) = ts
  agrees : Subst.Agrees n r ρ θ

namespace Found

variable {env : TypeEnv} {n n₀ n₁ n₂ : Nat} {s s₀ s₁ s₂ s₃ : Subst} {a b t u u₁ u₂ : Ty}
  {θ ρ ρ₁ ρ₂ : Nat → Ty}

theorem after {e : Expr} (h : Found env n e θ t s u n₁ ρ) (hw : env.WellScoped n) :
    (env.apply s).After env n s n₁ :=
  .apply hw h.inferred.narrows

theorem lt {e : Expr} (h : Found env n e θ t s u n₁ ρ) (hw : env.WellScoped n) :
    ∀ v ∈ u.vars, v < n₁ :=
  h.inferred.clear.lt hw h.inferred.narrows.le

/-- The next part is typed under the narrowed scope. -/
theorem next {e e' : Expr} (h : Found env n e θ t s u n₁ ρ) (hw : env.WellScoped n)
    (h' : HasType (env.subst θ) e' b) : HasType ((env.apply s).subst ρ) e' b :=
  h'.mono ((h.after hw).carry h.agrees) e'

/-- The substitutions of two parts in turn. -/
theorem compose {e e' : Expr} (h₁ : Found env n e θ a s₁ u₁ n₁ ρ₁) (hw : env.WellScoped n)
    (h₂ : Found (env.apply s₁) n₁ e' ρ₁ b s₂ u₂ n₂ ρ₂) :
    Subst.Agrees n (.compose s₂ s₁) ρ₂ θ :=
  h₁.agrees.compose h₂.agrees ((h₁.after hw).follows h₂.inferred.narrows) h₁.inferred.narrows hw

theorem var {x : String} (hw : env.WellScoped n) (h : HasType (env.subst θ) (.var x) t) :
    ∃ s u n' ρ, Found env n (.var x) θ t s u n' ρ := by
  cases h with
  | var hx ht =>
      rw [lookup_subst, Option.map_eq_some_iff] at hx
      obtain ⟨σ, hx, rfl⟩ := hx
      obtain ⟨f, hf, rfl⟩ := Scheme.instance_subst.1 ht
      obtain ⟨r, hr, hren, hbinds⟩ :=
        instantiate_ok (n := n) fun v hv => hw.quantified_lt v ⟨x, σ, hx, hv⟩
      have hsuccess := infer_var_iff.2 ⟨σ, hx, hr, rfl⟩
      -- A fresh variable gets the type of the quantified variable it stands for.
      let ρ (w : Nat) : Ty :=
        open Classical in if h : ∃ v, r.get? v = some (.var w) then f h.choose else θ w
      have hold (w : Nat) (hlt : w < n) : ρ w = θ w := dif_neg fun ⟨v, hv⟩ => by
        obtain ⟨k, hk, hlo, -⟩ := hren.new v _ hv
        cases hk
        omega
      refine ⟨∅, _, _, ρ, hsuccess, .var hw hsuccess, ?_, fun v hv => ?_⟩
      · rw [Ty.subst_subst]
        refine Ty.subst_congr _ fun v hv => ?_
        by_cases hb : r.Binds v
        · obtain ⟨t, hget⟩ := hb
          obtain ⟨k, rfl, -⟩ := hren.new v t hget
          have hex : ∃ v, r.get? v = some (.var k) := ⟨v, hget⟩
          rw [Subst.image_of_get? hget, Ty.subst, show ρ k = f hex.choose from dif_pos hex,
            hren.injective _ _ _ hex.choose_spec hget]
        · have hfree : σ.Free v := ⟨hv, fun hq => hb ((hbinds v).2 hq)⟩
          rw [Subst.image_of_not_binds hb, Ty.subst, hf v hfree]
          exact hold v (hw.free_lt v ⟨x, σ, hx, hfree⟩)
      · rw [Subst.image_empty, Ty.subst]
        exact hold v hv

theorem fn {x : String} {body : Expr} (h : Found (env.extend x (.mono (.var n))) (n + 1) body
    (assigned θ n a) b s u n₁ ρ) :
    Found env n (.fn x body) θ (.fn a b) s (.fn (s.apply (.var n)) u) n₁ ρ := by
  refine ⟨infer_fn_iff.2 ⟨u, h.success, rfl⟩, h.inferred.fn, ?_, fun v hv => ?_⟩
  · have hparam := h.agrees n (Nat.lt_succ_self n)
    rw [assigned_self] at hparam
    rw [h.inferred.narrows.resolved.apply_eq, Ty.subst, Ty.subst, hparam, h.ty]
  · rw [h.agrees v (by omega), assigned_of_lt a hv]

theorem app {callee arg : Expr} (hw : env.WellScoped n)
    (h₁ : Found env n callee θ (.fn a t) s₁ u₁ n₁ ρ₁)
    (h₂ : Found (env.apply s₁) n₁ arg ρ₁ a s₂ u₂ n₂ ρ₂) :
    ∃ s u n' ρ, Found env n (.app callee arg) θ t s u n' ρ := by
  have hn := (h₁.after hw).compose h₂.inferred.narrows
  have hw₁ := (h₁.after hw).wellScoped
  -- The variable drawn for the result gets the result type.
  have hold (v : Nat) (hv : v < n₂) : assigned ρ₂ n₂ t v = ρ₂ v := assigned_of_lt t hv
  have hsolves : (s₂.apply u₁).subst (assigned ρ₂ n₂ t) =
      (Ty.fn u₂ (.var n₂)).subst (assigned ρ₂ n₂ t) := by
    rw [h₂.inferred.narrows.resolved.apply_eq,
      (h₂.agrees.congr h₂.inferred.narrows hw₁ hold).subst (h₁.lt hw), h₁.ty, Ty.subst, Ty.subst,
      assigned_self, Ty.subst_congr u₂ fun v hv => hold v (h₂.lt hw₁ v hv), h₂.ty]
  obtain ⟨s₃, h₃⟩ := exists_unify "application" hsolves
  have hu := unify_unifier h₃
  have happ := Inferred.app hw h₁.inferred h₂.inferred h₃
  have hresult := clear_fresh hw hn
  have hf : env.Follows n (.compose s₂ s₁) s₃ (n₂ + 1) := by
    refine TypeEnv.Clear.follows ?_ (TypeEnv.Clear.fn ?_ hresult) hu
    · rw [h₂.inferred.narrows.resolved.apply_eq]
      exact (h₁.inferred.clear.compose ((h₁.after hw).follows h₂.inferred.narrows)
        h₂.inferred.narrows.le).mono (Nat.le_succ n₂)
    · exact ((h₁.after hw).clear h₂.inferred.narrows h₂.inferred.clear).mono (Nat.le_succ n₂)
  refine ⟨_, _, _, assigned ρ₂ n₂ t, infer_app_iff.2
    ⟨s₁, u₁, n₁, s₂, u₂, n₂, s₃, h₁.success, h₂.success, h₃, rfl, rfl, rfl⟩, happ, ?_, ?_⟩
  · rw [hresult.apply_compose hn.resolved hf, Ty.subst, hu.agrees hsolves (n₂ + 1) n₂ (by omega),
      assigned_self]
  · exact ((h₁.compose hw h₂).congr hn hw hold).compose (hu.agrees hsolves n₂) hf hn hw

/-- The condition of an `if` can be made a boolean. -/
theorem isBool {c : Expr} (hw : env.WellScoped n) (h : Found env n c θ .bool s u n₁ ρ) :
    ∃ s', unify .bool u "if condition" = .ok s' ∧ Inferred env n c (.compose s' s) .bool n₁ ∧
      Subst.Agrees n (.compose s' s) ρ θ := by
  have hsolves : Ty.bool.subst ρ = u.subst ρ := h.ty.symm
  obtain ⟨s', hs'⟩ := exists_unify "if condition" hsolves
  have hu := unify_unifier hs'
  exact ⟨s', hs', h.inferred.isBool hw hs', h.agrees.compose (hu.agrees hsolves n₁)
    ((clear_of_no_vars rfl).follows h.inferred.clear hu) h.inferred.narrows hw⟩

theorem ite {c th el : Expr} {u₀ : Ty} {s' : Subst} {ρ₀ : Nat → Ty} (hw : env.WellScoped n)
    (hc : infer env c n = .ok (s₀, u₀) n₀) (hs' : unify .bool u₀ "if condition" = .ok s')
    (hcond : Inferred env n c (.compose s' s₀) .bool n₀)
    (hagrees : Subst.Agrees n (.compose s' s₀) ρ₀ θ)
    (ht : Found (env.apply (.compose s' s₀)) n₀ th ρ₀ t s₁ u₁ n₁ ρ₁)
    (he : Found ((env.apply (.compose s' s₀)).apply s₁) n₁ el ρ₁ t s₂ u₂ n₂ ρ₂) :
    ∃ s u n' ρ, Found env n (.ite c th el) θ t s u n' ρ := by
  have hΓ := After.apply hw hcond.narrows
  have hΓ₁ := hΓ.trans ht.inferred.narrows
  have hf₂ := hΓ₁.follows he.inferred.narrows
  have hthen := ht.lt hΓ.wellScoped
  have hsolves : (s₂.apply u₁).subst ρ₂ = u₂.subst ρ₂ := by
    rw [he.inferred.narrows.resolved.apply_eq, he.agrees.subst hthen, ht.ty, he.ty]
  obtain ⟨s₃, h₃⟩ := exists_unify "if branches" hsolves
  have hu := unify_unifier h₃
  have hopen := hΓ.clear ht.inferred.narrows ht.inferred.clear
  have hf₃ : env.Follows n (.compose s₂ (.compose s₁ (.compose s' s₀))) s₃ n₂ := by
    refine TypeEnv.Clear.follows ?_ (hΓ₁.clear he.inferred.narrows he.inferred.clear) hu
    rw [he.inferred.narrows.resolved.apply_eq]
    exact hopen.compose hf₂ he.inferred.narrows.le
  have hagrees₁ : Subst.Agrees n (.compose s₁ (.compose s' s₀)) ρ₁ θ :=
    hagrees.compose ht.agrees (hΓ.follows ht.inferred.narrows) hcond.narrows hw
  have hagrees₂ := hagrees₁.compose he.agrees hf₂ hΓ₁.narrows hw
  refine ⟨_, _, _, ρ₂, infer_ite_iff.2 ⟨s₀, u₀, n₀, s', _, s₁, u₁, n₁, s₂, u₂, s₃, hc, hs', rfl,
    ht.success, he.success, h₃, rfl, rfl⟩, .ite hw hcond ht.inferred he.inferred h₃, ?_, ?_⟩
  · rw [hopen.apply_compose_twice (hΓ.compose ht.inferred.narrows).resolved hf₂ hf₃, Ty.subst_subst,
      Ty.subst_congr _ fun v _ => hu.general ρ₂ hsolves v, he.agrees.subst hthen, ht.ty]
  · exact hagrees₂.compose (hu.agrees hsolves n₂) hf₃ (hΓ₁.compose he.inferred.narrows) hw

/-- Operands that a substitution makes integers can be demanded to be integers. -/
theorem exists_demandInts {left right : Ty} (hl : left.subst ρ = .int)
    (hr : right.subst ρ = .int) :
    ∃ s, demandInts left right = .ok s ∧ ∀ v, (s.image v).subst ρ = ρ v := by
  have hleft : Ty.int.subst ρ = left.subst ρ := hl.symm
  obtain ⟨s₁, h₁⟩ := exists_unify "prim left" hleft
  have hu₁ := unify_unifier h₁
  have hright : Ty.int.subst ρ = (s₁.apply right).subst ρ := by
    rw [hu₁.resolved.apply_eq, Ty.subst_subst,
      Ty.subst_congr right fun v _ => hu₁.general ρ hleft v, hr]
    rfl
  obtain ⟨s₂, h₂⟩ := exists_unify "prim right" hright
  have hu₂ := unify_unifier h₂
  have hapart : Subst.Apart s₂ s₁ := by
    intro v hb hm
    have hv := (hu₂.mentions v hm).resolve_left (by simp [Ty.vars])
    rw [hu₁.resolved.apply_eq, Ty.mem_vars_subst] at hv
    obtain ⟨w, -, hv⟩ := hv
    exact hu₁.resolved.not_binds_of_mem_image hv hb
  refine ⟨_, demandInts_eq_ok.2 ⟨s₁, s₂, h₁, h₂, rfl⟩, fun v => ?_⟩
  rw [Subst.image_compose hu₂.resolved hapart, Ty.subst_subst,
    Ty.subst_congr _ fun w _ => hu₂.general ρ hright w]
  exact hu₁.general ρ hleft v

theorem prim {op : Op} {l r : Expr} (hw : env.WellScoped n)
    (h₁ : Found env n l θ .int s₁ u₁ n₁ ρ₁)
    (h₂ : Found (env.apply s₁) n₁ r ρ₁ .int s₂ u₂ n₂ ρ₂) :
    ∃ s u n' ρ, Found env n (.prim op l r) θ op.ty s u n' ρ := by
  have hΓ := h₁.after hw
  have hleft : (s₂.apply u₁).subst ρ₂ = .int := by
    rw [h₂.inferred.narrows.resolved.apply_eq, h₂.agrees.subst (h₁.lt hw), h₁.ty]
  obtain ⟨s₃, h₃, hgeneral⟩ := exists_demandInts hleft h₂.ty
  have hlater := h₁.inferred.clear.compose (hΓ.follows h₂.inferred.narrows) h₂.inferred.narrows.le
  rw [← h₂.inferred.narrows.resolved.apply_eq] at hlater
  obtain ⟨hf, -, -⟩ :=
    demandInts_spec hlater (hΓ.clear h₂.inferred.narrows h₂.inferred.clear) h₃
  refine ⟨_, _, _, ρ₂, infer_prim_iff.2
    ⟨s₁, u₁, n₁, s₂, u₂, s₃, h₁.success, h₂.success, h₃, rfl, rfl⟩,
    .prim hw h₁.inferred h₂.inferred h₃, ?_, ?_⟩
  · split <;> simp_all [Op.ty, Ty.subst]
  · exact (h₁.compose hw h₂).compose (fun v _ => hgeneral v) hf
      (hΓ.compose h₂.inferred.narrows) hw

theorem letIn {x : String} {value body : Expr} (hw : env.WellScoped n)
    (h₁ : Found env n value θ a s₁ u₁ n₁ ρ₁)
    (h₂ : Found ((env.apply s₁).extend x ((env.apply s₁).generalize u₁)) n₁ body ρ₁ t s₂ u₂ n₂
      ρ₂) :
    ∃ s u n' ρ, Found env n (.letIn x value body) θ t s u n' ρ := by
  have hΓ := h₁.after hw
  obtain ⟨hn, hb, -⟩ := h₂.inferred.of_generalize hΓ.wellScoped (h₁.lt hw)
  refine ⟨_, _, _, ρ₂, infer_letIn_iff.2
    ⟨s₁, u₁, n₁, s₂, u₂, h₁.success, h₂.success, rfl, rfl⟩,
    .letIn hw h₁.inferred h₂.inferred, ?_, ?_⟩
  · rw [(hΓ.clear hn hb).apply_eq (hΓ.compose hn).resolved, h₂.ty]
  · exact h₁.agrees.compose h₂.agrees (hΓ.follows hn) h₁.inferred.narrows hw

/-- The body of a recursive function has the result type it was assumed to have. -/
theorem recursive {f x : String} {body : Expr}
    (h : Found ((env.extend f (.mono (.fn (.var n) (.var (n + 1))))).extend x
      (.mono (.var n))) (n + 2) body (assigned (assigned θ n a) (n + 1) b) b s u n₁ ρ) :
    ∃ s', unify (s.apply (.var (n + 1))) u "let rec body" = .ok s' ∧
      ((Subst.compose s' s).apply (.fn (.var n) (.var (n + 1)))).subst ρ = .fn a b ∧
      Subst.Agrees n (.compose s' s) ρ θ := by
  have hparam := h.agrees n (by omega)
  have hresult := h.agrees (n + 1) (by omega)
  rw [assigned_of_lt b (Nat.lt_succ_self n), assigned_self] at hparam
  rw [assigned_self] at hresult
  have hsolves : (s.apply (.var (n + 1))).subst ρ = u.subst ρ := by
    rw [h.inferred.narrows.resolved.apply_eq, Ty.subst, hresult, h.ty]
  obtain ⟨s', hs'⟩ := exists_unify "let rec body" hsolves
  obtain ⟨hn, hf⟩ := h.inferred.recursive_follows hs'
  have himage (v : Nat) : ((Subst.compose s' s).image v).subst ρ = (s.image v).subst ρ := by
    rw [hf.image, Ty.subst_subst]
    exact Ty.subst_congr _ fun w _ => (unify_unifier hs').general ρ hsolves w
  refine ⟨s', hs', ?_, fun v hv => ?_⟩
  · rw [(hf.resolved.compose hn.resolved hf.apart).apply_eq]
    simp only [Ty.subst, himage, hparam, hresult]
  · rw [himage, h.agrees v (by omega), assigned_of_lt b (by omega), assigned_of_lt a hv]

theorem letRec {f x : String} {body rest : Expr} {s' : Subst} {ρ₀ : Nat → Ty}
    (hw : env.WellScoped n)
    (hbody : Found ((env.extend f (.mono (.fn (.var n) (.var (n + 1))))).extend x
      (.mono (.var n))) (n + 2) body ρ₀ b s₁ u₁ n₁ ρ₁)
    (hs' : unify (s₁.apply (.var (n + 1))) u₁ "let rec body" = .ok s')
    (hagrees : Subst.Agrees n (.compose s' s₁) ρ₁ θ)
    (hrest : Found ((env.apply (.compose s' s₁)).extend f ((env.apply (.compose s' s₁)).generalize
      ((Subst.compose s' s₁).apply (.fn (.var n) (.var (n + 1)))))) n₁ rest ρ₁ t s₂ u₂ n₂ ρ₂) :
    ∃ s u n' ρ, Found env n (.letRec f x body rest) θ t s u n' ρ := by
  have hle := hbody.inferred.narrows.le
  obtain ⟨hn, htyped⟩ := hbody.inferred.recursive hw hs'
  have hΓ := After.apply hw hn
  obtain ⟨hn₂, hb, -⟩ := hrest.inferred.of_generalize hΓ.wellScoped
    (((hn.clear_apply (.inr ⟨Nat.le_refl n, by omega⟩)).fn
      (hn.clear_apply (.inr ⟨Nat.le_succ n, by omega⟩))).lt hw hn.le)
  refine ⟨_, _, _, ρ₂, infer_letRec_iff.2 ⟨s₁, u₁, n₁, s', _, s₂, u₂, hbody.success, hs', rfl,
    hrest.success, rfl, rfl⟩, .letRec hw hn hle htyped hrest.inferred, ?_, ?_⟩
  · rw [(hΓ.clear hn₂ hb).apply_eq (hΓ.compose hn₂).resolved, hrest.ty]
  · exact hagrees.compose hrest.agrees (hΓ.follows hn₂) hn hw

theorem tuple {es : List Expr} {r : Subst} {ts us : List Ty} (hw : env.WellScoped n)
    (h : FoundAll env ∅ n es θ ts r s us n₁ ρ) :
    Found env n (.tuple es) θ (.tuple ts) s (.tuple (us.map s.apply)) n₁ ρ := by
  refine ⟨infer_tuple_iff.2 ⟨us, h.success, rfl⟩, .tuple hw h.inferred, ?_, ?_⟩
  · rw [Ty.subst, Ty.substAll_eq_map, List.map_map, ← h.tys]
    rfl
  · intro v hv
    rw [h.inferred.image_nothing_known]
    exact h.agrees v hv

end Found

theorem FoundAll.cons {env : TypeEnv} {known : Subst} {n n₁ n₂ : Nat} {e : Expr} {es : List Expr}
    {s₁ r s : Subst} {t u : Ty} {ts us : List Ty} {θ ρ₁ ρ : Nat → Ty} (hw : env.WellScoped n)
    (hk : Settled env known n) (he : Found env n e θ t s₁ u n₁ ρ₁)
    (h : FoundAll (env.apply s₁) (.compose s₁ known) n₁ es ρ₁ ts r s us n₂ ρ) :
    FoundAll env known n (e :: es) θ (t :: ts) (.compose r s₁) s (u :: us) n₂ ρ := by
  refine ⟨inferAll_cons_iff.2 ⟨s₁, u, n₁, us, he.success, h.success, rfl⟩,
    .cons hw hk he.inferred h.inferred, ?_, ?_⟩
  · rw [List.map_cons, h.tys, InferredAll.apply_first hw hk he.inferred h.inferred,
      h.agrees.subst (he.lt hw), he.ty]
  · exact he.agrees.compose h.agrees ((he.after hw).follows h.inferred.narrows)
      he.inferred.narrows hw

/-- A name whose one type is given through a variable. -/
theorem TypeEnv.specializes_extend_mono {Γ Δ : TypeEnv} {ζ : Nat → Ty} (A : Ty) {a : Ty}
    (h : Δ.Specializes (Γ.subst ζ)) (ha : A.subst ζ = a) (x : String) :
    TypeEnv.Specializes (Δ.extend x (.mono a)) (TypeEnv.subst ζ (Γ.extend x (.mono A))) := by
  refine (h.extend x fun t ht => ?_).trans (extend_subst ζ Γ x _)
  rw [Scheme.instance_mono] at ht
  rw [Scheme.instance_mono_subst, ha, ht]

theorem specializes_assigned {env : TypeEnv} {n : Nat} (hw : env.WellScoped n) (θ : Nat → Ty)
    (a : Ty) (x : String) :
    TypeEnv.Specializes ((env.subst θ).extend x (.mono a))
      (TypeEnv.subst (assigned θ n a) (env.extend x (.mono (.var n)))) :=
  specializes_extend_mono (.var n)
    (specializes_subst fun v hv => (assigned_of_lt a (hw.free_lt v hv)).symm)
    (assigned_self θ n a) x

theorem specializes_assigned_recursive {env : TypeEnv} {n : Nat} (hw : env.WellScoped n)
    (θ : Nat → Ty) (a b : Ty) (f x : String) :
    TypeEnv.Specializes (((env.subst θ).extend f (.mono (.fn a b))).extend x (.mono a))
      (TypeEnv.subst (assigned (assigned θ n a) (n + 1) b)
        ((env.extend f (.mono (.fn (.var n) (.var (n + 1))))).extend x (.mono (.var n)))) := by
  have hparam : assigned (assigned θ n a) (n + 1) b n = a := by
    rw [assigned_of_lt b (Nat.lt_succ_self n), assigned_self]
  refine specializes_extend_mono (.var n) ?_ (by simpa only [Ty.subst] using hparam) x
  refine specializes_extend_mono (.fn (.var n) (.var (n + 1)))
    (specializes_subst fun v hv => ?_) ?_ f
  · have := hw.free_lt v hv
    rw [assigned_of_lt b (by omega), assigned_of_lt a this]
  · simp only [Ty.subst, hparam, assigned_self]

mutual

theorem found (e : Expr) {env : TypeEnv} {n : Nat} {θ : Nat → Ty} {t : Ty}
    (hw : env.WellScoped n) (h : HasType (env.subst θ) e t) :
    ∃ s u n' ρ, Found env n e θ t s u n' ρ := by
  cases e with
  | int k =>
      cases h
      exact ⟨∅, .int, n, θ, rfl, inferred _ hw rfl, rfl, fun v _ => by rw [Subst.image_empty]; rfl⟩
  | bool b =>
      cases h
      exact ⟨∅, .bool, n, θ, rfl, inferred _ hw rfl, rfl, fun v _ => by rw [Subst.image_empty]; rfl⟩
  | unit =>
      cases h
      exact ⟨∅, .unit, n, θ, rfl, inferred _ hw rfl, rfl, fun v _ => by rw [Subst.image_empty]; rfl⟩
  | var x => exact Found.var hw h
  | letIn x value body =>
      cases h with
      | letIn hvalue hfree hbody =>
          obtain ⟨s₁, u₁, n₁, ρ₁, h₁⟩ := found value hw hvalue
          have hscope := (h₁.after hw).generalizes h₁.agrees hfree u₁ x
          rw [h₁.ty] at hscope
          obtain ⟨s₂, u₂, n₂, ρ₂, h₂⟩ := found body
            ((h₁.after hw).wellScoped.extend_generalize x (h₁.lt hw)) (hbody.mono hscope body)
          exact Found.letIn hw h₁ h₂
  | letRec f x body rest =>
      cases h with
      | letRec hbody hfree hrest =>
          rename_i vars a b
          obtain ⟨s₁, u₁, n₁, ρ₁, h₁⟩ := found body (hw.extend_recursive f x)
            (hbody.mono (specializes_assigned_recursive hw θ a b f x) body)
          obtain ⟨s', hs', hfn, hagrees⟩ := h₁.recursive
          obtain ⟨hn, -⟩ := h₁.inferred.recursive hw hs'
          have hle := h₁.inferred.narrows.le
          have hscope := (After.apply hw hn).generalizes hagrees hfree
            ((Subst.compose s' s₁).apply (.fn (.var n) (.var (n + 1)))) f
          rw [hfn] at hscope
          obtain ⟨s₂, u₂, n₂, ρ₂, h₂⟩ := found rest
            ((hw.apply hn).extend_generalize f
              (((hn.clear_apply (.inr ⟨Nat.le_refl n, by omega⟩)).fn
                (hn.clear_apply (.inr ⟨Nat.le_succ n, by omega⟩))).lt hw hn.le))
            (hrest.mono hscope rest)
          exact Found.letRec hw h₁ hs' hagrees h₂
  | fn x body =>
      cases h with
      | fn hbody =>
          rename_i a b
          obtain ⟨s, u, n', ρ, h⟩ := found body (hw.extend_fresh x)
            (hbody.mono (specializes_assigned hw θ a x) body)
          exact ⟨_, _, _, _, h.fn⟩
  | app callee arg =>
      cases h with
      | app hcallee harg =>
          obtain ⟨s₁, u₁, n₁, ρ₁, h₁⟩ := found callee hw hcallee
          obtain ⟨s₂, u₂, n₂, ρ₂, h₂⟩ := found arg (h₁.after hw).wellScoped (h₁.next hw harg)
          exact Found.app hw h₁ h₂
  | ite c th el =>
      cases h with
      | ite hc hth hel =>
          obtain ⟨s₀, u₀, n₀, ρ₀, h₀⟩ := found c hw hc
          obtain ⟨s', hs', hcond, hagrees⟩ := h₀.isBool hw
          have hΓ := After.apply hw hcond.narrows
          have hscope := hΓ.carry hagrees
          obtain ⟨s₁, u₁, n₁, ρ₁, h₁⟩ := found th hΓ.wellScoped (hth.mono hscope th)
          obtain ⟨s₂, u₂, n₂, ρ₂, h₂⟩ := found el (h₁.after hΓ.wellScoped).wellScoped
            (h₁.next hΓ.wellScoped (hel.mono hscope el))
          exact Found.ite hw h₀.success hs' hcond hagrees h₁ h₂
  | prim op l r =>
      cases h with
      | prim hl hr =>
          obtain ⟨s₁, u₁, n₁, ρ₁, h₁⟩ := found l hw hl
          obtain ⟨s₂, u₂, n₂, ρ₂, h₂⟩ := found r (h₁.after hw).wellScoped (h₁.next hw hr)
          exact Found.prim hw h₁ h₂
  | tuple es =>
      cases h with
      | tuple hes =>
          obtain ⟨r, s, us, n', ρ, h⟩ := foundAll es hw (settled_empty env n) hes
          exact ⟨_, _, _, _, .tuple hw h⟩

theorem foundAll (es : List Expr) {env : TypeEnv} {known : Subst} {n : Nat} {θ : Nat → Ty}
    {ts : List Ty} (hw : env.WellScoped n) (hk : Settled env known n)
    (h : HasTypes (env.subst θ) es ts) :
    ∃ r s us n' ρ, FoundAll env known n es θ ts r s us n' ρ := by
  cases es with
  | nil =>
      cases h
      refine ⟨∅, known, [], n, θ, rfl, ?_, rfl, fun v _ => by rw [Subst.image_empty]; rfl⟩
      exact ⟨narrows_empty, hk.resolved, by simp, fun v hv => .inr hv, by simp, .nil⟩
  | cons e es =>
      cases h with
      | cons he hes =>
          obtain ⟨s₁, u, n₁, ρ₁, h₁⟩ := found e hw he
          have hΓ := h₁.after hw
          obtain ⟨r, s, us, n₂, ρ, h₂⟩ := foundAll es hΓ.wellScoped
            (hk.compose hw h₁.inferred.narrows) (hes.mono (hΓ.carry h₁.agrees) es)
          exact ⟨_, _, _, _, _, .cons hw hk h₁ h₂⟩

end

end MlWasm
