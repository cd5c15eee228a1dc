import MlWasm.Expr
import MlWasm.Proofs.Ty.Scheme

/-!
The declarative type system: one rule for each construct. Parameters of functions, and a recursive
function inside its own body, have one type; a name bound by `let` or `let rec` may be used at every
type that comes from replacing variables which the scope does not mention. Both sides of every
operator are integers.

A derivation stays one under any substitution, and in any scope whose bindings have at least the
same instances. The two together are what inference needs: a derivation under an earlier scope is
carried to the later, narrower one.
-/

namespace MlWasm

def Op.ty (op : Op) : Ty := if op.isArithmetic then .int else .bool

mutual

inductive HasType : TypeEnv → Expr → Ty → Prop where
  | int {Γ : TypeEnv} (n : Int32) : HasType Γ (.int n) .int
  | bool {Γ : TypeEnv} (b : Bool) : HasType Γ (.bool b) .bool
  | unit {Γ : TypeEnv} : HasType Γ .unit .unit
  | var {Γ : TypeEnv} {x : String} {σ : Scheme} {t : Ty} :
      Γ.lookup x = some σ → σ.Instance t → HasType Γ (.var x) t
  | letIn {Γ : TypeEnv} {x : String} {value body : Expr} {vars : List Nat} {a t : Ty} :
      HasType Γ value a → (∀ v ∈ vars, ¬ Γ.Free v) →
      HasType (Γ.extend x ⟨vars, a⟩) body t → HasType Γ (.letIn x value body) t
  | letRec {Γ : TypeEnv} {f x : String} {body rest : Expr} {vars : List Nat} {a b t : Ty} :
      HasType ((Γ.extend f (.mono (.fn a b))).extend x (.mono a)) body b →
      (∀ v ∈ vars, ¬ Γ.Free v) →
      HasType (Γ.extend f ⟨vars, .fn a b⟩) rest t → HasType Γ (.letRec f x body rest) t
  | fn {Γ : TypeEnv} {x : String} {body : Expr} {a b : Ty} :
      HasType (Γ.extend x (.mono a)) body b → HasType Γ (.fn x body) (.fn a b)
  | app {Γ : TypeEnv} {callee arg : Expr} {a b : Ty} :
      HasType Γ callee (.fn a b) → HasType Γ arg a → HasType Γ (.app callee arg) b
  | ite {Γ : TypeEnv} {c t e : Expr} {a : Ty} :
      HasType Γ c .bool → HasType Γ t a → HasType Γ e a → HasType Γ (.ite c t e) a
  | prim {Γ : TypeEnv} {op : Op} {l r : Expr} :
      HasType Γ l .int → HasType Γ r .int → HasType Γ (.prim op l r) op.ty
  | tuple {Γ : TypeEnv} {es : List Expr} {ts : List Ty} :
      HasTypes Γ es ts → HasType Γ (.tuple es) (.tuple ts)

inductive HasTypes : TypeEnv → List Expr → List Ty → Prop where
  | nil {Γ : TypeEnv} : HasTypes Γ [] []
  | cons {Γ : TypeEnv} {e : Expr} {es : List Expr} {t : Ty} {ts : List Ty} :
      HasType Γ e t → HasTypes Γ es ts → HasTypes Γ (e :: es) (t :: ts)

end

namespace TypeEnv

/-- The same names, and at least the same instances of each on the right. -/
def Specializes (Γ Δ : TypeEnv) : Prop :=
  ∀ x, (Γ.lookup x = none → Δ.lookup x = none) ∧
    ∀ σ, Γ.lookup x = some σ → ∃ τ, Δ.lookup x = some τ ∧ ∀ t, σ.Instance t → τ.Instance t

namespace Specializes

/-- Two scopes that come from one by a change of each binding. -/
theorem of_map {Γ Δ Θ : TypeEnv} {f g : Scheme → Scheme}
    (hΓ : ∀ x, Γ.lookup x = (Θ.lookup x).map f) (hΔ : ∀ x, Δ.lookup x = (Θ.lookup x).map g)
    (h : ∀ x σ, Θ.lookup x = some σ → ∀ t, (f σ).Instance t → (g σ).Instance t) :
    Γ.Specializes Δ := by
  intro x
  rw [hΓ, hΔ]
  cases hx : Θ.lookup x with
  | none => simp
  | some σ => simpa using h x σ hx

theorem of_lookup {Γ Δ : TypeEnv} (h : ∀ x, Γ.lookup x = Δ.lookup x) : Γ.Specializes Δ := by
  intro x
  rw [h]
  exact ⟨id, fun σ hx => ⟨σ, hx, fun _ ht => ht⟩⟩

theorem rfl {Γ : TypeEnv} : Γ.Specializes Γ := of_lookup fun _ => Eq.refl _

theorem trans {Γ Δ Θ : TypeEnv} (h₁ : Γ.Specializes Δ) (h₂ : Δ.Specializes Θ) :
    Γ.Specializes Θ := by
  intro x
  refine ⟨fun hx => (h₂ x).1 ((h₁ x).1 hx), fun σ hx => ?_⟩
  obtain ⟨τ, hτ, hinst₁⟩ := (h₁ x).2 σ hx
  obtain ⟨ρ, hρ, hinst₂⟩ := (h₂ x).2 τ hτ
  exact ⟨ρ, hρ, fun t ht => hinst₂ t (hinst₁ t ht)⟩

theorem extend {Γ Δ : TypeEnv} (h : Γ.Specializes Δ) (x : String) {σ τ : Scheme}
    (hx : ∀ t, σ.Instance t → τ.Instance t) :
    TypeEnv.Specializes (Γ.extend x σ) (Δ.extend x τ) := by
  intro y
  rw [Scope.lookup_extend, Scope.lookup_extend]
  split
  · simpa using hx
  · exact h y

theorem free {Γ Δ : TypeEnv} (h : Γ.Specializes Δ) {v : Nat} (hv : Δ.Free v) : Γ.Free v := by
  obtain ⟨x, τ, hx, hv⟩ := hv
  cases hσ : Γ.lookup x with
  | none => simp [(h x).1 hσ] at hx
  | some σ =>
      obtain ⟨τ', hτ', hinst⟩ := (h x).2 σ hσ
      obtain rfl : τ = τ' := by simpa [hx] using hτ'
      exact ⟨x, σ, hσ, hv.of_instances hinst⟩

end Specializes

/-- Substitutions that agree on the free variables give the same instances. -/
theorem specializes_subst {Γ : TypeEnv} {θ ζ : Nat → Ty} (h : ∀ v, Γ.Free v → θ v = ζ v) :
    (Γ.subst θ).Specializes (Γ.subst ζ) := by
  refine .of_map (lookup_subst θ Γ) (lookup_subst ζ Γ) fun x σ hx t ht => ?_
  obtain ⟨f, hf, rfl⟩ := Scheme.instance_subst.1 ht
  exact Scheme.instance_subst.2
    ⟨f, fun v hv => (hf v hv).trans (h v ⟨x, σ, hx, hv⟩), Eq.refl _⟩

theorem specializes_subst_var {Γ : TypeEnv} : (Γ.subst .var).Specializes Γ :=
  .of_map (g := id) (lookup_subst _ Γ) (by simp) fun _ _ _ _ => Scheme.instance_subst_var.1

theorem specializes_self_subst_var {Γ : TypeEnv} : Γ.Specializes (Γ.subst .var) :=
  .of_map (f := id) (by simp) (lookup_subst _ Γ) fun _ _ _ _ => Scheme.instance_subst_var.2

theorem lookup_subst_extend (θ : Nat → Ty) (Γ : TypeEnv) (x : String) (σ : Scheme) (y : String) :
    (TypeEnv.subst θ (Γ.extend x σ)).lookup y = ((Γ.subst θ).extend x (σ.subst θ)).lookup y := by
  rw [lookup_subst, Scope.lookup_extend, Scope.lookup_extend, lookup_subst]
  split <;> rfl

theorem subst_extend (θ : Nat → Ty) (Γ : TypeEnv) (x : String) (σ : Scheme) :
    (TypeEnv.subst θ (Γ.extend x σ)).Specializes ((Γ.subst θ).extend x (σ.subst θ)) :=
  .of_lookup (lookup_subst_extend θ Γ x σ)

theorem extend_subst (θ : Nat → Ty) (Γ : TypeEnv) (x : String) (σ : Scheme) :
    TypeEnv.Specializes ((Γ.subst θ).extend x (σ.subst θ)) (TypeEnv.subst θ (Γ.extend x σ)) :=
  .of_lookup fun y => (lookup_subst_extend θ Γ x σ y).symm

/-- No variable that the scope quantifies occurs in the substitution. -/
def Spares (Γ : TypeEnv) (s : Subst) : Prop := ∀ v, Γ.Quantifies v → ¬ s.Mentions v

/-- What inference does to a scope is substitution, and can be followed by another. -/
theorem specializes_apply_subst {Γ : TypeEnv} {s : Subst} (hs : s.Resolved) (h : Γ.Spares s)
    (θ : Nat → Ty) :
    ((Γ.apply s).subst θ).Specializes (Γ.subst fun v => (s.image v).subst θ) := by
  refine .of_map (f := fun σ => (s.applyScheme σ).subst θ) ?_ (lookup_subst _ Γ)
    fun x σ hx t => (Scheme.instance_applyScheme_subst hs (fun v hv => h v ⟨x, σ, hx, hv⟩) θ).1
  intro x
  rw [lookup_subst, lookup_apply, Option.map_map]
  exact Eq.refl _

theorem specializes_subst_apply {Γ : TypeEnv} {s : Subst} (hs : s.Resolved) (h : Γ.Spares s)
    (θ : Nat → Ty) :
    (Γ.subst fun v => (s.image v).subst θ).Specializes ((Γ.apply s).subst θ) := by
  refine .of_map (g := fun σ => (s.applyScheme σ).subst θ) (lookup_subst _ Γ) ?_
    fun x σ hx t => (Scheme.instance_applyScheme_subst hs (fun v hv => h v ⟨x, σ, hx, hv⟩) θ).2
  intro x
  rw [lookup_subst, lookup_apply, Option.map_map]
  exact Eq.refl _

end TypeEnv

open TypeEnv (Specializes)

mutual

/-- A derivation stays one where names have more instances. -/
theorem HasType.mono {Γ Δ : TypeEnv} (hle : Γ.Specializes Δ) (e : Expr) {t : Ty}
    (h : HasType Γ e t) : HasType Δ e t := by
  cases e with
  | int n =>
      cases h
      exact .int n
  | bool b =>
      cases h
      exact .bool b
  | unit =>
      cases h
      exact .unit
  | var x =>
      cases h with
      | var hx ht =>
          obtain ⟨τ, hτ, hinst⟩ := (hle x).2 _ hx
          exact .var hτ (hinst t ht)
  | letIn x value body =>
      cases h with
      | letIn hvalue hfree hbody =>
          exact .letIn (hvalue.mono hle value) (fun v hv hf => hfree v hv (hle.free hf))
            (hbody.mono (hle.extend x fun _ h => h) body)
  | letRec f x body rest =>
      cases h with
      | letRec hbody hfree hrest =>
          exact .letRec
            (hbody.mono ((hle.extend f fun _ h => h).extend x fun _ h => h) body)
            (fun v hv hf => hfree v hv (hle.free hf))
            (hrest.mono (hle.extend f fun _ h => h) rest)
  | fn x body =>
      cases h with
      | fn hbody => exact .fn (hbody.mono (hle.extend x fun _ h => h) body)
  | app callee arg =>
      cases h with
      | app hcallee harg => exact .app (hcallee.mono hle callee) (harg.mono hle arg)
  | ite c t e =>
      cases h with
      | ite hc ht he => exact .ite (hc.mono hle c) (ht.mono hle t) (he.mono hle e)
  | prim op l r =>
      cases h with
      | prim hl hr => exact .prim (hl.mono hle l) (hr.mono hle r)
  | tuple es =>
      cases h with
      | tuple hes => exact .tuple (HasTypes.mono hle es hes)

theorem HasTypes.mono {Γ Δ : TypeEnv} (hle : Γ.Specializes Δ) (es : List Expr) {ts : List Ty}
    (h : HasTypes Γ es ts) : HasTypes Δ es ts := by
  cases es with
  | nil =>
      cases h
      exact .nil
  | cons e es =>
      cases h with
      | cons he hes => exact .cons (he.mono hle e) (HasTypes.mono hle es hes)

end

/-- Quantified variables of a `let` can be moved clear of any substitution: what was generalized
before it has all the instances that its scheme has after it. -/
theorem exists_generalized (Γ : TypeEnv) (θ : Nat → Ty) {vars : List Nat} (a : Ty)
    (hfree : ∀ v ∈ vars, ¬ Γ.Free v) :
    ∃ (ζ : Nat → Ty) (vars' : List Nat), (∀ v, Γ.Free v → ζ v = θ v) ∧
      (∀ v ∈ vars', ¬ (Γ.subst θ).Free v) ∧
      ∀ t, (Scheme.subst θ ⟨vars, a⟩).Instance t → Scheme.Instance ⟨vars', a.subst ζ⟩ t := by
  obtain ⟨m, hm⟩ := (Γ.subst θ).exists_free_lt
  let n := max m (Ty.above (a.vars.flatMap fun v => (θ v).vars))
  refine ⟨fun v => if v ∈ vars then .var (v + n) else θ v, vars.map (· + n), fun v hv => ?_,
    fun v hv hf => ?_, fun t ht => ?_⟩
  · exact if_neg fun hmem => hfree v hmem hv
  · obtain ⟨u, -, rfl⟩ := List.mem_map.1 hv
    have := hm _ hf
    omega
  · obtain ⟨f, hf, rfl⟩ := Scheme.instance_subst.1 ht
    refine (Scheme.instance_moved fun v hv _ w hw => ?_).2
      ⟨f, fun v hv hq => hf v ⟨hv, hq⟩, rfl⟩
    have : w < Ty.above (a.vars.flatMap fun v => (θ v).vars) :=
      Ty.lt_above (List.mem_flatMap.2 ⟨v, hv, hw⟩)
    omega

/-- The `let` rule after a substitution: the bound expression has its type under all of them, and
the body is typed under the substituted scheme. -/
theorem HasType.letIn_subst {Γ : TypeEnv} (θ : Nat → Ty) {x : String} {value body : Expr}
    {vars : List Nat} {a t : Ty}
    (hvalue : ∀ ζ : Nat → Ty, HasType (Γ.subst ζ) value (a.subst ζ))
    (hfree : ∀ v ∈ vars, ¬ Γ.Free v)
    (hbody : HasType ((Γ.subst θ).extend x (Scheme.subst θ ⟨vars, a⟩)) body t) :
    HasType (Γ.subst θ) (.letIn x value body) t := by
  obtain ⟨ζ, vars', hζ, hfree', hinst⟩ := exists_generalized Γ θ a hfree
  refine .letIn ((hvalue ζ).mono (TypeEnv.specializes_subst hζ) value) hfree' ?_
  exact hbody.mono (Specializes.rfl.extend x hinst) body

/-- The scope of the body of a recursive function after a substitution. -/
theorem specializes_recursive (θ : Nat → Ty) (Γ : TypeEnv) (f x : String) (a b : Ty) :
    (TypeEnv.subst θ ((Γ.extend f (.mono (.fn a b))).extend x (.mono a))).Specializes
      (((Γ.subst θ).extend f (.mono (.fn (a.subst θ) (b.subst θ)))).extend x
        (.mono (a.subst θ))) := by
  refine (TypeEnv.subst_extend θ _ x _).trans (Specializes.extend ?_ x fun t ht => ?_)
  · refine (TypeEnv.subst_extend θ Γ f _).trans (Specializes.rfl.extend f fun t ht => ?_)
    rw [Scheme.instance_mono_subst] at ht
    exact Scheme.instance_mono.2 ht
  · rw [Scheme.instance_mono_subst] at ht
    exact Scheme.instance_mono.2 ht

theorem HasType.letRec_subst {Γ : TypeEnv} (θ : Nat → Ty) {f x : String} {body rest : Expr}
    {vars : List Nat} {a b t : Ty}
    (hbody : ∀ ζ : Nat → Ty,
      HasType (TypeEnv.subst ζ ((Γ.extend f (.mono (.fn a b))).extend x (.mono a))) body
        (b.subst ζ))
    (hfree : ∀ v ∈ vars, ¬ Γ.Free v)
    (hrest : HasType ((Γ.subst θ).extend f (Scheme.subst θ ⟨vars, .fn a b⟩)) rest t) :
    HasType (Γ.subst θ) (.letRec f x body rest) t := by
  obtain ⟨ζ, vars', hζ, hfree', hinst⟩ := exists_generalized Γ θ (.fn a b) hfree
  refine .letRec (a := a.subst ζ) (b := b.subst ζ) ?_ hfree' ?_
  · refine (hbody ζ).mono ((specializes_recursive ζ Γ f x a b).trans ?_) body
    exact ((TypeEnv.specializes_subst hζ).extend f fun _ h => h).extend x fun _ h => h
  · exact hrest.mono (Specializes.rfl.extend f hinst) rest

mutual

theorem HasType.subst (θ : Nat → Ty) {Γ : TypeEnv} (e : Expr) {t : Ty} (h : HasType Γ e t) :
    HasType (Γ.subst θ) e (t.subst θ) := by
  cases e with
  | int n =>
      cases h
      exact .int n
  | bool b =>
      cases h
      exact .bool b
  | unit =>
      cases h
      exact .unit
  | var x =>
      cases h with
      | var hx ht =>
          rename_i σ
          refine .var (by rw [TypeEnv.lookup_subst, hx]; rfl) (Scheme.instance_subst.2 ?_)
          obtain ⟨f, hf, rfl⟩ := ht
          refine ⟨fun v => (f v).subst θ, fun v hv => ?_, Ty.subst_subst f θ σ.ty⟩
          simp only [hf v hv.2, Ty.subst]
  | letIn x value body =>
      cases h with
      | letIn hvalue hfree hbody =>
          refine .letIn_subst θ (fun ζ => HasType.subst ζ value hvalue) hfree ?_
          exact (HasType.subst θ body hbody).mono (TypeEnv.subst_extend θ Γ x _) body
  | letRec f x body rest =>
      cases h with
      | letRec hbody hfree hrest =>
          refine .letRec_subst θ (fun ζ => HasType.subst ζ body hbody) hfree ?_
          exact (HasType.subst θ rest hrest).mono (TypeEnv.subst_extend θ Γ f _) rest
  | fn x body =>
      cases h with
      | fn hbody =>
          refine .fn ((HasType.subst θ body hbody).mono ?_ body)
          refine (TypeEnv.subst_extend θ Γ x _).trans (Specializes.rfl.extend x fun t ht => ?_)
          rw [Scheme.instance_mono_subst] at ht
          exact Scheme.instance_mono.2 ht
  | app callee arg =>
      cases h with
      | app hcallee harg =>
          exact .app (HasType.subst θ callee hcallee) (HasType.subst θ arg harg)
  | ite c t e =>
      cases h with
      | ite hc ht he =>
          exact .ite (HasType.subst θ c hc) (HasType.subst θ t ht) (HasType.subst θ e he)
  | prim op l r =>
      cases h with
      | prim hl hr =>
          rw [show op.ty.subst θ = op.ty by unfold Op.ty; split <;> rfl]
          exact .prim (HasType.subst θ l hl) (HasType.subst θ r hr)
  | tuple es =>
      cases h with
      | tuple hes => exact .tuple (HasTypes.subst θ es hes)

theorem HasTypes.subst (θ : Nat → Ty) {Γ : TypeEnv} (es : List Expr) {ts : List Ty}
    (h : HasTypes Γ es ts) :
    HasTypes (Γ.subst θ) es (Ty.substAll θ ts) := by
  cases es with
  | nil =>
      cases h
      exact .nil
  | cons e es =>
      cases h with
      | cons he hes => exact .cons (HasType.subst θ e he) (HasTypes.subst θ es hes)

end

/-- Variables that the scope does not mention may be replaced by any types. -/
theorem HasType.instantiate {Γ : TypeEnv} {e : Expr} {vars : List Nat} {a t : Ty}
    (h : HasType Γ e a) (hfree : ∀ v ∈ vars, ¬ Γ.Free v) (ht : Scheme.Instance ⟨vars, a⟩ t) :
    HasType Γ e t := by
  obtain ⟨f, hf, rfl⟩ := ht
  refine (HasType.subst f e h).mono ?_ e
  refine (TypeEnv.specializes_subst fun v hv => ?_).trans TypeEnv.specializes_subst_var
  exact hf v fun hmem => hfree v hmem hv

end MlWasm
