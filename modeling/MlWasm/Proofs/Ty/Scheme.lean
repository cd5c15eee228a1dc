import MlWasm.Proofs.Scope
import MlWasm.Proofs.Ty.Subst
import MlWasm.Ty.Env

/-!
Schemes by their instances. A substitution of arbitrary types for the free variables of a scheme
must not let those types be caught by the scheme's own variables, so these are moved out of the way
first. Which names they get does not matter: everything here goes through the instances of a scheme,
and the instances after a substitution are the instances of the type under which the free variables
are replaced as the substitution says and the others in any way at all.

The substitutions of inference never mention a quantified variable, and then moving is not needed.
-/

namespace MlWasm

namespace Scheme

/-- A variable of the type that is not quantified. -/
def Free (σ : Scheme) (v : Nat) : Prop := v ∈ σ.ty.vars ∧ v ∉ σ.vars

/-- The type with its quantified variables replaced. -/
def Instance (σ : Scheme) (t : Ty) : Prop :=
  ∃ f : Nat → Ty, (∀ v, v ∉ σ.vars → f v = .var v) ∧ t = σ.ty.subst f

/-- More than any variable that `θ` puts in place of the free variables. -/
def clearOf (θ : Nat → Ty) (σ : Scheme) : Nat :=
  Ty.above ((σ.ty.vars.filter (· ∉ σ.vars)).flatMap fun v => (θ v).vars)

/-- Replaces the free variables. The quantified ones are moved past everything that comes in. -/
def subst (θ : Nat → Ty) (σ : Scheme) : Scheme :=
  ⟨σ.vars.map (· + σ.clearOf θ),
    σ.ty.subst fun v => if v ∈ σ.vars then .var (v + σ.clearOf θ) else θ v⟩

theorem lt_clearOf {θ : Nat → Ty} {σ : Scheme} {v w : Nat} (hv : σ.Free v)
    (hw : w ∈ (θ v).vars) : w < σ.clearOf θ := by
  refine Ty.lt_above (List.mem_flatMap.2 ⟨v, List.mem_filter.2 ⟨hv.1, ?_⟩, hw⟩)
  simpa using hv.2

/-- Instances after quantified variables were renamed by adding a number to them. -/
theorem instance_moved {vars : List Nat} {a : Ty} {θ : Nat → Ty} {n : Nat}
    (hn : ∀ v ∈ a.vars, v ∉ vars → ∀ w ∈ (θ v).vars, w < n) {t : Ty} :
    Instance ⟨vars.map (· + n), a.subst fun v => if v ∈ vars then .var (v + n) else θ v⟩ t ↔
      ∃ f : Nat → Ty, (∀ v ∈ a.vars, v ∉ vars → f v = θ v) ∧ t = a.subst f := by
  constructor
  · rintro ⟨g, hg, rfl⟩
    refine ⟨_, fun v hv hq => ?_, Ty.subst_subst _ g a⟩
    simp only [if_neg hq]
    refine Ty.subst_eq_self fun w hw => hg w fun hmem => ?_
    obtain ⟨u, -, rfl⟩ := List.mem_map.1 hmem
    have := hn v hv hq _ hw
    omega
  · rintro ⟨f, hf, rfl⟩
    refine ⟨fun w => if w ∈ vars.map (· + n) then f (w - n) else .var w,
      fun v hv => by simp only [if_neg hv], ?_⟩
    rw [Ty.subst_subst]
    refine Ty.subst_congr a fun v hv => ?_
    by_cases hq : v ∈ vars
    · have hmem : v + n ∈ vars.map (· + n) := List.mem_map.2 ⟨v, hq, rfl⟩
      simp only [if_pos hq, Ty.subst, if_pos hmem, Nat.add_sub_cancel]
    · simp only [if_neg hq]
      rw [hf v hv hq]
      refine (Ty.subst_eq_self fun w hw => if_neg fun hmem => ?_).symm
      obtain ⟨u, -, rfl⟩ := List.mem_map.1 hmem
      have := hn v hv hq _ hw
      omega

theorem instance_subst {θ : Nat → Ty} {σ : Scheme} {t : Ty} :
    (σ.subst θ).Instance t ↔ ∃ f : Nat → Ty, (∀ v, σ.Free v → f v = θ v) ∧ t = σ.ty.subst f := by
  refine (instance_moved fun v hv hq w hw => lt_clearOf ⟨hv, hq⟩ hw).trans ?_
  constructor
  · rintro ⟨f, hf, rfl⟩
    exact ⟨f, fun v hv => hf v hv.1 hv.2, rfl⟩
  · rintro ⟨f, hf, rfl⟩
    exact ⟨f, fun v hv hq => hf v ⟨hv, hq⟩, rfl⟩

theorem instance_iff {σ : Scheme} {t : Ty} :
    σ.Instance t ↔ ∃ f : Nat → Ty, (∀ v, σ.Free v → f v = .var v) ∧ t = σ.ty.subst f := by
  constructor
  · rintro ⟨f, hf, rfl⟩
    exact ⟨f, fun v hv => hf v hv.2, rfl⟩
  · rintro ⟨f, hf, rfl⟩
    refine ⟨fun v => if v ∈ σ.vars then f v else .var v, fun v hv => by simp [hv], ?_⟩
    refine Ty.subst_congr _ fun v hv => ?_
    by_cases hq : v ∈ σ.vars
    · simp [hq]
    · simp [hq, hf v ⟨hv, hq⟩]

theorem instance_subst_var {σ : Scheme} {t : Ty} : (σ.subst .var).Instance t ↔ σ.Instance t := by
  rw [instance_subst, instance_iff]

theorem instance_self (σ : Scheme) : σ.Instance σ.ty := ⟨.var, fun _ _ => rfl, by simp⟩

theorem free_subst {θ : Nat → Ty} {σ : Scheme} {w : Nat} :
    (σ.subst θ).Free w ↔ ∃ v, σ.Free v ∧ w ∈ (θ v).vars := by
  simp only [Free, subst, Ty.mem_vars_subst]
  constructor
  · rintro ⟨⟨v, hv, hw⟩, hnot⟩
    by_cases hq : v ∈ σ.vars
    · simp only [if_pos hq, Ty.vars, List.mem_singleton] at hw
      subst hw
      exact absurd (List.mem_map.2 ⟨v, hq, rfl⟩) hnot
    · simp only [if_neg hq] at hw
      exact ⟨v, ⟨hv, hq⟩, hw⟩
  · rintro ⟨v, hv, hw⟩
    refine ⟨⟨v, hv.1, by simpa only [if_neg hv.2] using hw⟩, fun hmem => ?_⟩
    obtain ⟨u, -, rfl⟩ := List.mem_map.1 hmem
    have := lt_clearOf hv hw
    omega

/-- A free variable stands in every instance. -/
theorem Free.mem_instance {σ : Scheme} {v : Nat} (hv : σ.Free v) {t : Ty} (h : σ.Instance t) :
    v ∈ t.vars := by
  obtain ⟨f, hf, rfl⟩ := h
  exact Ty.mem_vars_subst.2 ⟨v, hv.1, by simp [hf v hv.2, Ty.vars]⟩

/-- A scheme with more instances has no other free variables. -/
theorem Free.of_instances {σ τ : Scheme} (h : ∀ t, σ.Instance t → τ.Instance t) {v : Nat}
    (hv : τ.Free v) : σ.Free v := by
  -- Put `int` for everything that is quantified: `v` is still there.
  have hint : σ.Instance (σ.ty.subst fun w => if w ∈ σ.vars then .int else .var w) :=
    ⟨_, fun w hw => by simp [hw], rfl⟩
  obtain ⟨w, hw, hvw⟩ := Ty.mem_vars_subst.1 (hv.mem_instance (h _ hint))
  by_cases hq : w ∈ σ.vars
  · simp [hq, Ty.vars] at hvw
  · obtain rfl : v = w := by simpa [hq, Ty.vars] using hvw
    exact ⟨hw, hq⟩

@[simp] theorem instance_mono {a t : Ty} : (mono a).Instance t ↔ t = a := by
  constructor
  · rintro ⟨f, hf, rfl⟩
    exact Ty.subst_eq_self fun v _ => hf v (by simp [mono])
  · rintro rfl
    exact instance_self _

theorem instance_mono_subst {θ : Nat → Ty} {a t : Ty} :
    ((mono a).subst θ).Instance t ↔ t = a.subst θ := by
  rw [instance_subst]
  constructor
  · rintro ⟨f, hf, rfl⟩
    exact Ty.subst_congr a fun v hv => hf v ⟨hv, by simp [mono]⟩
  · rintro rfl
    exact ⟨θ, fun _ _ => rfl, rfl⟩

theorem mem_freeVars {σ : Scheme} {v : Nat} : v ∈ σ.freeVars ↔ σ.Free v := by
  have herase (vs : List Nat) (set : Std.TreeSet Nat) :
      v ∈ vs.foldl .erase set ↔ v ∈ set ∧ v ∉ vs := by
    induction vs generalizing set with
    | nil => simp
    | cons w vs ih =>
        simp only [List.foldl_cons, ih, Std.TreeSet.mem_erase, List.mem_cons]
        simp [Std.LawfulEqCmp.compare_eq_iff_eq]
        grind
  simp [freeVars, herase, Ty.freeVars, Free]

/-- Where nothing is caught, what replaces a free variable is free again. -/
theorem free_applyScheme_of_free {s : Subst} (hs : s.Resolved) {σ : Scheme}
    (hq : ∀ v ∈ σ.vars, ¬ s.Mentions v) {v w : Nat} (hv : σ.Free v)
    (hw : w ∈ (s.image v).vars) : (s.applyScheme σ).Free w := by
  refine ⟨?_, fun hmem => ?_⟩
  · rw [Subst.applyScheme, hs.applyExcept_eq, Ty.mem_vars_subst]
    exact ⟨v, hv.1, by simpa [hv.2] using hw⟩
  · rcases Subst.mem_vars_image hw with ⟨rfl, -⟩ | ⟨-, hm⟩
    · exact hv.2 hmem
    · exact hq w hmem hm

/-- Substitution by inference, where nothing is caught. -/
theorem instance_applyScheme_subst {s : Subst} (hs : s.Resolved) {σ : Scheme}
    (hq : ∀ v ∈ σ.vars, ¬ s.Mentions v) (θ : Nat → Ty) {t : Ty} :
    ((s.applyScheme σ).subst θ).Instance t ↔
      (σ.subst fun v => (s.image v).subst θ).Instance t := by
  rw [instance_subst, instance_subst]
  constructor
  · rintro ⟨f, hf, rfl⟩
    refine ⟨fun v => if v ∈ σ.vars then f v else (s.image v).subst f, fun v hv => ?_, ?_⟩
    · simp only [if_neg hv.2]
      exact Ty.subst_congr _ fun w hw => hf w (free_applyScheme_of_free hs hq hv hw)
    · rw [Subst.applyScheme, hs.applyExcept_eq, Ty.subst_subst]
      refine Ty.subst_congr _ fun v _ => ?_
      split <;> rfl
  · rintro ⟨f, hf, rfl⟩
    refine ⟨fun w => if w ∈ σ.vars then f w else θ w, fun v hv => ?_, ?_⟩
    · exact if_neg hv.2
    · rw [Subst.applyScheme, hs.applyExcept_eq, Ty.subst_subst]
      refine Ty.subst_congr _ fun v hv => ?_
      by_cases hmem : v ∈ σ.vars
      · simp [hmem, Ty.subst]
      · simp only [if_neg hmem, hf v ⟨hv, hmem⟩]
        refine Ty.subst_congr _ fun w hw => (if_neg ?_).symm
        exact (free_applyScheme_of_free hs hq ⟨hv, hmem⟩ hw).2

theorem free_applyScheme {s : Subst} (hs : s.Resolved) {σ : Scheme} {w : Nat}
    (h : (s.applyScheme σ).Free w) : ∃ v, σ.Free v ∧ w ∈ (s.image v).vars := by
  obtain ⟨hw, hnot⟩ := h
  rw [Subst.applyScheme, hs.applyExcept_eq, Ty.mem_vars_subst] at hw
  obtain ⟨v, hv, hw⟩ := hw
  by_cases hmem : v ∈ σ.vars
  · simp only [if_pos hmem, Ty.vars, List.mem_singleton] at hw
    exact absurd (hw ▸ hmem) hnot
  · exact ⟨v, ⟨hv, hmem⟩, by simpa [hmem] using hw⟩

theorem applyScheme_of_isEmpty {s : Subst} (hempty : s.isEmpty = true) (σ : Scheme) :
    s.applyScheme σ = σ := by
  have hnone (v : Nat) : ¬ s.Binds v := fun h => by
    have hsize := Subst.size_pos_of_binds h
    have : s.bindings.size = 0 := by
      simpa [Subst.isEmpty, Std.TreeMap.isEmpty_eq_size_eq_zero] using hempty
    simp only [Subst.size] at hsize
    omega
  have hres : s.Resolved := fun v t h => absurd ⟨t, h⟩ (hnone v)
  rw [Subst.applyScheme, hres.applyExcept_eq,
    Ty.subst_eq_self fun v _ => by simp [Subst.image_of_not_binds (hnone v)]]

end Scheme

namespace TypeEnv

/-- A variable that some visible binding leaves free. -/
def Free (env : TypeEnv) (v : Nat) : Prop := ∃ x σ, env.lookup x = some σ ∧ σ.Free v

/-- A variable that some visible binding quantifies. -/
def Quantifies (env : TypeEnv) (v : Nat) : Prop := ∃ x σ, env.lookup x = some σ ∧ v ∈ σ.vars

/-- Replaces the free variables of every visible binding. -/
def subst (θ : Nat → Ty) (env : TypeEnv) : TypeEnv := env.map (Scheme.subst θ)

theorem lookup_subst (θ : Nat → Ty) (env : TypeEnv) (x : String) :
    (env.subst θ).lookup x = (env.lookup x).map (Scheme.subst θ) :=
  Scope.lookup_map _ env x

theorem lookup_apply (env : TypeEnv) (s : Subst) (x : String) :
    (env.apply s).lookup x = (env.lookup x).map s.applyScheme := by
  unfold apply
  split
  · rename_i hempty
    cases env.lookup x <;> simp [Scheme.applyScheme_of_isEmpty hempty]
  · exact Scope.lookup_map _ env x

theorem mem_freeVars {env : TypeEnv} {v : Nat} : v ∈ env.freeVars ↔ env.Free v := by
  have hfold (items : List (String × Scheme)) (set : Std.TreeSet Nat) :
      v ∈ items.foldl (fun vs b => vs ∪ b.2.freeVars) set ↔
        v ∈ set ∨ ∃ b ∈ items, v ∈ b.2.freeVars := by
    induction items generalizing set with
    | nil => simp
    | cons b items ih => simp [ih, Std.TreeSet.mem_union_iff, or_assoc]
  simp only [freeVars, hfold, Free]
  simp [Scope.mem_visible, Scheme.mem_freeVars]

theorem free_subst {θ : Nat → Ty} {env : TypeEnv} {w : Nat} :
    (env.subst θ).Free w ↔ ∃ v, env.Free v ∧ w ∈ (θ v).vars := by
  constructor
  · rintro ⟨x, σ, hx, hw⟩
    rw [lookup_subst, Option.map_eq_some_iff] at hx
    obtain ⟨τ, hx, rfl⟩ := hx
    obtain ⟨v, hv, hw⟩ := Scheme.free_subst.1 hw
    exact ⟨v, ⟨x, τ, hx, hv⟩, hw⟩
  · rintro ⟨v, ⟨x, σ, hx, hv⟩, hw⟩
    exact ⟨x, σ.subst θ, by simp [lookup_subst, hx], Scheme.free_subst.2 ⟨v, hv, hw⟩⟩

theorem free_apply {s : Subst} (hs : s.Resolved) {env : TypeEnv} {w : Nat}
    (h : (env.apply s).Free w) : ∃ v, env.Free v ∧ w ∈ (s.image v).vars := by
  obtain ⟨x, σ, hx, hw⟩ := h
  rw [lookup_apply, Option.map_eq_some_iff] at hx
  obtain ⟨τ, hx, rfl⟩ := hx
  obtain ⟨v, hv, hw⟩ := Scheme.free_applyScheme hs hw
  exact ⟨v, ⟨x, τ, hx, hv⟩, hw⟩

theorem quantifies_apply {s : Subst} {env : TypeEnv} {v : Nat} :
    (env.apply s).Quantifies v ↔ env.Quantifies v := by
  simp only [Quantifies, lookup_apply]
  constructor
  · rintro ⟨x, σ, hx, hv⟩
    obtain ⟨τ, hτ, rfl⟩ := Option.map_eq_some_iff.1 hx
    exact ⟨x, τ, hτ, hv⟩
  · rintro ⟨x, σ, hx, hv⟩
    exact ⟨x, s.applyScheme σ, by simp [hx], hv⟩

theorem free_extend {env : TypeEnv} {x : String} {σ : Scheme} {v : Nat}
    (h : TypeEnv.Free (env.extend x σ) v) : σ.Free v ∨ env.Free v := by
  obtain ⟨y, τ, hy, hv⟩ := h
  obtain ⟨-, rfl⟩ | ⟨-, hy⟩ := Scope.lookup_extend_eq_some.1 hy
  · exact .inl hv
  · exact .inr ⟨y, τ, hy, hv⟩

theorem quantifies_extend {env : TypeEnv} {x : String} {σ : Scheme} {v : Nat}
    (h : TypeEnv.Quantifies (env.extend x σ) v) : v ∈ σ.vars ∨ env.Quantifies v := by
  obtain ⟨y, τ, hy, hv⟩ := h
  obtain ⟨-, rfl⟩ | ⟨-, hy⟩ := Scope.lookup_extend_eq_some.1 hy
  · exact .inl hv
  · exact .inr ⟨y, τ, hy, hv⟩

theorem exists_free_lt (env : TypeEnv) : ∃ n, ∀ v, env.Free v → v < n := by
  refine ⟨Ty.above env.freeVars.toList, fun v hv => Ty.lt_above ?_⟩
  rw [Std.TreeSet.mem_toList]
  exact mem_freeVars.2 hv

theorem vars_generalize {env : TypeEnv} {t : Ty} {v : Nat} :
    v ∈ (env.generalize t).vars ↔ v ∈ t.vars ∧ ¬ env.Free v := by
  simp [generalize, Std.TreeSet.mem_diff_iff, Ty.freeVars, mem_freeVars]

theorem free_generalize {env : TypeEnv} {t : Ty} {v : Nat} :
    (env.generalize t).Free v ↔ v ∈ t.vars ∧ env.Free v := by
  simp only [Scheme.Free, vars_generalize]
  simp only [generalize]
  by_cases h : env.Free v <;> simp [h]

end TypeEnv

end MlWasm
