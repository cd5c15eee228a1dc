import MlWasm.Proofs.Ty.HasType
import MlWasm.Proofs.Ty.Unify

/-!
How far inference reaches. It may only touch variables that are free in the scope or that it has
drawn itself. That is enough to keep substitutions resolved and apart from each other, and to keep
the quantified variables of the scope out of their reach.
-/

namespace MlWasm

namespace TypeEnv

/-- Variables are below `n`, and none is free in one place and quantified in another. -/
structure WellScoped (env : TypeEnv) (n : Nat) : Prop where
  free_lt : ∀ v, env.Free v → v < n
  quantified_lt : ∀ v, env.Quantifies v → v < n
  apart : ∀ v, env.Quantifies v → ¬ env.Free v

/-- A variable that is free in the scope or was drawn between `n` and `n'`. -/
def Reach (env : TypeEnv) (n n' v : Nat) : Prop := env.Free v ∨ n ≤ v ∧ v < n'

/-- What inference learns between `n` and `n'` is about variables in reach. -/
structure Narrows (env : TypeEnv) (n : Nat) (s : Subst) (n' : Nat) : Prop where
  le : n ≤ n'
  resolved : s.Resolved
  mentions : ∀ v, s.Mentions v → env.Reach n n' v

/-- A type over variables in reach that the substitution leaves open. -/
def Clear (env : TypeEnv) (n : Nat) (s : Subst) (n' : Nat) (t : Ty) : Prop :=
  ∀ v ∈ t.vars, env.Reach n n' v ∧ ¬ s.Binds v

variable {env : TypeEnv} {n n₁ n₂ : Nat} {s s₁ s₂ : Subst} {t : Ty}

theorem Reach.mono {m v : Nat} (h : env.Reach n n₁ v) (hle : n₁ ≤ m) : env.Reach n m v :=
  h.imp id fun h => ⟨h.1, by omega⟩

theorem WellScoped.mono (h : env.WellScoped n) (hle : n ≤ n₁) : env.WellScoped n₁ :=
  ⟨fun v hv => Nat.lt_of_lt_of_le (h.free_lt v hv) hle,
    fun v hv => Nat.lt_of_lt_of_le (h.quantified_lt v hv) hle, h.apart⟩

theorem WellScoped.lt_of_reach (h : env.WellScoped n) (hle : n ≤ n₁) {v : Nat}
    (hv : env.Reach n n₁ v) : v < n₁ := by
  rcases hv with hv | hv
  · exact Nat.lt_of_lt_of_le (h.free_lt v hv) hle
  · exact hv.2

theorem WellScoped.spares (h : env.WellScoped n) (hs : env.Narrows n s n₁) : env.Spares s := by
  intro v hq hm
  rcases hs.mentions v hm with hf | hr
  · exact h.apart v hq hf
  · have := h.quantified_lt v hq
    omega

theorem narrows_empty : env.Narrows n ∅ n :=
  ⟨Nat.le_refl n, Subst.resolved_empty, fun v h => absurd h (Subst.not_mentions_empty v)⟩

theorem WellScoped.apply (hw : env.WellScoped n) (hs : env.Narrows n s n₁) :
    (env.apply s).WellScoped n₁ := by
  have hreach (v : Nat) (hv : (env.apply s).Free v) : env.Reach n n₁ v := by
    obtain ⟨u, hu, hv⟩ := free_apply hs.resolved hv
    rcases Subst.mem_vars_image hv with ⟨rfl, -⟩ | ⟨-, hm⟩
    · exact .inl hu
    · exact hs.mentions v hm
  refine ⟨fun v hv => hw.lt_of_reach hs.le (hreach v hv), fun v hv => ?_, fun v hv hf => ?_⟩
  · exact Nat.lt_of_lt_of_le (hw.quantified_lt v (quantifies_apply.1 hv)) hs.le
  · rw [quantifies_apply] at hv
    rcases hreach v hf with hf | hr
    · exact hw.apart v hv hf
    · have := hw.quantified_lt v hv
      omega

theorem WellScoped.extend_mono (hw : env.WellScoped n) (x : String)
    (ht : ∀ v ∈ t.vars, v < n ∧ ¬ env.Quantifies v) :
    TypeEnv.WellScoped (env.extend x (.mono t)) n := by
  have hfree (v : Nat) (hv : (Scheme.mono t).Free v ∨ env.Free v) :
      v < n ∧ ¬ env.Quantifies v := by
    rcases hv with hv | hv
    · exact ht v hv.1
    · exact ⟨hw.free_lt v hv, fun hq => hw.apart v hq hv⟩
  have hquant (v : Nat) (hv : TypeEnv.Quantifies (env.extend x (.mono t)) v) :
      env.Quantifies v :=
    (quantifies_extend hv).resolve_left (by simp [Scheme.mono])
  exact ⟨fun v hv => (hfree v (free_extend hv)).1, fun v hv => hw.quantified_lt v (hquant v hv),
    fun v hv hf => (hfree v (free_extend hf)).2 (hquant v hv)⟩

/-- Drawing a variable and giving it to a name. -/
theorem WellScoped.extend_fresh (hw : env.WellScoped n) (x : String) :
    TypeEnv.WellScoped (env.extend x (.mono (.var n))) (n + 1) := by
  refine (hw.mono (Nat.le_succ n)).extend_mono x fun v hv => ?_
  obtain rfl : v = n := by simpa [Ty.vars] using hv
  refine ⟨by omega, fun hq => ?_⟩
  have := hw.quantified_lt v hq
  omega

/-- Drawing two variables, for a function and its parameter. -/
theorem WellScoped.extend_recursive (hw : env.WellScoped n) (f x : String) :
    TypeEnv.WellScoped ((env.extend f (.mono (.fn (.var n) (.var (n + 1))))).extend x
      (.mono (.var n))) (n + 2) := by
  have hdrawn (v : Nat) (hv : n ≤ v) : ¬ env.Quantifies v := fun hq => by
    have := hw.quantified_lt v hq
    omega
  refine WellScoped.extend_mono ((hw.mono (by omega)).extend_mono f fun v hv => ?_) x
    fun v hv => ?_
  · simp only [Ty.vars, List.mem_append, List.mem_singleton] at hv
    exact ⟨by omega, hdrawn v (by omega)⟩
  · simp only [Ty.vars, List.mem_singleton] at hv
    refine ⟨by omega, fun hq => ?_⟩
    exact hdrawn v (by omega) ((quantifies_extend hq).resolve_left (by simp [Scheme.mono]))

theorem WellScoped.extend_generalize (hw : env.WellScoped n) (x : String)
    (ht : ∀ v ∈ t.vars, v < n) :
    TypeEnv.WellScoped (env.extend x (env.generalize t)) n := by
  have hfree (v : Nat) (hv : TypeEnv.Free (env.extend x (env.generalize t)) v) : env.Free v :=
    (free_extend hv).elim (fun h => (free_generalize.1 h).2) id
  refine ⟨fun v hv => hw.free_lt v (hfree v hv), fun v hv => ?_, fun v hv hf => ?_⟩
  · rcases quantifies_extend hv with hv | hv
    · exact ht v (vars_generalize.1 hv).1
    · exact hw.quantified_lt v hv
  · rcases quantifies_extend hv with hv | hv
    · exact (vars_generalize.1 hv).2 (hfree v hf)
    · exact hw.apart v hv (hfree v hf)

/-- A later substitution over variables that the earlier one leaves open. -/
structure Follows (env : TypeEnv) (n : Nat) (s₁ s₂ : Subst) (n₂ : Nat) : Prop where
  resolved : s₂.Resolved
  mentions : ∀ v, s₂.Mentions v → env.Reach n n₂ v ∧ ¬ s₁.Binds v

theorem Follows.apart (h : env.Follows n s₁ s₂ n₂) : Subst.Apart s₂ s₁ :=
  fun v hb hm => (h.mentions v hm).2 hb

theorem Follows.image (h : env.Follows n s₁ s₂ n₂) (v : Nat) :
    (Subst.compose s₂ s₁).image v = (s₁.image v).subst s₂.image :=
  Subst.image_compose h.resolved h.apart v

theorem Narrows.compose (h₁ : env.Narrows n s₁ n₁) (h₂ : env.Follows n s₁ s₂ n₂)
    (hle : n₁ ≤ n₂) : env.Narrows n (.compose s₂ s₁) n₂ := by
  refine ⟨Nat.le_trans h₁.le hle, h₂.resolved.compose h₁.resolved h₂.apart, fun v hm => ?_⟩
  rcases Subst.mentions_compose h₂.resolved hm with hm | hm
  · exact (h₂.mentions v hm).1
  · exact (h₁.mentions v hm).mono hle

theorem Clear.mono (h : env.Clear n s n₁ t) (hle : n₁ ≤ n₂) : env.Clear n s n₂ t :=
  fun v hv => ⟨(h v hv).1.mono hle, (h v hv).2⟩

theorem Clear.follows {a b : Ty} (ha : env.Clear n s n₁ a) (hb : env.Clear n s n₁ b)
    (h : s₂.Unifier a b) : env.Follows n s s₂ n₁ :=
  ⟨h.resolved, fun v hm => (h.mentions v hm).elim (ha v) (hb v)⟩

/-- A type carried on through a later substitution. -/
theorem Clear.compose (h : env.Clear n s₁ n₁ t) (h₂ : env.Follows n s₁ s₂ n₂) (hle : n₁ ≤ n₂) :
    env.Clear n (.compose s₂ s₁) n₂ (t.subst s₂.image) := by
  intro v hv
  obtain ⟨u, hu, hv⟩ := Ty.mem_vars_subst.1 hv
  have hopen : env.Reach n n₂ v ∧ ¬ s₁.Binds v := by
    rcases Subst.mem_vars_image hv with ⟨rfl, -⟩ | ⟨-, hm⟩
    · exact ⟨(h v hu).1.mono hle, (h v hu).2⟩
    · exact h₂.mentions v hm
  refine ⟨hopen.1, fun hb => ?_⟩
  rcases Subst.binds_compose.1 hb with hb | hb
  · exact h₂.resolved.not_binds_of_mem_image hv hb
  · exact hopen.2 hb

theorem Clear.lt (h : env.Clear n s n₁ t) (hw : env.WellScoped n) (hle : n ≤ n₁) :
    ∀ v ∈ t.vars, v < n₁ :=
  fun v hv => hw.lt_of_reach hle (h v hv).1

theorem Clear.apply_compose (h : env.Clear n s₁ n₁ t) (hs : s₁.Resolved)
    (h₂ : env.Follows n s₁ s₂ n₂) : (Subst.compose s₂ s₁).apply t = t.subst s₂.image := by
  rw [Subst.apply_compose h₂.resolved hs h₂.apart, hs.apply_eq_self fun v hv => (h v hv).2,
    h₂.resolved.apply_eq]

theorem Clear.apply_compose_twice {s₃ : Subst} {n₃ : Nat} (h : env.Clear n s₁ n₁ t)
    (hs : s₁.Resolved) (h₂ : env.Follows n s₁ s₂ n₂)
    (h₃ : env.Follows n (.compose s₂ s₁) s₃ n₃) :
    (Subst.compose s₃ (.compose s₂ s₁)).apply t = (t.subst s₂.image).subst s₃.image := by
  rw [Subst.apply_compose h₃.resolved (h₂.resolved.compose hs h₂.apart) h₃.apart,
    h.apply_compose hs h₂, h₃.resolved.apply_eq]

theorem Clear.apply_eq (h : env.Clear n s n₁ t) (hs : s.Resolved) : s.apply t = t :=
  hs.apply_eq_self fun v hv => (h v hv).2

/-- `Γ` is the scope `env` with what was learned between `n` and `n₁`. -/
structure After (Γ env : TypeEnv) (n : Nat) (s : Subst) (n₁ : Nat) : Prop where
  start : env.WellScoped n
  wellScoped : Γ.WellScoped n₁
  narrows : env.Narrows n s n₁
  free : ∀ v, Γ.Free v → env.Reach n n₁ v ∧ ¬ s.Binds v
  via : ∀ θ, (Γ.subst θ).Specializes (env.subst fun v => (s.image v).subst θ)
  toward : ∀ θ, (env.subst fun v => (s.image v).subst θ).Specializes (Γ.subst θ)

namespace After

variable {Γ : TypeEnv}

theorem apply (hw : env.WellScoped n) (hs : env.Narrows n s n₁) :
    (env.apply s).After env n s n₁ := by
  refine ⟨hw, hw.apply hs, hs, fun v hv => ?_,
    specializes_apply_subst hs.resolved (hw.spares hs),
    specializes_subst_apply hs.resolved (hw.spares hs)⟩
  obtain ⟨u, hu, hv⟩ := free_apply hs.resolved hv
  refine ⟨?_, hs.resolved.not_binds_of_mem_image hv⟩
  rcases Subst.mem_vars_image hv with ⟨rfl, -⟩ | ⟨-, hm⟩
  · exact .inl hu
  · exact hs.mentions v hm

/-- A variable in reach from the narrowed scope was in reach before and is not bound. -/
theorem reach (h : Γ.After env n s n₁) (hle : n₁ ≤ n₂) {v : Nat} (hv : Γ.Reach n₁ n₂ v) :
    env.Reach n n₂ v ∧ ¬ s.Binds v := by
  rcases hv with hv | ⟨hlo, hhi⟩
  · exact ⟨(h.free v hv).1.mono hle, (h.free v hv).2⟩
  · refine ⟨.inr ⟨Nat.le_trans h.narrows.le hlo, hhi⟩, fun hb => ?_⟩
    have := h.start.lt_of_reach h.narrows.le (h.narrows.mentions v (.inl hb))
    omega

theorem follows (h : Γ.After env n s₁ n₁) (h₂ : Γ.Narrows n₁ s₂ n₂) : env.Follows n s₁ s₂ n₂ :=
  ⟨h₂.resolved, fun v hm => h.reach h₂.le (h₂.mentions v hm)⟩

theorem compose (h : Γ.After env n s₁ n₁) (h₂ : Γ.Narrows n₁ s₂ n₂) :
    env.Narrows n (.compose s₂ s₁) n₂ :=
  h.narrows.compose (h.follows h₂) h₂.le

theorem clear (h : Γ.After env n s₁ n₁) (h₂ : Γ.Narrows n₁ s₂ n₂) (ht : Γ.Clear n₁ s₂ n₂ t) :
    env.Clear n (.compose s₂ s₁) n₂ t := by
  intro v hv
  obtain ⟨hreach, hopen⟩ := h.reach h₂.le (ht v hv).1
  exact ⟨hreach, fun hb => (Subst.binds_compose.1 hb).elim (ht v hv).2 hopen⟩

theorem trans (h : Γ.After env n s₁ n₁) (h₂ : Γ.Narrows n₁ s₂ n₂) :
    (Γ.apply s₂).After env n (.compose s₂ s₁) n₂ := by
  have hf := h.follows h₂
  have hlast := After.apply h.wellScoped h₂
  have himage (θ : Nat → Ty) (v : Nat) : ((Subst.compose s₂ s₁).image v).subst θ =
      (s₁.image v).subst fun w => (s₂.image w).subst θ := by
    rw [hf.image, Ty.subst_subst]
  refine ⟨h.start, hlast.wellScoped, h.compose h₂, fun v hv => ?_, fun θ => ?_, fun θ => ?_⟩
  · obtain ⟨hr, hb₂⟩ := hlast.free v hv
    obtain ⟨hr, hb₁⟩ := h.reach h₂.le hr
    exact ⟨hr, fun hb => (Subst.binds_compose.1 hb).elim hb₂ hb₁⟩
  · exact (hlast.via θ).trans ((h.via _).trans (specializes_subst fun v _ => (himage θ v).symm))
  · exact (specializes_subst fun v _ => himage θ v).trans ((h.toward _).trans (hlast.toward θ))

/-- Derivations under what is learned later are derivations under all that is learned. -/
theorem typed (h : Γ.After env n s₁ n₁) (h₂ : Γ.Narrows n₁ s₂ n₂) {e : Expr}
    (ht : HasType (Γ.subst s₂.image) e t) : HasType (env.apply (.compose s₂ s₁)) e t := by
  have hw := h.start.spares (h.compose h₂)
  refine ht.mono ((h.via _).trans ((specializes_subst fun v _ => ?_).trans
    ((specializes_subst_apply (h.compose h₂).resolved hw .var).trans specializes_subst_var))) e
  rw [Ty.subst_var, (h.follows h₂).image]

end After

theorem specializes_apply {Γ : TypeEnv} (hs : s.Resolved) (h : Γ.Spares s) :
    (Γ.apply s).Specializes (Γ.subst s.image) := by
  refine specializes_self_subst_var.trans ((specializes_apply_subst hs h .var).trans
    (specializes_subst fun v _ => ?_))
  rw [Ty.subst_var]

theorem specializes_to_apply {Γ : TypeEnv} (hs : s.Resolved) (h : Γ.Spares s) :
    (Γ.subst s.image).Specializes (Γ.apply s) := by
  refine (specializes_subst fun v _ => ?_).trans
    ((specializes_subst_apply hs h .var).trans specializes_subst_var)
  rw [Ty.subst_var]

theorem lookup_apply_extend (Γ : TypeEnv) (s : Subst) (x : String) (σ : Scheme) (y : String) :
    (TypeEnv.apply (Γ.extend x σ) s).lookup y =
      ((Γ.apply s).extend x (s.applyScheme σ)).lookup y := by
  rw [lookup_apply, Scope.lookup_extend, Scope.lookup_extend, lookup_apply]
  split <;> rfl

theorem apply_empty (Γ : TypeEnv) : Γ.apply ∅ = Γ := by
  have : (∅ : Subst).isEmpty = true := Std.TreeMap.isEmpty_emptyc
  simp [apply, this]

theorem spares_extend_mono {Γ : TypeEnv} (h : Γ.Spares s) (x : String) (a : Ty) :
    TypeEnv.Spares (Γ.extend x (.mono a)) s :=
  fun v hv => h v ((quantifies_extend hv).resolve_left (by simp [Scheme.mono]))

theorem Reach.of_extend {x : String} {m v : Nat}
    (hv : TypeEnv.Reach (env.extend x (.mono t)) m n₁ v)
    (hle : n ≤ m) (ht : ∀ w ∈ t.vars, env.Reach n n₁ w) : env.Reach n n₁ v := by
  rcases hv with hv | hv
  · rcases free_extend hv with hv | hv
    · exact ht v hv.1
    · exact .inl hv
  · exact .inr ⟨by omega, hv.2⟩

end TypeEnv

namespace TypeEnv

theorem not_free_initial (v : Nat) : ¬ TypeEnv.initial.Free v := by
  rintro ⟨x, σ, hx, hv, -⟩
  have hmem := Scope.mem_visible.2 hx
  have hbuiltin : ∀ b ∈ TypeEnv.initial.visible, b.2.ty.vars = [] := by decide
  simp [hbuiltin _ hmem] at hv

theorem not_quantifies_initial (v : Nat) : ¬ TypeEnv.initial.Quantifies v := by
  rintro ⟨x, σ, hx, hv⟩
  have hmem := Scope.mem_visible.2 hx
  have hbuiltin : ∀ b ∈ TypeEnv.initial.visible, b.2.vars = [] := by decide
  exact absurd hv (hbuiltin _ hmem ▸ List.not_mem_nil)

theorem wellScoped_initial (n : Nat) : TypeEnv.initial.WellScoped n :=
  ⟨fun v h => absurd h (not_free_initial v), fun v h => absurd h (not_quantifies_initial v),
    fun v h => absurd h (not_quantifies_initial v)⟩

end TypeEnv

end MlWasm
