import MlWasm.Proofs.Ty.Subst

/-!
Unification finds the most general solution of equations between types, and fails only where there
is no solution. A step that takes an equation apart keeps the solutions; a step that solves one for
a variable composes the solutions of what is left with that one binding.
-/

namespace MlWasm

namespace Ty

mutual

/-- An occurrence of a variable is no larger than what surrounds it. -/
theorem size_le_size_subst (θ : Nat → Ty) {v : Nat} (t : Ty) (h : v ∈ t.vars) :
    (θ v).size ≤ (t.subst θ).size := by
  cases t with
  | int | bool | unit => simp [vars] at h
  | var w =>
      obtain rfl : v = w := by simpa [vars] using h
      exact Nat.le_refl _
  | fn a b =>
      simp only [vars, List.mem_append] at h
      simp only [subst, size]
      rcases h with h | h
      · have := size_le_size_subst θ a h
        omega
      · have := size_le_size_subst θ b h
        omega
  | tuple ts =>
      have := size_le_sizeAll_subst θ ts (by simpa [vars] using h)
      simp only [subst, size]
      omega

theorem size_le_sizeAll_subst (θ : Nat → Ty) {v : Nat} (ts : List Ty) (h : v ∈ varsAll ts) :
    (θ v).size ≤ sizeAll (substAll θ ts) := by
  cases ts with
  | nil => simp [varsAll] at h
  | cons t ts =>
      simp only [varsAll, List.mem_append] at h
      simp only [substAll, sizeAll]
      rcases h with h | h
      · have := size_le_size_subst θ t h
        omega
      · have := size_le_sizeAll_subst θ ts h
        omega

end

/-- No substitution makes a variable equal to a larger type that contains it. -/
theorem subst_ne_of_occurs (θ : Nat → Ty) {v : Nat} {t : Ty} (hv : t.occurs v = true)
    (ht : t ≠ .var v) : θ v ≠ t.subst θ := by
  have hmem : v ∈ t.vars := by simpa [occurs] using hv
  intro heq
  have hsize := congrArg size heq
  cases t with
  | int | bool | unit => simp [vars] at hmem
  | var w =>
      obtain rfl : v = w := by simpa [vars] using hmem
      exact ht rfl
  | fn a b =>
      simp only [vars, List.mem_append] at hmem
      simp only [subst, size] at hsize
      rcases hmem with h | h
      · have := size_le_size_subst θ a h
        omega
      · have := size_le_size_subst θ b h
        omega
  | tuple ts =>
      have := size_le_sizeAll_subst θ ts (by simpa [vars] using hmem)
      simp only [subst, size] at hsize
      omega

end Ty

namespace Equations

def Unifies (θ : Nat → Ty) (eqs : Equations) : Prop := ∀ e ∈ eqs, e.1.subst θ = e.2.subst θ

/-- A solution that every solution is an instance of. -/
structure MostGeneral (eqs : Equations) (δ : Nat → Ty) : Prop where
  unifies : Unifies δ eqs
  general : ∀ θ, Unifies θ eqs → ∀ v, (δ v).subst θ = θ v

/-- `s` is `solved` followed by the most general solution of the equations. -/
structure Extends (eqs : Equations) (solved s : Subst) : Prop where
  resolved : s.Resolved
  mentions : ∀ v, s.Mentions v → solved.Mentions v ∨ v ∈ eqs.vars
  image : ∃ δ, MostGeneral eqs δ ∧ ∀ v, s.image v = (solved.image v).subst δ

/-- What solving the equations has to come to. -/
def Settles (eqs : Equations) (solved : Subst) : Except TypeError Subst → Prop
  | .ok s => Extends eqs solved s
  | .error _ => ∀ θ, ¬ Unifies θ eqs

@[simp] theorem unifies_nil (θ : Nat → Ty) : Unifies θ [] := by
  simp [Unifies]

@[simp] theorem unifies_cons {θ : Nat → Ty} {s t : Ty} {rest : Equations} :
    Unifies θ ((s, t) :: rest) ↔ s.subst θ = t.subst θ ∧ Unifies θ rest := by
  simp [Unifies]

theorem unifies_append {θ : Nat → Ty} {a b : Equations} :
    Unifies θ (a ++ b) ↔ Unifies θ a ∧ Unifies θ b := by
  simp [Unifies, or_imp, forall_and]

theorem unifies_zip {θ : Nat → Ty} {xs ys : List Ty} (h : xs.length = ys.length) :
    Unifies θ (xs.zip ys) ↔ Ty.substAll θ xs = Ty.substAll θ ys := by
  induction xs generalizing ys with
  | nil =>
      obtain rfl := List.length_eq_zero_iff.1 h.symm
      simp
  | cons x xs ih =>
      cases ys with
      | nil => simp at h
      | cons y ys => simp [Ty.substAll, ih (Nat.succ.inj h)]

/-- Equations with the same solutions and no other variables are settled by the same answer. -/
theorem Settles.of_equivalent {a b : Equations} {solved : Subst} {r : Except TypeError Subst}
    (hu : ∀ θ, Unifies θ a ↔ Unifies θ b) (hv : a.vars ⊆ b.vars) (h : Settles a solved r) :
    Settles b solved r := by
  cases r with
  | error e => exact fun θ hθ => h θ ((hu θ).2 hθ)
  | ok s =>
      obtain ⟨δ, hδ, himage⟩ := h.image
      exact {
        resolved := h.resolved
        mentions := fun v hm => (h.mentions v hm).imp id fun hv' => hv hv'
        image := ⟨δ, ⟨(hu δ).1 hδ.unifies, fun θ hθ => hδ.general θ ((hu θ).2 hθ)⟩, himage⟩ }

theorem unifies_assign {θ : Nat → Ty} {v : Nat} {t : Ty} {rest : Equations} (hv : v ∉ t.vars) :
    Unifies θ (assign v t rest) ↔
      Unifies (fun w => ((Subst.singleton v t).image w).subst θ) rest := by
  simp only [Unifies, assign, List.forall_mem_map, (Subst.resolved_singleton hv).apply_eq,
    Ty.subst_subst]

/-- Solving an equation for a variable. -/
theorem Settles.of_assign {v : Nat} {t : Ty} {rest : Equations} {e : Ty × Ty} {solved : Subst}
    {r : Except TypeError Subst} (he : e = (.var v, t) ∨ e = (t, .var v)) (hv : v ∉ t.vars)
    (hsolved : solved.Resolved) (hbinds : ∀ w ∈ vars (e :: rest), ¬ solved.Binds w)
    (h : Subst.Resolved (.compose (.singleton v t) solved) →
      (∀ w ∈ (assign v t rest).vars, ¬ (Subst.compose (.singleton v t) solved).Binds w) →
      Settles (assign v t rest) (.compose (.singleton v t) solved) r) :
    Settles (e :: rest) solved r := by
  have hone := Subst.resolved_singleton hv
  have hhead (w : Nat) (hw : w = v ∨ w ∈ t.vars) : w ∈ vars (e :: rest) := by
    rcases he with rfl | rfl <;> simp [vars, Ty.vars] <;> grind
  have happart : Subst.Apart (.singleton v t) solved := by
    intro w hb hm
    exact hbinds w (hhead w (Subst.mentions_singleton.1 hm)) hb
  have hvars (w : Nat) (hw : w ∈ (assign v t rest).vars) :
      w ∈ vars (e :: rest) ∧ w ≠ v := by
    rcases mem_vars_assign hw with h | ⟨h, hne⟩
    · exact ⟨hhead w (.inr h), fun h' => hv (h' ▸ h)⟩
    · exact ⟨List.mem_append_right _ h, hne⟩
  have hunify (θ : Nat → Ty) (hθ : Unifies θ (e :: rest)) :
      (fun w => ((Subst.singleton v t).image w).subst θ) = θ := by
    have hvt : θ v = t.subst θ := by
      rcases he with rfl | rfl
      · exact (unifies_cons.1 hθ).1
      · exact (unifies_cons.1 hθ).1.symm
    funext w
    rw [Subst.image_singleton]
    by_cases hw : w = v
    · rw [if_pos hw, hw, hvt]
    · rw [if_neg hw]
      rfl
  have hlost (θ : Nat → Ty) (hθ : Unifies θ (e :: rest)) : Unifies θ (assign v t rest) := by
    rw [unifies_assign hv, hunify θ hθ]
    exact fun f hf => hθ f (List.mem_cons_of_mem _ hf)
  have hrest := h (hone.compose hsolved happart) fun w hw hb => by
    rcases Subst.binds_compose.1 hb with hb | hb
    · exact (hvars w hw).2 (Subst.binds_singleton.1 hb)
    · exact hbinds w (hvars w hw).1 hb
  cases r with
  | error err => exact fun θ hθ => hrest θ (hlost θ hθ)
  | ok s =>
      obtain ⟨δ, hδ, himage⟩ := hrest.image
      refine ⟨hrest.resolved, fun w hm => ?_, fun w => ((Subst.singleton v t).image w).subst δ,
        ⟨?_, fun θ hθ w => ?_⟩, fun w => ?_⟩
      · rcases hrest.mentions w hm with hm | hm
        · rcases Subst.mentions_compose hone hm with hm | hm
          · exact .inr (hhead w (Subst.mentions_singleton.1 hm))
          · exact .inl hm
        · exact .inr (hvars w hm).1
      · have ht : (t.subst fun w => ((Subst.singleton v t).image w).subst δ) = t.subst δ := by
          refine Ty.subst_congr t fun w hw => ?_
          have hne : w ≠ v := fun heq => hv (heq ▸ hw)
          rw [Subst.image_singleton, if_neg hne]
          rfl
        have hhead' : (Ty.var v).subst (fun w => ((Subst.singleton v t).image w).subst δ) =
            t.subst fun w => ((Subst.singleton v t).image w).subst δ := by
          rw [ht, Ty.subst, Subst.image_singleton, if_pos rfl]
        have htail := (unifies_assign hv).1 hδ.unifies
        rcases he with rfl | rfl
        · exact unifies_cons.2 ⟨hhead', htail⟩
        · exact unifies_cons.2 ⟨hhead'.symm, htail⟩
      · rw [Ty.subst_subst, show (fun w => (δ w).subst θ) = θ from
          funext (hδ.general θ (hlost θ hθ))]
        exact congrFun (hunify θ hθ) w
      · rw [himage, Subst.image_compose hone happart, Ty.subst_subst]

theorem solve_settles (context : String) (eqs : Equations) (solved : Subst)
    (hsolved : solved.Resolved) (hbinds : ∀ v ∈ eqs.vars, ¬ solved.Binds v) :
    Settles eqs solved (solve context eqs solved) := by
  -- A step that only takes an equation apart or drops one hands its answer on.
  have keep {a b : Equations} {solved : Subst} (hu : ∀ θ, Unifies θ a ↔ Unifies θ b)
      (hv : a.vars ⊆ b.vars) (hbinds : ∀ v ∈ b.vars, ¬ solved.Binds v)
      (h : (∀ v ∈ a.vars, ¬ solved.Binds v) → Settles a solved (solve context a solved)) :
      Settles b solved (solve context a solved) :=
    .of_equivalent hu hv (h fun v hv' => hbinds v (hv hv'))
  fun_induction solve context eqs solved with
  | case1 solved =>
      exact ⟨hsolved, fun v h => .inl h, .var, ⟨unifies_nil _, fun θ _ v => rfl⟩, by simp⟩
  | case2 solved a b c d rest ih =>
      refine keep (fun θ => ?_) ?_ hbinds (ih hsolved)
      · simp [Ty.subst, and_assoc]
      · intro v hv
        simp only [vars, List.flatMap_cons, Ty.vars, List.mem_append] at hv ⊢
        grind
  | case3 solved xs ys rest hlen ih =>
      refine keep (fun θ => ?_) ?_ hbinds (ih hsolved)
      · simp [unifies_append, unifies_zip hlen, Ty.subst]
      · intro v hv
        have := vars_zip_subset xs ys
        simp only [vars, List.flatMap_append, List.flatMap_cons, Ty.vars, List.mem_append] at hv ⊢
        rcases hv with hv | hv
        · exact .inl (List.mem_append.1 (this hv))
        · exact .inr hv
  | case4 solved xs ys rest hlen =>
      intro θ hθ
      have := congrArg List.length (Ty.tuple.inj (unifies_cons.1 hθ).1)
      simp only [Ty.substAll_eq_map, List.length_map] at this
      exact hlen this
  | case5 solved v rest ih =>
      exact keep (by simp) (List.subset_append_right _ _) hbinds (ih hsolved)
  | case6 solved v t rest hne hocc =>
      exact fun θ hθ => Ty.subst_ne_of_occurs θ hocc hne (unifies_cons.1 hθ).1
  | case7 solved v t rest hne hocc ih =>
      have hv : v ∉ t.vars := by simpa [Ty.occurs] using hocc
      exact .of_assign (.inl rfl) hv hsolved hbinds ih
  | case8 solved t v rest hne hocc =>
      exact fun θ hθ => Ty.subst_ne_of_occurs θ hocc (hne v) (unifies_cons.1 hθ).1.symm
  | case9 solved t v rest hne hocc ih =>
      have hv : v ∉ t.vars := by simpa [Ty.occurs] using hocc
      exact .of_assign (.inr rfl) hv hsolved hbinds ih
  | case10 solved rest ih | case11 solved rest ih | case12 solved rest ih =>
      exact keep (by simp) (List.subset_append_right _ _) hbinds (ih hsolved)
  | case13 solved s t rest hfn htuple hs ht hint hbool hunit =>
      intro θ hθ
      have heq := (unifies_cons.1 hθ).1
      -- Of two types without a variable on top, only those with one constructor can agree.
      cases s <;> cases t <;> simp [Ty.subst] at heq
      case int.int => exact hint rfl rfl
      case bool.bool => exact hbool rfl rfl
      case unit.unit => exact hunit rfl rfl
      case fn.fn => exact hfn _ _ _ _ rfl rfl
      case tuple.tuple => exact htuple _ _ rfl rfl
      all_goals first | exact hs _ rfl | exact ht _ rfl

end Equations

/-- A most general unifier, as the substitution that `unify` returns. -/
structure Subst.Unifier (s : Subst) (a b : Ty) : Prop where
  resolved : s.Resolved
  mentions : ∀ v, s.Mentions v → v ∈ a.vars ∨ v ∈ b.vars
  unifies : a.subst s.image = b.subst s.image
  general : ∀ θ : Nat → Ty, a.subst θ = b.subst θ → ∀ v, (s.image v).subst θ = θ v

theorem unify_settles (a b : Ty) (context : String) :
    Equations.Settles [(a, b)] ∅ (unify a b context) :=
  Equations.solve_settles context _ _ Subst.resolved_empty (by simp)

theorem unify_unifier {a b : Ty} {context : String} {s : Subst} (h : unify a b context = .ok s) :
    s.Unifier a b := by
  have hs := unify_settles a b context
  rw [h] at hs
  obtain ⟨δ, hδ, himage⟩ := hs.image
  obtain rfl : s.image = δ := by
    funext v
    simp [himage, Ty.subst]
  exact {
    resolved := hs.resolved
    mentions := fun v hm => by
      simpa [Equations.vars] using (hs.mentions v hm).resolve_left (by simp)
    unifies := (Equations.unifies_cons.1 hδ.unifies).1
    general := fun θ hθ => hδ.general θ (by simpa using hθ) }

/-- Types with a common instance are unified. -/
theorem exists_unify {a b : Ty} (context : String) {θ : Nat → Ty} (h : a.subst θ = b.subst θ) :
    ∃ s, unify a b context = .ok s := by
  have hs := unify_settles a b context
  cases hr : unify a b context with
  | ok s => exact ⟨s, rfl⟩
  | error e =>
      rw [hr] at hs
      exact absurd (by simpa using h) (hs θ)

end MlWasm
