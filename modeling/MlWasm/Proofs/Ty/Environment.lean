import Mathlib
import MlWasm.Proofs.Scope
import MlWasm.Proofs.Ty.Scheme

/-!
What a substitution does to an environment. Applying it passes the visible schemes through it and
drops the shadowed ones, or does nothing where the substitution is empty; either way look-ups and
free variables are those of the visible schemes after the substitution.
-/

namespace MlWasm

namespace TypeEnv

theorem free_apply_iff {env : TypeEnv} {s : Subst} {v : Nat} :
    (env.apply s).Free v ↔ ∃ b ∈ env.visible, (s.applyScheme b.2).Free v := by
  simp only [Free, lookup_apply, Option.map_eq_some_iff]
  constructor
  · rintro ⟨x, σ, ⟨τ, hx, rfl⟩, hv⟩
    exact ⟨(x, τ), Scope.mem_visible.2 hx, hv⟩
  · rintro ⟨⟨x, τ⟩, hx, hv⟩
    exact ⟨x, s.applyScheme τ, ⟨τ, Scope.mem_visible.1 hx, rfl⟩, hv⟩

theorem mem_freeVars_apply {env : TypeEnv} {s : Subst} {v : Nat} :
    v ∈ (env.apply s).freeVars ↔ ∃ b ∈ env.visible, v ∈ (s.applyScheme b.2).freeVars := by
  simp only [mem_freeVars, free_apply_iff, Scheme.mem_freeVars]

end TypeEnv

/-- A mapped scope has the look-ups and the visible bindings of the old one with the function
applied, and no name twice; a traversal meets every visible value once, outermost first. For an
environment of types it follows that look-ups and free variables are those of the substituted
visible schemes. -/
theorem Scope.map_observed {m : Type → Type} [Monad m] [LawfulMonad m] :
    (∀ (α : Type) (s : Scope α) (f : α → α),
      (∀ x, (s.map f).lookup x = (s.lookup x).map f) ∧
        (s.map f).visible = s.visible.map (fun b => (b.1, f b.2)) ∧
        ((s.map f).bindings.map Prod.fst).Nodup ∧
        (s.mapM (noting f)).run [] = (s.map f, s.visible.reverse.map Prod.snd)) ∧
    (∀ (α : Type) (s : Scope α) (f : α → m α),
      s.mapM f = (fun values => ofList ((s.visible.reverse.map Prod.fst).zip values)) <$>
        (s.visible.reverse.map Prod.snd).mapM f) ∧
    ∀ (env : TypeEnv) (s : Subst),
      (s.isEmpty = true → env.apply s = env) ∧
        (∀ x, (env.apply s).lookup x = (env.lookup x).map s.applyScheme) ∧
        ∀ v, v ∈ (env.apply s).freeVars ↔ ∃ b ∈ env.visible, v ∈ (s.applyScheme b.2).freeVars := by
  refine ⟨fun α s f => ⟨s.lookup_map f, s.visible_map f, s.nodup_map f, s.run_mapM_noting f⟩,
    fun α s f => s.mapM_eq f, fun env s => ⟨fun hempty => ?_, env.lookup_apply s, fun v => ?_⟩⟩
  · rw [TypeEnv.apply, if_pos hempty]
  · exact TypeEnv.mem_freeVars_apply

/-- The outer binding of the shadowed name is not met. -/
theorem Scope.map_observed_shadowed :
    LawfulMonad Option ∧
      ((ofList [("x", 1), ("y", 2), ("x", 3)]).mapM (noting (· * 10))).run [] =
        (ofList [("y", 20), ("x", 30)], [2, 3]) := by
  refine ⟨inferInstance, ?_⟩
  rw [((map_observed (m := Option)).1 Nat _ _).2.2.2]
  rfl

end MlWasm
