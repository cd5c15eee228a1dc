import MlWasm.Proofs.Ty.Reach
import MlWasm.Proofs.Ty.Session

/-!
Every inferred type has a derivation. Each construct is inferred under what its earlier parts have
taught, so their derivations are carried on to what is known in the end; that works because no
substitution reaches a variable that another has bound or that the scope quantifies.
-/

namespace MlWasm

open TypeEnv

/-- A derivation made before more was learned. -/
theorem HasType.later {Γ : TypeEnv} {s₁ s : Subst} {θ : Nat → Ty} {e : Expr} {t : Ty}
    (h : HasType (Γ.apply s₁) e t) (h₁ : s₁.Resolved) (hΓ₁ : Γ.Spares s₁) (hs : s.Resolved)
    (hΓ : Γ.Spares s) (himage : ∀ v, s.image v = (s₁.image v).subst θ) :
    HasType (Γ.apply s) e (t.subst θ) := by
  refine (HasType.subst θ e h).mono ?_ e
  refine (specializes_apply_subst h₁ hΓ₁ θ).trans
    ((specializes_subst fun v _ => ?_).trans (specializes_to_apply hs hΓ))
  exact (himage v).symm

/-- What a successful inference has found. -/
structure Inferred (env : TypeEnv) (n : Nat) (e : Expr) (s : Subst) (t : Ty) (n' : Nat) : Prop where
  narrows : env.Narrows n s n'
  clear : env.Clear n s n' t
  typed : HasType (env.apply s) e t

namespace Inferred

variable {Γ env : TypeEnv} {n n₁ n₂ : Nat} {e : Expr} {s s₁ s₂ : Subst} {t a : Ty}

/-- A result seen after more was learned. -/
theorem follow (h : Inferred env n e s t n₁) (hw : env.WellScoped n)
    (hf : env.Follows n s s₂ n₂) (hle : n₁ ≤ n₂) :
    Inferred env n e (.compose s₂ s) (t.subst s₂.image) n₂ := by
  have hn := h.narrows.compose hf hle
  exact ⟨hn, h.clear.compose hf hle,
    h.typed.later h.narrows.resolved (hw.spares h.narrows) hn.resolved (hw.spares hn) hf.image⟩

/-- A result under a narrowed scope, seen from the scope before. -/
theorem of_after (hΓ : Γ.After env n s₁ n₁) (h : Inferred Γ n₁ e s₂ t n₂) :
    Inferred env n e (.compose s₂ s₁) t n₂ :=
  ⟨hΓ.compose h.narrows, hΓ.clear h.narrows h.clear,
    hΓ.typed h.narrows (h.typed.mono
      (specializes_apply h.narrows.resolved (hΓ.wellScoped.spares h.narrows)) e)⟩

/-- A result under a scope with a generalized binding. -/
theorem of_generalize {x : String} (hw : Γ.WellScoped n₁) (ha : ∀ v ∈ a.vars, v < n₁)
    (h : Inferred (Γ.extend x (Γ.generalize a)) n₁ e s t n₂) :
    Γ.Narrows n₁ s n₂ ∧ Γ.Clear n₁ s n₂ t ∧
      HasType ((Γ.subst s.image).extend x ((Γ.generalize a).subst s.image)) e t := by
  have hreach {v : Nat} (hv : TypeEnv.Reach (Γ.extend x (Γ.generalize a)) n₁ n₂ v) :
      Γ.Reach n₁ n₂ v :=
    hv.imp (fun hf => (free_extend hf).elim (fun h => (free_generalize.1 h).2) id) id
  refine ⟨⟨h.narrows.le, h.narrows.resolved, fun v hv => hreach (h.narrows.mentions v hv)⟩,
    fun v hv => ⟨hreach (h.clear v hv).1, (h.clear v hv).2⟩, ?_⟩
  refine h.typed.mono ?_ e
  exact (specializes_apply h.narrows.resolved
    ((hw.extend_generalize x ha).spares h.narrows)).trans (subst_extend _ Γ x _)

end Inferred

/-- What the inference of several expressions in turn has found, on top of what was `known`: the
types with everything that is learned in the end. -/
structure InferredAll (env : TypeEnv) (known : Subst) (n : Nat) (es : List Expr) (r s : Subst)
    (ts : List Ty) (n' : Nat) : Prop where
  narrows : env.Narrows n r n'
  resolved : s.Resolved
  image : ∀ v, s.image v = (known.image v).subst r.image
  mentions : ∀ v, s.Mentions v → env.Reach n n' v ∨ known.Mentions v
  clear : ∀ t ∈ ts, env.Clear n r n' (s.apply t)
  typed : HasTypes (env.subst r.image) es (ts.map s.apply)

/-- What is known is not about anything that is still in reach. -/
structure Settled (env : TypeEnv) (known : Subst) (n : Nat) : Prop where
  resolved : known.Resolved
  lt : ∀ v, known.Mentions v → v < n
  bound : ∀ v, known.Binds v → ¬ env.Free v

namespace Settled

variable {env : TypeEnv} {known s : Subst} {n n₁ : Nat}

theorem not_binds (h : Settled env known n) {v : Nat} (hv : env.Reach n n₁ v) :
    ¬ known.Binds v := by
  intro hb
  have := h.lt v (.inl hb)
  rcases hv with hv | hv
  · exact h.bound v hb hv
  · omega

theorem apart (h : Settled env known n) (hs : env.Narrows n s n₁) : Subst.Apart s known :=
  fun v hb hm => h.not_binds (hs.mentions v hm) hb

theorem compose (h : Settled env known n) (hw : env.WellScoped n) (hs : env.Narrows n s n₁) :
    Settled (env.apply s) (.compose s known) n₁ := by
  have hΓ := After.apply hw hs
  refine ⟨hs.resolved.compose h.resolved (h.apart hs), fun v hm => ?_, fun v hb hf => ?_⟩
  · rcases Subst.mentions_compose hs.resolved hm with hm | hm
    · exact hw.lt_of_reach hs.le (hs.mentions v hm)
    · exact Nat.lt_of_lt_of_le (h.lt v hm) hs.le
  · obtain ⟨hr, hopen⟩ := hΓ.free v hf
    rcases Subst.binds_compose.1 hb with hb | hb
    · exact hopen hb
    · exact h.not_binds hr hb

end Settled

namespace InferredAll

variable {env : TypeEnv} {known : Subst} {n n₁ n₂ : Nat} {e : Expr} {es : List Expr}
  {s₁ r s : Subst} {t : Ty} {ts : List Ty}

theorem image_cons (hw : env.WellScoped n) (hk : Settled env known n)
    (he : Inferred env n e s₁ t n₁)
    (h : InferredAll (env.apply s₁) (.compose s₁ known) n₁ es r s ts n₂) (v : Nat) :
    s.image v = (known.image v).subst (Subst.compose r s₁).image := by
  have hf := (After.apply hw he.narrows).follows h.narrows
  rw [h.image, Subst.image_compose he.narrows.resolved (hk.apart he.narrows), Ty.subst_subst]
  exact Ty.subst_congr _ fun w _ => (hf.image w).symm

/-- Nothing that was known before is about the variables of the first type. -/
theorem apply_first (hw : env.WellScoped n) (hk : Settled env known n)
    (he : Inferred env n e s₁ t n₁)
    (h : InferredAll (env.apply s₁) (.compose s₁ known) n₁ es r s ts n₂) :
    s.apply t = t.subst r.image := by
  have hf := (After.apply hw he.narrows).follows h.narrows
  rw [h.resolved.apply_eq]
  refine Ty.subst_congr t fun v hv => ?_
  obtain ⟨hreach, hopen⟩ := he.clear v hv
  rw [image_cons hw hk he h, Subst.image_of_not_binds (hk.not_binds hreach), Ty.subst, hf.image,
    Subst.image_of_not_binds hopen]
  rfl

theorem cons (hw : env.WellScoped n) (hk : Settled env known n)
    (he : Inferred env n e s₁ t n₁)
    (h : InferredAll (env.apply s₁) (.compose s₁ known) n₁ es r s ts n₂) :
    InferredAll env known n (e :: es) (.compose r s₁) s (t :: ts) n₂ := by
  have hΓ := After.apply hw he.narrows
  have hf := hΓ.follows h.narrows
  have hfirst := apply_first hw hk he h
  refine ⟨hΓ.compose h.narrows, h.resolved, image_cons hw hk he h, fun v hm => ?_, ?_, ?_⟩
  · rcases h.mentions v hm with hv | hm
    · exact .inl (hΓ.reach h.narrows.le hv).1
    · rcases Subst.mentions_compose he.narrows.resolved hm with hm | hm
      · exact .inl ((he.narrows.mentions v hm).mono h.narrows.le)
      · exact .inr hm
  · intro u hu
    rcases List.mem_cons.1 hu with rfl | hu
    · rw [hfirst]
      exact he.clear.compose hf h.narrows.le
    · exact hΓ.clear h.narrows (h.clear u hu)
  · have hscope : ((env.apply s₁).subst r.image).Specializes
        (env.subst (Subst.compose r s₁).image) :=
      (hΓ.via _).trans (specializes_subst fun v _ => (hf.image v).symm)
    rw [List.map_cons, hfirst]
    exact .cons ((HasType.subst _ e he.typed).mono hscope e) (h.typed.mono hscope es)

theorem image_nothing_known (h : InferredAll env ∅ n es r s ts n₁) : s.image = r.image := by
  funext v
  rw [h.image, Subst.image_empty]
  rfl

end InferredAll

theorem settled_empty (env : TypeEnv) (n : Nat) : Settled env ∅ n :=
  ⟨Subst.resolved_empty, fun v h => absurd h (Subst.not_mentions_empty v),
    fun v h => absurd h (Subst.not_binds_empty v)⟩

open Session

theorem clear_of_no_vars {env : TypeEnv} {n n' : Nat} {s : Subst} {t : Ty} (h : t.vars = []) :
    env.Clear n s n' t := by
  intro v hv
  simp [h] at hv

/-- The next variable to be drawn. -/
theorem clear_fresh {env : TypeEnv} {n n' : Nat} {s : Subst} (hw : env.WellScoped n)
    (hs : env.Narrows n s n') : env.Clear n s (n' + 1) (.var n') := by
  intro v hv
  obtain rfl : v = n' := by simpa [Ty.vars] using hv
  refine ⟨.inr ⟨hs.le, by omega⟩, fun hb => ?_⟩
  have := hw.lt_of_reach hs.le (hs.mentions v (.inl hb))
  omega

/-- What a variable in reach stands for. -/
theorem TypeEnv.Narrows.clear_apply {env : TypeEnv} {n n' v : Nat} {s : Subst}
    (hs : env.Narrows n s n') (hv : env.Reach n n' v) : env.Clear n s n' (s.apply (.var v)) := by
  intro w hw
  rw [hs.resolved.apply_eq, Ty.subst] at hw
  refine ⟨?_, hs.resolved.not_binds_of_mem_image hw⟩
  rcases Subst.mem_vars_image hw with ⟨rfl, -⟩ | ⟨-, hm⟩
  · exact hv
  · exact hs.mentions w hm

theorem TypeEnv.Clear.fn {env : TypeEnv} {n n' : Nat} {s : Subst} {a b : Ty}
    (ha : env.Clear n s n' a) (hb : env.Clear n s n' b) : env.Clear n s n' (.fn a b) := by
  intro v hv
  simp only [Ty.vars, List.mem_append] at hv
  exact hv.elim (ha v) (hb v)

/-- Both operands are made integers by the substitution that demands it. -/
theorem demandInts_spec {env : TypeEnv} {n n' : Nat} {s s₃ : Subst} {left right : Ty}
    (hl : env.Clear n s n' left) (hr : env.Clear n s n' right)
    (h : demandInts left right = .ok s₃) :
    env.Follows n s s₃ n' ∧ left.subst s₃.image = .int ∧ right.subst s₃.image = .int := by
  obtain ⟨u, w, hu, hw, rfl⟩ := demandInts_eq_ok.1 h
  have hu := unify_unifier hu
  rw [hu.resolved.apply_eq] at hw
  have hw := unify_unifier hw
  have hfu := (clear_of_no_vars rfl).follows hl hu
  have hfw := (clear_of_no_vars rfl).follows (hr.compose hfu (Nat.le_refl n')) hw
  -- The second unifier says nothing about what the first one bound.
  have hapart : Subst.Apart w u := fun v hb hm =>
    (hfw.mentions v hm).2 (Subst.binds_compose.2 (.inl hb))
  have himage (t : Ty) :
      t.subst (Subst.compose w u).image = (t.subst u.image).subst w.image := by
    rw [Ty.subst_subst]
    exact Ty.subst_congr t fun v _ => Subst.image_compose hw.resolved hapart v
  refine ⟨⟨hw.resolved.compose hu.resolved hapart, fun v hm => ?_⟩, ?_, ?_⟩
  · rcases Subst.mentions_compose hw.resolved hm with hm | hm
    · obtain ⟨hr, hopen⟩ := hfw.mentions v hm
      exact ⟨hr, fun hb => hopen (Subst.binds_compose.2 (.inr hb))⟩
    · exact hfu.mentions v hm
  · rw [himage, ← hu.unifies]
    rfl
  · rw [himage, ← hw.unifies]
    rfl

/-! ### One lemma for each construct -/

namespace Inferred

variable {env : TypeEnv} {n n₀ n₁ n₂ : Nat} {s s₀ s₁ s₂ s₃ s₄ : Subst} {a b t : Ty}

theorem var {x : String} (hw : env.WellScoped n) (h : infer env (.var x) n = .ok (s, t) n₁) :
    Inferred env n (.var x) s t n₁ := by
  obtain ⟨σ, hx, hinst, rfl⟩ := infer_var_iff.1 h
  obtain ⟨r, hr, hren, hbinds⟩ :=
    instantiate_ok (n := n) fun v hv => hw.quantified_lt v ⟨x, σ, hx, hv⟩
  rw [hr] at hinst
  cases hinst
  refine ⟨⟨by omega, Subst.resolved_empty, fun v h => absurd h (Subst.not_mentions_empty v)⟩,
    fun v hv => ⟨?_, Subst.not_binds_empty v⟩, ?_⟩
  · obtain ⟨w, hmem, hv⟩ := Ty.mem_vars_subst.1 hv
    cases hget : r.get? w with
    | none =>
        have hopen : ¬ r.Binds w := by simp [Subst.Binds, hget]
        obtain rfl : v = w := by simpa [Subst.image_of_not_binds hopen, Ty.vars] using hv
        exact .inl ⟨x, σ, hx, hmem, fun hq => hopen ((hbinds v).2 hq)⟩
    | some u =>
        obtain ⟨k, rfl, hlo, hhi⟩ := hren.new w u hget
        obtain rfl : v = k := by simpa [Subst.image_of_get? hget, Ty.vars] using hv
        exact .inr ⟨hlo, hhi⟩
  · rw [apply_empty]
    refine .var hx ⟨r.image, fun v hv => Subst.image_of_not_binds fun hb => hv ?_, rfl⟩
    exact (hbinds v).1 hb

theorem fn {x : String} {body : Expr}
    (h : Inferred (env.extend x (.mono (.var n))) (n + 1) body s b n₁) :
    Inferred env n (.fn x body) s (.fn (s.apply (.var n)) b) n₁ := by
  have hle := h.narrows.le
  have hreach {v : Nat} (hv : TypeEnv.Reach (env.extend x (.mono (.var n))) (n + 1) n₁ v) :
      env.Reach n n₁ v :=
    hv.of_extend (Nat.le_succ n) fun w hmem => .inr (by simp [Ty.vars] at hmem; omega)
  have hn : env.Narrows n s n₁ :=
    ⟨by omega, h.narrows.resolved, fun v hv => hreach (h.narrows.mentions v hv)⟩
  exact ⟨hn, (hn.clear_apply (.inr ⟨Nat.le_refl n, by omega⟩)).fn
      fun v hv => ⟨hreach (h.clear v hv).1, (h.clear v hv).2⟩,
    .fn (h.typed.mono (.of_lookup (lookup_apply_extend env s x _)) body)⟩

theorem app {callee arg : Expr} (hw : env.WellScoped n) (h₁ : Inferred env n callee s₁ a n₁)
    (h₂ : Inferred (env.apply s₁) n₁ arg s₂ b n₂)
    (h₃ : unify (s₂.apply a) (.fn b (.var n₂)) "application" = .ok s₃) :
    Inferred env n (.app callee arg) (.compose s₃ (.compose s₂ s₁))
      ((Subst.compose s₃ (.compose s₂ s₁)).apply (.var n₂)) (n₂ + 1) := by
  have hΓ := After.apply hw h₁.narrows
  have hcallee := h₁.follow hw (hΓ.follows h₂.narrows) h₂.narrows.le
  have harg := of_after hΓ h₂
  have hresult := clear_fresh hw harg.narrows
  rw [h₂.narrows.resolved.apply_eq] at h₃
  have hu := unify_unifier h₃
  have hf := (hcallee.clear.mono (Nat.le_succ n₂)).follows
    ((harg.clear.mono (Nat.le_succ n₂)).fn hresult) hu
  have hcallee := hcallee.follow hw hf (Nat.le_succ n₂)
  have harg := harg.follow hw hf (Nat.le_succ n₂)
  rw [hresult.apply_compose (hΓ.compose h₂.narrows).resolved hf]
  refine ⟨hcallee.narrows, hresult.compose hf (Nat.le_refl _), .app ?_ harg.typed⟩
  have htyped := hcallee.typed
  rwa [hu.unifies] at htyped

/-- A condition that was made a boolean. -/
theorem isBool {c : Expr} {cond : Ty} {u : Subst} (hw : env.WellScoped n)
    (h : Inferred env n c s cond n₁) (hu : unify .bool cond "if condition" = .ok u) :
    Inferred env n c (.compose u s) .bool n₁ := by
  have hu := unify_unifier hu
  have hfollow := h.follow hw ((clear_of_no_vars rfl).follows h.clear hu) (Nat.le_refl n₁)
  rwa [← hu.unifies] at hfollow

theorem ite {c th el : Expr} (hw : env.WellScoped n) (hc : Inferred env n c s₁ .bool n₀)
    (ht : Inferred (env.apply s₁) n₀ th s₂ a n₁)
    (he : Inferred ((env.apply s₁).apply s₂) n₁ el s₃ b n₂)
    (h : unify (s₃.apply a) b "if branches" = .ok s₄) :
    Inferred env n (.ite c th el) (.compose s₄ (.compose s₃ (.compose s₂ s₁)))
      ((Subst.compose s₄ (.compose s₃ (.compose s₂ s₁))).apply a) n₂ := by
  have hΓ := After.apply hw hc.narrows
  have hΓ₂ := hΓ.trans ht.narrows
  have hf₃ := hΓ₂.follows he.narrows
  have hcond := (hc.follow hw (hΓ.follows ht.narrows) ht.narrows.le).follow hw hf₃ he.narrows.le
  have hopen := of_after hΓ ht
  have hthen := hopen.follow hw hf₃ he.narrows.le
  have helse := of_after hΓ₂ he
  rw [he.narrows.resolved.apply_eq] at h
  have hu := unify_unifier h
  have hf₄ := hthen.clear.follows helse.clear hu
  have hle := Nat.le_refl n₂
  have hcond := (hcond.follow hw hf₄ hle).typed
  have helse := (helse.follow hw hf₄ hle).typed
  have hthen := hthen.follow hw hf₄ hle
  rw [hopen.clear.apply_compose_twice hopen.narrows.resolved hf₃ hf₄]
  refine ⟨hthen.narrows, hthen.clear, .ite hcond hthen.typed ?_⟩
  rwa [← hu.unifies] at helse

theorem prim {op : Op} {l r : Expr} (hw : env.WellScoped n) (h₁ : Inferred env n l s₁ a n₁)
    (h₂ : Inferred (env.apply s₁) n₁ r s₂ b n₂) (h₃ : demandInts (s₂.apply a) b = .ok s₃) :
    Inferred env n (.prim op l r) (.compose s₃ (.compose s₂ s₁)) op.ty n₂ := by
  have hΓ := After.apply hw h₁.narrows
  have hleft := h₁.follow hw (hΓ.follows h₂.narrows) h₂.narrows.le
  have hright := of_after hΓ h₂
  rw [h₂.narrows.resolved.apply_eq] at h₃
  obtain ⟨hf, hl, hr⟩ := demandInts_spec hleft.clear hright.clear h₃
  have hleft := hleft.follow hw hf (Nat.le_refl n₂)
  have hright := (hright.follow hw hf (Nat.le_refl n₂)).typed
  refine ⟨hleft.narrows, clear_of_no_vars (by unfold Op.ty; split <;> rfl), .prim ?_ ?_⟩
  · have htyped := hleft.typed
    rwa [hl] at htyped
  · rwa [hr] at hright

theorem letIn {x : String} {value body : Expr} (hw : env.WellScoped n)
    (h₁ : Inferred env n value s₁ a n₁)
    (h₂ : Inferred ((env.apply s₁).extend x ((env.apply s₁).generalize a)) n₁ body s₂ b n₂) :
    Inferred env n (.letIn x value body) (.compose s₂ s₁) ((Subst.compose s₂ s₁).apply b) n₂ := by
  have hΓ := After.apply hw h₁.narrows
  obtain ⟨hn, hb, hbody⟩ :=
    of_generalize hΓ.wellScoped (h₁.clear.lt hw h₁.narrows.le) h₂
  rw [(hΓ.clear hn hb).apply_eq (hΓ.compose hn).resolved]
  refine ⟨hΓ.compose hn, hΓ.clear hn hb, hΓ.typed hn ?_⟩
  exact .letIn_subst _ (fun ζ => HasType.subst ζ value h₁.typed)
    (fun v hv => (vars_generalize.1 hv).2) hbody

/-- What the body of a recursive function teaches, seen from the scope around the definition. -/
theorem recursive_follows {f x : String} {body : Expr}
    (h : Inferred ((env.extend f (.mono (.fn (.var n) (.var (n + 1))))).extend x
      (.mono (.var n))) (n + 2) body s₁ b n₁)
    (hu : unify (s₁.apply (.var (n + 1))) b "let rec body" = .ok s₂) :
    env.Narrows n s₁ n₁ ∧ env.Follows n s₁ s₂ n₁ := by
  have hle := h.narrows.le
  have hdrawn (v : Nat) (hlo : n ≤ v) (hhi : v < n + 2) : env.Reach n n₁ v := .inr ⟨hlo, by omega⟩
  have hreach {v : Nat} (hv : TypeEnv.Reach ((env.extend f
      (.mono (.fn (.var n) (.var (n + 1))))).extend x (.mono (.var n))) (n + 2) n₁ v) :
      env.Reach n n₁ v := by
    rcases hv with hv | hv
    · rcases free_extend hv with hv | hv
      · have := hv.1
        simp only [Scheme.mono, Ty.vars, List.mem_singleton] at this
        exact hdrawn v (by omega) (by omega)
      · rcases free_extend hv with hv | hv
        · have := hv.1
          simp only [Scheme.mono, Ty.vars, List.mem_append, List.mem_singleton] at this
          exact hdrawn v (by omega) (by omega)
        · exact .inl hv
    · exact .inr ⟨by omega, hv.2⟩
  have hn : env.Narrows n s₁ n₁ :=
    ⟨by omega, h.narrows.resolved, fun v hv => hreach (h.narrows.mentions v hv)⟩
  refine ⟨hn, (hn.clear_apply (hdrawn (n + 1) (by omega) (by omega))).follows ?_
    (unify_unifier hu)⟩
  exact fun v hv => ⟨hreach (h.clear v hv).1, (h.clear v hv).2⟩

/-- The body of a recursive function, typed in the scope around the definition. -/
theorem recursive {f x : String} {body : Expr} (hw : env.WellScoped n)
    (h : Inferred ((env.extend f (.mono (.fn (.var n) (.var (n + 1))))).extend x
      (.mono (.var n))) (n + 2) body s₁ b n₁)
    (hu : unify (s₁.apply (.var (n + 1))) b "let rec body" = .ok s₂) :
    env.Narrows n (.compose s₂ s₁) n₁ ∧
      HasType (((env.apply (.compose s₂ s₁)).extend f
        (.mono ((Subst.compose s₂ s₁).apply (.fn (.var n) (.var (n + 1)))))).extend x
        (.mono ((Subst.compose s₂ s₁).apply (.var n)))) body
        ((Subst.compose s₂ s₁).apply (.var (n + 1))) := by
  obtain ⟨hn, hf⟩ := h.recursive_follows hu
  have hu := unify_unifier hu
  have hn₃ := hn.compose hf (Nat.le_refl n₁)
  have htyped := h.typed.later hn.resolved ((hw.extend_recursive f x).spares h.narrows)
    hn₃.resolved (spares_extend_mono (spares_extend_mono (hw.spares hn₃) f _) x _) hf.image
  have hresult : (Subst.compose s₂ s₁).apply (.var (n + 1)) = b.subst s₂.image := by
    rw [← hu.unifies, Subst.apply_compose hf.resolved hn.resolved hf.apart, hf.resolved.apply_eq]
  rw [hresult]
  refine ⟨hn₃, htyped.mono (.of_lookup fun y => ?_) body⟩
  rw [lookup_apply_extend, Scope.lookup_extend, lookup_apply_extend, ← Scope.lookup_extend]
  rfl

theorem letRec {f x : String} {body rest : Expr} (hw : env.WellScoped n)
    (hn : env.Narrows n s₁ n₁) (hle : n + 2 ≤ n₁)
    (hbody : HasType (((env.apply s₁).extend f
      (.mono (s₁.apply (.fn (.var n) (.var (n + 1)))))).extend x (.mono (s₁.apply (.var n)))) body
      (s₁.apply (.var (n + 1))))
    (h : Inferred ((env.apply s₁).extend f
      ((env.apply s₁).generalize (s₁.apply (.fn (.var n) (.var (n + 1)))))) n₁ rest s₂ b n₂) :
    Inferred env n (.letRec f x body rest) (.compose s₂ s₁) ((Subst.compose s₂ s₁).apply b)
      n₂ := by
  have hΓ := After.apply hw hn
  have hfn : env.Clear n s₁ n₁ (s₁.apply (.fn (.var n) (.var (n + 1)))) :=
    (hn.clear_apply (.inr ⟨by omega, by omega⟩)).fn (hn.clear_apply (.inr ⟨by omega, by omega⟩))
  obtain ⟨hn₂, hb, hrest⟩ := of_generalize hΓ.wellScoped (hfn.lt hw hn.le) h
  rw [(hΓ.clear hn₂ hb).apply_eq (hΓ.compose hn₂).resolved]
  refine ⟨hΓ.compose hn₂, hΓ.clear hn₂ hb, hΓ.typed hn₂ ?_⟩
  exact .letRec_subst _ (fun ζ => HasType.subst ζ body hbody)
    (fun v hv => (vars_generalize.1 hv).2) hrest

theorem tuple {es : List Expr} {r : Subst} {ts : List Ty} (hw : env.WellScoped n)
    (h : InferredAll env ∅ n es r s ts n₁) :
    Inferred env n (.tuple es) s (.tuple (ts.map s.apply)) n₁ := by
  have himage := h.image_nothing_known
  have hbinds {v : Nat} (hv : s.Binds v) : r.Binds v := by
    obtain ⟨t, ht⟩ := hv
    refine Classical.byContradiction fun hopen => ?_
    have heq : t = .var v := by
      rw [← Subst.image_of_get? ht, himage, Subst.image_of_not_binds hopen]
    exact h.resolved v t ht v (by simp [heq, Ty.vars]) ⟨t, ht⟩
  have hn : env.Narrows n s n₁ := ⟨h.narrows.le, h.resolved, fun v hm =>
    (h.mentions v hm).resolve_right (Subst.not_mentions_empty v)⟩
  refine ⟨hn, fun v hv => ?_, .tuple (h.typed.mono ?_ es)⟩
  · simp only [Ty.vars, Ty.mem_varsAll, List.mem_map] at hv
    obtain ⟨_, ⟨t, ht, rfl⟩, hv⟩ := hv
    obtain ⟨hreach, hopen⟩ := h.clear t ht v hv
    exact ⟨hreach, fun hb => hopen (hbinds hb)⟩
  · rw [← himage]
    exact specializes_to_apply hn.resolved (hw.spares hn)

end Inferred

mutual

theorem inferred (e : Expr) {env : TypeEnv} {n n' : Nat} {s : Subst} {t : Ty}
    (hw : env.WellScoped n) (h : infer env e n = .ok (s, t) n') : Inferred env n e s t n' := by
  cases e with
  | int k =>
      cases h
      exact ⟨narrows_empty, clear_of_no_vars rfl, .int k⟩
  | bool b =>
      cases h
      exact ⟨narrows_empty, clear_of_no_vars rfl, .bool b⟩
  | unit =>
      cases h
      exact ⟨narrows_empty, clear_of_no_vars rfl, .unit⟩
  | var x => exact .var hw h
  | letIn x value body =>
      obtain ⟨s₁, a, n₁, s₂, b, h₁, h₂, rfl, rfl⟩ := infer_letIn_iff.1 h
      have hvalue := inferred value hw h₁
      have hscope := (hw.apply hvalue.narrows).extend_generalize x
        (hvalue.clear.lt hw hvalue.narrows.le)
      exact .letIn hw hvalue (inferred body hscope h₂)
  | letRec f x body rest =>
      obtain ⟨s₁, b, n₁, s₂, _, s₄, u, h₁, h₂, rfl, h₄, rfl, rfl⟩ := infer_letRec_iff.1 h
      have hbody := inferred body (hw.extend_recursive f x) h₁
      have hle := hbody.narrows.le
      obtain ⟨hn, hbody⟩ := hbody.recursive hw h₂
      have hscope := (hw.apply hn).extend_generalize f
        (((hn.clear_apply (.inr ⟨Nat.le_refl n, by omega⟩)).fn
          (hn.clear_apply (.inr ⟨Nat.le_succ n, by omega⟩))).lt hw hn.le)
      exact .letRec hw hn hle hbody (inferred rest hscope h₄)
  | fn x body =>
      obtain ⟨b, h₁, rfl⟩ := infer_fn_iff.1 h
      exact .fn (inferred body (hw.extend_fresh x) h₁)
  | app callee arg =>
      obtain ⟨s₁, a, n₁, s₂, b, n₂, s₃, h₁, h₂, h₃, rfl, rfl, rfl⟩ := infer_app_iff.1 h
      have hcallee := inferred callee hw h₁
      exact .app hw hcallee (inferred arg (hw.apply hcallee.narrows) h₂) h₃
  | ite c th el =>
      obtain ⟨s₀, cond, n₀, u, _, s₂, a, n₁, s₃, b, s₄, h₀, hb, rfl, h₂, h₃, h₄, rfl, rfl⟩ :=
        infer_ite_iff.1 h
      have hc := (inferred c hw h₀).isBool hw hb
      have hscope := hw.apply hc.narrows
      have hth := inferred th hscope h₂
      exact .ite hw hc hth (inferred el (hscope.apply hth.narrows) h₃) h₄
  | prim op l r =>
      obtain ⟨s₁, a, n₁, s₂, b, s₃, h₁, h₂, h₃, rfl, rfl⟩ := infer_prim_iff.1 h
      have hl := inferred l hw h₁
      exact .prim hw hl (inferred r (hw.apply hl.narrows) h₂) h₃
  | tuple es =>
      obtain ⟨ts, hts, rfl⟩ := infer_tuple_iff.1 h
      obtain ⟨r, hr⟩ := inferredAll es hw (settled_empty env n) hts
      exact .tuple hw hr

theorem inferredAll (es : List Expr) {env : TypeEnv} {known : Subst} {n n' : Nat} {s : Subst}
    {ts : List Ty} (hw : env.WellScoped n) (hk : Settled env known n)
    (h : inferAll env known es n = .ok (s, ts) n') :
    ∃ r, InferredAll env known n es r s ts n' := by
  cases es with
  | nil =>
      cases h
      exact ⟨∅, narrows_empty, hk.resolved, by simp, fun v hv => .inr hv, by simp, .nil⟩
  | cons e es =>
      obtain ⟨s₁, t₁, n₁, ts, h₁, h₂, rfl⟩ := inferAll_cons_iff.1 h
      have he := inferred e hw h₁
      obtain ⟨r, hr⟩ := inferredAll es (hw.apply he.narrows) (hk.compose hw he.narrows) h₂
      exact ⟨_, .cons hw hk he hr⟩

end

/-- In a session, the type of a program is derivable from the types of the builtins. -/
theorem hasType_of_session {e : Expr} {n n' : Nat} {t : Ty} (h : Session.typeOf e n = .ok t n') :
    HasType .initial e t := by
  obtain ⟨s, u, hinfer, rfl⟩ := typeOf_eq_ok.1 h
  have he := inferred e (wellScoped_initial n) hinfer
  rw [he.clear.apply_eq he.narrows.resolved]
  refine he.typed.mono ((specializes_apply he.narrows.resolved
    ((wellScoped_initial n).spares he.narrows)).trans ?_) e
  exact (specializes_subst fun v hv => absurd hv (not_free_initial v)).trans
    specializes_subst_var

theorem hasType_of_typeOf {e : Expr} {t : Ty} (h : e.typeOf = .ok t) : HasType .initial e t := by
  unfold Expr.typeOf at h
  split at h
  · rename_i u m hrun
    cases h
    exact hasType_of_session hrun
  · cases h

end MlWasm
