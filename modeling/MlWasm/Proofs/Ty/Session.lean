import MlWasm.Proofs.Ty.Subst
import MlWasm.Ty.Infer

/-!
What a successful inference consists of: for each construct, the successful steps on its parts. The
proofs about inference read a success apart, or put one together, through these and never look at
how a session runs.
-/

namespace MlWasm

namespace Session

theorem bind_eq_ok {α β : Type} {x : Session α} {f : α → Session β} {n n' : Nat} {r : β} :
    (x >>= f) n = .ok r n' ↔ ∃ a m, x n = .ok a m ∧ f a m = .ok r n' := by
  simp only [bind, EStateM.bind]
  cases x n with
  | ok a m =>
      constructor
      · exact fun h => ⟨a, m, rfl, h⟩
      · rintro ⟨b, k, h, hf⟩
        cases h
        exact hf
  | error e m => simp

theorem pure_eq_ok {α : Type} {a r : α} {n n' : Nat} :
    (pure a : Session α) n = .ok r n' ↔ a = r ∧ n = n' := by
  simp [pure, EStateM.pure]

theorem throw_ne_ok {α : Type} {e : TypeError} {r : α} {n n' : Nat} :
    (throw e : Session α) n ≠ .ok r n' := by
  simp [throw, throwThe, MonadExceptOf.throw, EStateM.throw]

theorem solve_eq_ok {r : Except TypeError Subst} {n n' : Nat} {s : Subst} :
    solve r n = .ok s n' ↔ r = .ok s ∧ n = n' := by
  cases r with
  | ok u => simp [Inference.solve, pure_eq_ok]
  | error e => simp [Inference.solve, throw_ne_ok]

theorem fresh_eq_ok {n n' : Nat} {t : Ty} : fresh n = .ok t n' ↔ t = .var n ∧ n' = n + 1 := by
  simp [fresh, modifyGet, MonadStateOf.modifyGet, EStateM.modifyGet, eq_comm]

/-! ### Instances of a scheme -/

theorem infer_var_iff {env : TypeEnv} {n n' : Nat} {s : Subst} {t : Ty} {x : String} :
    infer env (.var x) n = .ok (s, t) n' ↔
    ∃ σ, env.lookup x = some σ ∧ instantiate σ n = .ok t n' ∧ s = ∅ := by
  rw [infer, Inference.infer]
  cases env.lookup x with
  | none => simp [throw_ne_ok]
  | some σ =>
      simp only [bind_eq_ok, pure_eq_ok, Prod.mk.injEq, Option.some.injEq]
      constructor
      · rintro ⟨u, m, h, ⟨rfl, rfl⟩, rfl⟩
        exact ⟨σ, rfl, h, rfl⟩
      · rintro ⟨_, rfl, h, rfl⟩
        exact ⟨t, n', h, ⟨rfl, rfl⟩, rfl⟩

/-- Binds variables below `lo` to different variables from `lo` on. -/
structure Renames (lo n : Nat) (s : Subst) : Prop where
  old : ∀ v, s.Binds v → v < lo
  new : ∀ v t, s.get? v = some t → ∃ k, t = .var k ∧ lo ≤ k ∧ k < n
  injective : ∀ v w t, s.get? v = some t → s.get? w = some t → v = w

theorem Renames.resolved {lo n : Nat} {s : Subst} (h : Renames lo n s) : s.Resolved := by
  intro v t hv w hw hb
  obtain ⟨k, rfl, hk, -⟩ := h.new v t hv
  obtain rfl : w = k := by simpa [Ty.vars] using hw
  have := h.old w hb
  omega

theorem renames_empty (lo n : Nat) : Renames lo n ∅ :=
  ⟨fun v h => absurd h (Subst.not_binds_empty v), by simp, by simp⟩

theorem Renames.extend {lo n v : Nat} {s : Subst} (h : Renames lo n s) (hlo : lo ≤ n)
    (hv : v < lo) : Renames lo (n + 1) (.compose (.singleton v (.var n)) s) := by
  have hone : (Subst.singleton v (.var n)).Resolved :=
    Subst.resolved_singleton (by simp [Ty.vars]; omega)
  -- The new binding leaves the earlier ones as they are.
  have hget (w : Nat) : (Subst.compose (.singleton v (.var n)) s).get? w =
      if w = v then some (.var n) else s.get? w := by
    rw [Subst.get?_compose, Subst.get?_singleton]
    by_cases hw : w = v
    · simp [hw]
    · simp only [if_neg hw, if_neg (Ne.symm hw), Option.none_or]
      cases hs : s.get? w with
      | none => rfl
      | some t =>
          obtain ⟨k, rfl, hk, -⟩ := h.new w t hs
          simp only [Option.map_some, Option.some.injEq]
          refine hone.apply_eq_self fun u hu hb => ?_
          obtain rfl : u = k := by simpa [Ty.vars] using hu
          have := Subst.binds_singleton.1 hb
          omega
  refine ⟨fun w hw => ?_, fun w t hw => ?_, fun u w t hu hw => ?_⟩
  · rcases Subst.binds_compose.1 hw with hw | hw
    · exact Subst.binds_singleton.1 hw ▸ hv
    · exact h.old w hw
  · rw [hget] at hw
    split at hw
    · simp only [Option.some.injEq] at hw
      exact ⟨n, hw.symm, hlo, by omega⟩
    · obtain ⟨k, rfl, hk, hlt⟩ := h.new w t hw
      exact ⟨k, rfl, hk, by omega⟩
  · rw [hget] at hu hw
    split at hu <;> split at hw
    · simp_all
    · simp only [Option.some.injEq] at hu
      obtain ⟨k, hk, -, hlt⟩ := h.new w t hw
      rw [← hu, Ty.var.injEq] at hk
      omega
    · simp only [Option.some.injEq] at hw
      obtain ⟨k, hk, -, hlt⟩ := h.new u t hu
      rw [← hw, Ty.var.injEq] at hk
      omega
    · exact h.injective u w t hu hw

theorem freshen_after (vars : List Nat) {lo : Nat} (hvars : ∀ v ∈ vars, v < lo) (acc : Subst)
    (n : Nat) (hlo : lo ≤ n) (hacc : Renames lo n acc) :
    ∃ s, (vars.foldlM (fun acc v => do return .compose (.singleton v (← fresh)) acc) acc :
        Session Subst) n = .ok s (n + vars.length) ∧ Renames lo (n + vars.length) s ∧
      ∀ v, s.Binds v ↔ acc.Binds v ∨ v ∈ vars := by
  induction vars generalizing acc n with
  | nil => exact ⟨acc, rfl, by simpa using hacc, by simp⟩
  | cons v vars ih =>
      obtain ⟨s, hs, hren, hbinds⟩ := ih (fun w hw => hvars w (List.mem_cons_of_mem v hw))
        (.compose (.singleton v (.var n)) acc) (n + 1) (by omega)
        (hacc.extend hlo (hvars v List.mem_cons_self))
      have hlen : n + 1 + vars.length = n + (v :: vars).length := by
        simp only [List.length_cons]
        omega
      refine ⟨s, ?_, hlen ▸ hren, fun w => ?_⟩
      · rw [List.foldlM_cons, bind_eq_ok]
        exact ⟨_, n + 1, bind_eq_ok.2 ⟨.var n, n + 1, rfl, rfl⟩, hlen ▸ hs⟩
      · rw [hbinds, Subst.binds_compose, Subst.binds_singleton, List.mem_cons]
        grind

theorem freshen_ok {vars : List Nat} {n : Nat} (hvars : ∀ v ∈ vars, v < n) :
    ∃ s, freshen vars n = .ok s (n + vars.length) ∧ Renames n (n + vars.length) s ∧
      ∀ v, s.Binds v ↔ v ∈ vars := by
  obtain ⟨s, hs, hren, hbinds⟩ :=
    freshen_after vars hvars ∅ n (Nat.le_refl n) (renames_empty n n)
  exact ⟨s, hs, hren, by simpa using hbinds⟩

/-- An instance takes as many fresh variables as the scheme has of its own, which may then be given
any types independently. -/
theorem instantiate_ok {σ : Scheme} {n : Nat} (hvars : ∀ v ∈ σ.vars, v < n) :
    ∃ s, instantiate σ n = .ok (σ.ty.subst s.image) (n + σ.vars.length) ∧
      Renames n (n + σ.vars.length) s ∧ ∀ v, s.Binds v ↔ v ∈ σ.vars := by
  obtain ⟨s, hs, hren, hbinds⟩ := freshen_ok hvars
  refine ⟨s, ?_, hren, hbinds⟩
  unfold instantiate Inference.instantiate
  split
  · rename_i hempty
    rw [List.isEmpty_iff] at hempty
    rw [pure_eq_ok]
    refine ⟨(Ty.subst_eq_self fun v _ => Subst.image_of_not_binds ?_).symm, by simp [hempty]⟩
    simp [hbinds, hempty]
  · rw [bind_eq_ok]
    exact ⟨s, _, hs, by rw [pure_eq_ok, hren.resolved.apply_eq]; exact ⟨rfl, rfl⟩⟩

/-! ### Success for each other construct -/

variable {env : TypeEnv} {n n' : Nat} {s : Subst} {t : Ty}

theorem infer_fn_iff {x : String} {body : Expr} : infer env (.fn x body) n = .ok (s, t) n' ↔
    ∃ b, infer (env.extend x (.mono (.var n))) body (n + 1) = .ok (s, b) n' ∧
      t = .fn (s.apply (.var n)) b := by
  simp only [Inference.infer, bind_eq_ok, pure_eq_ok, fresh_eq_ok, Prod.mk.injEq]
  constructor
  · rintro ⟨_, _, ⟨rfl, rfl⟩, ⟨s, b⟩, m, h, ⟨rfl, rfl⟩, rfl⟩
    exact ⟨b, h, rfl⟩
  · rintro ⟨b, h, rfl⟩
    exact ⟨_, _, ⟨rfl, rfl⟩, (s, b), n', h, ⟨rfl, rfl⟩, rfl⟩

theorem infer_app_iff {f a : Expr} : infer env (.app f a) n = .ok (s, t) n' ↔
    ∃ s₁ callee n₁ s₂ arg n₂ s₃, infer env f n = .ok (s₁, callee) n₁ ∧
      infer (env.apply s₁) a n₁ = .ok (s₂, arg) n₂ ∧
      unify (s₂.apply callee) (.fn arg (.var n₂)) "application" = .ok s₃ ∧
      s = .compose s₃ (.compose s₂ s₁) ∧ t = s.apply (.var n₂) ∧ n' = n₂ + 1 := by
  simp only [Inference.infer, bind_eq_ok, pure_eq_ok, fresh_eq_ok, solve_eq_ok, Prod.mk.injEq]
  constructor
  · rintro ⟨⟨s₁, callee⟩, n₁, h₁, ⟨s₂, arg⟩, n₂, h₂, _, _, ⟨rfl, rfl⟩, s₃, _, ⟨h₃, rfl⟩,
      ⟨rfl, rfl⟩, rfl⟩
    exact ⟨s₁, callee, n₁, s₂, arg, n₂, s₃, h₁, h₂, h₃, rfl, rfl, rfl⟩
  · rintro ⟨s₁, callee, n₁, s₂, arg, n₂, s₃, h₁, h₂, h₃, rfl, rfl, rfl⟩
    exact ⟨_, n₁, h₁, _, n₂, h₂, _, _, ⟨rfl, rfl⟩, s₃, _, ⟨h₃, rfl⟩, ⟨rfl, rfl⟩, rfl⟩

theorem infer_ite_iff {c th el : Expr} : infer env (.ite c th el) n = .ok (s, t) n' ↔
    ∃ s₀ cond n₀ isBool s₁ s₂ thenTy n₁ s₃ elseTy s₄, infer env c n = .ok (s₀, cond) n₀ ∧
      unify .bool cond "if condition" = .ok isBool ∧ s₁ = .compose isBool s₀ ∧
      infer (env.apply s₁) th n₀ = .ok (s₂, thenTy) n₁ ∧
      infer ((env.apply s₁).apply s₂) el n₁ = .ok (s₃, elseTy) n' ∧
      unify (s₃.apply thenTy) elseTy "if branches" = .ok s₄ ∧
      s = .compose s₄ (.compose s₃ (.compose s₂ s₁)) ∧ t = s.apply thenTy := by
  simp only [Inference.infer, bind_eq_ok, pure_eq_ok, solve_eq_ok, Prod.mk.injEq]
  constructor
  · rintro ⟨⟨s₀, cond⟩, n₀, h₀, isBool, _, ⟨hb, rfl⟩, ⟨s₂, thenTy⟩, n₁, h₂, ⟨s₃, elseTy⟩, n₂, h₃,
      s₄, _, ⟨h₄, rfl⟩, ⟨rfl, rfl⟩, rfl⟩
    exact ⟨s₀, cond, n₀, isBool, _, s₂, thenTy, n₁, s₃, elseTy, s₄, h₀, hb, rfl, h₂, h₃, h₄,
      rfl, rfl⟩
  · rintro ⟨s₀, cond, n₀, isBool, _, s₂, thenTy, n₁, s₃, elseTy, s₄, h₀, hb, rfl, h₂, h₃, h₄,
      rfl, rfl⟩
    exact ⟨_, n₀, h₀, isBool, _, ⟨hb, rfl⟩, _, n₁, h₂, _, n', h₃, s₄, _, ⟨h₄, rfl⟩, ⟨rfl, rfl⟩,
      rfl⟩

theorem demandInts_eq_ok {left right : Ty} : demandInts left right = .ok s ↔
    ∃ s₁ s₂, unify .int left "prim left" = .ok s₁ ∧
      unify .int (s₁.apply right) "prim right" = .ok s₂ ∧ s = .compose s₂ s₁ := by
  unfold demandInts
  cases h₁ : unify .int left "prim left" with
  | error e => simp [bind, Except.bind]
  | ok s₁ =>
      cases h₂ : unify .int (s₁.apply right) "prim right" with
      | error e => simp [bind, Except.bind, h₂]
      | ok s₂ => simp [bind, Except.bind, pure, Except.pure, h₂, eq_comm]

theorem infer_prim_iff {op : Op} {l r : Expr} : infer env (.prim op l r) n = .ok (s, t) n' ↔
    ∃ s₁ left n₁ s₂ right s₃, infer env l n = .ok (s₁, left) n₁ ∧
      infer (env.apply s₁) r n₁ = .ok (s₂, right) n' ∧
      demandInts (s₂.apply left) right = .ok s₃ ∧
      s = .compose s₃ (.compose s₂ s₁) ∧ t = if op.isArithmetic then .int else .bool := by
  simp only [Inference.infer, bind_eq_ok]
  constructor
  · rintro ⟨⟨s₁, left⟩, n₁, h₁, ⟨s₂, right⟩, n₂, h₂, h⟩
    cases h₃ : demandInts (s₂.apply left) right with
    | error e => simp [h₃, throw_ne_ok] at h
    | ok s₃ =>
        simp only [h₃, pure_eq_ok, Prod.mk.injEq] at h
        obtain ⟨⟨rfl, rfl⟩, rfl⟩ := h
        exact ⟨s₁, left, n₁, s₂, right, s₃, h₁, h₂, h₃, rfl, rfl⟩
  · rintro ⟨s₁, left, n₁, s₂, right, s₃, h₁, h₂, h₃, rfl, rfl⟩
    exact ⟨_, n₁, h₁, _, n', h₂, by simp [h₃, pure_eq_ok]⟩

theorem infer_letIn_iff {x : String} {value body : Expr} :
    infer env (.letIn x value body) n = .ok (s, t) n' ↔
    ∃ s₁ a n₁ s₂ b, infer env value n = .ok (s₁, a) n₁ ∧
      infer ((env.apply s₁).extend x ((env.apply s₁).generalize a)) body n₁ = .ok (s₂, b) n' ∧
      s = .compose s₂ s₁ ∧ t = s.apply b := by
  simp only [Inference.infer, bind_eq_ok, pure_eq_ok, Prod.mk.injEq]
  constructor
  · rintro ⟨⟨s₁, a⟩, n₁, h₁, ⟨s₂, b⟩, n₂, h₂, ⟨rfl, rfl⟩, rfl⟩
    exact ⟨s₁, a, n₁, s₂, b, h₁, h₂, rfl, rfl⟩
  · rintro ⟨s₁, a, n₁, s₂, b, h₁, h₂, rfl, rfl⟩
    exact ⟨_, n₁, h₁, _, n', h₂, ⟨rfl, rfl⟩, rfl⟩

theorem infer_letRec_iff {f x : String} {body rest : Expr} :
    infer env (.letRec f x body rest) n = .ok (s, t) n' ↔
    ∃ s₁ b n₁ s₂ s₃ s₄ u, infer ((env.extend f (.mono (.fn (.var n) (.var (n + 1))))).extend x
        (.mono (.var n))) body (n + 2) = .ok (s₁, b) n₁ ∧
      unify (s₁.apply (.var (n + 1))) b "let rec body" = .ok s₂ ∧ s₃ = .compose s₂ s₁ ∧
      infer ((env.apply s₃).extend f
        ((env.apply s₃).generalize (s₃.apply (.fn (.var n) (.var (n + 1)))))) rest n₁ =
        .ok (s₄, u) n' ∧
      s = .compose s₄ s₃ ∧ t = s.apply u := by
  simp only [Inference.infer, bind_eq_ok, pure_eq_ok, fresh_eq_ok, solve_eq_ok, Prod.mk.injEq]
  constructor
  · rintro ⟨_, _, ⟨rfl, rfl⟩, _, _, ⟨rfl, rfl⟩, ⟨s₁, b⟩, n₁, h₁, s₂, _, ⟨h₂, rfl⟩, ⟨s₄, u⟩, n₂,
      h₄, ⟨rfl, rfl⟩, rfl⟩
    exact ⟨s₁, b, n₁, s₂, _, s₄, u, h₁, h₂, rfl, h₄, rfl, rfl⟩
  · rintro ⟨s₁, b, n₁, s₂, _, s₄, u, h₁, h₂, rfl, h₄, rfl, rfl⟩
    exact ⟨_, _, ⟨rfl, rfl⟩, _, _, ⟨rfl, rfl⟩, _, n₁, h₁, s₂, _, ⟨h₂, rfl⟩, _, n', h₄, ⟨rfl, rfl⟩,
      rfl⟩

theorem infer_tuple_iff {es : List Expr} : infer env (.tuple es) n = .ok (s, t) n' ↔
    ∃ ts, inferAll env ∅ es n = .ok (s, ts) n' ∧ t = .tuple (ts.map s.apply) := by
  simp only [Inference.infer, bind_eq_ok, pure_eq_ok, Prod.mk.injEq]
  constructor
  · rintro ⟨⟨s, ts⟩, m, h, ⟨rfl, rfl⟩, rfl⟩
    exact ⟨ts, h, rfl⟩
  · rintro ⟨ts, h, rfl⟩
    exact ⟨(s, ts), n', h, ⟨rfl, rfl⟩, rfl⟩

theorem inferAll_cons_iff {known : Subst} {e : Expr} {es : List Expr} {ts : List Ty} :
    inferAll env known (e :: es) n = .ok (s, ts) n' ↔
    ∃ s₁ t₁ n₁ ts', infer env e n = .ok (s₁, t₁) n₁ ∧
      inferAll (env.apply s₁) (.compose s₁ known) es n₁ = .ok (s, ts') n' ∧ ts = t₁ :: ts' := by
  simp only [Inference.inferAll, bind_eq_ok, pure_eq_ok, Prod.mk.injEq]
  constructor
  · rintro ⟨⟨s₁, t₁⟩, n₁, h₁, ⟨s, ts'⟩, m, h, ⟨rfl, rfl⟩, rfl⟩
    exact ⟨s₁, t₁, n₁, ts', h₁, h, rfl⟩
  · rintro ⟨s₁, t₁, n₁, ts', h₁, h, rfl⟩
    exact ⟨_, n₁, h₁, (s, ts'), n', h, ⟨rfl, rfl⟩, rfl⟩

theorem typeOf_eq_ok {e : Expr} : typeOf e n = .ok t n' ↔
    ∃ s u, infer .initial e n = .ok (s, u) n' ∧ t = s.apply u := by
  simp only [typeOf, Inference.typeOf, bind_eq_ok, pure_eq_ok]
  constructor
  · rintro ⟨⟨s, u⟩, m, h, rfl, rfl⟩
    exact ⟨s, u, h, rfl⟩
  · rintro ⟨s, u, h, rfl⟩
    exact ⟨(s, u), n', h, rfl, rfl⟩

end Session

end MlWasm
