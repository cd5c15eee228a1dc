import MlWasm.Proofs.Ty.Session

/-!
What 32-bit variables come to. As long as fewer variables are drawn than the counter can number,
inference is the same as in a session that numbers them without end, whether or not the build checks
for overflow. When more are drawn, a build that checks stops.
-/

namespace MlWasm

open Session

variable {α β : Type}

/-- The next unused variable after a run, whether or not it succeeds. -/
def Session.next (x : Session α) (n : Nat) : Nat :=
  match x n with
  | .ok _ n' => n'
  | .error _ n' => n'

def Session.answer (x : Session α) (n : Nat) : Except TypeError α :=
  match x n with
  | .ok a _ => .ok a
  | .error e _ => .error e

namespace Session

variable {x : Session α} {f : α → Session β} {n m : Nat}

theorem next_of_ok {a : α} (h : x n = .ok a m) : x.next n = m := by rw [next, h]

theorem answer_of_ok {a : α} (h : x n = .ok a m) : x.answer n = .ok a := by rw [answer, h]

theorem next_of_error {e : TypeError} (h : x n = .error e m) : x.next n = m := by rw [next, h]

theorem answer_of_error {e : TypeError} (h : x n = .error e m) : x.answer n = .error e := by
  rw [answer, h]

theorem next_bind_of_ok {a : α} (h : x n = .ok a m) : (x >>= f).next n = (f a).next m := by
  simp only [next, bind, EStateM.bind, h]

theorem answer_bind_of_ok {a : α} (h : x n = .ok a m) : (x >>= f).answer n = (f a).answer m := by
  simp only [answer, bind, EStateM.bind, h]

theorem next_bind_of_error {e : TypeError} (h : x n = .error e m) : (x >>= f).next n = m := by
  simp only [next, bind, EStateM.bind, h]

theorem answer_bind_of_error {e : TypeError} (h : x n = .error e m) :
    (x >>= f).answer n = .error e := by
  simp only [answer, bind, EStateM.bind, h]

end Session

namespace Checker

/-- `y` does what `x` does with variables that fit in 32 bits, and stops if they do not. -/
structure Tracks (checks : Bool) (x : Session α) (y : Checker α) : Prop where
  le_next : ∀ n, n ≤ x.next n
  fits : ∀ n : UInt32, x.next n.toNat < 2 ^ 32 →
    y.run n = some (x.answer n.toNat, .ofNat (x.next n.toNat))
  stops : checks = true → ∀ n : UInt32, 2 ^ 32 ≤ x.next n.toNat → y.run n = none

variable {checks : Bool}

theorem tracks_pure (a : α) : Tracks checks (pure a) (pure a) where
  le_next n := Nat.le_refl n
  fits n _ := by
    show some (Except.ok a, n) = some (Except.ok a, UInt32.ofNat n.toNat)
    rw [UInt32.ofNat_toNat]
  stops _ n h := absurd h (Nat.not_le.2 n.toNat_lt)

theorem tracks_throw (e : TypeError) :
    Tracks checks (throw e : Session α) (throw e : Checker α) where
  le_next n := Nat.le_refl n
  fits n _ := by
    show some (Except.error e, n) = some (Except.error e, UInt32.ofNat n.toNat)
    rw [UInt32.ofNat_toNat]
  stops _ n h := absurd h (Nat.not_le.2 n.toNat_lt)

theorem tracks_fresh : Tracks checks Session.fresh (Checker.fresh checks) where
  le_next n := Nat.le_succ n
  fits n h := by
    have hlt : n.toNat + 1 < 2 ^ 32 := h
    have hne : n + 1 ≠ 0 := fun h0 => by
      have := congrArg UInt32.toNat h0
      rw [UInt32.toNat_add] at this
      simp at this
      omega
    show (if checks && n + 1 == 0 then none else some (Except.ok (Ty.var n.toNat), n + 1)) =
      some (Except.ok (Ty.var n.toNat), UInt32.ofNat (n.toNat + 1))
    rw [if_neg (by simp [hne]), UInt32.ofNat_add, UInt32.ofNat_toNat]
    rfl
  stops hc n h := by
    have hge : 2 ^ 32 ≤ n.toNat + 1 := h
    have hzero : n + 1 = 0 := UInt32.toNat_inj.1 (by
      rw [UInt32.toNat_add]
      have := n.toNat_lt
      simp
      omega)
    show (if checks && n + 1 == 0 then none else some (Except.ok (Ty.var n.toNat), n + 1)) = none
    rw [hc, hzero]
    rfl

theorem run_bind (y : Checker α) (g : α → Checker β) (n : UInt32) :
    (y >>= g).run n = (y.run n).bind fun r =>
      match r.1 with
      | .ok a => (g a).run r.2
      | .error e => some (.error e, r.2) := by
  show ((StateT.run (ExceptT.run y) n).bind fun r => _) = _
  congr 1
  funext r
  obtain ⟨_ | a, n'⟩ := r <;> rfl

theorem Tracks.bind {x : Session α} {y : Checker α} {f : α → Session β} {g : α → Checker β}
    (h : Tracks checks x y) (hf : ∀ a, Tracks checks (f a) (g a)) :
    Tracks checks (x >>= f) (y >>= g) := by
  refine ⟨fun n => ?_, fun n hlt => ?_, fun hc n hge => ?_⟩
  · have hle := h.le_next n
    cases hx : x n with
    | ok a m =>
        rw [next_of_ok hx] at hle
        rw [next_bind_of_ok hx]
        exact hle.trans ((hf a).le_next m)
    | error e m => rwa [next_bind_of_error hx, ← next_of_error hx]
  · rw [run_bind]
    cases hx : x n.toNat with
    | ok a m =>
        rw [next_bind_of_ok hx] at hlt
        have hm : m < 2 ^ 32 := ((hf a).le_next m).trans_lt hlt
        have hrest := (hf a).fits (.ofNat m)
        rw [UInt32.toNat_ofNat_of_lt' hm] at hrest
        rw [h.fits n (by rwa [next_of_ok hx]), answer_of_ok hx, next_of_ok hx,
          answer_bind_of_ok hx, next_bind_of_ok hx]
        exact hrest hlt
    | error e m =>
        rw [next_bind_of_error hx] at hlt
        rw [h.fits n (by rwa [next_of_error hx]), answer_of_error hx, next_of_error hx,
          answer_bind_of_error hx, next_bind_of_error hx]
        rfl
  · rw [run_bind]
    by_cases hm : 2 ^ 32 ≤ x.next n.toNat
    · rw [h.stops hc n hm]
      rfl
    · -- The counter overflows in the second part only, which the first one reaches.
      rw [h.fits n (by omega)]
      cases hx : x n.toNat with
      | ok a m =>
          rw [next_bind_of_ok hx] at hge
          rw [next_of_ok hx] at hm
          rw [answer_of_ok hx, next_of_ok hx]
          refine (hf a).stops hc (.ofNat m) ?_
          rwa [UInt32.toNat_ofNat_of_lt' (Nat.lt_of_not_le hm)]
      | error e m =>
          rw [next_bind_of_error hx, ← next_of_error hx] at hge
          exact absurd hge hm

namespace Tracks

variable {x : Session α} {y : Checker α} {n : UInt32} {a : α}

end Tracks

theorem tracks_solve (r : Except TypeError Subst) :
    Tracks checks (Session.solve r) (Inference.solve r) := by
  cases r with
  | ok s => exact tracks_pure s
  | error e => exact tracks_throw e

theorem tracks_freshen (vars : List Nat) :
    Tracks checks (freshen vars) (Inference.freshen (fresh checks) vars) := by
  have hfold (acc : Subst) : Tracks checks
      (vars.foldlM (fun acc v => do return .compose (.singleton v (← Session.fresh)) acc) acc)
      (vars.foldlM (fun acc v => do return .compose (.singleton v (← fresh checks)) acc) acc) := by
    induction vars generalizing acc with
    | nil => exact tracks_pure acc
    | cons v vars ih =>
        simp only [List.foldlM_cons]
        exact .bind (.bind tracks_fresh fun t => tracks_pure _) ih
  exact hfold ∅

theorem tracks_instantiate (σ : Scheme) :
    Tracks checks (Session.instantiate σ) (Checker.instantiate checks σ) := by
  unfold Session.instantiate Checker.instantiate Inference.instantiate
  split
  · exact tracks_pure σ.ty
  · exact .bind (tracks_freshen σ.vars) fun s => tracks_pure _

mutual

theorem tracks_infer (env : TypeEnv) (e : Expr) :
    Tracks checks (Session.infer env e) (Checker.infer checks env e) := by
  unfold Session.infer Checker.infer
  cases e with
  | int n => exact tracks_pure _
  | bool b => exact tracks_pure _
  | unit => exact tracks_pure _
  | var x =>
      rw [Inference.infer, Inference.infer]
      cases env.lookup x with
      | none => exact tracks_throw _
      | some σ => exact .bind (tracks_instantiate σ) fun t => tracks_pure _
  | prim op l r =>
      rw [Inference.infer, Inference.infer]
      refine .bind (tracks_infer env l) fun ⟨s₁, left⟩ => ?_
      refine .bind (tracks_infer (env.apply s₁) r) fun ⟨s₂, right⟩ => ?_
      cases h : demandInts (s₂.apply left) right with
      | ok s₃ => simpa only [h] using tracks_pure _
      | error e => simpa only [h] using tracks_throw _
  | ite c t e =>
      rw [Inference.infer, Inference.infer]
      refine .bind (tracks_infer env c) fun ⟨s₀, cond⟩ => ?_
      refine .bind (tracks_solve _) fun isBool => ?_
      refine .bind (tracks_infer _ t) fun ⟨s₂, thenTy⟩ => ?_
      refine .bind (tracks_infer _ e) fun ⟨s₃, elseTy⟩ => ?_
      exact .bind (tracks_solve _) fun s₄ => tracks_pure _
  | fn x body =>
      rw [Inference.infer, Inference.infer]
      refine .bind tracks_fresh fun param => ?_
      exact .bind (tracks_infer _ body) fun ⟨s, result⟩ => tracks_pure _
  | app f a =>
      rw [Inference.infer, Inference.infer]
      refine .bind (tracks_infer env f) fun ⟨s₁, callee⟩ => ?_
      refine .bind (tracks_infer _ a) fun ⟨s₂, arg⟩ => ?_
      refine .bind tracks_fresh fun result => ?_
      exact .bind (tracks_solve _) fun s₃ => tracks_pure _
  | letIn x value body =>
      rw [Inference.infer, Inference.infer]
      refine .bind (tracks_infer env value) fun ⟨s₁, valueTy⟩ => ?_
      exact .bind (tracks_infer _ body) fun ⟨s₂, bodyTy⟩ => tracks_pure _
  | letRec f x body rest =>
      rw [Inference.infer, Inference.infer]
      refine .bind tracks_fresh fun domain => .bind tracks_fresh fun codomain => ?_
      refine .bind (tracks_infer _ body) fun ⟨s₁, bodyTy⟩ => ?_
      refine .bind (tracks_solve _) fun s₂ => ?_
      exact .bind (tracks_infer _ rest) fun ⟨s₄, restTy⟩ => tracks_pure _
  | tuple elts =>
      rw [Inference.infer, Inference.infer]
      exact .bind (tracks_inferAll env ∅ elts) fun ⟨s, tys⟩ => tracks_pure _

theorem tracks_inferAll (env : TypeEnv) (known : Subst) (es : List Expr) :
    Tracks checks (Session.inferAll env known es)
      (Inference.inferAll (fresh checks) env known es) := by
  unfold Session.inferAll
  cases es with
  | nil => exact tracks_pure _
  | cons e es =>
      rw [Inference.inferAll, Inference.inferAll]
      refine .bind (tracks_infer env e) fun ⟨s, t⟩ => ?_
      exact .bind (tracks_inferAll (env.apply s) _ es) fun ⟨r, ts⟩ => tracks_pure _

end

end Checker

end MlWasm
