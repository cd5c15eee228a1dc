import MlWasm.Proofs.Ir.Lift

/-!
Temps of lifted expressions. Where the names in scope have temps below `t`, an expression lifted
with `t` for the next temp uses none beyond those counted for it, and each function lifted out of it
uses none beyond its frame.
-/

namespace MlWasm.Ir

variable {Δ : Scope Nat} {k t : Nat}

/-! ### Temps of names -/

/-- Every temp of the scope is below `t`. -/
def Below (Δ : Scope Nat) (t : Nat) : Prop := ∀ y u, Δ.lookup y = some u → u < t

theorem Below.mono {t' : Nat} (h : Below Δ t) (ht : t ≤ t') : Below Δ t' :=
  fun y u hy => Nat.lt_of_lt_of_le (h y u hy) ht

theorem Below.extend {t' : Nat} (h : Below Δ t) (x : String) (ht : t < t') :
    Below (Δ.extend x t) t' := by
  intro y u hy
  obtain ⟨-, rfl⟩ | ⟨-, hy⟩ := Scope.lookup_extend_eq_some.1 hy
  · exact ht
  · exact Nat.lt_trans (h y u hy) ht

/-- Temps that captures come from are those of names. -/
theorem lt_of_mem_captures {u c : Nat} {names : List String} {captures : List Nat}
    (hbelow : Below Δ u) (h : names.map Δ.lookup = captures.map some) (hc : c ∈ captures) :
    c < u := by
  have hmem : some c ∈ names.map Δ.lookup := by
    rw [h]
    exact List.mem_map_of_mem hc
  obtain ⟨y, -, hy⟩ := List.mem_map.1 hmem
  exact hbelow y c hy

theorem two_le_firstCapture (p : Prologue) : 2 ≤ p.firstCapture := by
  rw [Prologue.firstCapture]
  split <;> omega

theorem below_scope (p : Prologue) : Below p.scope p.size := by
  intro y u hy
  have hfirst := two_le_firstCapture p
  rw [Prologue.size]
  rcases Prologue.lookup_scope hy with ⟨-, rfl⟩ | ⟨-, hself, rfl⟩ | ⟨-, -, hmem⟩
  · omega
  · have : p.firstCapture = 3 := by rw [Prologue.firstCapture, hself]; rfl
    omega
  · have hu := (List.of_mem_zip hmem).2
    rw [Prologue.captureTemps, List.mem_range'_1] at hu
    exact hu.2

theorem getElem?_of_mem_builtinScope {y : String} {u : Nat}
    (h : builtinScope.lookup y = some u) : ∃ b, Builtin.all[u]? = some b ∧ b.name = y := by
  have hmem := List.mem_zipIdx_iff_getElem?.1 (Scope.mem_of_lookup_ofList h)
  rw [List.getElem?_map] at hmem
  exact Option.map_eq_some_iff.1 hmem

theorem below_builtinScope : Below builtinScope Builtin.count := by
  intro y u hu
  obtain ⟨b, hb, -⟩ := getElem?_of_mem_builtinScope hu
  exact (List.getElem?_eq_some_iff.1 hb).1

/-! ### Temps of expressions -/

/-- All temps of the expression are below `size`. -/
def Within (size : Nat) : Ir → Prop
  | .int _ | .bool _ | .unit => True
  | .var t => t < size
  | .letIn t value body => t < size ∧ value.Within size ∧ body.Within size
  | .ite c t e => c.Within size ∧ t.Within size ∧ e.Within size
  | .prim _ l r => l.Within size ∧ r.Within size
  | .closure _ captures => ∀ t ∈ captures, t < size
  | .call callee arg => callee < size ∧ arg < size
  | .tuple elts => ∀ t ∈ elts, t < size
  | .proj record _ => record < size

/-- The temps of a function are in its frame. -/
structure Function.Within (g : Function) : Prop where
  param : g.param < g.frameSize
  env : g.env < g.frameSize
  body : g.body.Within g.frameSize

theorem within_letAll {bound : List (Nat × Ir)} {rest : Ir} {size : Nat}
    (hbound : ∀ b ∈ bound, b.1 < size ∧ b.2.Within size) (hrest : rest.Within size) :
    (letAll bound rest).Within size := by
  induction bound with
  | nil => exact hrest
  | cons b bound ih =>
      obtain ⟨ht, hv⟩ := hbound b List.mem_cons_self
      exact ⟨ht, hv, ih fun c hc => hbound c (List.mem_cons_of_mem b hc)⟩

namespace Prologue

theorem lt_of_mem_captureTemps {p : Prologue} {u : Nat} (h : u ∈ p.captureTemps) : u < p.size := by
  rw [captureTemps, List.mem_range'_1] at h
  exact h.2

theorem within_wrap {p : Prologue} {body : Ir} {size : Nat} (hsize : p.size ≤ size)
    (hbody : body.Within size) : (p.wrap k body).Within size := by
  have hfirst := two_le_firstCapture p
  have hp : p.size = p.firstCapture + p.captured.length := rfl
  have hcaptured : ∀ u ∈ p.captureTemps, u < size := fun u hu =>
    Nat.lt_of_lt_of_le (lt_of_mem_captureTemps hu) hsize
  have hreads (reads : List (Nat × Nat)) (h : ∀ r ∈ reads, r.1 < size) {rest : Ir}
      (hrest : rest.Within size) :
      (reads.foldr (fun r rest => .letIn r.1 (.proj 1 r.2) rest) rest).Within size := by
    induction reads with
    | nil => exact hrest
    | cons r reads ih =>
        have hone : 1 < size := by omega
        exact ⟨h r List.mem_cons_self, hone, ih fun c hc => h c (List.mem_cons_of_mem r hc)⟩
  refine hreads _ (fun r hr => hcaptured r.1 (List.fst_mem_of_mem_zipIdx hr)) ?_
  cases hself : p.self with
  | none => exact hbody
  | some f =>
      have : p.firstCapture = 3 := by rw [firstCapture, hself]; rfl
      exact ⟨by omega, hcaptured, hbody⟩

theorem within_function {p : Prologue} {source : Expr} {body : Ir}
    (hbody : body.Within (p.size + source.tempCount)) : (p.function k source body).Within := by
  have hfirst := two_le_firstCapture p
  have hp : p.size = p.firstCapture + p.captured.length := rfl
  refine ⟨?_, ?_, within_wrap (Nat.le_add_right _ _) hbody⟩
  · simp only [function]
    omega
  · simp only [function]
    omega

end Prologue

mutual

theorem within_lift (e : Expr) {Δ : Scope Nat} {k t : Nat} {ir : Ir} {fs : List Function}
    (hbelow : Below Δ t) (h : lift Δ k t e = .ok (ir, fs)) :
    (∀ size, t + e.tempCount ≤ size → ir.Within size) ∧ ∀ g ∈ fs, g.Within := by
  cases e with
  | int n =>
      cases h
      exact ⟨fun _ _ => trivial, nofun⟩
  | bool b =>
      cases h
      exact ⟨fun _ _ => trivial, nofun⟩
  | unit =>
      cases h
      exact ⟨fun _ _ => trivial, nofun⟩
  | var x =>
      obtain ⟨u, hu, rfl, rfl⟩ := lift_var h
      exact ⟨fun size hsize => Nat.lt_of_lt_of_le (hbelow x u hu) hsize, nofun⟩
  | letIn x value body =>
      obtain ⟨v, b, gs, hs, hv, hb, rfl, rfl⟩ := lift_letIn h
      obtain ⟨hvalue, hgs⟩ := within_lift value (hbelow.mono (Nat.le_succ t)) hv
      obtain ⟨hbody, hhs⟩ := within_lift body (hbelow.extend x (by omega)) hb
      refine ⟨fun size hsize => ?_, List.forall_mem_append.2 ⟨hgs, hhs⟩⟩
      simp only [Expr.tempCount] at hsize
      exact ⟨by omega, hvalue size (by omega), hbody size (by omega)⟩
  | letRec f x body rest =>
      obtain ⟨b, gs, captures, r, hs, hb, hcaptures, hr, rfl, rfl⟩ := lift_letRec h
      have hbelow' := hbelow.extend f (Nat.lt_succ_self t)
      obtain ⟨hbody, hgs⟩ := within_lift body (below_scope _) hb
      obtain ⟨hrest, hhs⟩ := within_lift rest hbelow' hr
      refine ⟨fun size hsize => ?_, List.forall_mem_append.2 ⟨hgs, List.forall_mem_cons.2
        ⟨Prologue.within_function (hbody _ (Nat.le_refl _)), hhs⟩⟩⟩
      simp only [Expr.tempCount] at hsize
      refine ⟨by omega, fun c hc => ?_, hrest size (by omega)⟩
      have := lt_of_mem_captures hbelow' hcaptures hc
      omega
  | fn x body =>
      obtain ⟨b, gs, captures, hb, hcaptures, rfl, rfl⟩ := lift_fn h
      obtain ⟨hbody, hgs⟩ := within_lift body (below_scope _) hb
      refine ⟨fun size hsize c hc => ?_, List.forall_mem_append.2 ⟨hgs, List.forall_mem_cons.2
        ⟨Prologue.within_function (hbody _ (Nat.le_refl _)), nofun⟩⟩⟩
      exact Nat.lt_of_lt_of_le (lt_of_mem_captures hbelow hcaptures hc) hsize
  | app callee arg =>
      obtain ⟨c, a, gs, hs, hc, ha, rfl, rfl⟩ := lift_app h
      obtain ⟨hcallee, hgs⟩ := within_lift callee (hbelow.mono (by omega)) hc
      obtain ⟨harg, hhs⟩ := within_lift arg (hbelow.mono (by omega)) ha
      refine ⟨fun size hsize => ?_, List.forall_mem_append.2 ⟨hgs, hhs⟩⟩
      simp only [Expr.tempCount] at hsize
      have ht : t < size := by omega
      have ht' : t + 1 < size := by omega
      exact ⟨ht, hcallee size (by omega), ht', harg size (by omega), ht, ht'⟩
  | ite c th el =>
      obtain ⟨c', th', el', f₁, f₂, f₃, hc, hth, hel, rfl, rfl⟩ := lift_ite h
      obtain ⟨h₁, hf₁⟩ := within_lift c hbelow hc
      obtain ⟨h₂, hf₂⟩ := within_lift th (hbelow.mono (by omega)) hth
      obtain ⟨h₃, hf₃⟩ := within_lift el (hbelow.mono (by omega)) hel
      refine ⟨fun size hsize => ?_, List.forall_mem_append.2
        ⟨List.forall_mem_append.2 ⟨hf₁, hf₂⟩, hf₃⟩⟩
      simp only [Expr.tempCount] at hsize
      exact ⟨h₁ size (by omega), h₂ size (by omega), h₃ size (by omega)⟩
  | prim op l r =>
      obtain ⟨l', r', gs, hs, hl, hr, rfl, rfl⟩ := lift_prim h
      obtain ⟨h₁, hgs⟩ := within_lift l hbelow hl
      obtain ⟨h₂, hhs⟩ := within_lift r (hbelow.mono (by omega)) hr
      refine ⟨fun size hsize => ?_, List.forall_mem_append.2 ⟨hgs, hhs⟩⟩
      simp only [Expr.tempCount] at hsize
      exact ⟨h₁ size (by omega), h₂ size (by omega)⟩
  | tuple es =>
      obtain ⟨bound, hbound, rfl⟩ := lift_tuple h
      obtain ⟨hall, hfs⟩ := within_liftAll es hbelow hbound
      refine ⟨fun size hsize => within_letAll (hall size hsize) fun u hu => ?_, hfs⟩
      obtain ⟨b, hb, rfl⟩ := List.mem_map.1 hu
      exact (hall size hsize b hb).1

theorem within_liftAll (es : List Expr) {Δ : Scope Nat} {k t : Nat} {bound : List (Nat × Ir)}
    {fs : List Function} (hbelow : Below Δ t) (h : liftAll Δ k t es = .ok (bound, fs)) :
    (∀ size, t + Expr.tempCountAll es ≤ size → ∀ b ∈ bound, b.1 < size ∧ b.2.Within size) ∧
      ∀ g ∈ fs, g.Within := by
  cases es with
  | nil =>
      cases h
      exact ⟨fun _ _ => nofun, nofun⟩
  | cons e es =>
      obtain ⟨v, rest, gs, hs, hrest, hv, rfl, rfl⟩ := liftAll_cons h
      obtain ⟨hbound, hgs⟩ := within_liftAll es hbelow hrest
      obtain ⟨hvalue, hhs⟩ := within_lift e (hbelow.mono (by omega)) hv
      refine ⟨fun size hsize => ?_, List.forall_mem_append.2 ⟨hgs, hhs⟩⟩
      simp only [Expr.tempCountAll] at hsize
      exact List.forall_mem_cons.2 ⟨⟨by simp only; omega, hvalue size (by omega)⟩,
        hbound size (by omega)⟩

end

end MlWasm.Ir
