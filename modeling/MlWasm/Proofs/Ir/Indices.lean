import MlWasm.Proofs.Ir.Lift

/-!
Functions that records are made for. An expression lifted with `k` for the next function index only
makes records for functions lifted out of it, and so do these functions; in a whole program every
record is for a function of the program.
-/

namespace MlWasm.Ir

/-- Every record that the expression makes is for a function with an index below `n`. -/
def IndicesBelow (n : Nat) : Ir → Prop
  | .letIn _ value body => value.IndicesBelow n ∧ body.IndicesBelow n
  | .ite c t e => c.IndicesBelow n ∧ t.IndicesBelow n ∧ e.IndicesBelow n
  | .prim _ l r => l.IndicesBelow n ∧ r.IndicesBelow n
  | .closure fn _ => fn < n
  | _ => True

theorem indicesBelow_letAll {n : Nat} {bound : List (Nat × Ir)} {rest : Ir}
    (hbound : ∀ b ∈ bound, b.2.IndicesBelow n) (hrest : rest.IndicesBelow n) :
    (letAll bound rest).IndicesBelow n := by
  induction bound with
  | nil => exact hrest
  | cons b bound ih =>
      rw [List.forall_mem_cons] at hbound
      exact ⟨hbound.1, ih hbound.2⟩

/-- The code before the body makes no record but one for the function itself. -/
theorem Prologue.indicesBelow_function {n k : Nat} {p : Prologue} {source : Expr} {body : Ir}
    (hk : k < n) (hbody : body.IndicesBelow n) :
    (p.function k source body).body.IndicesBelow n := by
  have hreads (reads : List (Nat × Nat)) {rest : Ir} (hrest : rest.IndicesBelow n) :
      (reads.foldr (fun r rest => .letIn r.1 (.proj 1 r.2) rest) rest).IndicesBelow n := by
    induction reads with
    | nil => exact hrest
    | cons r reads ih => exact ⟨trivial, ih⟩
  refine hreads _ ?_
  cases p.self with
  | none => exact hbody
  | some f => exact ⟨hk, hbody⟩

mutual

theorem indicesBelow_lift (e : Expr) {Δ : Scope Nat} {k t n : Nat} {ir : Ir} {fs : List Function}
    (h : lift Δ k t e = .ok (ir, fs)) (hn : k + e.functionCount ≤ n) :
    ir.IndicesBelow n ∧ ∀ g ∈ fs, g.body.IndicesBelow n := by
  cases e with
  | int m =>
      cases h
      exact ⟨trivial, nofun⟩
  | bool b =>
      cases h
      exact ⟨trivial, nofun⟩
  | unit =>
      cases h
      exact ⟨trivial, nofun⟩
  | var x =>
      obtain ⟨u, -, rfl, rfl⟩ := lift_var h
      exact ⟨trivial, nofun⟩
  | letIn x value body =>
      obtain ⟨v, b, gs, hs, hv, hb, rfl, rfl⟩ := lift_letIn h
      simp only [Expr.functionCount] at hn
      obtain ⟨hvalue, hgs⟩ := indicesBelow_lift value hv (n := n) (by omega)
      obtain ⟨hbody, hhs⟩ := indicesBelow_lift body hb (n := n) (by omega)
      exact ⟨⟨hvalue, hbody⟩, List.forall_mem_append.2 ⟨hgs, hhs⟩⟩
  | letRec f x body rest =>
      obtain ⟨b, gs, captures, r, hs, hb, -, hr, rfl, rfl⟩ := lift_letRec h
      simp only [Expr.functionCount] at hn
      have hk : k < n := by omega
      obtain ⟨hbody, hgs⟩ := indicesBelow_lift body hb (n := n) (by omega)
      obtain ⟨hrest, hhs⟩ := indicesBelow_lift rest hr (n := n) (by omega)
      exact ⟨⟨hk, hrest⟩, List.forall_mem_append.2 ⟨hgs, List.forall_mem_cons.2
        ⟨Prologue.indicesBelow_function hk hbody, hhs⟩⟩⟩
  | fn x body =>
      obtain ⟨b, gs, captures, hb, -, rfl, rfl⟩ := lift_fn h
      simp only [Expr.functionCount] at hn
      have hk : k < n := by omega
      obtain ⟨hbody, hgs⟩ := indicesBelow_lift body hb (n := n) (by omega)
      exact ⟨hk, List.forall_mem_append.2 ⟨hgs, List.forall_mem_cons.2
        ⟨Prologue.indicesBelow_function hk hbody, nofun⟩⟩⟩
  | app callee arg =>
      obtain ⟨c, a, gs, hs, hc, ha, rfl, rfl⟩ := lift_app h
      simp only [Expr.functionCount] at hn
      obtain ⟨hcallee, hgs⟩ := indicesBelow_lift callee hc (n := n) (by omega)
      obtain ⟨harg, hhs⟩ := indicesBelow_lift arg ha (n := n) (by omega)
      exact ⟨⟨hcallee, harg, trivial⟩, List.forall_mem_append.2 ⟨hgs, hhs⟩⟩
  | ite c th el =>
      obtain ⟨c', th', el', f₁, f₂, f₃, hc, hth, hel, rfl, rfl⟩ := lift_ite h
      simp only [Expr.functionCount] at hn
      obtain ⟨h₁, hf₁⟩ := indicesBelow_lift c hc (n := n) (by omega)
      obtain ⟨h₂, hf₂⟩ := indicesBelow_lift th hth (n := n) (by omega)
      obtain ⟨h₃, hf₃⟩ := indicesBelow_lift el hel (n := n) (by omega)
      exact ⟨⟨h₁, h₂, h₃⟩, List.forall_mem_append.2 ⟨List.forall_mem_append.2 ⟨hf₁, hf₂⟩, hf₃⟩⟩
  | prim op l r =>
      obtain ⟨l', r', gs, hs, hl, hr, rfl, rfl⟩ := lift_prim h
      simp only [Expr.functionCount] at hn
      obtain ⟨h₁, hgs⟩ := indicesBelow_lift l hl (n := n) (by omega)
      obtain ⟨h₂, hhs⟩ := indicesBelow_lift r hr (n := n) (by omega)
      exact ⟨⟨h₁, h₂⟩, List.forall_mem_append.2 ⟨hgs, hhs⟩⟩
  | tuple es =>
      obtain ⟨bound, hbound, rfl⟩ := lift_tuple h
      obtain ⟨hall, hfs⟩ := indicesBelow_liftAll es hbound hn
      exact ⟨indicesBelow_letAll hall trivial, hfs⟩

theorem indicesBelow_liftAll (es : List Expr) {Δ : Scope Nat} {k t n : Nat}
    {bound : List (Nat × Ir)} {fs : List Function} (h : liftAll Δ k t es = .ok (bound, fs))
    (hn : k + Expr.functionCountAll es ≤ n) :
    (∀ b ∈ bound, b.2.IndicesBelow n) ∧ ∀ g ∈ fs, g.body.IndicesBelow n := by
  cases es with
  | nil =>
      cases h
      exact ⟨nofun, nofun⟩
  | cons e es =>
      obtain ⟨v, rest, gs, hs, hrest, hv, rfl, rfl⟩ := liftAll_cons h
      simp only [Expr.functionCountAll] at hn
      obtain ⟨hbound, hgs⟩ := indicesBelow_liftAll es hrest (n := n) (by omega)
      obtain ⟨hvalue, hhs⟩ := indicesBelow_lift e hv (n := n) (by omega)
      exact ⟨List.forall_mem_cons.2 ⟨hvalue, hbound⟩, List.forall_mem_append.2 ⟨hgs, hhs⟩⟩

end

end MlWasm.Ir
