import MlWasm.Ir.Lift
import MlWasm.Proofs.Scope
import MlWasm.Proofs.Ty.HasType

/-!
What lifting comes to, construct by construct. An expression whose free names are in scope can be
lifted, which holds of every expression with a type; and the functions lifted out of it are numbered
without gaps.
-/

namespace MlWasm.Ir

variable {Δ : Scope Nat} {k t : Nat} {ir : Ir} {fs : List Function}

theorem bind_eq_ok {ε α β : Type} {x : Except ε α} {f : α → Except ε β} {b : β} :
    (x >>= f) = .ok b ↔ ∃ a, x = .ok a ∧ f a = .ok b := by
  cases x with
  | error e => simp [bind, Except.bind]
  | ok a => simp [bind, Except.bind]

theorem pure_eq_ok {ε α : Type} {a b : α} : (pure a : Except ε α) = .ok b ↔ a = b := by
  simp [pure, Except.pure]

theorem mapM_lookup {env : Scope Nat} {names : List String} {temps : List Nat} :
    (names.mapM fun x => (match env.lookup x with
      | none => .error (.unboundCapture x)
      | some temp => .ok temp : Except LiftError Nat)) = .ok temps ↔
      names.map env.lookup = temps.map some := by
  induction names generalizing temps with
  | nil => cases temps <;> simp [pure_eq_ok]
  | cons x names ih =>
      rw [List.mapM_cons, bind_eq_ok]
      cases hx : env.lookup x with
      | none => cases temps <;> simp [hx]
      | some u =>
          simp only [Except.ok.injEq, exists_eq_left', bind_eq_ok, ih, pure_eq_ok]
          cases temps with
          | nil => simp
          | cons v temps =>
              simp only [List.cons.injEq, List.map_cons, hx, Option.some.injEq]
              constructor
              · rintro ⟨_, hnames, rfl, rfl⟩
                exact ⟨rfl, hnames⟩
              · rintro ⟨rfl, hnames⟩
                exact ⟨temps, hnames, rfl, rfl⟩

/-! ### One construct at a time -/

theorem lift_var {x : String} (h : lift Δ k t (.var x) = .ok (ir, fs)) :
    ∃ u, Δ.lookup x = some u ∧ ir = .var u ∧ fs = [] := by
  rw [lift] at h
  split at h
  · cases h
  · rename_i u hu
    cases h
    exact ⟨u, hu, rfl, rfl⟩

theorem lift_letIn {x : String} {value body : Expr}
    (h : lift Δ k t (.letIn x value body) = .ok (ir, fs)) :
    ∃ v b gs hs, lift Δ k (t + 1) value = .ok (v, gs) ∧
      lift (Δ.extend x t) (k + value.functionCount) (t + 1 + value.tempCount) body = .ok (b, hs) ∧
      ir = .letIn t v b ∧ fs = gs ++ hs := by
  obtain ⟨⟨v, gs⟩, hv, h⟩ := bind_eq_ok.1 h
  obtain ⟨⟨b, hs⟩, hb, h⟩ := bind_eq_ok.1 h
  cases h
  exact ⟨v, b, gs, hs, hv, hb, rfl, rfl⟩

/-- The function of a prologue and a lifted body. -/
def Prologue.function (p : Prologue) (k : Nat) (source : Expr) (body : Ir) : Function :=
  { index := k, param := 0, env := 1, body := p.wrap k body, free := p.captured,
    frameSize := p.size + source.tempCount }

theorem Prologue.finish_eq_ok {p : Prologue} {source : Expr} {body record : Ir} {g : Function} :
    p.finish k source body Δ = .ok (record, g) ↔
      ∃ captures, p.captured.map Δ.lookup = captures.map some ∧ record = .closure k captures ∧
        g = p.function k source body := by
  rw [finish, bind_eq_ok]
  simp only [pure_eq_ok, Prod.mk.injEq]
  constructor
  · rintro ⟨captures, hcaptures, rfl, rfl⟩
    exact ⟨captures, mapM_lookup.1 hcaptures, rfl, rfl⟩
  · rintro ⟨captures, hcaptures, rfl, rfl⟩
    exact ⟨captures, mapM_lookup.2 hcaptures, rfl, rfl⟩

theorem lift_fn {x : String} {body : Expr} (h : lift Δ k t (.fn x body) = .ok (ir, fs)) :
    ∃ b gs captures,
      lift (Prologue.ofFunction none x body).scope (k + 1) (Prologue.ofFunction none x body).size
        body = .ok (b, gs) ∧
      (Prologue.ofFunction none x body).captured.map Δ.lookup = captures.map some ∧
      ir = .closure k captures ∧
      fs = gs ++ [(Prologue.ofFunction none x body).function k body b] := by
  obtain ⟨⟨b, gs⟩, hb, h⟩ := bind_eq_ok.1 h
  obtain ⟨⟨record, g⟩, hg, h⟩ := bind_eq_ok.1 h
  obtain ⟨captures, hcaptures, rfl, rfl⟩ := Prologue.finish_eq_ok.1 hg
  cases h
  exact ⟨b, gs, captures, hb, hcaptures, rfl, rfl⟩

theorem lift_letRec {f x : String} {body rest : Expr}
    (h : lift Δ k t (.letRec f x body rest) = .ok (ir, fs)) :
    ∃ b gs captures r hs,
      lift (Prologue.ofFunction (some f) x body).scope (k + 1)
        (Prologue.ofFunction (some f) x body).size body = .ok (b, gs) ∧
      (Prologue.ofFunction (some f) x body).captured.map (Δ.extend f t).lookup =
        captures.map some ∧
      lift (Δ.extend f t) (k + 1 + body.functionCount) (t + 1) rest = .ok (r, hs) ∧
      ir = .letIn t (.closure k captures) r ∧
      fs = gs ++ (Prologue.ofFunction (some f) x body).function k body b :: hs := by
  obtain ⟨⟨b, gs⟩, hb, h⟩ := bind_eq_ok.1 h
  obtain ⟨⟨record, g⟩, hg, h⟩ := bind_eq_ok.1 h
  obtain ⟨⟨r, hs⟩, hr, h⟩ := bind_eq_ok.1 h
  obtain ⟨captures, hcaptures, rfl, rfl⟩ := Prologue.finish_eq_ok.1 hg
  cases h
  exact ⟨b, gs, captures, r, hs, hb, hcaptures, hr, rfl, rfl⟩

theorem lift_app {callee arg : Expr} (h : lift Δ k t (.app callee arg) = .ok (ir, fs)) :
    ∃ c a gs hs, lift Δ k (t + 2) callee = .ok (c, gs) ∧
      lift Δ (k + callee.functionCount) (t + 2 + callee.tempCount) arg = .ok (a, hs) ∧
      ir = .letIn t c (.letIn (t + 1) a (.call t (t + 1))) ∧ fs = gs ++ hs := by
  obtain ⟨⟨c, gs⟩, hc, h⟩ := bind_eq_ok.1 h
  obtain ⟨⟨a, hs⟩, ha, h⟩ := bind_eq_ok.1 h
  cases h
  exact ⟨c, a, gs, hs, hc, ha, rfl, rfl⟩

theorem lift_ite {c th el : Expr} (h : lift Δ k t (.ite c th el) = .ok (ir, fs)) :
    ∃ c' th' el' f₁ f₂ f₃, lift Δ k t c = .ok (c', f₁) ∧
      lift Δ (k + c.functionCount) (t + c.tempCount) th = .ok (th', f₂) ∧
      lift Δ (k + c.functionCount + th.functionCount) (t + c.tempCount + th.tempCount) el =
        .ok (el', f₃) ∧
      ir = .ite c' th' el' ∧ fs = f₁ ++ f₂ ++ f₃ := by
  obtain ⟨⟨c', f₁⟩, hc, h⟩ := bind_eq_ok.1 h
  obtain ⟨⟨th', f₂⟩, hth, h⟩ := bind_eq_ok.1 h
  obtain ⟨⟨el', f₃⟩, hel, h⟩ := bind_eq_ok.1 h
  cases h
  exact ⟨c', th', el', f₁, f₂, f₃, hc, hth, hel, rfl, rfl⟩

theorem lift_prim {op : Op} {l r : Expr} (h : lift Δ k t (.prim op l r) = .ok (ir, fs)) :
    ∃ l' r' gs hs, lift Δ k t l = .ok (l', gs) ∧
      lift Δ (k + l.functionCount) (t + l.tempCount) r = .ok (r', hs) ∧
      ir = .prim op l' r' ∧ fs = gs ++ hs := by
  obtain ⟨⟨l', gs⟩, hl, h⟩ := bind_eq_ok.1 h
  obtain ⟨⟨r', hs⟩, hr, h⟩ := bind_eq_ok.1 h
  cases h
  exact ⟨l', r', gs, hs, hl, hr, rfl, rfl⟩

/-- A value in each of the temps in turn, and then the rest. -/
def letAll (bound : List (Nat × Ir)) (rest : Ir) : Ir :=
  bound.foldr (fun b rest => .letIn b.1 b.2 rest) rest

theorem lift_tuple {elts : List Expr} (h : lift Δ k t (.tuple elts) = .ok (ir, fs)) :
    ∃ bound, liftAll Δ k t elts = .ok (bound, fs) ∧
      ir = letAll bound (.tuple (bound.map (·.1))) := by
  obtain ⟨⟨bound, gs⟩, hbound, h⟩ := bind_eq_ok.1 h
  cases h
  exact ⟨bound, hbound, rfl⟩

/-- Only a function is lifted to a record alone. -/
theorem lift_closure {fn : Nat} {captures : List Nat} {e : Expr}
    (h : lift Δ k t e = .ok (.closure fn captures, fs)) :
    ∃ x body, e = .fn x body := by
  cases e with
  | fn x body => exact ⟨x, body, rfl⟩
  | int n => cases h
  | bool b => cases h
  | unit => cases h
  | var x =>
      obtain ⟨u, -, hir, -⟩ := lift_var h
      cases hir
  | letIn x value body =>
      obtain ⟨v, b, gs, hs, -, -, hir, -⟩ := lift_letIn h
      cases hir
  | letRec f x body rest =>
      obtain ⟨b, gs, cs, r, hs, -, -, -, hir, -⟩ := lift_letRec h
      cases hir
  | app callee arg =>
      obtain ⟨c, a, gs, hs, -, -, hir, -⟩ := lift_app h
      cases hir
  | ite c th el =>
      obtain ⟨c', th', el', f₁, f₂, f₃, -, -, -, hir, -⟩ := lift_ite h
      cases hir
  | prim op l r =>
      obtain ⟨l', r', gs, hs, -, -, hir, -⟩ := lift_prim h
      cases hir
  | tuple es =>
      obtain ⟨bound, -, hir⟩ := lift_tuple h
      cases bound <;> cases hir

theorem liftAll_cons {e : Expr} {es : List Expr} {bound : List (Nat × Ir)}
    (h : liftAll Δ k t (e :: es) = .ok (bound, fs)) :
    ∃ v rest gs hs, liftAll Δ k t es = .ok (rest, gs) ∧
      lift Δ (k + Expr.functionCountAll es) (t + Expr.tempCountAll es + 1) e = .ok (v, hs) ∧
      bound = (t + Expr.tempCountAll es, v) :: rest ∧ fs = gs ++ hs := by
  obtain ⟨⟨rest, gs⟩, hrest, h⟩ := bind_eq_ok.1 h
  obtain ⟨⟨v, hs⟩, hv, h⟩ := bind_eq_ok.1 h
  cases h
  exact ⟨v, rest, gs, hs, hrest, hv, rfl, rfl⟩

/-- The temps of the elements are among those counted for the elements. -/
theorem temps_liftAll {es : List Expr} {bound : List (Nat × Ir)}
    (h : liftAll Δ k t es = .ok (bound, fs)) :
    bound.length ≤ Expr.tempCountAll es ∧ ∀ u ∈ bound.map (·.1), u < t + Expr.tempCountAll es := by
  induction es generalizing bound fs with
  | nil =>
      cases h
      simp
  | cons e es ih =>
      obtain ⟨v, rest, gs, hs, hrest, -, rfl, -⟩ := liftAll_cons h
      obtain ⟨hlen, htemps⟩ := ih hrest
      simp only [Expr.tempCountAll, List.length_cons, List.map_cons, List.mem_cons]
      refine ⟨by omega, ?_⟩
      rintro u (rfl | hu)
      · omega
      · have := htemps u hu
        omega

end MlWasm.Ir

namespace MlWasm

/-! ### Free names -/

theorem mem_erase {names : Std.TreeSet String} {x y : String} :
    y ∈ names.erase x ↔ y ≠ x ∧ y ∈ names := by
  rw [Std.TreeSet.mem_erase, ne_eq, ne_eq, Std.LawfulEqCmp.compare_eq_iff_eq, eq_comm]

theorem mem_singleton {x y : String} : y ∈ ({x} : Std.TreeSet String) ↔ y = x := by
  change y ∈ (∅ : Std.TreeSet String).insert x ↔ y = x
  rw [Std.TreeSet.mem_insert, Std.LawfulEqCmp.compare_eq_iff_eq, eq_comm]
  simp

mutual

/-- A name that an expression with a type refers to is in scope. -/
theorem HasType.lookup_of_free (e : Expr) {Γ : TypeEnv} {t : Ty} {y : String} (h : HasType Γ e t)
    (hy : y ∈ e.freeNames) : ∃ σ, Γ.lookup y = some σ := by
  cases e with
  | int n => simp [Expr.freeNames] at hy
  | bool b => simp [Expr.freeNames] at hy
  | unit => simp [Expr.freeNames] at hy
  | var x =>
      rw [Expr.freeNames, mem_singleton] at hy
      subst hy
      cases h with
      | var hx => exact ⟨_, hx⟩
  | letIn x value body =>
      cases h with
      | letIn hvalue _ hbody =>
          rw [Expr.freeNames, Std.TreeSet.mem_union_iff, mem_erase] at hy
          rcases hy with hy | ⟨hne, hy⟩
          · exact HasType.lookup_of_free value hvalue hy
          · simpa [Scope.lookup_extend, hne] using HasType.lookup_of_free body hbody hy
  | letRec f x body rest =>
      cases h with
      | letRec hbody _ hrest =>
          rw [Expr.freeNames, Std.TreeSet.mem_union_iff, mem_erase, mem_erase, mem_erase] at hy
          rcases hy with ⟨hx, hf, hy⟩ | ⟨hf, hy⟩
          · simpa [Scope.lookup_extend, hx, hf] using HasType.lookup_of_free body hbody hy
          · simpa [Scope.lookup_extend, hf] using HasType.lookup_of_free rest hrest hy
  | fn x body =>
      cases h with
      | fn hbody =>
          rw [Expr.freeNames, mem_erase] at hy
          simpa [Scope.lookup_extend, hy.1] using HasType.lookup_of_free body hbody hy.2
  | app callee arg =>
      cases h with
      | app hcallee harg =>
          rw [Expr.freeNames, Std.TreeSet.mem_union_iff] at hy
          rcases hy with hy | hy
          · exact HasType.lookup_of_free callee hcallee hy
          · exact HasType.lookup_of_free arg harg hy
  | ite c th el =>
      cases h with
      | ite hc hth hel =>
          rw [Expr.freeNames, Std.TreeSet.mem_union_iff, Std.TreeSet.mem_union_iff] at hy
          rcases hy with (hy | hy) | hy
          · exact HasType.lookup_of_free c hc hy
          · exact HasType.lookup_of_free th hth hy
          · exact HasType.lookup_of_free el hel hy
  | prim op l r =>
      cases h with
      | prim hl hr =>
          rw [Expr.freeNames, Std.TreeSet.mem_union_iff] at hy
          rcases hy with hy | hy
          · exact HasType.lookup_of_free l hl hy
          · exact HasType.lookup_of_free r hr hy
  | tuple es =>
      cases h with
      | tuple hes => exact HasTypes.lookup_of_free es hes hy

theorem HasTypes.lookup_of_free (es : List Expr) {Γ : TypeEnv} {ts : List Ty} {y : String}
    (h : HasTypes Γ es ts) (hy : y ∈ Expr.freeNamesAll es) : ∃ σ, Γ.lookup y = some σ := by
  cases es with
  | nil => simp [Expr.freeNamesAll] at hy
  | cons e es =>
      cases h with
      | cons he hes =>
          rw [Expr.freeNamesAll, Std.TreeSet.mem_union_iff] at hy
          rcases hy with hy | hy
          · exact HasType.lookup_of_free e he hy
          · exact HasTypes.lookup_of_free es hes hy

end

namespace Ir.Prologue

theorem mem_captured {self : Option String} {x y : String} {body : Expr} :
    y ∈ (ofFunction self x body).captured ↔ y ∈ body.freeNames ∧ y ≠ x ∧ self ≠ some y := by
  cases self with
  | none =>
      simp only [ofFunction, Std.TreeSet.mem_toList, mem_erase, ne_eq, reduceCtorEq,
        not_false_eq_true, and_true]
      exact and_comm
  | some f =>
      simp only [ofFunction, Std.TreeSet.mem_toList, mem_erase, ne_eq, Option.some.injEq]
      constructor
      · rintro ⟨hf, hx, hy⟩
        exact ⟨hy, hx, Ne.symm hf⟩
      · rintro ⟨hy, hx, hf⟩
        exact ⟨Ne.symm hf, hx, hy⟩

/-- The function's own name is not among those it captures. -/
theorem map_lookup_captured {Δ : Scope Nat} {f x : String} {body : Expr} {t : Nat}
    {temps : List Nat}
    (h : (ofFunction (some f) x body).captured.map (Δ.extend f t).lookup = temps.map some) :
    (ofFunction (some f) x body).captured.map Δ.lookup = temps.map some := by
  rw [← h]
  refine List.map_congr_left fun y hy => ?_
  have hne : y ≠ f := fun hyf => (mem_captured.1 hy).2.2 (by rw [hyf])
  rw [Scope.lookup_extend_of_ne _ _ hne]

theorem length_captureTemps (p : Prologue) : p.captureTemps.length = p.captured.length :=
  List.length_range'

/-- Where the scope of the body gets a name from. -/
theorem lookup_scope {p : Prologue} {y : String} {u : Nat} (h : p.scope.lookup y = some u) :
    y = p.param ∧ u = 0 ∨ y ≠ p.param ∧ p.self = some y ∧ u = 2 ∨
      y ≠ p.param ∧ p.self ≠ some y ∧ (y, u) ∈ p.captured.zip p.captureTemps := by
  obtain ⟨self, param, captured⟩ := p
  obtain ⟨hy, rfl⟩ | ⟨hy, h⟩ := Scope.lookup_extend_eq_some.1 h
  · exact .inl ⟨hy, rfl⟩
  · refine .inr ?_
    cases self with
    | none => exact .inr ⟨hy, nofun, Scope.mem_of_lookup_ofList h⟩
    | some f =>
        obtain ⟨hf, rfl⟩ | ⟨hf, h⟩ := Scope.lookup_extend_eq_some.1 h
        · exact .inl ⟨hy, congrArg some hf.symm, rfl⟩
        · exact .inr ⟨hy, fun hs => hf (Option.some.inj hs).symm, Scope.mem_of_lookup_ofList h⟩

theorem exists_lookup_scope (self : Option String) (x : String) {y : String} {body : Expr}
    (hy : y ∈ body.freeNames) : ∃ u, (ofFunction self x body).scope.lookup y = some u := by
  have hcaptured (hmem : y ∈ (ofFunction self x body).captured) : ∃ u,
      (Scope.ofList ((ofFunction self x body).captured.zip
        (ofFunction self x body).captureTemps)).lookup y = some u := by
    obtain ⟨i, hi, rfl⟩ := List.getElem_of_mem hmem
    have hlen := length_captureTemps (ofFunction self x body)
    refine Scope.exists_lookup_ofList (a := (ofFunction self x body).captureTemps[i]) ?_
    rw [← List.getElem_zip (h := by rw [List.length_zip]; omega)]
    exact List.getElem_mem _
  have hmem : y ∈ (ofFunction self x body).captured ↔ _ := mem_captured
  by_cases hx : y = x
  · exact ⟨0, by simp [scope, ofFunction, hx]⟩
  · cases self with
    | none =>
        obtain ⟨u, hu⟩ := hcaptured (hmem.2 ⟨hy, hx, nofun⟩)
        exact ⟨u, by simpa [scope, Scope.lookup_extend, ofFunction, hx] using hu⟩
    | some f =>
        by_cases hf : y = f
        · subst hf
          exact ⟨2, by simp [scope, ofFunction, Scope.lookup_extend, hx]⟩
        · obtain ⟨u, hu⟩ := hcaptured (hmem.2 ⟨hy, hx, fun h => hf (Option.some.inj h).symm⟩)
          exact ⟨u, by simpa [scope, Scope.lookup_extend, ofFunction, hx, hf] using hu⟩

theorem exists_captures {Δ : Scope Nat} {names : List String}
    (h : ∀ y ∈ names, ∃ u, Δ.lookup y = some u) :
    ∃ captures : List Nat, names.map Δ.lookup = captures.map some := by
  induction names with
  | nil => exact ⟨[], rfl⟩
  | cons y names ih =>
      obtain ⟨u, hu⟩ := h y List.mem_cons_self
      obtain ⟨captures, hcaptures⟩ := ih fun z hz => h z (List.mem_cons_of_mem y hz)
      exact ⟨u :: captures, by simp [hu, hcaptures]⟩

theorem exists_finish {Δ : Scope Nat} {p : Prologue} (k : Nat) (source : Expr) (body : Ir)
    (h : ∀ y ∈ p.captured, ∃ u, Δ.lookup y = some u) :
    ∃ r, p.finish k source body Δ = .ok r := by
  obtain ⟨captures, hcaptures⟩ := exists_captures h
  exact ⟨_, finish_eq_ok.2 ⟨captures, hcaptures, rfl, rfl⟩⟩

end Ir.Prologue

namespace Ir

mutual

/-- An expression whose free names are in scope can be lifted. -/
theorem exists_lift (e : Expr) {Δ : Scope Nat} (k t : Nat)
    (h : ∀ y ∈ e.freeNames, ∃ u, Δ.lookup y = some u) : ∃ r, lift Δ k t e = .ok r := by
  cases e with
  | int n => exact ⟨_, rfl⟩
  | bool b => exact ⟨_, rfl⟩
  | unit => exact ⟨_, rfl⟩
  | var x =>
      obtain ⟨u, hu⟩ := h x (mem_singleton.2 rfl)
      exact ⟨(.var u, []), by rw [lift, hu]; rfl⟩
  | letIn x value body =>
      simp only [Expr.freeNames, Std.TreeSet.mem_union_iff, mem_erase] at h
      obtain ⟨⟨v, gs⟩, hv⟩ := exists_lift value k (t + 1) fun y hy => h y (.inl hy)
      obtain ⟨⟨b, hs⟩, hb⟩ := exists_lift body (Δ := Δ.extend x t) (k + value.functionCount)
        (t + 1 + value.tempCount) fun y hy => by
          by_cases hx : y = x
          · exact ⟨t, by simp [hx]⟩
          · simpa [Scope.lookup_extend, hx] using h y (.inr ⟨hx, hy⟩)
      exact ⟨_, bind_eq_ok.2 ⟨_, hv, bind_eq_ok.2 ⟨_, hb, rfl⟩⟩⟩
  | letRec f x body rest =>
      simp only [Expr.freeNames, Std.TreeSet.mem_union_iff, mem_erase] at h
      obtain ⟨⟨b, gs⟩, hb⟩ := exists_lift body (k + 1) (Prologue.ofFunction (some f) x body).size
        fun y hy => Prologue.exists_lookup_scope (some f) x hy
      obtain ⟨g, hg⟩ := Prologue.exists_finish (Δ := Δ.extend f t) k body b
        (p := Prologue.ofFunction (some f) x body) fun y hy => by
          obtain ⟨hfree, hx, hf⟩ := Prologue.mem_captured.1 hy
          have hne : y ≠ f := fun hyf => hf (by rw [hyf])
          simpa [Scope.lookup_extend, hne] using h y (.inl ⟨hx, hne, hfree⟩)
      obtain ⟨⟨r, hs⟩, hr⟩ := exists_lift rest (Δ := Δ.extend f t) (k + 1 + body.functionCount)
        (t + 1) fun y hy => by
          by_cases hf : y = f
          · exact ⟨t, by simp [hf]⟩
          · simpa [Scope.lookup_extend, hf] using h y (.inr ⟨hf, hy⟩)
      exact ⟨_, bind_eq_ok.2 ⟨_, hb, bind_eq_ok.2 ⟨_, hg, bind_eq_ok.2 ⟨_, hr, rfl⟩⟩⟩⟩
  | fn x body =>
      simp only [Expr.freeNames, mem_erase] at h
      obtain ⟨⟨b, gs⟩, hb⟩ := exists_lift body (k + 1) (Prologue.ofFunction none x body).size
        fun y hy => Prologue.exists_lookup_scope none x hy
      obtain ⟨g, hg⟩ := Prologue.exists_finish (Δ := Δ) k body b
        (p := Prologue.ofFunction none x body) fun y hy => by
          obtain ⟨hfree, hx, -⟩ := Prologue.mem_captured.1 hy
          exact h y ⟨hx, hfree⟩
      exact ⟨_, bind_eq_ok.2 ⟨_, hb, bind_eq_ok.2 ⟨_, hg, rfl⟩⟩⟩
  | app callee arg =>
      simp only [Expr.freeNames, Std.TreeSet.mem_union_iff] at h
      obtain ⟨⟨c, gs⟩, hc⟩ := exists_lift callee k (t + 2) fun y hy => h y (.inl hy)
      obtain ⟨⟨a, hs⟩, ha⟩ := exists_lift arg (k + callee.functionCount)
        (t + 2 + callee.tempCount) fun y hy => h y (.inr hy)
      exact ⟨_, bind_eq_ok.2 ⟨_, hc, bind_eq_ok.2 ⟨_, ha, rfl⟩⟩⟩
  | ite c th el =>
      simp only [Expr.freeNames, Std.TreeSet.mem_union_iff] at h
      obtain ⟨⟨c', f₁⟩, hc⟩ := exists_lift c k t fun y hy => h y (.inl (.inl hy))
      obtain ⟨⟨th', f₂⟩, hth⟩ := exists_lift th (k + c.functionCount) (t + c.tempCount)
        fun y hy => h y (.inl (.inr hy))
      obtain ⟨⟨el', f₃⟩, hel⟩ := exists_lift el (k + c.functionCount + th.functionCount)
        (t + c.tempCount + th.tempCount) fun y hy => h y (.inr hy)
      exact ⟨_, bind_eq_ok.2 ⟨_, hc, bind_eq_ok.2 ⟨_, hth, bind_eq_ok.2 ⟨_, hel, rfl⟩⟩⟩⟩
  | prim op l r =>
      simp only [Expr.freeNames, Std.TreeSet.mem_union_iff] at h
      obtain ⟨⟨l', gs⟩, hl⟩ := exists_lift l k t fun y hy => h y (.inl hy)
      obtain ⟨⟨r', hs⟩, hr⟩ := exists_lift r (k + l.functionCount) (t + l.tempCount)
        fun y hy => h y (.inr hy)
      exact ⟨_, bind_eq_ok.2 ⟨_, hl, bind_eq_ok.2 ⟨_, hr, rfl⟩⟩⟩
  | tuple es =>
      obtain ⟨bound, hbound⟩ := exists_liftAll es k t h
      exact ⟨_, bind_eq_ok.2 ⟨bound, hbound, rfl⟩⟩

theorem exists_liftAll (es : List Expr) {Δ : Scope Nat} (k t : Nat)
    (h : ∀ y ∈ Expr.freeNamesAll es, ∃ u, Δ.lookup y = some u) :
    ∃ r, liftAll Δ k t es = .ok r := by
  cases es with
  | nil => exact ⟨_, rfl⟩
  | cons e es =>
      simp only [Expr.freeNamesAll, Std.TreeSet.mem_union_iff] at h
      obtain ⟨⟨rest, gs⟩, hrest⟩ := exists_liftAll es k t fun y hy => h y (.inr hy)
      obtain ⟨⟨v, hs⟩, hv⟩ := exists_lift e (k + Expr.functionCountAll es)
        (t + Expr.tempCountAll es + 1) fun y hy => h y (.inl hy)
      exact ⟨_, bind_eq_ok.2 ⟨_, hrest, bind_eq_ok.2 ⟨_, hv, rfl⟩⟩⟩

end

/-! ### Numbers of functions -/

theorem perm_append_range' {fs gs : List Function} {k m n : Nat}
    (hf : (fs.map (·.index)).Perm (List.range' k m))
    (hg : (gs.map (·.index)).Perm (List.range' (k + m) n)) :
    ((fs ++ gs).map (·.index)).Perm (List.range' k (m + n)) := by
  rw [List.map_append, ← List.range'_append_1]
  exact hf.append hg

mutual

/-- The functions lifted out of an expression have the indices from `k` on. -/
theorem perm_index (e : Expr) {Δ : Scope Nat} {k t : Nat} {ir : Ir} {fs : List Function}
    (h : lift Δ k t e = .ok (ir, fs)) :
    (fs.map (·.index)).Perm (List.range' k e.functionCount) := by
  cases e with
  | int n =>
      cases h
      exact .refl _
  | bool b =>
      cases h
      exact .refl _
  | unit =>
      cases h
      exact .refl _
  | var x =>
      obtain ⟨u, -, -, rfl⟩ := lift_var h
      exact .refl _
  | letIn x value body =>
      obtain ⟨v, b, gs, hs, hv, hb, -, rfl⟩ := lift_letIn h
      exact perm_append_range' (perm_index value hv) (perm_index body hb)
  | letRec f x body rest =>
      obtain ⟨b, gs, captures, r, hs, hb, -, hr, -, rfl⟩ := lift_letRec h
      -- The function is listed after those nested in it and numbered before them.
      have hrest := perm_append_range' (perm_index body hb) (perm_index rest hr)
      rw [Expr.functionCount, Nat.add_assoc, Nat.add_comm, List.range'_succ]
      refine List.Perm.trans ?_ (hrest.cons k)
      rw [List.map_append, List.map_append]
      exact List.perm_middle
  | fn x body =>
      obtain ⟨b, gs, captures, hb, -, -, rfl⟩ := lift_fn h
      rw [Expr.functionCount, Nat.add_comm, List.range'_succ, List.map_append]
      exact List.perm_append_singleton _ _ |>.trans ((perm_index body hb).cons k)
  | app callee arg =>
      obtain ⟨c, a, gs, hs, hc, ha, -, rfl⟩ := lift_app h
      exact perm_append_range' (perm_index callee hc) (perm_index arg ha)
  | ite c th el =>
      obtain ⟨c', th', el', f₁, f₂, f₃, hc, hth, hel, -, rfl⟩ := lift_ite h
      rw [Nat.add_assoc k] at hel
      exact perm_append_range' (perm_append_range' (perm_index c hc) (perm_index th hth))
        (perm_index el hel)
  | prim op l r =>
      obtain ⟨l', r', gs, hs, hl, hr, -, rfl⟩ := lift_prim h
      exact perm_append_range' (perm_index l hl) (perm_index r hr)
  | tuple es =>
      obtain ⟨bound, hbound, -⟩ := lift_tuple h
      exact perm_index_all es hbound

theorem perm_index_all (es : List Expr) {Δ : Scope Nat} {k t : Nat} {bound : List (Nat × Ir)}
    {fs : List Function} (h : liftAll Δ k t es = .ok (bound, fs)) :
    (fs.map (·.index)).Perm (List.range' k (Expr.functionCountAll es)) := by
  cases es with
  | nil =>
      cases h
      exact .refl _
  | cons e es =>
      obtain ⟨v, rest, gs, hs, hrest, hv, -, rfl⟩ := liftAll_cons h
      exact perm_append_range' (perm_index_all es hrest) (perm_index e hv)

end

/-- In the order of their indices, the functions are numbered from `k` on without gaps. -/
theorem map_index_byIndex {p : Program} {k n : Nat}
    (h : (p.functions.map (·.index)).Perm (List.range' k n)) :
    p.byIndex.map (·.index) = List.range' k n := by
  have hperm : (p.byIndex.map (·.index)).Perm (List.range' k n) :=
    ((List.mergeSort_perm p.functions _).map _).trans h
  have hsorted : (p.byIndex.map (·.index)).Pairwise (· ≤ ·) := by
    rw [List.pairwise_map]
    refine (List.pairwise_mergeSort ?_ ?_ p.functions).imp fun hle => of_decide_eq_true hle
    · intro f g l hfg hgl
      exact decide_eq_true (Nat.le_trans (of_decide_eq_true hfg) (of_decide_eq_true hgl))
    · intro f g
      simpa using Nat.le_total f.index g.index
  have hrange : (List.range' k n).Pairwise (· ≤ ·) :=
    List.pairwise_le_range'
  -- Sorted lists with the same elements are equal.
  exact hperm.eq_of_pairwise (fun a b _ _ hab hba => Nat.le_antisymm hab hba) hsorted hrange

end Ir

end MlWasm
