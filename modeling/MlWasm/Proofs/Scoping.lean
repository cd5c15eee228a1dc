import MlWasm.Compile
import MlWasm.Proofs.Compile.Correctness

/-!
What it means for a name to be in scope, for each of the passes. The names that an expression refers
to without binding them decide whether it can be lifted, and a name that lifting complains of is one
of them. A program with a type refers to builtins only, so it can always be lifted. Evaluation finds
a value for every name of a program that refers to builtins only, whether or not it has a type: at
every point of a run the names that waiting code refers to have values, and so do those of the
bodies of all functions that these values are made of.
-/

namespace MlWasm

/-! ### Names and lifting -/

/-- The name that has no temp. -/
def LiftError.name : LiftError → String
  | unboundVariable x | unboundCapture x => x

/-- Every name that the expression leaves free is that of a builtin. -/
def Expr.UsesBuiltins (e : Expr) : Prop :=
  ∀ x ∈ e.freeNames, x ∈ Builtin.all.map Builtin.name

instance (e : Expr) : Decidable e.UsesBuiltins :=
  decidable_of_iff (∀ x ∈ e.freeNames.toList, x ∈ Builtin.all.map Builtin.name) (by
    simp only [Expr.UsesBuiltins, Std.TreeSet.mem_toList])

namespace Ir

variable {α β : Type} {Δ : Scope Nat} {names names' : String → Prop}

/-- Lifting what refers to the given names: all of them have temps, or else the error is about one
that has none. -/
def Accounts (Δ : Scope Nat) (names : String → Prop) : Except LiftError α → Prop
  | .ok _ => ∀ y, names y → ∃ u, Δ.lookup y = some u
  | .error err => names err.name ∧ Δ.lookup err.name = none

theorem Accounts.of_iff {r : Except LiftError α} (h : Accounts Δ names r)
    (hiff : ∀ y, names' y ↔ names y) : Accounts Δ names' r := by
  cases r with
  | ok a => exact fun y hy => h y ((hiff y).1 hy)
  | error err => exact ⟨(hiff _).2 h.1, h.2⟩

theorem Accounts.bind {r : Except LiftError α} {f : α → Except LiftError β}
    (h : Accounts Δ names r) (hf : ∀ a, Accounts Δ names' (f a)) :
    Accounts Δ (fun y => names y ∨ names' y) (r >>= f) := by
  cases r with
  | error err => exact ⟨.inl h.1, h.2⟩
  | ok a =>
      have hrest := hf a
      change Accounts Δ _ (f a)
      cases hfa : f a with
      | error err =>
          rw [hfa] at hrest
          exact ⟨.inr hrest.1, hrest.2⟩
      | ok b =>
          rw [hfa] at hrest
          exact fun y hy => hy.elim (h y) (hrest y)

theorem Accounts.map {r : Except LiftError α} (h : Accounts Δ names r) (f : α → β) :
    Accounts Δ names (r >>= fun a => pure (f a)) := by
  cases r with
  | ok a => exact h
  | error err => exact h

/-- A binding accounts for its own name. -/
theorem Accounts.bound {r : Except LiftError α} {x : String} {u : Nat}
    (h : Accounts (Δ.extend x u) names r) : Accounts Δ (fun y => y ≠ x ∧ names y) r := by
  cases r with
  | ok a =>
      rintro y ⟨hne, hy⟩
      obtain ⟨v, hv⟩ := h y hy
      exact ⟨v, by rwa [Scope.lookup_extend_of_ne _ _ hne] at hv⟩
  | error err =>
      obtain ⟨hname, hnone⟩ := h
      have hne : err.name ≠ x := by
        intro heq
        rw [heq, Scope.lookup_extend_self] at hnone
        cases hnone
      exact ⟨⟨hne, hname⟩, by rwa [Scope.lookup_extend_of_ne _ _ hne] at hnone⟩

/-- A look-up accounts for the name looked up, whatever the error says of it. -/
theorem accounts_lookup (Δ : Scope Nat) {x : String} {err : LiftError} (herr : err.name = x)
    (f : Nat → α) : Accounts Δ (· = x) (match Δ.lookup x with
      | none => .error err
      | some temp => .ok (f temp) : Except LiftError α) := by
  cases hx : Δ.lookup x with
  | none => exact ⟨herr, by rw [herr, hx]⟩
  | some u =>
      rintro y rfl
      exact ⟨u, hx⟩

theorem accounts_captures (Δ : Scope Nat) (captured : List String) :
    Accounts Δ (· ∈ captured) (captured.mapM fun x =>
      (match Δ.lookup x with
        | none => .error (.unboundCapture x)
        | some temp => .ok temp : Except LiftError Nat)) := by
  induction captured with
  | nil => exact fun y hy => nomatch hy
  | cons x captured ih =>
      rw [List.mapM_cons]
      have hx := accounts_lookup Δ (show (LiftError.unboundCapture x).name = x from rfl) id
      exact (hx.bind fun u => ih.map (u :: ·)).of_iff fun y => List.mem_cons

theorem Prologue.accounts_finish (p : Prologue) (k : Nat) (source : Expr) (body : Ir) :
    Accounts Δ (· ∈ p.captured) (p.finish k source body Δ) :=
  (accounts_captures Δ p.captured).map _

/-- A function accounts for the names that it captures; its body finds all others in the function's
own scope. -/
theorem accounts_function {self : Option String} {x : String} {body : Expr}
    {r : Except LiftError α} {f : α → Except LiftError β}
    (hbody : Accounts (Prologue.ofFunction self x body).scope (· ∈ body.freeNames) r)
    (hf : ∀ a, Accounts Δ names (f a)) : Accounts Δ names (r >>= f) := by
  cases r with
  | ok a => exact hf a
  | error err =>
      obtain ⟨u, hu⟩ := Prologue.exists_lookup_scope self x hbody.1
      rw [hbody.2] at hu
      cases hu

mutual

/-- Lifting succeeds if the free names have temps, and only then. -/
theorem accounts_lift (e : Expr) (Δ : Scope Nat) (k t : Nat) :
    Accounts Δ (· ∈ e.freeNames) (lift Δ k t e) := by
  cases e with
  | int n => exact fun y hy => by simp [Expr.freeNames] at hy
  | bool b => exact fun y hy => by simp [Expr.freeNames] at hy
  | unit => exact fun y hy => by simp [Expr.freeNames] at hy
  | var x =>
      rw [lift]
      have hx := accounts_lookup Δ (show (LiftError.unboundVariable x).name = x from rfl)
        fun u => (Ir.var u, ([] : List Function))
      exact hx.of_iff fun y => by rw [Expr.freeNames, mem_singleton]
  | letIn x value body =>
      rw [lift]
      refine Accounts.of_iff (.bind (accounts_lift value Δ k (t + 1)) fun v =>
        ((accounts_lift body (Δ.extend x t) _ _).bound.map _)) fun y => ?_
      rw [Expr.freeNames, Std.TreeSet.mem_union_iff, mem_erase]
  | letRec f x body rest =>
      rw [lift]
      -- The function's own name is bound around both parts.
      have hfinish (b : Ir) := ((Prologue.ofFunction (some f) x body).accounts_finish
        (Δ := Δ.extend f t) k body b).bound
      have hrest := (accounts_lift rest (Δ.extend f t) (k + 1 + body.functionCount) (t + 1)).bound
      refine Accounts.of_iff (accounts_function (accounts_lift body _ _ _) fun b =>
        (hfinish b.1).bind fun record => hrest.map _) fun y => ?_
      rw [Expr.freeNames, Std.TreeSet.mem_union_iff, mem_erase, mem_erase, mem_erase,
        Prologue.mem_captured]
      grind
  | fn x body =>
      rw [lift]
      refine Accounts.of_iff (accounts_function (accounts_lift body _ _ _) fun b =>
        ((Prologue.ofFunction none x body).accounts_finish k body b.1).map _) fun y => ?_
      rw [Expr.freeNames, mem_erase, Prologue.mem_captured]
      grind
  | app callee arg =>
      rw [lift]
      refine Accounts.of_iff (.bind (accounts_lift callee Δ _ _) fun c =>
        (accounts_lift arg Δ _ _).map _) fun y => ?_
      rw [Expr.freeNames, Std.TreeSet.mem_union_iff]
  | ite c th el =>
      rw [lift]
      refine Accounts.of_iff (.bind (accounts_lift c Δ _ _) fun c' =>
        .bind (accounts_lift th Δ _ _) fun th' => (accounts_lift el Δ _ _).map _) fun y => ?_
      rw [Expr.freeNames, Std.TreeSet.mem_union_iff, Std.TreeSet.mem_union_iff, or_assoc]
  | prim op l r =>
      rw [lift]
      refine Accounts.of_iff (.bind (accounts_lift l Δ _ _) fun l' =>
        (accounts_lift r Δ _ _).map _) fun y => ?_
      rw [Expr.freeNames, Std.TreeSet.mem_union_iff]
  | tuple es =>
      rw [lift]
      exact (accounts_liftAll es Δ k t).map _

theorem accounts_liftAll (es : List Expr) (Δ : Scope Nat) (k t : Nat) :
    Accounts Δ (· ∈ Expr.freeNamesAll es) (liftAll Δ k t es) := by
  cases es with
  | nil => exact fun y hy => by simp [Expr.freeNamesAll] at hy
  | cons e es =>
      rw [liftAll]
      refine Accounts.of_iff (.bind (accounts_liftAll es Δ k t) fun bound =>
        (accounts_lift e Δ _ _).map _) fun y => ?_
      rw [Expr.freeNamesAll, Std.TreeSet.mem_union_iff, or_comm]

end

theorem mem_builtinScope {y : String} :
    (∃ u, builtinScope.lookup y = some u) ↔ y ∈ Builtin.all.map Builtin.name := by
  constructor
  · rintro ⟨u, hu⟩
    obtain ⟨b, hb, rfl⟩ := getElem?_of_mem_builtinScope hu
    exact List.mem_map_of_mem (List.mem_of_getElem? hb)
  · intro hy
    obtain ⟨u, hu⟩ := List.mem_iff_getElem?.1 hy
    exact Scope.exists_lookup_ofList (List.mem_zipIdx_iff_getElem?.2 hu)

end Ir

theorem Expr.accounts_lift (e : Expr) :
    Ir.Accounts Ir.builtinScope (· ∈ e.freeNames) e.lift :=
  (Ir.accounts_lift e _ _ _).map _

theorem Expr.exists_lift_iff (e : Expr) : (∃ p, e.lift = .ok p) ↔ e.UsesBuiltins := by
  have haccounts := e.accounts_lift
  constructor
  · rintro ⟨p, hp⟩ x hx
    rw [hp] at haccounts
    exact Ir.mem_builtinScope.1 (haccounts x hx)
  · intro huses
    cases hlift : e.lift with
    | ok p => exact ⟨p, rfl⟩
    | error err =>
        rw [hlift] at haccounts
        obtain ⟨u, hu⟩ := Ir.mem_builtinScope.2 (huses _ haccounts.1)
        rw [haccounts.2] at hu
        cases hu

theorem Expr.name_of_lift_error {e : Expr} {err : LiftError} (h : e.lift = .error err) :
    err.name ∈ e.freeNames ∧ err.name ∉ Builtin.all.map Builtin.name := by
  have haccounts := e.accounts_lift
  rw [h] at haccounts
  refine ⟨haccounts.1, fun hmem => ?_⟩
  obtain ⟨u, hu⟩ := Ir.mem_builtinScope.2 hmem
  rw [haccounts.2] at hu
  cases hu

theorem Expr.usesBuiltins_of_typeOf {e : Expr} {ty : Ty} (h : e.typeOf = .ok ty) :
    e.UsesBuiltins := by
  intro x hx
  obtain ⟨σ, hσ⟩ := (hasType_of_typeOf h).lookup_of_free e hx
  exact Ir.mem_builtinScope.1 (Machine.exists_lookup_builtinScope hσ)

/-! ### Names and values -/

/-- A value all of whose functions find the names that their bodies refer to. -/
inductive Value.Closed : Value → Prop where
  | int (n : Int32) : Closed (.int n)
  | bool (b : Bool) : Closed (.bool b)
  | unit : Closed .unit
  | builtin (b : Builtin) : Closed (.builtin b)
  | tuple {vs : List Value} (hvs : ∀ v ∈ vs, Closed v) : Closed (.tuple vs)
  | closure {x : String} {body : Expr} {env : Env} {self : Option String}
      (hvalues : ∀ y v, env.lookup y = some v → Closed v)
      (hbound : ∀ y ∈ body.freeNames, y ≠ x → self ≠ some y → ∃ v, env.lookup y = some v) :
      Closed (.closure x body env self)

/-- The expression finds a value for each of its free names, and these values are closed. -/
structure Expr.ClosedIn (e : Expr) (env : Env) : Prop where
  values : ∀ y v, env.lookup y = some v → v.Closed
  bound : ∀ y ∈ e.freeNames, ∃ v, env.lookup y = some v

theorem Expr.ClosedIn.part {e e' : Expr} {env : Env} (h : e.ClosedIn env)
    (hnames : ∀ y ∈ e'.freeNames, y ∈ e.freeNames) : e'.ClosedIn env :=
  ⟨h.values, fun y hy => h.bound y (hnames y hy)⟩

/-- What a binding's body refers to is bound around it or is the name bound. -/
theorem Expr.ClosedIn.extend {e : Expr} {env : Env} {x : String} {v : Value}
    (hvalues : ∀ y w, env.lookup y = some w → w.Closed) (hv : v.Closed)
    (hbound : ∀ y ∈ e.freeNames, y ≠ x → ∃ w, env.lookup y = some w) :
    e.ClosedIn (env.extend x v) := by
  refine ⟨fun y w hw => ?_, fun y hy => ?_⟩
  · obtain ⟨-, rfl⟩ | ⟨-, hw⟩ := Scope.lookup_extend_eq_some.1 hw
    · exact hv
    · exact hvalues y w hw
  · by_cases hyx : y = x
    · exact ⟨v, by rw [hyx, Scope.lookup_extend_self]⟩
    · rw [Scope.lookup_extend_of_ne _ _ hyx]
      exact hbound y hy hyx

theorem mem_freeNamesAll {es : List Expr} {y : String} :
    y ∈ Expr.freeNamesAll es ↔ ∃ e ∈ es, y ∈ e.freeNames := by
  induction es with
  | nil => simp [Expr.freeNamesAll]
  | cons e es ih => simp [Expr.freeNamesAll, Std.TreeSet.mem_union_iff, ih]

/-- The scope that a function's body is evaluated in. -/
theorem Value.Closed.enter {x : String} {body : Expr} {env : Env} {self : Option String}
    {arg : Value} (h : Value.Closed (.closure x body env self)) (harg : arg.Closed) :
    body.ClosedIn (Eval.Config.enter x body env self arg) := by
  have hself := h
  cases h with
  | closure hvalues hbound =>
      cases self with
      | none => exact .extend hvalues harg fun y hy hyx => hbound y hy hyx nofun
      | some f =>
          have hscope : (Expr.var f).ClosedIn (env.extend f (.closure x body env (some f))) := by
            refine .extend hvalues hself fun y hy hyf => ?_
            rw [Expr.freeNames, mem_singleton] at hy
            exact absurd hy hyf
          refine .extend hscope.values harg fun y hy hyx => ?_
          by_cases hyf : y = f
          · exact ⟨_, by rw [hyf, Scope.lookup_extend_self]⟩
          · rw [Scope.lookup_extend_of_ne _ _ hyf]
            exact hbound y hy hyx fun hsome => hyf (Option.some.inj hsome).symm

/-! ### Names along a run -/

def RuntimeError.isUnbound : RuntimeError → Bool
  | unboundVariable _ => true
  | _ => false

mutual

theorem Value.isUnbound_equal (l r : Value) {err : RuntimeError} (h : l.equal r = .error err) :
    err.isUnbound = false := by
  unfold equal at h
  split at h
  · cases h
  · cases h
  · cases h
  · rename_i ls rs
    split at h
    · exact isUnbound_equalAll ls rs h
    · cases h
      rfl
  · cases h
    rfl

theorem Value.isUnbound_equalAll (ls rs : List Value) {err : RuntimeError}
    (h : equalAll ls rs = .error err) : err.isUnbound = false := by
  cases ls with
  | nil => cases h
  | cons l ls =>
      cases rs with
      | nil => cases h
      | cons r rs =>
          rw [equalAll] at h
          cases hfirst : l.equal r with
          | error e =>
              rw [hfirst] at h
              cases h
              exact isUnbound_equal l r hfirst
          | ok same =>
              rw [hfirst] at h
              cases same with
              | true => exact isUnbound_equalAll ls rs h
              | false => cases h

end

namespace Eval

variable {H : Type}

/-- What waits for a value finds its names, whatever closed value it gets. -/
def Frame.Closed : Frame → Prop
  | .letBody x body env => ∀ v : Value, v.Closed → body.ClosedIn (env.extend x v)
  | .appArg arg env => arg.ClosedIn env
  | .appCall callee => callee.Closed
  | .branch th el env => th.ClosedIn env ∧ el.ClosedIn env
  | .primRight _ right env => right.ClosedIn env
  | .primApply _ left => left.Closed
  | .tupleRest rest done env => (∀ e ∈ rest, e.ClosedIn env) ∧ ∀ v ∈ done, v.Closed

def Control.Closed : Control → Prop
  | .eval e env => e.ClosedIn env
  | .give v => v.Closed

structure Config.Closed (c : Config H) : Prop where
  control : c.control.Closed
  frames : ∀ f ∈ c.stack.frames, f.Closed

/-- A run goes on from a closed configuration, comes to a closed value, or fails for a reason other
than a name without a value. -/
def Progress.Closed : Progress H → Prop
  | .running c => c.Closed
  | .done v _ => v.Closed
  | .failed err _ => err.isUnbound = false

theorem Config.Closed.push {control : Control} {stack : Stack} {frame : Frame} {host : H}
    (hcontrol : control.Closed) (hframe : frame.Closed) (hframes : ∀ f ∈ stack.frames, f.Closed) :
    Config.Closed ⟨control, stack.push frame, host⟩ :=
  ⟨hcontrol, List.forall_mem_cons.2 ⟨hframe, hframes⟩⟩

theorem closed_evalStep {e : Expr} {env : Env} {stack : Stack} (host : H) (he : e.ClosedIn env)
    (hframes : ∀ f ∈ stack.frames, f.Closed) : (Config.evalStep e env stack host).Closed := by
  cases e with
  | int n => exact ⟨.int n, hframes⟩
  | bool b => exact ⟨.bool b, hframes⟩
  | unit => exact ⟨.unit, hframes⟩
  | var x =>
      obtain ⟨v, hv⟩ := he.bound x (mem_singleton.2 rfl)
      rw [Config.evalStep, hv]
      exact ⟨he.values x v hv, hframes⟩
  | letIn x value body =>
      have hnames := he.bound
      simp only [Expr.freeNames, Std.TreeSet.mem_union_iff, mem_erase] at hnames
      refine .push ⟨he.values, fun y hy => hnames y (.inl hy)⟩ (fun v hv => ?_) hframes
      exact .extend he.values hv fun y hy hyx => hnames y (.inr ⟨hyx, hy⟩)
  | letRec f x body rest =>
      have hnames := he.bound
      simp only [Expr.freeNames, Std.TreeSet.mem_union_iff, mem_erase] at hnames
      have hself : Value.Closed (.closure x body env (some f)) :=
        .closure he.values fun y hy hyx hyf =>
          hnames y (.inl ⟨hyx, fun heq => hyf (by rw [heq]), hy⟩)
      exact ⟨.extend he.values hself fun y hy hyf => hnames y (.inr ⟨hyf, hy⟩), hframes⟩
  | fn x body =>
      refine ⟨.closure he.values fun y hy hyx _ => he.bound y ?_, hframes⟩
      rw [Expr.freeNames, mem_erase]
      exact ⟨hyx, hy⟩
  | app callee arg =>
      have hcallee : callee.ClosedIn env := he.part fun y hy => by simp [Expr.freeNames, hy]
      have harg : arg.ClosedIn env := he.part fun y hy => by simp [Expr.freeNames, hy]
      exact .push hcallee harg hframes
  | ite c th el =>
      have hc : c.ClosedIn env := he.part fun y hy => by simp [Expr.freeNames, hy]
      have hth : th.ClosedIn env := he.part fun y hy => by simp [Expr.freeNames, hy]
      have hel : el.ClosedIn env := he.part fun y hy => by simp [Expr.freeNames, hy]
      exact .push hc ⟨hth, hel⟩ hframes
  | prim op l r =>
      have hl : l.ClosedIn env := he.part fun y hy => by simp [Expr.freeNames, hy]
      have hr : r.ClosedIn env := he.part fun y hy => by simp [Expr.freeNames, hy]
      exact .push hl hr hframes
  | tuple es =>
      have hes : ∀ e ∈ es, e.ClosedIn env := fun e hmem => he.part fun y hy => by
        rw [Expr.freeNames, mem_freeNamesAll]
        exact ⟨e, hmem, hy⟩
      cases es with
      | nil => exact ⟨.tuple (List.forall_mem_nil _), hframes⟩
      | cons e es =>
          rw [List.forall_mem_cons] at hes
          exact .push hes.1 ⟨hes.2, List.forall_mem_nil _⟩ hframes

/-- A value that the operators and builtins come to, or an error of theirs. -/
def ClosedResult : Except RuntimeError Value → Prop
  | .ok v => v.Closed
  | .error err => err.isUnbound = false

theorem closedResult_apply (op : Op) (l r : Value) : ClosedResult (op.apply l r) := by
  unfold Op.apply
  split
  · cases hequal : l.equal r with
    | ok same => exact .bool same
    | error err => exact Value.isUnbound_equal l r hequal
  · split
    · cases op
      case eq => contradiction
      all_goals constructor
    · rfl

theorem closedResult_call [Host H] (b : Builtin) (arg : Value) (host : H) :
    ClosedResult ((b.call arg host).map Prod.fst) := by
  unfold Builtin.call
  split
  · exact .unit
  · exact .unit
  · exact .unit
  · exact .int _
  · rfl

theorem closed_resume [Host H] {frame : Frame} {v : Value} {stack : Stack} (host : H)
    (hframe : frame.Closed) (hv : v.Closed) (hframes : ∀ f ∈ stack.frames, f.Closed) :
    (Config.resume frame v stack host).Closed := by
  cases frame with
  | letBody x body env => exact ⟨hframe v hv, hframes⟩
  | appArg arg env => exact .push hframe hv hframes
  | appCall callee =>
      cases callee with
      | closure x body env self => exact ⟨hframe.enter hv, hframes⟩
      | builtin b =>
          have hresult := closedResult_call b v host
          rw [Config.resume]
          cases hcall : b.call v host with
          | error err =>
              rw [hcall] at hresult
              exact hresult
          | ok r =>
              rw [hcall] at hresult
              exact ⟨hresult, hframes⟩
      | int | bool | unit | tuple => rfl
  | branch th el env =>
      cases v with
      | bool b =>
          cases b with
          | true => exact ⟨hframe.1, hframes⟩
          | false => exact ⟨hframe.2, hframes⟩
      | int | unit | closure | tuple | builtin => rfl
  | primRight op right env => exact .push hframe hv hframes
  | primApply op left =>
      have hresult := closedResult_apply op left v
      rw [Config.resume]
      cases happly : op.apply left v with
      | error err =>
          rw [happly] at hresult
          exact hresult
      | ok r =>
          rw [happly] at hresult
          exact ⟨hresult, hframes⟩
  | tupleRest rest done env =>
      have hdone : ∀ w ∈ v :: done, w.Closed := List.forall_mem_cons.2 ⟨hv, hframe.2⟩
      cases rest with
      | nil => exact ⟨.tuple fun w hw => hdone w (List.mem_reverse.1 hw), hframes⟩
      | cons e es =>
          have hrest := List.forall_mem_cons.1 hframe.1
          exact .push hrest.1 ⟨hrest.2, hdone⟩ hframes

theorem Config.Closed.step [Host H] {c : Config H} (h : c.Closed) : c.step.Closed := by
  obtain ⟨control, stack, host⟩ := c
  obtain ⟨hcontrol, hframes⟩ := h
  cases control with
  | eval e env => exact closed_evalStep host hcontrol hframes
  | give v =>
      rw [Config.step]
      cases hpop : stack.pop? with
      | none => exact hcontrol
      | some r =>
          obtain ⟨frame, rest⟩ := r
          rw [Stack.pop?_eq_some hpop, List.forall_mem_cons] at hframes
          exact closed_resume host hframes.1 hcontrol hframes.2

theorem Config.Closed.limitedStep [Host H] {c : Config H} (h : c.Closed) (limit : Nat) :
    (c.limitedStep limit).Closed := by
  have hstep := h.step
  rw [Config.limitedStep]
  cases hc : c.step with
  | running c' =>
      rw [hc] at hstep
      change Progress.Closed (if _ then _ else _)
      split
      · rfl
      · exact hstep
  | done v host =>
      rw [hc] at hstep
      exact hstep
  | failed err host =>
      rw [hc] at hstep
      exact hstep

theorem Config.Closed.run [Host H] {c : Config H} (h : c.Closed) (limit fuel : Nat) :
    (c.run limit fuel).Closed := by
  induction fuel generalizing c with
  | zero => exact h
  | succ fuel ih =>
      have hstep := h.limitedStep limit
      rw [Config.run]
      cases hc : c.limitedStep limit with
      | running c' =>
          rw [hc] at hstep
          exact ih hstep
      | done v host =>
          rw [hc] at hstep
          exact hstep
      | failed err host =>
          rw [hc] at hstep
          exact hstep

theorem closed_start {e : Expr} (h : e.UsesBuiltins) (host : H) :
    (Config.start e .initial host).Closed := by
  refine ⟨⟨fun y v hv => ?_, fun y hy => ?_⟩, nofun⟩
  · obtain ⟨b, -, hb⟩ := List.mem_map.1 (Scope.mem_of_lookup_ofList hv)
    obtain ⟨-, rfl⟩ := Prod.mk.inj hb
    exact .builtin b
  · obtain ⟨b, hb, hname⟩ := List.mem_map.1 (h y hy)
    exact ⟨_, Machine.lookup_initial hname hb⟩

end Eval

open Eval (Config)

/-- The passes agree on which names are in scope. An expression can be lifted exactly if it leaves
no names free but those of builtins, and an error of lifting is about a free name that is none of
them. An expression with a type leaves no other names free, so compiling never fails in lifting. And
an expression that leaves no other names free, whether or not it has a type, is evaluated without
ever missing a value for a name, with any host and under any limit. -/
theorem scoping_agrees (e : Expr) :
    ((∃ p, e.lift = .ok p) ↔ e.UsesBuiltins) ∧
    (∀ err, e.lift = .error err →
      err.name ∈ e.freeNames ∧ err.name ∉ Builtin.all.map Builtin.name) ∧
    (∀ ty, e.typeOf = .ok ty → e.UsesBuiltins) ∧
    (∀ err, e.compile ≠ .error (.lift err)) ∧
    (e.UsesBuiltins → ∀ (H : Type) [Host H] (host : H) (limit fuel : Nat) x host',
      Config.run limit fuel (.start e .initial host) ≠ .failed (.unboundVariable x) host') := by
  refine ⟨e.exists_lift_iff, fun err => Expr.name_of_lift_error,
    fun ty => Expr.usesBuiltins_of_typeOf, fun err hcompile => ?_,
    fun huses H _ host limit fuel x host' hrun => ?_⟩
  · rw [Expr.compile] at hcompile
    cases hty : e.typeOf with
    | error err' =>
        rw [hty] at hcompile
        cases hcompile
    | ok ty =>
        obtain ⟨p, hp⟩ := e.exists_lift_iff.2 (Expr.usesBuiltins_of_typeOf hty)
        rw [hty, hp] at hcompile
        cases hcompile
  · have hclosed := (Eval.closed_start huses host).run limit fuel
    rw [hrun] at hclosed
    cases hclosed

/-- `let rec f x = x f in f f` has no type, and the parameter of `fun print_int -> ghost` hides a
builtin. -/
theorem scoping_agrees_untyped :
    let looping : Expr := .letRec "f" "x" (.app (.var "x") (.var "f")) (.app (.var "f") (.var "f"))
    let open_ : Expr := .fn "print_int" (.app (.var "print_int") (.var "ghost"))
    (looping.UsesBuiltins ∧ (∃ p, looping.lift = .ok p) ∧
      ∀ limit fuel x host', Config.run limit fuel (.start looping .initial ({} : Recorder)) ≠
        .failed (.unboundVariable x) host') ∧
    open_.lift = .error (.unboundCapture "ghost") ∧ "ghost" ∈ open_.freeNames := by
  intro looping open_
  have huses : looping.UsesBuiltins := by decide +kernel
  have hopen : open_.lift = .error (.unboundCapture "ghost") := by decide +kernel
  obtain ⟨hlift, -, -, -, hrun⟩ := scoping_agrees looping
  exact ⟨⟨huses, hlift.2 huses, hrun huses Recorder {}⟩, hopen,
    ((scoping_agrees open_).2.1 _ hopen).1⟩

end MlWasm
