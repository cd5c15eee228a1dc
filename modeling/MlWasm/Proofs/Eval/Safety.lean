import MlWasm.Proofs.Eval.Adequacy
import MlWasm.Proofs.Ty.Principal

/-!
Programs with a type do not go wrong. A value has a type when its parts have; a function has one
when its body has it in some scope that fits the scope the function was made in. A name bound by
`let` has all the types its scheme stands for, and so must its value: evaluation does not depend on
the type, so the one value that the bound expression has serves them all.

No value has a type that is a mere variable: an expression with such a type has no value.
-/

namespace MlWasm

namespace Value

mutual

/-- Whether a value is of the kind that a type asks for. -/
def inhabits : Value → Ty → Bool
  | int _, .int => true
  | bool _, .bool => true
  | unit, .unit => true
  | tuple vs, .tuple ts => inhabitAll vs ts
  | closure .., .fn .. => true
  | builtin _, .fn .. => true
  | _, _ => false

def inhabitAll : List Value → List Ty → Bool
  | [], [] => true
  | v :: vs, t :: ts => inhabits v t && inhabitAll vs ts
  | _, _ => false

end

mutual

inductive Typed : Value → Ty → Prop where
  | int (n : Int32) : Typed (.int n) .int
  | bool (b : Bool) : Typed (.bool b) .bool
  | unit : Typed .unit .unit
  | builtin {b : Builtin} {t : Ty} : b.ty = t → Typed (.builtin b) t
  | tuple {vs : List Value} {ts : List Ty} : TypedAll vs ts → Typed (.tuple vs) (.tuple ts)
  | closure {x : String} {body : Expr} {env : Env} {Γ : TypeEnv} {a b : Ty} :
      (∀ y σ, Γ.lookup y = some σ → (env.lookup y).isSome) →
      (∀ y σ v t, Γ.lookup y = some σ → env.lookup y = some v → σ.Instance t → Typed v t) →
      HasType (Γ.extend x (.mono a)) body b → Typed (.closure x body env none) (.fn a b)
  | recursive {f x : String} {body : Expr} {env : Env} {Γ : TypeEnv} {a b : Ty} :
      (∀ y σ, Γ.lookup y = some σ → (env.lookup y).isSome) →
      (∀ y σ v t, Γ.lookup y = some σ → env.lookup y = some v → σ.Instance t → Typed v t) →
      HasType ((Γ.extend f (.mono (.fn a b))).extend x (.mono a)) body b →
      Typed (.closure x body env (some f)) (.fn a b)

inductive TypedAll : List Value → List Ty → Prop where
  | nil : TypedAll [] []
  | cons {v : Value} {vs : List Value} {t : Ty} {ts : List Ty} :
      Typed v t → TypedAll vs ts → TypedAll (v :: vs) (t :: ts)

end

mutual

theorem inhabits_of_typed (v : Value) {t : Ty} (h : v.Typed t) : v.inhabits t = true := by
  cases v with
  | tuple vs =>
      cases h with
      | tuple hvs => exact inhabitAll_of_typed vs hvs
  | builtin b =>
      cases h with
      | builtin hb =>
          subst hb
          cases b <;> rfl
  | int | bool | unit | closure =>
      cases h
      all_goals rfl

theorem inhabitAll_of_typed (vs : List Value) {ts : List Ty} (h : TypedAll vs ts) :
    inhabitAll vs ts = true := by
  cases vs with
  | nil =>
      cases h
      rfl
  | cons v vs =>
      cases h with
      | cons hv hvs => simp [inhabitAll, inhabits_of_typed v hv, inhabitAll_of_typed vs hvs]

end

end Value

/-- Every name of the scope has a value that has all the types of its scheme. -/
structure Env.Typed (env : Env) (Γ : TypeEnv) : Prop where
  bound : ∀ x σ, Γ.lookup x = some σ → (env.lookup x).isSome
  typed : ∀ x σ v t, Γ.lookup x = some σ → env.lookup x = some v → σ.Instance t → v.Typed t

namespace Env.Typed

variable {env : Env} {Γ : TypeEnv}

theorem extend (h : env.Typed Γ) (x : String) {v : Value} {σ : Scheme}
    (hv : ∀ t, σ.Instance t → v.Typed t) : Env.Typed (env.extend x v) (Γ.extend x σ) := by
  refine ⟨fun y τ hy => ?_, fun y τ w t hy hw ht => ?_⟩
  · obtain ⟨rfl, rfl⟩ | ⟨hne, hy⟩ := Scope.lookup_extend_eq_some.1 hy
    · simp
    · rw [Scope.lookup_extend_of_ne env v hne]
      exact h.bound y τ hy
  · obtain ⟨rfl, rfl⟩ | ⟨hne, hy⟩ := Scope.lookup_extend_eq_some.1 hy
    · cases (Scope.lookup_extend_self env y v).symm.trans hw
      exact hv t ht
    · rw [Scope.lookup_extend_of_ne env v hne] at hw
      exact h.typed y τ w t hy hw ht

theorem extend_mono (h : env.Typed Γ) (x : String) {v : Value} {a : Ty} (hv : v.Typed a) :
    Env.Typed (env.extend x v) (Γ.extend x (.mono a)) :=
  h.extend x fun t ht => by rwa [Scheme.instance_mono.1 ht]

end Env.Typed

/-- A recursive function has all the types that its definition generalizes to. -/
theorem HasType.recursive_instance {Γ : TypeEnv} {f x : String} {body : Expr} {vars : List Nat}
    {a b t : Ty}
    (h : HasType ((Γ.extend f (.mono (.fn a b))).extend x (.mono a)) body b)
    (hfree : ∀ v ∈ vars, ¬ Γ.Free v) (ht : Scheme.Instance ⟨vars, .fn a b⟩ t) :
    ∃ c d, t = .fn c d ∧ HasType ((Γ.extend f (.mono (.fn c d))).extend x (.mono c)) body d := by
  obtain ⟨θ, hθ, rfl⟩ := ht
  refine ⟨a.subst θ, b.subst θ, rfl, (HasType.subst θ body h).mono ?_ body⟩
  have hscope : (Γ.subst θ).Specializes Γ :=
    (TypeEnv.specializes_subst fun v hv => hθ v fun hmem => hfree v hmem hv).trans
      TypeEnv.specializes_subst_var
  exact (specializes_recursive θ Γ f x a b).trans
    ((hscope.extend f fun _ h => h).extend x fun _ h => h)

/-- The scope of a function's body has types under which the body has one: the parameter, and the
name of a recursive function, have one type each. -/
theorem Value.Typed.enter {x : String} {body : Expr} {env : Env} {self : Option String}
    {arg : Value} {a b : Ty} (h : Value.Typed (.closure x body env self) (.fn a b))
    (harg : arg.Typed a) :
    ∃ Γ, Env.Typed (Eval.Config.enter x body env self arg) Γ ∧ HasType Γ body b := by
  cases h with
  | closure hbound htyped hbody =>
      exact ⟨_, Env.Typed.extend_mono ⟨hbound, htyped⟩ x harg, hbody⟩
  | recursive hbound htyped hbody =>
      have hself := Value.Typed.recursive hbound htyped hbody
      exact ⟨_, (Env.Typed.extend_mono ⟨hbound, htyped⟩ _ hself).extend_mono x harg, hbody⟩

theorem Value.Typed.int_inv {v : Value} (h : v.Typed .int) : ∃ n, v = .int n := by
  cases h with
  | int n => exact ⟨n, rfl⟩
  | builtin h =>
      rename_i b
      cases b <;> cases h

theorem Value.Typed.bool_inv {v : Value} (h : v.Typed .bool) : ∃ b, v = .bool b := by
  cases h with
  | bool b => exact ⟨b, rfl⟩
  | builtin h =>
      rename_i b
      cases b <;> cases h

theorem Value.Typed.unit_inv {v : Value} (h : v.Typed .unit) : v = .unit := by
  cases h with
  | unit => rfl
  | builtin h =>
      rename_i b
      cases b <;> cases h

theorem Op.apply_ints (op : Op) (l r : Int32) :
    op.apply (.int l) (.int r) = .ok (op.onInts l r) := by
  cases op <;> rfl

theorem Op.typed_onInts (op : Op) (l r : Int32) : (op.onInts l r).Typed op.ty := by
  cases op <;> constructor

theorem Builtin.call_typed {H : Type} [Host H] {b : Builtin} {arg : Value} {x y : Ty} (host : H)
    (hb : b.ty = .fn x y) (harg : arg.Typed x) :
    ∃ v host', b.call arg host = .ok (v, host') ∧ v.Typed y := by
  cases b with
  | printInt =>
      cases hb
      obtain ⟨n, rfl⟩ := harg.int_inv
      exact ⟨_, _, rfl, .unit⟩
  | printBool =>
      cases hb
      obtain ⟨v, rfl⟩ := harg.bool_inv
      exact ⟨_, _, rfl, .unit⟩
  | printUnit =>
      cases hb
      obtain rfl := harg.unit_inv
      exact ⟨_, _, rfl, .unit⟩
  | nowMs =>
      cases hb
      obtain rfl := harg.unit_inv
      exact ⟨_, _, rfl, .int _⟩

namespace Eval

variable {H α β : Type}

/-- If there is an answer, it is a value with the property. -/
def Outcome.Safe (P : α → Prop) : Outcome H α → Prop
  | .value a _ => P a
  | .failed .. => False
  | .unfinished _ => True

theorem Outcome.Safe.bind {P : α → Prop} {Q : β → Prop} {o : Outcome H α}
    {f : α → H → Outcome H β} (h : o.Safe P)
    (hf : ∀ a host, o = .value a host → P a → (f a host).Safe Q) :
    (o.bind f).Safe Q := by
  cases o with
  | value a host => exact hf a host rfl h
  | failed e host => exact h.elim
  | unfinished host => trivial

def SafeCalls (call : CallWith H) : Prop :=
  ∀ callee arg a b host, callee.Typed (.fn a b) → arg.Typed a →
    (call callee arg host).Safe (·.Typed b)

mutual

theorem safe_evalWith {call : CallWith H} (hcall : SafeCalls call) (e : Expr) {Γ : TypeEnv}
    {env : Env} {t : Ty} (host : H) (henv : env.Typed Γ) (h : HasType Γ e t) :
    (evalWith call e env host).Safe (·.Typed t) := by
  cases e with
  | int n =>
      cases h
      exact .int n
  | bool b =>
      cases h
      exact .bool b
  | unit =>
      cases h
      exact .unit
  | var x =>
      cases h with
      | var hx ht =>
          obtain ⟨v, hv⟩ := Option.isSome_iff_exists.1 (henv.bound x _ hx)
          simp only [evalWith, hv]
          exact henv.typed x _ v t hx hv ht
  | letIn x value body =>
      cases h with
      | letIn hvalue hfree hbody =>
          rw [evalWith]
          refine (safe_evalWith hcall value host henv hvalue).bind fun v host₁ hv _ => ?_
          refine safe_evalWith hcall body host₁ (henv.extend x fun u hu => ?_) hbody
          -- The value was computed once; it has every type the bound expression has.
          have hsafe := safe_evalWith hcall value host henv (hvalue.instantiate hfree hu)
          rwa [hv] at hsafe
  | letRec f x body rest =>
      cases h with
      | letRec hbody hfree hrest =>
          rw [evalWith]
          refine safe_evalWith hcall rest host (henv.extend f fun u hu => ?_) hrest
          obtain ⟨c, d, rfl, hinst⟩ := hbody.recursive_instance hfree hu
          exact .recursive henv.bound henv.typed hinst
  | fn x body =>
      cases h with
      | fn hbody => exact .closure henv.bound henv.typed hbody
  | app f a =>
      cases h with
      | app hf ha =>
          rw [evalWith]
          refine (safe_evalWith hcall f host henv hf).bind fun callee host₁ _ hcallee => ?_
          refine (safe_evalWith hcall a host₁ henv ha).bind fun arg host₂ _ harg => ?_
          exact hcall callee arg _ _ host₂ hcallee harg
  | ite c th el =>
      cases h with
      | ite hc hth hel =>
          rw [evalWith]
          refine (safe_evalWith hcall c host henv hc).bind fun cond host₁ _ hcond => ?_
          obtain ⟨b, rfl⟩ := hcond.bool_inv
          cases b with
          | true => exact safe_evalWith hcall th host₁ henv hth
          | false => exact safe_evalWith hcall el host₁ henv hel
  | prim op l r =>
      cases h with
      | prim hl hr =>
          rw [evalWith]
          refine (safe_evalWith hcall l host henv hl).bind fun left host₁ _ hleft => ?_
          refine (safe_evalWith hcall r host₁ henv hr).bind fun right host₂ _ hright => ?_
          obtain ⟨m, rfl⟩ := hleft.int_inv
          obtain ⟨n, rfl⟩ := hright.int_inv
          rw [Op.apply_ints]
          exact op.typed_onInts m n
  | tuple es =>
      cases h with
      | tuple hes =>
          rw [evalWith]
          exact (safe_evalAllWith hcall es host henv hes).bind fun vs _ _ hvs => .tuple hvs

theorem safe_evalAllWith {call : CallWith H} (hcall : SafeCalls call) (es : List Expr)
    {Γ : TypeEnv} {env : Env} {ts : List Ty} (host : H) (henv : env.Typed Γ)
    (h : HasTypes Γ es ts) : (evalAllWith call es env host).Safe (Value.TypedAll · ts) := by
  cases es with
  | nil =>
      cases h
      exact .nil
  | cons e es =>
      cases h with
      | cons he hes =>
          rw [evalAllWith]
          refine (safe_evalWith hcall e host henv he).bind fun v host₁ _ hv => ?_
          exact (safe_evalAllWith hcall es host₁ henv hes).bind fun vs _ _ hvs => .cons hv hvs

end

theorem safeCalls_builtin [Host H] {n : Nat} {b : Builtin} {arg : Value} {x y : Ty} (host : H)
    (hb : Value.Typed (.builtin b) (.fn x y)) (harg : arg.Typed x) :
    (callAt n (.builtin b) arg host).Safe (·.Typed y) := by
  cases hb with
  | builtin hb =>
      obtain ⟨v, host', hcall, hv⟩ := b.call_typed host hb harg
      rw [callAt, hcall]
      exact hv

theorem safeCalls_callAt [Host H] (n : Nat) : SafeCalls (callAt n : CallWith H) := by
  induction n with
  | zero =>
      intro callee arg a b host hcallee harg
      cases callee with
      | builtin g => exact safeCalls_builtin host hcallee harg
      | closure x body env self => trivial
      | int | bool | unit | tuple => cases hcallee
  | succ n ih =>
      intro callee arg a b host hcallee harg
      cases callee with
      | builtin g => exact safeCalls_builtin host hcallee harg
      | closure x body env self =>
          obtain ⟨Γ, henv, hbody⟩ := hcallee.enter harg
          exact safe_evalWith ih body host henv hbody
      | int | bool | unit | tuple => cases hcallee

end Eval

theorem Env.typed_initial : Env.initial.Typed .initial := by
  have hbuiltins (bs : List Builtin) {env : Env} {Γ : TypeEnv} (h : env.Typed Γ) :
      Env.Typed
        ((bs.map fun b => (b.name, Value.builtin b)).foldl (fun s b => s.extend b.1 b.2) env)
        ((bs.map fun b => (b.name, Scheme.mono b.ty)).foldl (fun s b => s.extend b.1 b.2) Γ) := by
    induction bs generalizing env Γ with
    | nil => exact h
    | cons b bs ih => exact ih (h.extend_mono b.name (.builtin rfl))
  exact hbuiltins Builtin.all ⟨by simp, by simp⟩

namespace Eval

variable {H : Type}

theorem safe_evalAt [Host H] {e : Expr} {Γ : TypeEnv} {env : Env} {t : Ty} (n : Nat) (host : H)
    (henv : env.Typed Γ) (h : HasType Γ e t) : (evalAt n e env host).Safe (·.Typed t) :=
  safe_evalWith (safeCalls_callAt n) e host henv h

/-- A program with a type never fails, whatever the host and the limit, but for too many pending
frames; and if it has a value, the value is of the kind its type asks for. -/
theorem run_safe [Host H] (e : Expr) (t : Ty) (ht : e.typeOf = .ok t) (host : H)
    (limit fuel : Nat) :
    (∀ err host', Config.run limit fuel (.start e .initial host) = .failed err host' →
      err = .stackExhausted limit) ∧
    (∀ v host', Config.run limit fuel (.start e .initial host) = .done v host' →
      v.inhabits t = true) := by
  have hsafe (n : Nat) := safe_evalAt n host Env.typed_initial (hasType_of_typeOf ht)
  have hrun := Config.outcome_of_run limit fuel (.start e .initial host)
  simp only [Config.outcomeWith_start] at hrun
  refine ⟨fun err host' h => ?_, fun v host' h => ?_⟩
  · rw [h] at hrun
    refine hrun.resolve_right fun ⟨n, hn⟩ => ?_
    have := hsafe n
    rw [evalAt, hn] at this
    exact this
  · rw [h] at hrun
    obtain ⟨n, hn⟩ := hrun
    have := hsafe n
    rw [evalAt, hn] at this
    exact Value.inhabits_of_typed v this

/-- `let id = fun x -> x in (id 1, id true)` -/
def identityPair : Expr :=
  .letIn "id" (.fn "x" (.var "x"))
    (.tuple [.app (.var "id") (.int 1), .app (.var "id") (.bool true)])

theorem hasType_identityPair : HasType .initial identityPair (.tuple [.int, .bool]) := by
  have hinst (t : Ty) : Scheme.Instance ⟨[0], .fn (.var 0) (.var 0)⟩ (.fn t t) :=
    ⟨fun v => if v = 0 then t else .var v, fun v hv => if_neg (by simpa using hv), rfl⟩
  refine .letIn (a := .fn (.var 0) (.var 0)) ?_
    (fun v (_ : v ∈ [0]) => TypeEnv.not_free_initial v) ?_
  · exact .fn (.var (Scope.lookup_extend_self _ _ _) (Scheme.instance_self _))
  · exact .tuple (.cons (.app (.var (Scope.lookup_extend_self _ _ _) (hinst .int)) (.int 1))
      (.cons (.app (.var (Scope.lookup_extend_self _ _ _) (hinst .bool)) (.bool true)) .nil))

theorem run_safe_identityPair : ∃ t, identityPair.typeOf = .ok t ∧
    Config.run 8 40 (.start identityPair .initial ({} : Recorder)) =
      .done (.tuple [.int 1, .bool true]) {} ∧
    (Value.tuple [.int 1, .bool true]).inhabits t = true := by
  obtain ⟨t, ht, -⟩ := exists_typeOf hasType_identityPair
  have hrun : Config.run 8 40 (.start identityPair .initial ({} : Recorder)) =
      .done (.tuple [.int 1, .bool true]) {} := by rfl
  exact ⟨t, ht, hrun, (run_safe identityPair t ht _ 8 40).2 _ _ hrun⟩

end Eval

end MlWasm
