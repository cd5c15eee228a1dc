import MlWasm.Proofs.Compile.Origins
import MlWasm.Proofs.Ty.HasType

/-!
Types of words. Any word will do for a number, a truth value or the unit. A word for a tuple is the
address of a record with a word for each element, and a word for a function is the address of a
closure: of a builtin of that type, or of a function of the program whose body has the type in a
scope that the captured words fit. Nothing is said of values, so a word can be typed in the middle
of a run that never comes to one.

Words keep their types while memory grows. They also keep them under every substitution, which is
what lets one word serve a name at all instances of its scheme.
-/

namespace MlWasm

/-- The scope of a function's body. The parameter, and the name of a recursive function, have one
type each. -/
def TypeEnv.enter (Γ : TypeEnv) (self : Option String) (x : String) (a b : Ty) : TypeEnv :=
  match self with
  | none => Γ.extend x (.mono a)
  | some f => (Γ.extend f (.mono (.fn a b))).extend x (.mono a)

theorem TypeEnv.subst_enter (θ : Nat → Ty) (Γ : TypeEnv) (self : Option String) (x : String)
    (a b : Ty) : (TypeEnv.subst θ (Γ.enter self x a b)).Specializes
      ((Γ.subst θ).enter self x (a.subst θ) (b.subst θ)) := by
  cases self with
  | none =>
      refine (TypeEnv.subst_extend θ Γ x _).trans (Specializes.rfl.extend x fun t ht => ?_)
      rw [Scheme.instance_mono_subst] at ht
      exact Scheme.instance_mono.2 ht
  | some f => exact specializes_recursive θ Γ f x a b

namespace Machine

open MlWasm.Ir (Prologue)

/-- Index `k` is that of a builtin's wrapper, which captures nothing, or that of a function of the
program that captures `n` names. -/
def Named (fns : List Ir.Function) (k n : Nat) : Prop :=
  k < Builtin.count ∧ n = 0 ∨ ∃ g ∈ fns, g.index = k ∧ g.free.length = n

variable {H : Type} [Host H]

omit [Host H] in
theorem Execution.named (X : Execution H) {f : Wasm.Frame} {Δ : Scope Nat} {k : Nat}
    {self : Option String} {x : String} {body : Expr}
    (h : X.source.Defines f Δ k self x body) :
    Named X.program.functions k (Prologue.ofFunction self x body).captured.length := by
  obtain ⟨b, gs, -, -, hmem⟩ := h.lift X.lift_eq
  exact .inr ⟨_, hmem, rfl, rfl⟩

/-- The word may be used at the type. -/
inductive Fills (X : Execution H) (m : Memory) (h : Nat) : Ty → Int32 → Prop where
  | int (w : Int32) : Fills X m h .int w
  | bool (w : Int32) : Fills X m h .bool w
  | unit (w : Int32) : Fills X m h .unit w
  | tuple {ts : List Ty} {ws : List Int32} {a : Nat} : ws.length = ts.length →
      (∀ (i : Nat) t w, ts[i]? = some t → ws[i]? = some w → Fills X m h t w) →
      m.Record h a (tupleWords ws) → Fills X m h (.tuple ts) (.ofNat a)
  | closure {f : Wasm.Frame} {Δ : Scope Nat} {self : Option String} {x : String} {body : Expr}
      {Γ : TypeEnv} {s t : Ty} {k a : Nat} {ws : List Int32} :
      X.source.Defines f Δ k self x body → HasType (Γ.enter self x s t) body t →
      ws.length = (Prologue.ofFunction self x body).captured.length →
      (∀ (i : Nat) y w σ u, (Prologue.ofFunction self x body).captured[i]? = some y →
        ws[i]? = some w → Γ.lookup y = some σ → σ.Instance u → Fills X m h u w) →
      m.Record h a (closureWords k ws) → X.Built k a ws → Fills X m h (.fn s t) (.ofNat a)
  | builtin {b : Builtin} {ty : Ty} {k a : Nat} : b.ty = ty → Builtin.all[k]? = some b →
      m.Record h a (closureWords k []) → Fills X m h ty (.ofNat a)

section Words

variable {X : Execution H} {m m' : Memory} {h h' : Nat} {ty : Ty} {w : Int32}

theorem Fills.mono (hg : m.Grown h m' h') (hw : Fills X m h ty w) : Fills X m' h' ty w := by
  induction hw with
  | int w => exact .int w
  | bool w => exact .bool w
  | unit w => exact .unit w
  | tuple hlen _ hr ih => exact .tuple hlen ih (hr.mono hg)
  | closure hk hbody hlen _ hr hbuilt ih => exact .closure hk hbody hlen ih (hr.mono hg) hbuilt
  | builtin hty hb hr => exact .builtin hty hb (hr.mono hg)

theorem Fills.subst (θ : Nat → Ty) (hw : Fills X m h ty w) : Fills X m h (ty.subst θ) w := by
  induction hw generalizing θ with
  | int w => exact .int w
  | bool w => exact .bool w
  | unit w => exact .unit w
  | tuple hlen _ hr ih =>
      rw [Ty.subst, Ty.substAll_eq_map]
      refine .tuple (by rw [hlen, List.length_map]) (fun i t w ht hw => ?_) hr
      rw [List.getElem?_map] at ht
      obtain ⟨t', ht', rfl⟩ := Option.map_eq_some_iff.1 ht
      exact ih i t' w ht' hw θ
  | closure hk hbody hlen _ hr hbuilt ih =>
      refine .closure hk ((HasType.subst θ _ hbody).mono (TypeEnv.subst_enter θ _ _ _ _ _) _) hlen
        (fun i y w σ u hy hw hσ hu => ?_) hr hbuilt
      -- What an instance after the substitution replaces, one before it may replace as well.
      rw [TypeEnv.lookup_subst] at hσ
      obtain ⟨τ, hτ, rfl⟩ := Option.map_eq_some_iff.1 hσ
      obtain ⟨ζ, -, rfl⟩ := Scheme.instance_subst.1 hu
      exact ih i y w τ τ.ty hy hw hτ (Scheme.instance_self τ) ζ
  | @builtin b _ k a hty hb hr =>
      subst hty
      exact .builtin (by cases b <;> rfl) hb hr

/-- A word for a generalized name serves it wherever it is used. -/
theorem Fills.of_instance {vars : List Nat} {u : Ty} (hw : Fills X m h ty w)
    (hu : Scheme.Instance ⟨vars, ty⟩ u) : Fills X m h u w := by
  obtain ⟨θ, -, rfl⟩ := hu
  exact hw.subst θ

/-- The words may be used at the types one by one. -/
structure FillAll (X : Execution H) (m : Memory) (h : Nat) (ts : List Ty)
    (ws : List Int32) : Prop where
  length : ws.length = ts.length
  fills : ∀ (i : Nat) t w, ts[i]? = some t → ws[i]? = some w → Fills X m h t w

theorem FillAll.mono {ts : List Ty} {ws : List Int32} (hws : FillAll X m h ts ws)
    (hg : m.Grown h m' h') : FillAll X m' h' ts ws :=
  ⟨hws.length, fun i t w ht hw => (hws.fills i t w ht hw).mono hg⟩

theorem FillAll.nil : FillAll X m h [] [] := ⟨rfl, fun i t w ht => by simp at ht⟩

theorem FillAll.cons {ts : List Ty} {ws : List Int32} (hw : Fills X m h ty w)
    (hws : FillAll X m h ts ws) : FillAll X m h (ty :: ts) (w :: ws) := by
  refine ⟨congrArg (· + 1) hws.length, fun i t w' ht hw' => ?_⟩
  cases i with
  | zero =>
      cases ht
      cases hw'
      exact hw
  | succ i => exact hws.fills i t w' ht hw'

/-- The words fit the names in a scope. -/
def FillNames (X : Execution H) (m : Memory) (h : Nat) (Γ : TypeEnv) (names : List String)
    (ws : List Int32) : Prop :=
  ∀ (i : Nat) y w σ u, names[i]? = some y → ws[i]? = some w → Γ.lookup y = some σ → σ.Instance u →
    Fills X m h u w

theorem FillNames.mono {Γ : TypeEnv} {names : List String} {ws : List Int32}
    (hws : FillNames X m h Γ names ws) (hg : m.Grown h m' h') : FillNames X m' h' Γ names ws :=
  fun i y w σ u hy hw hσ hu => (hws i y w σ u hy hw hσ hu).mono hg

end Words

/-! ### Locals -/

/-- The temp of each name in scope holds a word that serves the name at all its types. -/
def Serves (X : Execution H) (m : Memory) (h : Nat) (f : Wasm.Frame) (l : Array Int32)
    (Δ : Scope Nat) (Γ : TypeEnv) : Prop :=
  ∀ y u, Δ.lookup y = some u → ∃ w, l[f.slot u]? = some w ∧
    ∀ σ t, Γ.lookup y = some σ → σ.Instance t → Fills X m h t w

namespace Serves

variable {X : Execution H} {m m' : Memory} {h h' : Nat} {f : Wasm.Frame}
  {l l' : Array Int32} {Δ : Scope Nat} {Γ : TypeEnv} {size t n : Nat}

theorem mono (hs : Serves X m h f l Δ Γ) (hg : m.Grown h m' h')
    (hspares : Spares f size t n l l') (hbelow : Ir.Below Δ t) (ht : t ≤ size) :
    Serves X m' h' f l' Δ Γ := by
  intro y u hy
  obtain ⟨w, hw, hfills⟩ := hs y u hy
  have hu := hbelow y u hy
  exact ⟨w, (hspares.temps u (by omega) (.inl hu)).trans hw,
    fun σ ty hσ hty => (hfills σ ty hσ hty).mono hg⟩

theorem extend (hs : Serves X m h f l Δ Γ) (x : String) {u : Nat} {σ : Scheme} {w : Int32}
    (hw : l[f.slot u]? = some w) (hfills : ∀ t, σ.Instance t → Fills X m h t w) :
    Serves X m h f l (Δ.extend x u) (Γ.extend x σ) := by
  intro y u' hy
  obtain ⟨rfl, rfl⟩ | ⟨hne, hy⟩ := Scope.lookup_extend_eq_some.1 hy
  · refine ⟨w, hw, fun τ ty hτ hty => ?_⟩
    cases (Scope.lookup_extend_self Γ y σ).symm.trans hτ
    exact hfills ty hty
  · rw [Scope.lookup_extend_of_ne Γ σ hne]
    exact hs y u' hy

/-- The temps of captured names hold words that fit the names. -/
theorem captures (hs : Serves X m h f l Δ Γ) {names : List String} {temps : List Nat}
    (htemps : names.map Δ.lookup = temps.map some) :
    ∃ ws, Held f l temps ws ∧ FillNames X m h Γ names ws := by
  induction names generalizing temps with
  | nil =>
      cases temps with
      | nil => exact ⟨[], rfl, fun i y w σ u hy => by simp at hy⟩
      | cons u temps => cases htemps
  | cons y names ih =>
      cases temps with
      | nil => cases htemps
      | cons u temps =>
          obtain ⟨hy, hrest⟩ := List.cons.inj htemps
          obtain ⟨w, hw, hfills⟩ := hs y u hy
          obtain ⟨ws, hws, hnames⟩ := ih hrest
          refine ⟨w :: ws, ?_, fun i y' w' σ ty hy' hw' hσ hty => ?_⟩
          · rw [Held, List.map_cons, List.map_cons, hw, hws]
          · cases i with
            | zero =>
                cases hy'
                cases hw'
                exact hfills σ ty hσ hty
            | succ i => exact hnames i y' w' σ ty hy' hw' hσ hty

end Serves

/-- The temps serve the scope of a function's body. -/
theorem serves_scope {X : Execution H} {m : Memory} {h : Nat} {f : Wasm.Frame}
    {l : Array Int32} {self : Option String} {x : String} {body : Expr} {Γ : TypeEnv} {s t : Ty}
    {w : Int32} {ws : List Int32} (hw : l[f.slot 0]? = some w) (harg : Fills X m h s w)
    (hself : self.isSome → ∃ w', l[f.slot 2]? = some w' ∧ Fills X m h (.fn s t) w')
    (hheld : Held f l (Prologue.ofFunction self x body).captureTemps ws)
    (hnames : FillNames X m h Γ (Prologue.ofFunction self x body).captured ws) :
    Serves X m h f l (Prologue.ofFunction self x body).scope (Γ.enter self x s t) := by
  intro y u hy
  rcases Prologue.lookup_scope hy with ⟨hx, rfl⟩ | ⟨hx, hname, rfl⟩ | ⟨hx, hname, hmem⟩
  · have hyx : y = x := hx
    refine ⟨w, hw, fun σ ty hσ hty => ?_⟩
    have hmono : (Γ.enter self x s t).lookup y = some (.mono s) := by
      cases self <;> simp [TypeEnv.enter, hyx]
    cases hσ.symm.trans hmono
    rwa [Scheme.instance_mono.1 hty]
  · have hyx : y ≠ x := hx
    have hself' : self = some y := hname
    obtain ⟨w', hw', hfills⟩ := hself (by rw [hself']; rfl)
    refine ⟨w', hw', fun σ ty hσ hty => ?_⟩
    have hmono : (Γ.enter self x s t).lookup y = some (.mono (.fn s t)) := by
      simp [TypeEnv.enter, hself', Scope.lookup_extend, hyx]
    cases hσ.symm.trans hmono
    rwa [Scheme.instance_mono.1 hty]
  · have hyx : y ≠ x := hx
    have hself' : self ≠ some y := hname
    have houter : (Γ.enter self x s t).lookup y = Γ.lookup y := by
      cases self with
      | none => simp [TypeEnv.enter, Scope.lookup_extend, hyx]
      | some g =>
          have hg : y ≠ g := fun hyg => hself' (by rw [hyg])
          simp [TypeEnv.enter, Scope.lookup_extend, hyx, hg]
    obtain ⟨i, hi⟩ := List.mem_iff_getElem?.1 hmem
    obtain ⟨hname, htemp⟩ := List.getElem?_zip_eq_some.1 hi
    obtain ⟨w', hw', hslot⟩ := hheld.get htemp
    refine ⟨w', hslot, fun σ ty hσ hty => ?_⟩
    rw [houter] at hσ
    exact hnames i y w' σ ty hname hw' hσ hty

/-- Where code for an expression may run, with temps that serve the scope. -/
structure TypedSite (X : Execution H) (f : Wasm.Frame) (size t count : Nat) (Δ : Scope Nat)
    (Γ : TypeEnv) (m : Memory) (h : Nat) (l : Array Int32) : Prop
    extends Place f size t count Δ m h l where
  serves : Serves X m h f l Δ Γ

namespace TypedSite

variable {X : Execution H} {f : Wasm.Frame} {size t t' count count' : Nat} {Δ : Scope Nat}
  {Γ : TypeEnv} {m m' : Memory} {h h' : Nat} {l l' : Array Int32}

theorem part (hs : TypedSite X f size t count Δ Γ m h l) (ht : t ≤ t')
    (hroom : t' + count' ≤ t + count) : TypedSite X f size t' count' Δ Γ m h l :=
  ⟨hs.toPlace.part ht hroom, hs.serves⟩

theorem after (hs : TypedSite X f size t count Δ Γ m h l) (hg : m.Grown h m' h')
    (hspares : Spares f size t count l l') : TypedSite X f size t count Δ Γ m' h' l' := by
  have hroom := hs.room
  exact ⟨hs.toPlace.after hg hspares, hs.serves.mono hg hspares hs.below (by omega)⟩

theorem bound (hs : TypedSite X f size t count Δ Γ m h l) (x : String) {σ : Scheme} {w : Int32}
    (hw : l[f.slot t]? = some w) (hfills : ∀ ty, σ.Instance ty → Fills X m h ty w) (ht : t < t')
    (hroom : t' + count' ≤ t + count) :
    TypedSite X f size t' count' (Δ.extend x t) (Γ.extend x σ) m h l :=
  ⟨hs.toPlace.bound x ht hroom, hs.serves.extend x hw hfills⟩

end TypedSite

end Machine

end MlWasm
