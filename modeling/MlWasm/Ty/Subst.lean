import Std.Data.TreeMap
import MlWasm.Ty.Basic

/-!
Finite substitutions. A binding may refer to a variable that the same substitution binds; applying
a substitution follows such chains until it meets an unbound variable. A chain that never comes
back to a variable has at most as many links as there are bindings, so that many steps suffice.
-/

namespace MlWasm

structure Subst where
  bindings : Std.TreeMap Nat Ty

namespace Subst

def empty : Subst := ⟨∅⟩

instance : EmptyCollection Subst := ⟨empty⟩

instance : Inhabited Subst := ⟨empty⟩

def singleton (v : Nat) (t : Ty) : Subst := ⟨(∅ : Std.TreeMap Nat Ty).insert v t⟩

def get? (s : Subst) (v : Nat) : Option Ty := s.bindings[v]?

def isEmpty (s : Subst) : Bool := s.bindings.isEmpty

/-- Number of bindings. -/
def size (s : Subst) : Nat := s.bindings.size

/-- What `v` stands for after at most `n` links; variables in `skip` stand for themselves. -/
def resolve (s : Subst) (skip : List Nat) : Nat → Nat → Ty
  | 0, v => .var v
  | n + 1, v =>
      if v ∈ skip then .var v
      else match s.get? v with
        | none => .var v
        | some t => t.subst (s.resolve skip n)

def applyExcept (s : Subst) (skip : List Nat) (t : Ty) : Ty :=
  t.subst (s.resolve skip s.size)

def apply (s : Subst) (t : Ty) : Ty := s.applyExcept [] t

/-- Quantified variables are left alone. -/
def applyScheme (s : Subst) (σ : Scheme) : Scheme :=
  ⟨σ.vars, s.applyExcept σ.vars σ.ty⟩

/-- First `first`, then `second`; where both bind a variable, `second` wins. -/
def compose (second first : Subst) : Subst :=
  ⟨first.bindings.map (fun _ t => second.apply t) ∪ second.bindings⟩

@[simp] theorem get?_empty (v : Nat) : (∅ : Subst).get? v = none := by
  change (∅ : Std.TreeMap Nat Ty)[v]? = none
  simp

theorem get?_singleton (v : Nat) (t : Ty) (w : Nat) :
    (singleton v t).get? w = if v = w then some t else none := by
  simp [singleton, get?, Std.TreeMap.getElem?_insert]

theorem get?_compose (second first : Subst) (v : Nat) :
    (compose second first).get? v = (second.get? v).or ((first.get? v).map second.apply) := by
  simp [compose, get?, Std.TreeMap.getElem?_union, Std.TreeMap.getElem?_map]

end Subst

end MlWasm
