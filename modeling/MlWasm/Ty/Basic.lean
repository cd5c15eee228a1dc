import Std.Data.TreeSet

/-!
Types of expressions, their variables and their printed form.
-/

namespace MlWasm

inductive Ty where
  | int
  | bool
  | unit
  | fn (domain codomain : Ty)
  | tuple (elts : List Ty)
  | var (id : Nat)
  deriving Inhabited

namespace Ty

mutual

def same : Ty → Ty → Bool
  | int, int | bool, bool | unit, unit => true
  | fn a b, fn c d => same a c && same b d
  | tuple xs, tuple ys => sameAll xs ys
  | var v, var w => v == w
  | _, _ => false

def sameAll : List Ty → List Ty → Bool
  | [], [] => true
  | x :: xs, y :: ys => same x y && sameAll xs ys
  | _, _ => false

end

mutual

theorem same_iff (a b : Ty) : same a b = true ↔ a = b := by
  cases a <;> cases b <;> simp [same, same_iff, sameAll_iff]

theorem sameAll_iff (xs ys : List Ty) : sameAll xs ys = true ↔ xs = ys := by
  cases xs <;> cases ys <;> simp [sameAll, same_iff, sameAll_iff]

end

instance : DecidableEq Ty := fun a b => decidable_of_iff _ (same_iff a b)

mutual

/-- Occurrences of variables, from left to right. -/
def vars : Ty → List Nat
  | int | bool | unit => []
  | fn a b => vars a ++ vars b
  | tuple ts => varsAll ts
  | var v => [v]

def varsAll : List Ty → List Nat
  | [] => []
  | t :: ts => vars t ++ varsAll ts

end

def occurs (v : Nat) (t : Ty) : Bool := v ∈ t.vars

def freeVars (t : Ty) : Std.TreeSet Nat := .ofList t.vars

mutual

/-- Number of type constructors and variables. -/
def size : Ty → Nat
  | int | bool | unit | var _ => 1
  | fn a b => size a + size b + 1
  | tuple ts => sizeAll ts + 1

def sizeAll : List Ty → Nat
  | [] => 0
  | t :: ts => size t + sizeAll ts

end

mutual

/-- Replaces every variable at once. -/
def subst (f : Nat → Ty) : Ty → Ty
  | int => int
  | bool => bool
  | unit => unit
  | fn a b => fn (subst f a) (subst f b)
  | tuple ts => tuple (substAll f ts)
  | var v => f v

def substAll (f : Nat → Ty) : List Ty → List Ty
  | [] => []
  | t :: ts => subst f t :: substAll f ts

end

mutual

/-- Extends a one-to-one matching of variables, given as pairs, to one that carries the first type
to the second. -/
def rename? (pairs : List (Nat × Nat)) : Ty → Ty → Option (List (Nat × Nat))
  | int, int | bool, bool | unit, unit => some pairs
  | var v, var w =>
      match pairs.find? fun p => p.1 == v || p.2 == w with
      | some p => if p = (v, w) then some pairs else none
      | none => some ((v, w) :: pairs)
  | fn a b, fn c d => do rename? (← rename? pairs a c) b d
  | tuple xs, tuple ys => renameAll? pairs xs ys
  | _, _ => none

def renameAll? (pairs : List (Nat × Nat)) : List Ty → List Ty → Option (List (Nat × Nat))
  | [], [] => some pairs
  | x :: xs, y :: ys => do renameAll? (← rename? pairs x y) xs ys
  | _, _ => none

end

/-- Equality up to a one-to-one renaming of variables. -/
def alphaEq (a b : Ty) : Bool := (rename? [] a b).isSome

def varText (v : Nat) : String := s!"'t{v}"

mutual

/-- Arrows group to the right, so only a function domain is enclosed. -/
def text : Ty → String
  | int => "int"
  | bool => "bool"
  | unit => "unit"
  | fn (fn a b) c => "(" ++ text (fn a b) ++ ") -> " ++ text c
  | fn a b => text a ++ " -> " ++ text b
  | tuple ts => "(" ++ ", ".intercalate (textAll ts) ++ ")"
  | var v => varText v

def textAll : List Ty → List String
  | [] => []
  | t :: ts => text t :: textAll ts

end

end Ty

/-- A type with quantified variables. -/
structure Scheme where
  vars : List Nat
  ty : Ty
  deriving DecidableEq, Inhabited

namespace Scheme

/-- A scheme that quantifies nothing. -/
def mono (t : Ty) : Scheme := ⟨[], t⟩

def freeVars (s : Scheme) : Std.TreeSet Nat :=
  s.vars.foldl .erase s.ty.freeVars

def text (s : Scheme) : String :=
  if s.vars.isEmpty then s.ty.text
  else "forall" ++ String.join (s.vars.map fun v => " " ++ Ty.varText v) ++ ". " ++ s.ty.text

end Scheme

end MlWasm
