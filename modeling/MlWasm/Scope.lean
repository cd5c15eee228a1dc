import MlWasm.Text.Distinct
import MlWasm.Text.Quoted

/-!
Scopes of named bindings. Extending a scope leaves the old one as it was, so siblings can share
it; a look-up walks from the innermost binding outwards, so a later binding shadows an earlier one
of the same name.
-/

namespace MlWasm

structure Scope (α : Type) where
  /-- Every binding, innermost first, shadowed ones included. -/
  bindings : List (String × α)

namespace Scope

variable {α : Type}

def empty : Scope α := ⟨[]⟩

instance : EmptyCollection (Scope α) := ⟨empty⟩

instance : Inhabited (Scope α) := ⟨empty⟩

def isEmpty (s : Scope α) : Bool := s.bindings.isEmpty

def extend (s : Scope α) (name : String) (value : α) : Scope α :=
  ⟨(name, value) :: s.bindings⟩

/-- The last item of the list becomes the innermost binding. -/
def ofList (items : List (String × α)) : Scope α :=
  items.foldl (fun s b => s.extend b.1 b.2) ∅

def lookup (s : Scope α) (name : String) : Option α := s.bindings.lookup name

def contains (s : Scope α) (name : String) : Bool := (s.lookup name).isSome

/-- The bindings a look-up can reach, innermost first. -/
def visible (s : Scope α) : List (String × α) := Text.firsts Prod.fst s.bindings

/-- Passes every visible value through `f`, outermost first. Shadowed bindings are dropped, since
nothing can observe them. -/
def mapM {m : Type → Type} [Monad m] (f : α → m α) (s : Scope α) : m (Scope α) :=
  s.visible.foldrM (fun b acc => do return acc.extend b.1 (← f b.2)) ∅

def map (f : α → α) (s : Scope α) : Scope α :=
  ⟨s.visible.map fun b => (b.1, f b.2)⟩

/-- The visible bindings on one line, names quoted. -/
def text (render : α → String) (s : Scope α) : String :=
  "\x7b" ++ ", ".intercalate (s.visible.map fun b => Text.quote b.1 ++ ": " ++ render b.2) ++ "\x7d"

@[simp] theorem lookup_empty (name : String) : (∅ : Scope α).lookup name = none := rfl

theorem lookup_extend (s : Scope α) (x : String) (v : α) (name : String) :
    (s.extend x v).lookup name = if name = x then some v else s.lookup name := by
  by_cases h : name = x
  · simp [lookup, extend, h]
  · simp [lookup, extend, List.lookup_cons, h, beq_eq_false_iff_ne.2 h]

end Scope

end MlWasm
