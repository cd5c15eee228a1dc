import MlWasm.Builtin
import MlWasm.Scope
import MlWasm.Ty.Subst

/-!
Type environments: a scheme for each name in scope.
-/

namespace MlWasm

abbrev TypeEnv := Scope Scheme

def Builtin.ty : Builtin → Ty
  | printInt => .fn .int .unit
  | printBool => .fn .bool .unit
  | printUnit => .fn .unit .unit
  | nowMs => .fn .unit .int

namespace TypeEnv

/-- The builtins, none of them polymorphic. -/
def initial : TypeEnv := .ofList (Builtin.all.map fun b => (b.name, .mono b.ty))

def apply (env : TypeEnv) (s : Subst) : TypeEnv :=
  if s.isEmpty then env else env.map s.applyScheme

def freeVars (env : TypeEnv) : Std.TreeSet Nat :=
  env.visible.foldl (fun vs b => vs ∪ b.2.freeVars) ∅

/-- Quantifies every variable of the type that no visible binding mentions. -/
def generalize (env : TypeEnv) (t : Ty) : Scheme :=
  ⟨(t.freeVars \ env.freeVars).toList, t⟩

end TypeEnv

end MlWasm
