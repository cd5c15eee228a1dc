import Std.Data.TreeSet
import MlWasm.Operator

/-!
Expressions of the language. Every function takes one argument: definitions and calls with
several are nested.
-/

namespace MlWasm

inductive Expr where
  | int (n : Int32)
  | bool (b : Bool)
  | unit
  | var (name : String)
  /-- `let name = value in body` -/
  | letIn (name : String) (value body : Expr)
  /-- `let rec name param = body in rest` -/
  | letRec (name param : String) (body rest : Expr)
  /-- `fun param -> body` -/
  | fn (param : String) (body : Expr)
  | app (callee arg : Expr)
  | ite (cond thenBranch elseBranch : Expr)
  | prim (op : Op) (left right : Expr)
  | tuple (elts : List Expr)
  deriving Inhabited

namespace Expr

mutual

def same : Expr → Expr → Bool
  | int m, int n => m == n
  | bool x, bool y => x == y
  | unit, unit => true
  | var x, var y => x == y
  | letIn x v e, letIn y w f => x == y && same v w && same e f
  | letRec f x e r, letRec g y d s => f == g && x == y && same e d && same r s
  | fn x e, fn y f => x == y && same e f
  | app f x, app g y => same f g && same x y
  | ite c t e, ite d u f => same c d && same t u && same e f
  | prim o l r, prim p m s => o == p && same l m && same r s
  | tuple xs, tuple ys => sameAll xs ys
  | _, _ => false

def sameAll : List Expr → List Expr → Bool
  | [], [] => true
  | x :: xs, y :: ys => same x y && sameAll xs ys
  | _, _ => false

end

mutual

theorem same_iff (a b : Expr) : same a b = true ↔ a = b := by
  cases a <;> cases b <;>
    simp [same, same_iff, sameAll_iff, and_assoc]

theorem sameAll_iff (xs ys : List Expr) : sameAll xs ys = true ↔ xs = ys := by
  cases xs <;> cases ys <;> simp [sameAll, same_iff, sameAll_iff]

end

instance : DecidableEq Expr := fun a b => decidable_of_iff _ (same_iff a b)

mutual

/-- Names the expression refers to without binding them. -/
def freeNames : Expr → Std.TreeSet String
  | int _ | bool _ | unit => ∅
  | var x => {x}
  | letIn x value body => freeNames value ∪ (freeNames body).erase x
  | letRec f x body rest => ((freeNames body).erase f).erase x ∪ (freeNames rest).erase f
  | fn x body => (freeNames body).erase x
  | app callee arg => freeNames callee ∪ freeNames arg
  | ite c t e => freeNames c ∪ freeNames t ∪ freeNames e
  | prim _ l r => freeNames l ∪ freeNames r
  | tuple elts => freeNamesAll elts

def freeNamesAll : List Expr → Std.TreeSet String
  | [] => ∅
  | e :: es => freeNames e ∪ freeNamesAll es

end

end Expr

end MlWasm
