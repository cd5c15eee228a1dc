import MlWasm.Expr
import MlWasm.Source.Token

/-!
Printing of expressions. The tokens of an expression are those of a source that reads back to it;
a negative integer has no literal and is written as a subtraction from zero.
-/

namespace MlWasm

namespace Expr

def opToken : Op → Token
  | .add => .plus
  | .sub => .minus
  | .mul => .star
  | .eq => .eq
  | .lt => .lt
  | .le => .le

def opStrength : Op → Nat
  | .eq | .lt | .le => 1
  | .add | .sub => 2
  | .mul => 3

/-- How tightly the outermost construct of a printed expression binds. -/
def strength : Expr → Nat
  | letIn .. | letRec .. | fn .. | ite .. => 0
  | prim op _ _ => opStrength op
  | app .. => 4
  | int n => if n < 0 then 2 else 5
  | bool _ | unit | var _ | tuple _ => 5

def enclose (tokens : List Token) : List Token := .lparen :: tokens ++ [.rparen]

mutual

/-- Tokens of an expression that stands where only constructs of at least the given strength may
stand unenclosed. -/
def tokens (least : Nat) (e : Expr) : List Token :=
  let body := match e with
    | int n =>
        if n < 0 then [.int "0", .minus, .int (toString n.toInt.natAbs)]
        else [.int (toString n.toInt.natAbs)]
    | bool b => [if b then .trueKw else .falseKw]
    | unit => [.lparen, .rparen]
    | var x => [.ident x]
    | letIn x v b => [.letKw, .ident x, .eq] ++ tokens 0 v ++ .inKw :: tokens 0 b
    | letRec f x b r =>
        [.letKw, .recKw, .ident f, .ident x, .eq] ++ tokens 0 b ++ .inKw :: tokens 0 r
    | fn x b => [.funKw, .ident x, .arrow] ++ tokens 0 b
    | app f a => tokens 4 f ++ tokens 5 a
    | ite c t e => .ifKw :: tokens 0 c ++ .thenKw :: tokens 0 t ++ .elseKw :: tokens 0 e
    | prim op l r => tokens (opStrength op) l ++ opToken op :: tokens (opStrength op + 1) r
    | tuple elts => .lparen :: tokensAll elts ++ [.rparen]
  if e.strength < least then enclose body else body

/-- Elements of a tuple with commas between them. -/
def tokensAll : List Expr → List Token
  | [] => []
  | [e] => tokens 0 e
  | e :: es => tokens 0 e ++ .comma :: tokensAll es

end

/-- Tokens stand one blank apart, except inside parentheses and before a comma. -/
def spaced : Token → Token → Bool
  | .lparen, _ => false
  | _, .rparen | _, .comma => false
  | _, _ => true

def spell : List Token → String
  | [] => ""
  | [t] => t.text
  | t :: u :: rest => t.text ++ (if spaced t u then " " else "") ++ spell (u :: rest)

def print (e : Expr) : String := spell (e.tokens 0)

end Expr

end MlWasm
