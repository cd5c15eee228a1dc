import MlWasm.Expr
import MlWasm.Source.Lexeme

/-!
Parsing by one pass over the lexemes. A state holds all that was read so far: the expressions that
are still open, outermost last, and inside the innermost one the left operands that wait for their
right operand. Each lexeme takes a state to the next one or is at fault.

Binding strength, weakest first: `let`, `if` and `fun`; comparisons; `+` and `-`; `*`; application;
atoms. Operators of one strength group to the left.
-/

namespace MlWasm

namespace Parser

/-- Left operands that wait for a right operand, the tightest operator last. -/
structure Pending where
  comparison : Option (Expr × Op) := none
  sum : Option (Expr × Op) := none
  product : Option Expr := none

namespace Pending

def joinProduct (p : Pending) (e : Expr) : Expr :=
  match p.product with
  | none => e
  | some l => .prim .mul l e

def joinSum (p : Pending) (e : Expr) : Expr :=
  match p.sum with
  | none => p.joinProduct e
  | some (l, op) => .prim op l (p.joinProduct e)

/-- The operator expression whose last operand is `e`. -/
def join (p : Pending) (e : Expr) : Expr :=
  match p.comparison with
  | none => p.joinSum e
  | some (l, op) => .prim op l (p.joinSum e)

/-- The left operands once `e` is followed by `*`. -/
def awaitFactor (p : Pending) (e : Expr) : Pending :=
  { p with product := some (p.joinProduct e) }

/-- The left operands once `e` is followed by `+` or `-`. -/
def awaitTerm (p : Pending) (e : Expr) (op : Op) : Pending :=
  { comparison := p.comparison, sum := some (p.joinSum e, op) }

/-- The left operands once `e` is followed by a comparison. -/
def awaitComparand (p : Pending) (e : Expr) (op : Op) : Pending :=
  { comparison := some (p.join e, op) }

end Pending

/-- An open construct and the place in it where an expression is being read. -/
inductive Context where
  | letValue (name : String) (params : List String)
  | letBody (name : String) (value : Expr)
  | recBody (name param : String) (params : List String)
  | recRest (name param : String) (body : Expr)
  | ifCond
  | ifThen (cond : Expr)
  | ifElse (cond thenBranch : Expr)
  | funBody (param : String)
  /-- After `(`, with the function applied to the group, if any, and the operands before it. -/
  | group (callee : Option Expr) (pending : Pending)
  /-- After a `,`, with the elements read so far, last first. -/
  | tuple (done : List Expr) (callee : Option Expr) (pending : Pending)

inductive State where
  /-- An expression begins here. -/
  | expr (outer : List Context)
  /-- Just after `(`. -/
  | opened (callee : Option Expr) (pending : Pending) (outer : List Context)
  /-- After an operator. -/
  | operand (pending : Pending) (outer : List Context)
  /-- After an operand, which may still be applied to an argument. -/
  | value (e : Expr) (pending : Pending) (outer : List Context)
  | letWord (outer : List Context)
  | letRecWords (outer : List Context)
  /-- After `let name` and some parameters, last first. -/
  | letParams (name : String) (params : List String) (outer : List Context)
  /-- After `let rec name` and some parameters, last first. -/
  | recParams (name : String) (params : List String) (outer : List Context)
  | funWord (outer : List Context)
  | funParam (param : String) (outer : List Context)
  /-- After the end of the source. -/
  | done (e : Expr)

/-- A function of several parameters is nested functions of one. -/
def curry (params : List String) (body : Expr) : Expr :=
  params.foldr .fn body

def applied : Option Expr → Expr → Expr
  | none, e => e
  | some f, e => .app f e

abbrev Step := Except FaultAt State

def unexpected (l : Lexeme) (after : Preceding) : Step :=
  .error ⟨l.start, .unexpectedToken l.token after⟩

def expected (l : Lexeme) (wanted : Token) (within : Construct) : Step :=
  .error ⟨l.start, .expected wanted within l.token⟩

/-- An atom begins with the lexeme. -/
def readAtom (l : Lexeme) (callee : Option Expr) (pending : Pending) (outer : List Context) :
    Step :=
  match l.token with
  | .int digits =>
      if Token.value digits < 0x80000000 then
        .ok (.value (applied callee (.int (Int32.ofNat (Token.value digits)))) pending outer)
      else .error ⟨l.start, .integerOutOfRange digits⟩
  | .trueKw => .ok (.value (applied callee (.bool true)) pending outer)
  | .falseKw => .ok (.value (applied callee (.bool false)) pending outer)
  | .ident x => .ok (.value (applied callee (.var x)) pending outer)
  | .lparen => .ok (.opened callee pending outer)
  | _ => unexpected l .atom

/-- An expression begins with the lexeme. -/
def readExpr (l : Lexeme) (outer : List Context) : Step :=
  match l.token with
  | .letKw => .ok (.letWord outer)
  | .ifKw => .ok (.expr (.ifCond :: outer))
  | .funKw => .ok (.funWord outer)
  | _ => readAtom l none {} outer

/-- The lexeme ends the expression `e`, and with it every construct that `e` completes. -/
def close (l : Lexeme) (e : Expr) : List Context → Step
  | [] => if l.token = .eof then .ok (.done e) else unexpected l .expression
  | .letValue x params :: outer =>
      if l.token = .inKw then .ok (.expr (.letBody x (curry params e) :: outer))
      else expected l .inKw .letBinding
  | .letBody x v :: outer => close l (.letIn x v e) outer
  | .recBody f x params :: outer =>
      if l.token = .inKw then .ok (.expr (.recRest f x (curry params e) :: outer))
      else expected l .inKw .letRecBinding
  | .recRest f x b :: outer => close l (.letRec f x b e) outer
  | .ifCond :: outer =>
      if l.token = .thenKw then .ok (.expr (.ifThen e :: outer))
      else expected l .thenKw .ifExpression
  | .ifThen c :: outer =>
      if l.token = .elseKw then .ok (.expr (.ifElse c e :: outer))
      else expected l .elseKw .ifExpression
  | .ifElse c t :: outer => close l (.ite c t e) outer
  | .funBody x :: outer => close l (.fn x e) outer
  | .group callee pending :: outer =>
      if l.token = .comma then .ok (.expr (.tuple [e] callee pending :: outer))
      else if l.token = .rparen then .ok (.value (applied callee e) pending outer)
      else expected l .rparen .grouping
  | .tuple elts callee pending :: outer =>
      if l.token = .comma then .ok (.expr (.tuple (e :: elts) callee pending :: outer))
      else if l.token = .rparen then
        .ok (.value (applied callee (.tuple (e :: elts).reverse)) pending outer)
      else expected l .rparen .tuple

/-- The lexeme follows the operand `e`. -/
def readAfter (l : Lexeme) (e : Expr) (pending : Pending) (outer : List Context) : Step :=
  match l.token with
  | .star => .ok (.operand (pending.awaitFactor e) outer)
  | .plus => .ok (.operand (pending.awaitTerm e .add) outer)
  | .minus => .ok (.operand (pending.awaitTerm e .sub) outer)
  | .eq => .ok (.operand (pending.awaitComparand e .eq) outer)
  | .lt => .ok (.operand (pending.awaitComparand e .lt) outer)
  | .le => .ok (.operand (pending.awaitComparand e .le) outer)
  | t => if t.startsAtom then readAtom l (some e) pending outer else close l (pending.join e) outer

def State.step (s : State) (l : Lexeme) : Step :=
  match s with
  | .expr outer => readExpr l outer
  | .opened callee pending outer =>
      if l.token = .rparen then .ok (.value (applied callee .unit) pending outer)
      else readExpr l (.group callee pending :: outer)
  | .operand pending outer => readAtom l none pending outer
  | .value e pending outer => readAfter l e pending outer
  | .letWord outer =>
      match l.token with
      | .recKw => .ok (.letRecWords outer)
      | .ident x => .ok (.letParams x [] outer)
      | _ => unexpected l .letWord
  | .letRecWords outer =>
      match l.token with
      | .ident f => .ok (.recParams f [] outer)
      | _ => unexpected l .letRecWords
  | .letParams x params outer =>
      match l.token with
      | .ident y => .ok (.letParams x (y :: params) outer)
      | .eq => .ok (.expr (.letValue x params.reverse :: outer))
      | _ => expected l .eq .letBinding
  | .recParams f params outer =>
      match l.token with
      | .ident y => .ok (.recParams f (y :: params) outer)
      | t =>
          match params.reverse with
          | [] => unexpected l .letRecWords
          | x :: more =>
              if t = .eq then .ok (.expr (.recBody f x more :: outer))
              else expected l .eq .letRecBinding
  | .funWord outer =>
      match l.token with
      | .ident x => .ok (.funParam x outer)
      | _ => unexpected l .funWord
  | .funParam x outer =>
      if l.token = .arrow then .ok (.expr (.funBody x :: outer))
      else expected l .arrow .funParameter
  | .done _ => unexpected l .expression

/-- Reads one expression that spans all the lexemes. The last of them is the end of the source, at
which every state either is done or is at fault. -/
def readAll (lexemes : List Lexeme) : Except FaultAt Expr := do
  match ← lexemes.foldlM State.step (.expr []) with
  | .done e => return e
  | _ =>
      let stop := (lexemes.getLast?.map Lexeme.stop).getD 0
      throw ⟨stop, .unexpectedToken .eof .expression⟩

end Parser

/-- The expression written in a source text. -/
def Expr.parse (source : String) : Except ParseError Expr :=
  (Lexeme.tokenize source >>= Parser.readAll).mapError (FaultAt.locate source)

end MlWasm
