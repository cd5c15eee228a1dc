import MlWasm.Source.Position
import MlWasm.Source.Token

/-!
Why a source text is refused, and where.
-/

namespace MlWasm

/-- What stands before a token that cannot follow it. -/
inductive Preceding where
  | atom
  | letWord
  | letRecWords
  | funWord
  | expression
  deriving DecidableEq, Repr, Inhabited

def Preceding.text : Preceding → String
  | atom => "atom"
  | letWord => "let"
  | letRecWords => "let rec"
  | funWord => "fun"
  | expression => "expression"

/-- A construct that requires a certain token at some point. -/
inductive Construct where
  | letBinding
  | letRecBinding
  | ifExpression
  | funParameter
  | grouping
  | tuple
  deriving DecidableEq, Repr, Inhabited

def Construct.text : Construct → String
  | letBinding => "let binding"
  | letRecBinding => "let rec binding"
  | ifExpression => "if expression"
  | funParameter => "fun parameter"
  | grouping => "grouping"
  | tuple => "tuple"

inductive Fault where
  /-- No token begins with the character. -/
  | unexpectedChar (c : Char)
  | integerOutOfRange (digits : String)
  | unexpectedToken (found : Token) (after : Preceding)
  /-- The construct goes on with `wanted` and nothing else. -/
  | expected (wanted : Token) (within : Construct) (found : Token)
  deriving DecidableEq, Repr, Inhabited

namespace Fault

def text : Fault → String
  | unexpectedChar c => s!"unexpected character '{c}'"
  | integerOutOfRange digits => s!"integer literal {digits} does not fit in 32 bits"
  | unexpectedToken found after => s!"{found.description} unexpected after {after.text}"
  | expected wanted within found =>
      s!"expected '{wanted.text}' in {within.text}, found {found.description}"

/-- The part of the source that is at fault. -/
def offender : Fault → String
  | unexpectedChar c => c.toString
  | integerOutOfRange digits => digits
  | unexpectedToken found _ => found.description
  | expected _ _ found => found.description

end Fault

/-- A fault at a byte offset of the source. -/
structure FaultAt where
  offset : Nat
  fault : Fault
  deriving DecidableEq, Repr, Inhabited

structure ParseError where
  position : Position
  fault : Fault
  deriving DecidableEq, Repr, Inhabited

namespace ParseError

def message (e : ParseError) : String :=
  s!"{e.position.line}:{e.position.column}: {e.fault.text}"

end ParseError

def FaultAt.locate (source : String) (f : FaultAt) : ParseError :=
  ⟨.ofOffset source f.offset, f.fault⟩

end MlWasm
