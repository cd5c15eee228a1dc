/-!
Tokens of the language and the spelling of each.
-/

namespace MlWasm

inductive Token where
  | letKw
  | recKw
  | inKw
  | funKw
  | ifKw
  | thenKw
  | elseKw
  | trueKw
  | falseKw
  | le
  | arrow
  | lparen
  | rparen
  | plus
  | minus
  | star
  | eq
  | lt
  | comma
  | ident (name : String)
  | int (digits : String)
  /-- End of the source. -/
  | eof
  deriving DecidableEq, Repr, Inhabited

namespace Token

def text : Token → String
  | letKw => "let"
  | recKw => "rec"
  | inKw => "in"
  | funKw => "fun"
  | ifKw => "if"
  | thenKw => "then"
  | elseKw => "else"
  | trueKw => "true"
  | falseKw => "false"
  | le => "<="
  | arrow => "->"
  | lparen => "("
  | rparen => ")"
  | plus => "+"
  | minus => "-"
  | star => "*"
  | eq => "="
  | lt => "<"
  | comma => ","
  | ident name => name
  | int digits => digits
  | eof => ""

def keywords : List Token :=
  [letKw, recKw, inKw, funKw, ifKw, thenKw, elseKw, trueKw, falseKw]

/-- A word is a keyword if it is spelled like one, and an identifier otherwise. -/
def ofWord (word : String) : Token :=
  (keywords.find? (·.text == word)).getD (ident word)

/-- Whether an atom, and so a function argument, can begin with the token. -/
def startsAtom : Token → Bool
  | int _ | trueKw | falseKw | ident _ | lparen => true
  | _ => false

/-- Value of a run of decimal digits. -/
def value (digits : String) : Nat :=
  digits.toList.foldl (fun n c => 10 * n + (c.toNat - '0'.toNat)) 0

/-- How a report names the token. An integer is named by its value, or by its digits if that needs
more than 63 bits. -/
def description : Token → String
  | eof => "<eof>"
  | int digits => if value digits < 0x8000000000000000 then toString (value digits) else digits
  | t => t.text

end Token

end MlWasm
