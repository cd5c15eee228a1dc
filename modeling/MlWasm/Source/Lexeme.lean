import MlWasm.Source.Error

/-!
Lexemes: tokens with the bytes of the source they cover. A token is as long as it can be, and
between tokens only blanks are skipped.
-/

namespace MlWasm

structure Lexeme where
  token : Token
  /-- Byte offset of the first byte. -/
  start : Nat
  /-- Byte offset just past the last byte. -/
  stop : Nat
  deriving DecidableEq, Repr, Inhabited

namespace Lexeme

def isBlank (c : Char) : Bool := c == ' ' || c == '\t' || c == '\r' || c == '\n'

def startsWord (c : Char) : Bool := c.isAlpha || c == '_'

def continuesWord (c : Char) : Bool := c.isAlphanum || c == '_'

/-- The longest token at the front of the characters. -/
def first? : List Char → Option Token
  | '<' :: '=' :: _ => some .le
  | '-' :: '>' :: _ => some .arrow
  | '(' :: _ => some .lparen
  | ')' :: _ => some .rparen
  | '+' :: _ => some .plus
  | '-' :: _ => some .minus
  | '*' :: _ => some .star
  | '=' :: _ => some .eq
  | '<' :: _ => some .lt
  | ',' :: _ => some .comma
  | c :: cs =>
      if startsWord c then some (.ofWord (String.ofList (c :: cs.takeWhile continuesWord)))
      else if c.isDigit then some (.int (String.ofList (c :: cs.takeWhile Char.isDigit)))
      else none
  | [] => none

/-- Lexemes of the characters that begin at byte `offset`, of which the first `skip` belong to a
token already read. -/
def scan (skip offset : Nat) : List Char → Except FaultAt (List Lexeme)
  | [] => .ok [⟨.eof, offset, offset⟩]
  | c :: cs =>
      match skip with
      | k + 1 => scan k (offset + c.utf8Size) cs
      | 0 =>
          if isBlank c then scan 0 (offset + c.utf8Size) cs
          else match first? (c :: cs) with
            | none => .error ⟨offset, .unexpectedChar c⟩
            | some token => do
                let rest ← scan (token.text.length - 1) (offset + c.utf8Size) cs
                return ⟨token, offset, offset + token.text.utf8ByteSize⟩ :: rest

/-- The lexemes of a source; the last one is the end of the source. -/
def tokenize (source : String) : Except FaultAt (List Lexeme) :=
  scan 0 0 source.toList

end Lexeme

end MlWasm
