import YinFrontEnd.Number.Numeral
import YinFrontEnd.Delimiter
import YinFrontEnd.Source.Cursor

/-!
# Lexemes

A lexeme is the smallest part of source text that means something, together with
the marks at its two ends: a bracket, a member suffix, or an atom.
-/
namespace YinFrontEnd

inductive Token where
  | opening (d : Delimiter)
  | closing (d : Delimiter)
  | member (text : String)
  | name (text : String)
  | keyword (text : String)
  | numeral (value : Numeral)
  | str (text : String)
  deriving DecidableEq, Repr

structure Lexeme where
  token : Token
  start : Mark
  stop : Mark
  deriving DecidableEq, Repr

namespace Token

/-- The characters that end a name although they are not blank. -/
def separators : List Char := ['(', ')', '[', ']', '\x7b', '\x7d', '"', '.']

/-- The characters of names, keywords and members. -/
def isNameChar (c : Char) : Bool := !Text.isBlank c && !separators.contains c

/-- True of a text that begins like a numeral: with a digit, or with a sign before one. -/
def startsNumeral : List Char → Bool
  | [] => false
  | [c] => c.isDigit
  | c :: d :: _ => c.isDigit || ((c == '+' || c == '-') && d.isDigit)

/-- The characters that continue a numeral: name characters, and points before digits. -/
def numeralTail : List Char → List Char
  | [] => []
  | [c] => if isNameChar c then [c] else []
  | c :: d :: cs =>
      if isNameChar c || (c == '.' && d.isDigit) then c :: numeralTail (d :: cs) else []

/-- True of the lexemes that a member suffix may follow. -/
def takesMember : Token → Bool
  | closing _ | member _ | name _ => true
  | _ => false

end Token

/-- The span between the ends of a lexeme. -/
def Lexeme.span (file : Nat) (l : Lexeme) : Span := l.start.spanTo file l.stop

end YinFrontEnd
