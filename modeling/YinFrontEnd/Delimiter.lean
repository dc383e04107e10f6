/-!
# Brackets

Three kinds of brackets group the elements of a form.
-/
namespace YinFrontEnd

inductive Delimiter where
  | paren
  | square
  | curly
  deriving DecidableEq, Repr, Inhabited

namespace Delimiter

def opening : Delimiter → Char
  | paren => '('
  | square => '['
  | curly => '\x7b'

def closing : Delimiter → Char
  | paren => ')'
  | square => ']'
  | curly => '\x7d'

/-- The brackets a character opens. -/
def ofOpening? (c : Char) : Option Delimiter :=
  if c = '(' then some paren
  else if c = '[' then some square
  else if c = '\x7b' then some curly
  else none

/-- The brackets a character closes. -/
def ofClosing? (c : Char) : Option Delimiter :=
  if c = ')' then some paren
  else if c = ']' then some square
  else if c = '\x7d' then some curly
  else none

theorem ofOpening?_eq_some_iff (c : Char) (d : Delimiter) :
    ofOpening? c = some d ↔ c = d.opening := by
  cases d <;> grind [ofOpening?, opening]

theorem ofClosing?_eq_some_iff (c : Char) (d : Delimiter) :
    ofClosing? c = some d ↔ c = d.closing := by
  cases d <;> grind [ofClosing?, closing]

end Delimiter

end YinFrontEnd
