import YinFrontEnd.Interner

/-!
# Special forms

A parenthesized group whose first element is one of seven reserved words is not
a call. The reserved words have the same names in every interner, so a head is
recognized by its name alone.
-/
namespace YinFrontEnd

inductive SpecialForm where
  | sequence
  | conditional
  | definition
  | assignment
  | declaration
  | function
  | record
  deriving DecidableEq, Repr, Inhabited

namespace SpecialForm

def all : List SpecialForm :=
  [sequence, conditional, definition, assignment, declaration, function, record]

/-- The word that heads the form. -/
def keyword : SpecialForm → String
  | sequence => "seq"
  | conditional => "if"
  | definition => "define"
  | assignment => "set!"
  | declaration => "declare"
  | function => "fun"
  | record => "record"

/-- The name that the head word has in every interner. -/
def name : SpecialForm → Name
  | sequence => ⟨1⟩
  | conditional => ⟨2⟩
  | definition => ⟨3⟩
  | assignment => ⟨4⟩
  | declaration => ⟨5⟩
  | function => ⟨6⟩
  | record => ⟨7⟩

/-- The special form that a head name announces. -/
def ofName? (n : Name) : Option SpecialForm := all.find? fun f => f.name == n

theorem ofName?_eq_some_iff (n : Name) (f : SpecialForm) : ofName? n = some f ↔ n = f.name := by
  constructor
  · intro h
    have := List.find?_some h
    exact (beq_iff_eq.mp this).symm
  · rintro rfl
    cases f <;> rfl

theorem find?_keyword (f : SpecialForm) : Interner.new.find? f.keyword = some f.name := by
  cases f <;> decide

end SpecialForm

/-- The name of `->`, which marks the return type in a typed parameter list. -/
def Name.returnArrow : Name := ⟨8⟩

/-- The name of `type`, the key of an attribute that is written by position. -/
def Name.typeKey : Name := ⟨9⟩

end YinFrontEnd
