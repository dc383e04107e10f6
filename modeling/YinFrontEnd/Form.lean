import YinFrontEnd.Delimiter
import YinFrontEnd.Name

/-!
# Forms

A form is source text with its brackets matched and its names interned, and without
any meaning given to a group. Everything is a group in brackets, a member of another
form, or an atom. A program is a block of forms.
-/
namespace YinFrontEnd

inductive Form where
  | block (span : Span) (statements : List Form)
  | group (span : Span) (delimiter : Delimiter) (elements : List Form)
  | member (span : Span) (value : Form) (name : Ident)
  | name (span : Span) (name : Name)
  | keyword (span : Span) (name : Name)
  | int (span : Span) (value : Int64)
  | float (span : Span) (bits : UInt64)
  | str (span : Span) (text : Name)
  deriving Repr, Inhabited

namespace Form

def span : Form → Span
  | block s _ | group s _ _ | member s _ _ | name s _ | keyword s _ | int s _ | float s _
  | str s _ => s

/-- The name, if the form is nothing but a name. -/
def name? : Form → Option Name
  | name _ n => some n
  | _ => none

/-- The identifier, if the form is nothing but a name. -/
def ident? : Form → Option Ident
  | name s n => some ⟨n, s⟩
  | _ => none

/-- The brackets and the elements, if the form is a group. -/
def group? : Form → Option (Delimiter × List Form)
  | group _ d elements => some (d, elements)
  | _ => none

/-- True of a group in the given brackets. -/
def isGroupIn (f : Form) (d : Delimiter) : Bool :=
  match f with
  | group _ e _ => e == d
  | _ => false

/-- What the form is, in words. -/
def kind : Form → String
  | block _ _ => "block"
  | group _ .paren _ => "list"
  | group _ .square _ => "vector"
  | group _ .curly _ => "record literal"
  | member _ _ _ => "attribute access"
  | name _ _ => "name"
  | keyword _ _ => "keyword"
  | int _ _ => "integer"
  | float _ _ => "float"
  | str _ _ => "string"

mutual

def beq : Form → Form → Bool
  | block s xs, block t ys => s == t && beqAll xs ys
  | group s d xs, group t e ys => s == t && d == e && beqAll xs ys
  | member s v m, member t w n => s == t && beq v w && m == n
  | name s m, name t n => s == t && m == n
  | keyword s m, keyword t n => s == t && m == n
  | int s v, int t w => s == t && v == w
  | float s v, float t w => s == t && v == w
  | str s m, str t n => s == t && m == n
  | _, _ => false

def beqAll : List Form → List Form → Bool
  | [], [] => true
  | x :: xs, y :: ys => beq x y && beqAll xs ys
  | _, _ => false

end

mutual

theorem beq_iff : ∀ f g : Form, beq f g = true ↔ f = g
  | block s xs, g => by cases g <;> simp [beq, beqAll_iff xs]
  | group s d xs, g => by cases g <;> simp [beq, beqAll_iff xs, and_assoc]
  | member s v m, g => by cases g <;> simp [beq, beq_iff v, and_assoc]
  | name s n, g => by cases g <;> simp [beq]
  | keyword s n, g => by cases g <;> simp [beq]
  | int s v, g => by cases g <;> simp [beq]
  | float s v, g => by cases g <;> simp [beq]
  | str s n, g => by cases g <;> simp [beq]

theorem beqAll_iff : ∀ xs ys : List Form, beqAll xs ys = true ↔ xs = ys
  | [], ys => by cases ys <;> simp [beqAll]
  | x :: xs, ys => by cases ys <;> simp [beqAll, beq_iff x, beqAll_iff xs]

end

instance : DecidableEq Form := fun f g => decidable_of_iff _ (beq_iff f g)

end Form

end YinFrontEnd
