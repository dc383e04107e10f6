import YinFrontEnd.Properties

/-!
# Expressions

An expression is a form whose groups have been given their meaning: special forms,
literals, calls and tables of typed fields. Every expression keeps the span of the form
it comes from.
-/
namespace YinFrontEnd

inductive Expr where
  | block (span : Span) (statements : List Expr)
  | conditional (span : Span) (test consequent alternative : Expr)
  | definition (span : Span) (pattern value : Expr)
  | assignment (span : Span) (pattern value : Expr)
  | declaration (span : Span) (fields : Properties Expr)
  | function (span : Span) (params : List Ident) (table : Option (Properties Expr)) (body : Expr)
  | recordType (span : Span) (name : Ident) (parents : Option (List Ident))
      (fields : Properties Expr)
  | recordLiteral (span : Span) (fields : List Expr)
  | vector (span : Span) (elements : List Expr)
  | call (span : Span) (callee : Expr) (arguments : List Expr)
  | member (span : Span) (value : Expr) (name : Ident)
  | ident (span : Span) (name : Name)
  | keyword (span : Span) (name : Name)
  | int (span : Span) (value : Int64)
  | float (span : Span) (bits : UInt64)
  | str (span : Span) (text : Name)
  deriving Inhabited

namespace Expr

def span : Expr → Span
  | block s _ | conditional s _ _ _ | definition s _ _ | assignment s _ _ | declaration s _
  | function s _ _ _ | recordType s _ _ _ | recordLiteral s _ | vector s _ | call s _ _
  | member s _ _ | ident s _ | keyword s _ | int s _ | float s _ | str s _ => s

/-- The name, if the expression is nothing but an identifier. -/
def ident? : Expr → Option Name
  | ident _ n => some n
  | _ => none

/-- The name, if the expression is nothing but a keyword. -/
def keyword? : Expr → Option Name
  | keyword _ n => some n
  | _ => none

/-- The statements of a block; any other expression is its only statement. -/
def statements : Expr → List Expr
  | block _ es => es
  | e => [e]

mutual

def beq : Expr → Expr → Bool
  | block s xs, block t ys => s == t && beqAll xs ys
  | conditional s a b c, conditional t d e f => s == t && beq a d && beq b e && beq c f
  | definition s a b, definition t c d => s == t && beq a c && beq b d
  | assignment s a b, assignment t c d => s == t && beq a c && beq b d
  | declaration s ⟨xs, _⟩, declaration t ⟨ys, _⟩ => s == t && beqFields xs ys
  | function s ps none a, function t qs none b => s == t && ps == qs && beq a b
  | function s ps (some ⟨xs, _⟩) a, function t qs (some ⟨ys, _⟩) b =>
      s == t && ps == qs && beqFields xs ys && beq a b
  | recordType s n ps ⟨xs, _⟩, recordType t m qs ⟨ys, _⟩ =>
      s == t && n == m && ps == qs && beqFields xs ys
  | recordLiteral s xs, recordLiteral t ys => s == t && beqAll xs ys
  | vector s xs, vector t ys => s == t && beqAll xs ys
  | call s a xs, call t b ys => s == t && beq a b && beqAll xs ys
  | member s a m, member t b n => s == t && beq a b && m == n
  | ident s m, ident t n => s == t && m == n
  | keyword s m, keyword t n => s == t && m == n
  | int s v, int t w => s == t && v == w
  | float s v, float t w => s == t && v == w
  | str s m, str t n => s == t && m == n
  | _, _ => false
termination_by structural e => e

def beqAll : List Expr → List Expr → Bool
  | [], [] => true
  | x :: xs, y :: ys => beq x y && beqAll xs ys
  | _, _ => false
termination_by structural e => e

def beqFields : List (Ident × Attributes Expr) → List (Ident × Attributes Expr) → Bool
  | [], [] => true
  | (m, ⟨xs⟩) :: fs, (n, ⟨ys⟩) :: gs => m == n && beqBag xs ys && beqFields fs gs
  | _, _ => false
termination_by structural e => e

def beqBag : List (Name × Expr) → List (Name × Expr) → Bool
  | [], [] => true
  | (m, x) :: xs, (n, y) :: ys => m == n && beq x y && beqBag xs ys
  | _, _ => false
termination_by structural e => e

end

instance : BEq Expr := ⟨beq⟩

end Expr

end YinFrontEnd
