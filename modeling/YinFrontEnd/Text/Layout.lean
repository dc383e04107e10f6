/-!
# Layout of written trees

The pieces of a group stand between brackets with one blank between neighbours, and
the operands of a form each follow a blank.
-/
namespace YinFrontEnd.Text

/-- Each piece after a blank. -/
def spaced (pieces : List (List Char)) : List Char := pieces.flatMap (' ' :: ·)

/-- The pieces with one separator between neighbours. -/
def separated (separator : Char) : List (List Char) → List Char
  | [] => []
  | piece :: pieces => piece ++ pieces.flatMap (separator :: ·)

/-- The pieces with one blank between neighbours, in brackets. -/
def bracketed (opening closing : Char) (pieces : List (List Char)) : List Char :=
  opening :: separated ' ' pieces ++ [closing]

end YinFrontEnd.Text
