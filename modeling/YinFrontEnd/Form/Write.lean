import YinFrontEnd.Form
import YinFrontEnd.Interner
import YinFrontEnd.Number.FloatText
import YinFrontEnd.Text.Layout
import YinFrontEnd.Text.Quoted

/-!
# Writing forms

A form is written so that it can be read again. A program has one statement in each
line; a block inside another form, which no text is read as, is written as a sequence.
-/
namespace YinFrontEnd

/-- The characters of a name's text. -/
def Interner.chars (names : Interner) (n : Name) : List Char := (names.text n).toList

namespace Form

mutual

/-- A form as it is written in a line. -/
def chars (names : Interner) : Form → List Char
  | block _ statements => "(seq".toList ++ Text.spaced (charsAll names statements) ++ [')']
  | group _ d elements => Text.bracketed d.opening d.closing (charsAll names elements)
  | member _ value n => chars names value ++ '.' :: names.chars n.name
  | name _ n => names.chars n
  | keyword _ n => ':' :: names.chars n
  | int _ v => Decimal.intText v.toInt
  | float _ bits => FloatText.ofBits bits
  | str _ n => Text.quote (names.chars n)

def charsAll (names : Interner) : List Form → List (List Char)
  | [] => []
  | f :: fs => chars names f :: charsAll names fs

end

theorem charsAll_eq_map (names : Interner) (fs : List Form) :
    charsAll names fs = fs.map (chars names) := by
  induction fs with
  | nil => rfl
  | cons f fs ih => simp [charsAll, ih]

/-- A form as it is written; a block has one statement in each line. -/
def write (names : Interner) : Form → String
  | block _ statements => String.ofList (Text.separated '\n' (charsAll names statements))
  | f => String.ofList (chars names f)

end Form

end YinFrontEnd
