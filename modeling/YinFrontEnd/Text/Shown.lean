import YinFrontEnd.Text.Hidden

/-!
# Characters in messages

A message shows a character as itself if a reader can see it there. Quotes, the
backslash and the common controls are shown by a backslash and a letter, and
other hidden characters by their code point.
-/
namespace YinFrontEnd.Text

/-- The digits of `n` in base sixteen, in capitals. -/
def hexUpper (n : Nat) : String := String.ofList ((Nat.toDigits 16 n).map Char.toUpper)

/-- The digits of `n` in base sixteen, in small letters. -/
def hexLower (n : Nat) : String := String.ofList (Nat.toDigits 16 n)

/-- The letters that show some characters after a backslash. -/
def shownLetters : List (Char × Char) :=
  [('\x00', '0'), ('\t', 't'), ('\r', 'r'), ('\n', 'n'), ('\'', '\''), ('"', '"'), ('\\', '\\')]

def shownChar (c : Char) : String :=
  match shownLetters.find? fun e => e.1 == c with
  | some (_, letter) => String.ofList ['\\', letter]
  | none => if isHidden c then "\\u\x7b" ++ hexLower c.toNat ++ "\x7d" else c.toString

end YinFrontEnd.Text
