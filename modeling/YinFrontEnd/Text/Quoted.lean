/-!
# Quoted text

Between double quotes, a backslash and a letter stand for a character that
cannot be written as itself or is easily overlooked there.
-/
namespace YinFrontEnd.Text

/-- The letters that may follow a backslash, each with the character it stands for. -/
def escapes : List (Char × Char) :=
  [('n', '\n'), ('t', '\t'), ('r', '\r'), ('\\', '\\'), ('"', '"'), ('0', '\x00')]

/-- The character that a letter after a backslash stands for. -/
def unescape? (letter : Char) : Option Char :=
  (escapes.find? fun e => e.1 == letter).map Prod.snd

/-- The letter that stands for a character after a backslash. -/
def escapeLetter? (c : Char) : Option Char :=
  (escapes.find? fun e => e.2 == c).map Prod.fst

/-- A character as it is written between quotes. -/
def quotedChar (c : Char) : List Char :=
  match escapeLetter? c with
  | some letter => ['\\', letter]
  | none => [c]

/-- A text in quotes. -/
def quote (s : List Char) : List Char := '"' :: s.flatMap quotedChar ++ ['"']

theorem unescape?_escapeLetter? {c letter : Char} (h : escapeLetter? c = some letter) :
    unescape? letter = some c := by
  simp only [escapeLetter?, Option.map_eq_some_iff] at h
  obtain ⟨e, he, rfl⟩ := h
  have hc : e.2 = c := by simpa using List.find?_some he
  have hm : e ∈ escapes := List.mem_of_find?_eq_some he
  subst hc
  simp only [escapes, List.mem_cons, List.not_mem_nil, or_false] at hm
  rcases hm with rfl | rfl | rfl | rfl | rfl | rfl <;> decide

end YinFrontEnd.Text
