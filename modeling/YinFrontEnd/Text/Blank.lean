/-!
# Blank characters

The characters with the White_Space property: the controls from tab to carriage
return, the next-line control, and the spaces and separators of every width.
-/
namespace YinFrontEnd.Text

/-- The code points of blank characters, as ranges that include both ends. -/
def blankRanges : List (Nat × Nat) :=
  [(0x09, 0x0d), (0x20, 0x20), (0x85, 0x85), (0xa0, 0xa0), (0x1680, 0x1680), (0x2000, 0x200a),
    (0x2028, 0x2029), (0x202f, 0x202f), (0x205f, 0x205f), (0x3000, 0x3000)]

/-- True of a code point that one of the ranges contains. -/
def inRanges (ranges : List (Nat × Nat)) (n : Nat) : Bool :=
  ranges.any fun r => decide (r.1 ≤ n ∧ n ≤ r.2)

/-- True of ranges that are in order and do not touch. -/
def apart : List (Nat × Nat) → Bool
  | r :: s :: rs => decide (r.2 + 1 < s.1) && apart (s :: rs)
  | _ => true

theorem apart_blankRanges : apart blankRanges = true := by decide

def isBlank (c : Char) : Bool := inRanges blankRanges c.toNat

theorem isBlank_of_isWhitespace (c : Char) (h : c.isWhitespace = true) : isBlank c = true := by
  simp only [Char.isWhitespace, Bool.or_eq_true, decide_eq_true_eq] at h
  rcases h with ((h | h) | h) | h <;> subst h <;> decide

end YinFrontEnd.Text
