import Mathlib.Data.List.DropRight
import YinFrontEnd.Proofs.Source.Position

/-!
# Lines

A text is cut into lines at its line breaks. The line in which a place stands has the number that
counting line breaks gives, and begins where the last line of what stands before the place does.
-/
namespace YinFrontEnd

namespace Text

/-- The lines of a text, between its line breaks. -/
def lines (text : List Char) : List (List Char) := text.splitOn '\n'

/-- The line of a text with a number, counted from one, without the carriage returns at its end. -/
def line? (text : List Char) (n : Nat) : Option (List Char) :=
  (lines text)[n - 1]?.map (List.rdropWhile (· == '\r'))

/-- The offset at which the line with a number begins. -/
def lineStart (text : List Char) (n : Nat) : Nat :=
  byteLength (((lines text).take (n - 1)).flatMap fun line => line ++ ['\n'])

/-- The offsets of the characters of a text that begins at `start`. -/
def offsets (start : Nat) : List Char → List Nat
  | [] => []
  | c :: cs => start :: offsets (start + c.utf8Size) cs

variable {text before after : List Char}

lemma length_lines (text : List Char) : (lines text).length = text.count '\n' + 1 := by
  induction text with
  | nil => rfl
  | cons c cs ih =>
    rw [lines, List.splitOn_cons_eq_if_modifyHead]
    by_cases hc : c = '\n'
    · subst hc
      rw [if_pos (by simp), List.length_cons, List.count_cons_self]
      exact congrArg (· + 1) ih
    · rw [if_neg (by simpa using hc), List.length_modifyHead, List.count_cons_of_ne hc]
      exact ih

lemma head?_lines (text : List Char) : (lines text).head? = some (text.takeWhile (· != '\n')) := by
  have happend : text.takeWhile (· != '\n') ++ text.dropWhile (· != '\n') = text :=
    List.takeWhile_append_dropWhile
  have hnot : '\n' ∉ text.takeWhile (· != '\n') := fun hmem => by
    simpa using List.mem_takeWhile_imp hmem
  cases hrest : text.dropWhile (· != '\n') with
  | nil =>
    rw [hrest, List.append_nil] at happend
    rw [happend] at hnot ⊢
    rw [lines, List.splitOn_eq_singleton hnot]
    rfl
  | cons c rest =>
    have hc := List.head?_dropWhile_not (· != '\n') text
    rw [hrest] at hc happend
    obtain rfl : c = '\n' := by simpa using hc
    conv_lhs => rw [← happend]
    rw [lines, List.splitOn_append_cons_self_of_not_mem hnot]
    rfl

/-- A text is its last line, or that line behind a line break. -/
lemma eq_lastLine_or (before : List Char) : before = Mark.lastLine before ∨
    ∃ above, before = above ++ '\n' :: Mark.lastLine before := by
  have happend : before.reverse.takeWhile (· != '\n') ++ before.reverse.dropWhile (· != '\n') =
      before.reverse := List.takeWhile_append_dropWhile
  cases hrest : before.reverse.dropWhile (· != '\n') with
  | nil =>
    rw [hrest, List.append_nil] at happend
    exact .inl (by rw [Mark.lastLine, happend, List.reverse_reverse])
  | cons c rest =>
    have hc := List.head?_dropWhile_not (· != '\n') before.reverse
    rw [hrest] at hc happend
    obtain rfl : c = '\n' := by simpa using hc
    refine .inr ⟨rest.reverse, ?_⟩
    rw [← List.reverse_inj, Mark.lastLine]
    conv_lhs => rw [← happend]
    simp

lemma notMem_lastLine (before : List Char) : '\n' ∉ Mark.lastLine before := by
  intro hmem
  rw [Mark.lastLine, List.mem_reverse] at hmem
  simpa using List.mem_takeWhile_imp hmem

/-- The lines up to a line break, each with its own break behind it, are the text up to there. -/
lemma flatMap_lines (above : List Char) :
    (lines above).flatMap (fun line => line ++ ['\n']) = above ++ ['\n'] := by
  have hlines {ls : List (List Char)} (h : ls ≠ []) :
      ls.flatMap (fun line => line ++ ['\n']) = ['\n'].intercalate ls ++ ['\n'] := by
    induction ls with
    | nil => exact absurd rfl h
    | cons l ls ih =>
      cases ls with
      | nil => simp
      | cons k ls =>
        rw [List.flatMap_cons, ih (by simp)]
        simp [List.intercalate, List.intersperse]
  rw [lines, hlines (List.splitOn_ne_nil '\n' above), List.intercalate_splitOn]

/-- The lines above a place are the text up to the beginning of its own line. -/
lemma exists_above (before after : List Char) : ∃ above,
    lines (before ++ after) = above ++ lines (Mark.lastLine before ++ after) ∧
      above.length = before.count '\n' ∧
      (above.flatMap fun line => line ++ ['\n']) ++ Mark.lastLine before = before := by
  have hnone : (Mark.lastLine before).count '\n' = 0 :=
    List.count_eq_zero.mpr (notMem_lastLine before)
  obtain hall | ⟨above, habove⟩ := eq_lastLine_or before
  · refine ⟨[], ?_, ?_, hall.symm⟩
    · rw [← hall, List.nil_append]
    · rw [hall, hnone, List.length_nil]
  · refine ⟨lines above, ?_, ?_, ?_⟩
    · conv_lhs => rw [habove]
      rw [List.append_assoc, List.cons_append, lines, List.splitOn_append_cons_self]
      rfl
    · conv_rhs => rw [habove]
      rw [List.count_append, List.count_cons_self, hnone, length_lines]
    · conv_rhs => rw [habove]
      rw [flatMap_lines, List.append_assoc]
      rfl

/-- The line in which a place stands is what stands in front of the place since the last line
break and what follows up to the next one. -/
theorem lines_at (before after : List Char) : (lines (before ++ after))[before.count '\n']? =
    some (Mark.lastLine before ++ after.takeWhile (· != '\n')) := by
  obtain ⟨above, hlines, hlength, -⟩ := exists_above before after
  have hline : (Mark.lastLine before ++ after).takeWhile (· != '\n') =
      Mark.lastLine before ++ after.takeWhile (· != '\n') := by
    refine List.takeWhile_append_of_pos fun c hc => ?_
    simpa using ne_of_mem_of_not_mem hc (notMem_lastLine before)
  rw [hlines, ← hlength, List.getElem?_append_right (le_refl _), Nat.sub_self,
    ← List.head?_eq_getElem?, head?_lines, hline]

/-- Where the line of a place begins. -/
theorem lineStart_add (before after : List Char) :
    lineStart (before ++ after) (1 + before.count '\n') + byteLength (Mark.lastLine before) =
      byteLength before := by
  obtain ⟨above, hlines, hlength, hbefore⟩ := exists_above before after
  rw [lineStart, Nat.add_sub_cancel_left, hlines, ← hlength, List.take_left,
    ← byteLength_append, hbefore]

section Offsets

lemma offsets_append (start : Nat) (cs ds : List Char) :
    offsets start (cs ++ ds) = offsets start cs ++ offsets (start + byteLength cs) ds := by
  induction cs generalizing start with
  | nil => rfl
  | cons c cs ih => rw [List.cons_append, offsets, ih, offsets, byteLength, Nat.add_assoc]; rfl

lemma mem_offsets {start o : Nat} {cs : List Char} (h : o ∈ offsets start cs) :
    start ≤ o ∧ o < start + byteLength cs := by
  induction cs generalizing start with
  | nil => exact absurd h (by simp [offsets])
  | cons c cs ih =>
    have hc := c.utf8Size_pos
    rw [byteLength]
    obtain rfl | h := List.mem_cons.mp h
    · omega
    · have := ih h
      omega

end Offsets

end Text

end YinFrontEnd
