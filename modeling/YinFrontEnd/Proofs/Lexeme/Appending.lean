import YinFrontEnd.Proofs.Lexeme.Cutting

/-!
# Scanning one text after another

A text of which the whole is scanned is scanned alike in front of a line break and more text: its
last lexeme does not go on, a comment at its end goes no further than its line, and no member
comes first after the break. What follows is then scanned from there.
-/
namespace YinFrontEnd

namespace Cursor

/-- Where nothing is left to pass over but trivia, a line break at the end makes it whole. -/
lemma trivia_of_skipTrivia_eq_nil {c : Cursor} (h : c.skipTrivia.rest = []) :
    Text.Trivia (c.rest ++ ['\n']) := by
  have blanks (c : Cursor) : ∀ d ∈ c.rest.takeWhile Text.isBlank, Text.isBlank d = true :=
    fun d hd => List.all_eq_true.mp List.all_takeWhile d hd
  have hbreak : Text.Trivia ['\n'] := .blank (by decide) .nil
  fun_induction skipTrivia c with
  | case1 c rest hr ih =>
    obtain ⟨line, hline, -, hnew, hhead⟩ := skipComment_spec hr
    have hsplit : c.rest = c.rest.takeWhile Text.isBlank ++ '-' :: '-' :: rest := by
      rw [← hr]
      exact List.takeWhile_append_dropWhile.symm
    have htail := ih h
    rw [hsplit, hline, List.append_assoc]
    refine Text.trivia_append (blanks c) ?_
    cases ht : c.skipBlanks.skipComment.rest with
    | nil => simpa using Text.Trivia.comment hnew .nil
    | cons ch tail =>
      obtain rfl : ch = '\n' := hhead ch (by rw [ht]; rfl)
      rw [ht] at htail
      simpa using Text.Trivia.comment hnew (htail.of_blank (by decide))
  | case2 c hc =>
    have hsplit : c.rest.takeWhile Text.isBlank ++ c.skipBlanks.rest = c.rest :=
      List.takeWhile_append_dropWhile
    rw [h, List.append_nil] at hsplit
    rw [← hsplit]
    exact Text.trivia_append (blanks c) hbreak

end Cursor

namespace Scanned

variable {file : Nat} {attached : Bool} {c : Cursor} {m : Mark}

lemma dispatch_ne_finish (file : Nat) (c : Cursor) (ch : Char) (m : Mark) :
    dispatch file c ch ≠ finish m := by
  simp only [dispatch, string, keyword, numeral, name, accept, refuse]
  repeat' split
  all_goals exact fun h => absurd h (by simp)

/-- The end of a text is found only behind trivia. -/
lemma skipTrivia_of_next (h : next file attached c = finish m) :
    c.skipTrivia.rest = [] ∧ c.skipTrivia.mark = m := by
  unfold next at h
  split at h
  · rw [member] at h
    split at h <;> exact absurd h (by simp [refuse, accept])
  · split at h
    · rename_i hr
      exact ⟨hr, by simpa using h⟩
    · exact absurd h (dispatch_ne_finish _ _ _ _)

end Scanned

namespace Scan

variable {file : Nat} {attached : Bool} {c : Cursor} {m : Mark} {gap text before : List Char}

/-- Where no lexeme is found, the end of the text is, or a mistake. -/
lemma next_of_run {ending : Except ReadError Mark} (h : run file attached c = ⟨[], ending⟩) :
    (∃ m, ending = .ok m ∧ Scanned.next file attached c = .finish m) ∨
      ∃ e, ending = .error e ∧ Scanned.next file attached c = .fault e := by
  rw [run_eq] at h
  cases hn : Scanned.next file attached c with
  | finish m =>
    rw [hn] at h
    exact .inl ⟨m, (congrArg Scan.ending h).symm, rfl⟩
  | fault e =>
    rw [hn] at h
    exact .inr ⟨e, (congrArg Scan.ending h).symm, rfl⟩
  | lexeme l d =>
    rw [hn] at h
    exact absurd (congrArg Scan.lexemes h) (by simp)

lemma next_of_run_ok (h : run file attached c = ⟨[], .ok m⟩) :
    Scanned.next file attached c = .finish m := by
  obtain ⟨n, hm, hn⟩ | ⟨e, he, -⟩ := next_of_run h
  · rw [hn, Except.ok.inj hm]
  · exact absurd he (by simp)

lemma next_of_run_error {e : ReadError} (h : run file attached c = ⟨[], .error e⟩) :
    Scanned.next file attached c = .fault e := by
  obtain ⟨n, hm, -⟩ | ⟨f, hf, hn⟩ := next_of_run h
  · exact absurd hm (by simp)
  · rw [hn, Except.error.inj hf]

lemma ends_newline (more : List Char) : Token.Ends ('\n' :: more) :=
  Token.ends_blank (by decide) more

/-- The end of a text is found behind a line break if more text follows. -/
lemma next_newline (h : Scanned.next file attached c = .finish m)
    (more : List Char) : Scanned.next file attached ⟨c.mark, c.rest ++ '\n' :: more⟩ =
      Scanned.next file false ⟨m.step '\n', more⟩ := by
  obtain ⟨hr, rfl⟩ := Scanned.skipTrivia_of_next h
  obtain ⟨gap, hgap, hmark, -, -⟩ := c.skipTrivia_spec
  rw [hr, List.append_nil] at hgap
  have htrivia := Cursor.trivia_of_skipTrivia_eq_nil hr
  rw [hgap] at htrivia ⊢
  rw [show gap ++ '\n' :: more = (gap ++ ['\n']) ++ more by simp, next_trivia htrivia (by simp),
    Mark.after_append, hmark]
  rfl

/-- A text is scanned in front of another with the same lexemes, unless a token goes on into that.
What stands behind the last of them, or as much of it as is left there, is then scanned together
with the other text. -/
theorem run_before (file : Nat) (attached : Bool) (h : c.After text before) :
    ∃ inside rest flag, c.rest = inside ++ rest ∧
      run file flag ⟨c.mark.after inside, rest⟩ = ⟨[], (run file attached c).ending⟩ ∧
      ∀ front back after, rest = front ++ back → Token.Ends after →
        run file attached ⟨c.mark, inside ++ (front ++ after)⟩ =
          ⟨(run file attached c).lexemes ++
              (run file flag ⟨c.mark.after inside, front ++ after⟩).lexemes,
            (run file flag ⟨c.mark.after inside, front ++ after⟩).ending⟩ := by
  obtain ⟨inside, rest, htext, hlayout, hstop⟩ := run_stops file attached h
  have hrest : c.rest = inside ++ rest := by
    rw [List.append_assoc, ← h.text_eq] at htext
    exact (List.append_cancel_left htext).symm
  rw [Mark.after_append, ← h.mark_eq] at hstop
  refine ⟨inside, rest, _, hrest, hstop, fun front back after hback ha => ?_⟩
  rw [hback] at hlayout
  obtain ⟨ks, -, hsame, hrun⟩ := run_layout file front hlayout ha c.mark
  rw [hrun, hsame h.mark_eq]

/-- A text that is scanned to its end is scanned in front of a line break and more text with the
same lexemes, and then the rest is scanned. -/
theorem run_newline (h : c.After text before) (he : (run file attached c).ending = .ok m)
    (more : List Char) : run file attached ⟨c.mark, c.rest ++ '\n' :: more⟩ =
      ⟨(run file attached c).lexemes ++ (run file false ⟨m.step '\n', more⟩).lexemes,
        (run file false ⟨m.step '\n', more⟩).ending⟩ := by
  obtain ⟨inside, rest, flag, hrest, hstop, hrun⟩ := run_before file attached h
  have hwhole := hrun rest [] _ (List.append_nil rest).symm (ends_newline more)
  rw [he] at hstop
  have hnext := next_newline (next_of_run_ok hstop) more
  rw [hrest, List.append_assoc, hwhole, run_eq file flag, hnext, ← run_eq]

end Scan

end YinFrontEnd
