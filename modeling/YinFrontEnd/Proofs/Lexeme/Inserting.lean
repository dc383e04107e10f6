import YinFrontEnd.Proofs.Lexeme.Appending

/-!
# Blanks between lexemes

Where one lexeme ends and the next is no member, blanks and comments may be put between the two,
as long as the first thing put there is a blank: without it a name would go on. The same tokens are
found at other places. At the end of a text a comment may be left open, and takes in what follows
on its line.
-/
namespace YinFrontEnd

namespace Text

variable {cs ds : List Char}

lemma Trivia.append (h : Trivia cs) (hd : Trivia ds) : Trivia (cs ++ ds) := by
  induction h with
  | nil => exact hd
  | blank hc _ ih => exact .blank hc ih
  | comment hl _ ih =>
    rw [List.cons_append, List.cons_append, List.append_assoc, List.cons_append]
    exact .comment hl ih

/-- A text is cut at its first line break in one way. -/
lemma tail_eq_of_newline {line line' : List Char} (hl : '\n' ∉ line) (hl' : '\n' ∉ line')
    (h : line ++ '\n' :: cs = line' ++ '\n' :: ds) : cs = ds := by
  have plain {l : List Char} (hl : '\n' ∉ l) : ∀ c ∈ l, (c != '\n') = true := fun c hc =>
    bne_iff_ne.mpr (ne_of_mem_of_not_mem hc hl)
  have hcs := dropWhile_append (plain hl) (show ∀ c ∈ ('\n' :: cs).head?, _ by simp)
  have hds := dropWhile_append (plain hl') (show ∀ c ∈ ('\n' :: ds).head?, _ by simp)
  rw [h, hds] at hcs
  exact (List.cons.inj hcs).2.symm

/-- What stands behind the first line is trivia. -/
lemma Trivia.of_newline {line : List Char} (h : Trivia (line ++ '\n' :: ds)) (hl : '\n' ∉ line) :
    Trivia ds := by
  generalize hwhole : line ++ '\n' :: ds = whole at h
  induction h generalizing line with
  | nil => exact absurd hwhole (by simp)
  | @blank c cs _ hcs ih =>
    cases line with
    | nil =>
      obtain ⟨-, rfl⟩ := List.cons.inj hwhole
      exact hcs
    | cons d line =>
      obtain ⟨-, htail⟩ := List.cons.inj hwhole
      exact ih (fun hmem => hl (List.mem_cons_of_mem _ hmem)) htail
  | @comment inner cs hinner hcs _ =>
    have hcut : ('-' :: '-' :: inner) ++ '\n' :: cs = line ++ '\n' :: ds := by
      simpa using hwhole.symm
    have hnot : '\n' ∉ '-' :: '-' :: inner := by simpa using hinner
    rwa [← tail_eq_of_newline hnot hl hcut]

/-- A comment at the end of a text takes in what follows on its line. -/
lemma Trivia.append_open (h : Trivia (cs ++ ['\n'])) (hd : Trivia ds) :
    Trivia (cs ++ ds ++ ['\n']) := by
  have hbreak : Trivia (ds ++ ['\n']) := hd.append (.blank (by decide) .nil)
  generalize hwhole : cs ++ ['\n'] = whole at h
  induction h generalizing cs with
  | nil => exact absurd hwhole (by simp)
  | @blank c rest hc _ ih =>
    cases cs with
    | nil => simpa using hbreak
    | cons d cs =>
      obtain ⟨rfl, htail⟩ := List.cons.inj hwhole
      exact .blank hc (ih htail)
  | @comment line rest hl _ ih =>
    obtain rfl | ⟨front, last, rfl⟩ := rest.eq_nil_or_concat
    · obtain ⟨rfl, -⟩ : cs = '-' :: '-' :: line ∧ _ := List.append_inj' (by simpa using hwhole) rfl
      obtain ⟨more, after, hsplit, hmore⟩ :=
        List.eq_append_cons_of_mem (show '\n' ∈ ds ++ ['\n'] by simp)
      rw [hsplit] at hbreak
      have hline : '\n' ∉ line ++ more := by simp [hl, hmore]
      have hcomment := Trivia.comment hline (hbreak.of_newline hmore)
      rw [List.append_assoc, hsplit]
      simpa using hcomment
    · obtain ⟨rfl, hlast⟩ : cs = '-' :: '-' :: (line ++ '\n' :: front) ∧ ['\n'] = [last] :=
        List.append_inj' (by simpa using hwhole) rfl
      obtain rfl := List.singleton_inj.mp hlast
      simpa using Trivia.comment hl (ih List.concat_eq_append.symm)

/-- Two beginnings of a text that have the same number of bytes are one. -/
lemma eq_of_byteLength {cs' ds' : List Char} (h : cs ++ ds = cs' ++ ds')
    (hlength : byteLength cs = byteLength cs') : cs = cs' ∧ ds = ds' := by
  have hcs := takeBytes_byteLength cs ds
  have hds := dropBytes_byteLength cs ds
  rw [h, hlength, takeBytes_byteLength] at hcs
  rw [h, hlength, dropBytes_byteLength] at hds
  exact ⟨hcs.symm, hds.symm⟩

end Text

namespace Cursor

/-- Nothing is left behind trivia, even if the last line is not ended. -/
lemma skipTrivia_open {cs : List Char} (h : Text.Trivia (cs ++ ['\n'])) (m : Mark) :
    (skipTrivia ⟨m, cs⟩).rest = [] := by
  generalize hwhole : cs ++ ['\n'] = whole at h
  induction h generalizing cs m with
  | nil => exact absurd hwhole (by simp)
  | @blank c rest hc _ ih =>
    cases cs with
    | nil => rw [skipTrivia_nil]
    | cons d cs =>
      obtain ⟨rfl, htail⟩ := List.cons.inj hwhole
      rw [skipTrivia_cons hc]
      exact ih _ htail
  | @comment line rest hl _ ih =>
    obtain rfl | ⟨front, last, rfl⟩ := rest.eq_nil_or_concat
    · obtain ⟨rfl, -⟩ : cs = '-' :: '-' :: line ∧ _ := List.append_inj' (by simpa using hwhole) rfl
      have hp : ∀ c ∈ line, (!(c == '\n')) = true := by
        intro c hc
        have hne : c ≠ '\n' := ne_of_mem_of_not_mem hc hl
        simp [hne]
      have hdrop := Text.dropWhile_append hp (show ∀ c ∈ [].head?, _ by simp)
      rw [List.append_nil] at hdrop
      rw [skipTrivia_comment, skipComment_eq, skipWhile, hdrop, skipTrivia_nil]
    · obtain ⟨rfl, hlast⟩ : cs = '-' :: '-' :: (line ++ '\n' :: front) ∧ ['\n'] = [last] :=
        List.append_inj' (by simpa using hwhole) rfl
      have hfirst := skipTrivia_append (Text.Trivia.comment hl .nil) m front
      have hsplit : '-' :: '-' :: (line ++ '\n' :: front) =
          '-' :: '-' :: (line ++ ['\n']) ++ front := by simp
      rw [hsplit, hfirst]
      exact ih _ (by rw [hlast, List.concat_eq_append])

end Cursor

namespace Scan

variable {file : Nat} {attached : Bool} {m : Mark} {cs text before after gap : List Char}
  {l : Lexeme} {ls ks : List Lexeme}

/-- Nothing is found in trivia, even if its last line is not ended. -/
lemma run_open (file : Nat) (h : Text.Trivia (cs ++ ['\n'])) (attached : Bool) (m : Mark) :
    ∃ n, run file attached ⟨m, cs⟩ = ⟨[], .ok n⟩ := by
  have hhead : (cs.head? == some '.') = false := by
    cases cs with
    | nil => rfl
    | cons c cs =>
      have hc : c ≠ '.' := by
        rintro rfl
        cases h with
        | blank hc _ => exact absurd hc (by decide)
      simpa using hc
  refine ⟨(Cursor.skipTrivia ⟨m, cs⟩).mark, ?_⟩
  rw [run_eq, Scanned.next]
  simp [hhead, Cursor.skipTrivia_open h]

/-- Behind the lexemes of a text that is scanned to its end there is nothing but trivia. -/
lemma exists_open (he : (ofText file text).ending = .ok m) : ∃ inside rest,
    text = inside ++ rest ∧ Lexeme.Layout false [] inside rest (ofText file text).lexemes ∧
      Text.Trivia (rest ++ ['\n']) := by
  obtain ⟨inside, rest, htext, hlayout, hstop⟩ :=
    run_stops file false (Cursor.after_start text)
  rw [show (run file false (Cursor.start text)).ending = .ok m from he] at hstop
  have hnone := (Scanned.skipTrivia_of_next (next_of_run_ok hstop)).1
  exact ⟨inside, rest, htext.symm, hlayout, Cursor.trivia_of_skipTrivia_eq_nil hnone⟩

/-- Trivia that begins with a blank may be put in front of a lexeme that is no member. -/
theorem insert_before (he : (ofText file (before ++ after)).ending = .ok m)
    (hl : (ofText file (before ++ after)).lexemes = ls ++ l :: ks)
    (hm : l.token.isMember = false) (hs : l.start.offset = Text.byteLength before)
    (hg : Text.Trivia gap) (hne : gap ≠ []) (hb : Token.Ends gap) :
    ∃ js n, ofText file (before ++ gap ++ after) = ⟨js, .ok n⟩ ∧
      js.map Lexeme.token = (ls ++ l :: ks).map Lexeme.token := by
  obtain ⟨inside, rest, htext, hlayout, hopen⟩ := exists_open he
  rw [hl] at hlayout
  obtain ⟨first, second, _, rfl, hfirst, hsecond⟩ := hlayout.append_inv
  obtain ⟨skipped, tail, rfl, hskipped, hstart, hrest⟩ := hsecond.from_first
  have hlength : Text.byteLength before = Text.byteLength (first ++ skipped) := by
    rw [← hs, hstart, List.nil_append, Mark.origin_after]
  obtain ⟨rfl, rfl⟩ := Text.eq_of_byteLength
    (show _ = first ++ skipped ++ (tail ++ rest) by simpa using htext) hlength
  -- What stood in front of the lexeme and what is put there are one gap.
  have hends : Token.Ends (gap ++ (tail ++ rest)) := by
    intro c hc
    obtain ⟨d, gap, rfl⟩ := List.exists_cons_of_ne_nil hne
    exact hb c hc
  rw [List.append_assoc] at hfirst
  obtain ⟨is, his, -, hrun⟩ := run_layout file skipped hfirst hends Mark.origin
  have htrivia : Text.Trivia (skipped ++ gap) := hskipped.append hg
  have hlast := hrest false (by simp [hm])
  rw [← List.append_nil rest] at hlast
  obtain ⟨js, hjs, -, hrun'⟩ := run_layout file rest hlast Token.ends_nil
    ((Mark.origin.after first).after (skipped ++ gap))
  rw [List.append_nil] at hrun'
  obtain ⟨n, hend⟩ := run_open file hopen (attachedAfter false (l :: ks))
    (((Mark.origin.after first).after (skipped ++ gap)).after tail)
  rw [hend, List.append_nil] at hrun'
  rw [← List.append_assoc skipped, run_trivia htrivia (by simp [hne]), hrun'] at hrun
  refine ⟨is ++ js, n, ?_, by rw [List.map_append, List.map_append, his, hjs]⟩
  rw [show first ++ skipped ++ gap ++ (tail ++ rest) =
    first ++ (skipped ++ gap ++ (tail ++ rest)) by simp]
  exact hrun

/-- Trivia that begins with a blank may be put at the end. -/
theorem insert_end (he : (ofText file text).ending = .ok m) (hg : Text.Trivia gap)
    (hb : Token.Ends gap) :
    ∃ n, ofText file (text ++ gap) = ⟨(ofText file text).lexemes, .ok n⟩ := by
  obtain ⟨inside, rest, flag, hrest, hstop, hrun⟩ :=
    run_before file false (Cursor.after_start text)
  have hwhole := hrun rest [] gap (List.append_nil rest).symm hb
  rw [show (run file false (Cursor.start text)).ending = .ok m from he] at hstop
  have hnone := (Scanned.skipTrivia_of_next (next_of_run_ok hstop)).1
  have hopen := (Cursor.trivia_of_skipTrivia_eq_nil hnone).append_open hg
  obtain ⟨n, hend⟩ := run_open file hopen flag ((Cursor.start text).mark.after inside)
  rw [hend, List.append_nil, ← List.append_assoc, ← hrest] at hwhole
  exact ⟨n, hwhole⟩

end Scan

end YinFrontEnd
