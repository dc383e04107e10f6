import YinFrontEnd.Proofs.Expr.Blame
import YinFrontEnd.Proofs.Form.Ink
import YinFrontEnd.Proofs.Source.Lines
import YinFrontEnd.Report

/-!
# Labels below their lines

A report finds the line of a label by its offset, while the line and the column of the label were
counted when the text was read. The two agree: what is shown is the line with the number that the
label has, and the marks stand below those of its characters that the label covers. This holds for
every text that is not read or not parsed, whatever its line breaks are.
-/
namespace YinFrontEnd.Report

/-- A label with the line of the source that it points into: the line that has its number, as many
blanks as its column demands, tabs where the line has tabs, and a mark for each character of the
line that it covers. -/
structure Snippet (source : Source) (label : Label) where
  line : List Char
  padding : List Char
  marks : Nat
  line_eq : Text.line? source.content.toList label.span.line = some line
  padding_length : padding.length = label.span.column - 1
  padding_eq : padding = (line.take (label.span.column - 1)).map fun c =>
    if c = '\t' then '\t' else ' '
  marks_eq : marks = (Text.offsets (Text.lineStart source.content.toList label.span.line)
    line).countP label.span.contains
  marks_pos : 0 < marks

/-- The four lines in which a label is shown: its place, an empty line, the line of the source
with its number, and the marks with what the label says. -/
def Snippet.text {source : Source} {label : Label} (s : Snippet source label) : String :=
  let number := toString label.span.line
  let blanks := String.ofList (List.replicate number.length ' ')
  let arrow := if label.isPrimary then "-->" else ":::"
  let mark := if label.isPrimary then '^' else '-'
  let message := if label.message = "" then "" else " " ++ label.message
  blanks ++ " " ++ arrow ++ " " ++ source.path ++ ":" ++ label.span.place ++ "\n" ++
    (blanks ++ " |\n") ++
    (number ++ " | " ++ String.ofList s.line ++ "\n") ++
    (blanks ++ " | " ++ String.ofList s.padding ++ String.ofList (List.replicate s.marks mark) ++
      message ++ "\n")

/-- The report on a problem shows each of its labels with a line of the source. -/
def ShowsSource (source : Source) (d : Diagnostic) : Prop :=
  d.labels ≠ [] ∧ ∃ shown : List String,
    List.Forall₂ (fun label text => ∃ s : Snippet source label, text = s.text) d.labels shown ∧
      write false (pieces (some source) d) =
        "error[" ++ d.code.text ++ "]: " ++ d.message ++ "\n" ++ String.join shown ++
          String.join (d.suggestions.map fun advice => "  = help: " ++ advice ++ "\n") ++ "\n"

section Lines

variable {before inside rest : List Char} {c : Char}

/-- The line around an offset is the line with the number that counting gives. -/
lemma lineAt?_eq {source : Source} {before after : List Char}
    (h : source.content.toList = before ++ after) :
    source.lineAt? (Text.byteLength before) =
      Text.line? source.content.toList (1 + before.count '\n') := by
  have hsplit : Text.splitAtByte? (Text.byteLength before) (before ++ after) =
      some (before, after) := by
    rw [Text.splitAtByte?, Text.takeBytes_byteLength, Text.dropBytes_byteLength, if_pos rfl]
  rw [Source.lineAt?, h, hsplit, Text.line?, Nat.add_sub_cancel_left, Text.lines_at]
  rfl

lemma rdropWhile_append_cons {p : Char → Bool} (hc : p c = false) (xs ys : List Char) :
    (xs ++ c :: ys).rdropWhile p = xs ++ c :: ys.rdropWhile p := by
  induction ys using List.reverseRecOn with
  | nil => simp [hc]
  | append_singleton ys y ih =>
    rw [← List.cons_append, ← List.append_assoc, List.rdropWhile_concat, List.rdropWhile_concat]
    split
    · exact ih
    · simp

/-- A line in which something is to be seen keeps it, whatever is taken from its end. -/
lemma exists_tail (hc : Text.isBlank c = false) (before after : List Char) :
    ∃ tail, Text.line? (before ++ c :: after) (1 + before.count '\n') =
      some (Mark.lastLine before ++ c :: tail) := by
  have hbreak : c ≠ '\n' := by
    rintro rfl
    exact absurd hc (by decide)
  have hreturn : (c == '\r') = false := by
    rw [beq_eq_false_iff_ne]
    rintro rfl
    exact absurd hc (by decide)
  rw [Text.line?, Nat.add_sub_cancel_left, Text.lines_at,
    List.takeWhile_cons_of_pos (by simpa using hbreak), Option.map_some,
    rdropWhile_append_cons (p := (· == '\r')) hreturn]
  exact ⟨_, rfl⟩

end Lines

section Marks

lemma charsWithin_zero (cs : List Char) : charsWithin 0 cs = 0 := by
  cases cs <;> rfl

/-- The characters that begin within a number of bytes are those that the span covers. -/
lemma countP_offsets (s : Span) (cs : List Char) {o : Nat} (h : s.start ≤ o) :
    (Text.offsets o cs).countP s.contains = charsWithin (s.stop - o) cs := by
  induction cs generalizing o with
  | nil => rfl
  | cons c cs ih =>
    have htail := ih (Nat.le_add_right_of_le h : s.start ≤ o + c.utf8Size)
    rw [Text.offsets, List.countP_cons, htail, charsWithin]
    by_cases hstop : s.stop - o = 0
    · have hout : s.contains o = false := by simp only [Span.contains]; simp; omega
      rw [if_pos hstop, hout, show s.stop - (o + c.utf8Size) = 0 by omega, charsWithin_zero]
      rfl
    · have hin : s.contains o = true := by simp only [Span.contains]; simp; omega
      rw [if_neg hstop, hin, if_pos rfl, Nat.sub_add_eq, Nat.add_comm]

/-- A label whose place begins with ink has its marks below what it covers of its line. -/
lemma exists_marks {source : Source} {label : Label} {file : Nat}
    (h : label.span.InkIn file source.content.toList) :
    ∃ s : Snippet source label, source.lineAt? label.span.start = some s.line ∧
      padding s.line label.span.column = s.padding ∧ markCount s.line label.span = s.marks := by
  obtain ⟨before, c, inside, rest, htext, hc, hspan⟩ := h
  have hcontent : source.content.toList = before ++ c :: (inside ++ rest) := by
    rw [← htext]
    simp
  have hstart : label.span.start = Text.byteLength before := by rw [hspan]; rfl
  have hnumber : label.span.line = 1 + before.count '\n' := by rw [hspan]; rfl
  have hcolumn : label.span.column - 1 = (Mark.lastLine before).length := by
    rw [hspan]
    exact Nat.add_sub_cancel_left ..
  have hlength : 0 < label.span.length := by
    have hpos := Text.byteLength_pos (List.cons_ne_nil c inside)
    simp only [hspan, Span.length, Span.covering, Text.byteLength_append]
    omega
  obtain ⟨tail, hline⟩ := exists_tail hc before (inside ++ rest)
  rw [← hcontent, ← hnumber] at hline
  have hfound : source.lineAt? label.span.start = some (Mark.lastLine before ++ c :: tail) := by
    rw [hstart, lineAt?_eq hcontent, ← hnumber, hline]
  have hpositive : 0 < charsWithin label.span.length (c :: tail) := by
    rw [charsWithin, if_neg hlength.ne']
    omega
  have hmarks : markCount (Mark.lastLine before ++ c :: tail) label.span =
      charsWithin label.span.length (c :: tail) := by
    rw [markCount, hcolumn, List.drop_left]
    omega
  have hcount : (Text.offsets (Text.lineStart source.content.toList label.span.line)
      (Mark.lastLine before ++ c :: tail)).countP label.span.contains =
        charsWithin label.span.length (c :: tail) := by
    -- What stands in front of the label in its line is not covered.
    have hbegins := Text.lineStart_add before (c :: (inside ++ rest))
    rw [hcontent, hnumber, Text.offsets_append, hbegins, List.countP_append,
      List.countP_eq_zero.mpr, Nat.zero_add, ← hstart, countP_offsets label.span _ (le_refl _)]
    · rfl
    · intro o ho
      have hlt := (Text.mem_offsets ho).2
      simp only [Span.contains, decide_eq_true_eq]
      omega
  rw [← hcount] at hmarks hpositive
  refine ⟨⟨_, _, _, hline, ?_, rfl, rfl, hpositive⟩, hfound, rfl, hmarks⟩
  rw [List.length_map, hcolumn, List.take_left]

end Marks

section Writing

lemma write_nil : write false [] = "" := rfl

/-- Without colours a piece is written as its text. -/
lemma write_cons (p : Piece) (ps : List Piece) :
    write false (p :: ps) = p.text ++ write false ps := by
  rw [write, write, List.map_cons, String.join_cons]
  rfl

lemma write_append (ps qs : List Piece) :
    write false (ps ++ qs) = write false ps ++ write false qs := by
  rw [write, write, write, List.map_append, String.join_append]

lemma write_flatMap {α : Type} (f : α → List Piece) (xs : List α) :
    write false (xs.flatMap f) = String.join (xs.map fun x => write false (f x)) := by
  induction xs with
  | nil => rfl
  | cons x xs ih => rw [List.flatMap_cons, write_append, ih, List.map_cons, String.join_cons]

lemma write_labelMessage (label : Label) : write false (labelMessage label) =
    if label.message = "" then "" else " " ++ label.message := by
  rw [labelMessage]
  split <;> simp [write_cons, write_nil, plain, colored]

/-- Such a label is shown with its line. -/
lemma snippet_of_ink {source : Source} {label : Label} {file : Nat}
    (h : label.span.InkIn file source.content.toList) :
    ∃ s : Snippet source label, write false (labelPieces (some source) label) = s.text := by
  obtain ⟨s, hline, hpadding, hmarks⟩ := exists_marks h
  refine ⟨s, ?_⟩
  rw [labelPieces, Option.bind_some, hline]
  simp only [snippet, hpadding, hmarks, List.cons_append, List.nil_append, write_cons,
    write_append, write_labelMessage, write_nil, Snippet.text, gutter, plain, colored, location,
    arrow]
  rw [← String.toList_inj]
  simp [List.replicate_succ']

/-- A problem whose labels all begin with ink is shown with lines of the source. -/
lemma showsSource_of_ink {source : Source} {d : Diagnostic} {file : Nat} (hne : d.labels ≠ [])
    (h : ∀ label ∈ d.labels, label.span.InkIn file source.content.toList) :
    ShowsSource source d := by
  refine ⟨hne, d.labels.map fun label => write false (labelPieces (some source) label), ?_, ?_⟩
  · rw [List.forall₂_map_right_iff, List.forall₂_same]
    exact fun label hmem => snippet_of_ink (h label hmem)
  · have hadvice (advice : String) :
        write false (suggestionPieces advice) = "  = help: " ++ advice ++ "\n" := by
      rw [← String.toList_inj]
      simp [suggestionPieces, write_cons, write_nil, plain, colored]
    simp only [pieces, write_append, write_flatMap, hadvice, write_cons, write_nil, plain, colored]
    rw [← String.toList_inj]
    simp

end Writing

section Errors

variable {names more : Interner} {file : Nat} {text : String} {e : ParseError}

lemma span_mem_of_label {r : ReadError} :
    ∀ label ∈ r.diagnostic.labels, label.span ∈ r.spans := by
  obtain ⟨fault, span⟩ := r
  cases fault <;> simp [ReadError.diagnostic, ReadError.spans, ReadFault.secondary?]

/-- An error of parsing comes from the place of a form in the form that was parsed. -/
lemma blamed_of_ofForm (hv : names.Valid) (f : Form) (h : Expr.ofForm names f = .error e) :
    e.readError = none ∧ ∃ n : Form, n.Within f ∧ n.span = e.span := by
  induction f using Form.wellFounded_inside.induction with
  | _ f ih =>
    obtain ⟨g, hg, hge⟩ | ⟨x, n, rfl, hn⟩ := Expr.fails_of_ofForm hv h
    · obtain ⟨hread, n, hin, hspan⟩ := ih g hg hge
      exact ⟨hread, n, hin.trans hg.within, hspan⟩
    · exact ⟨rfl, n, hn.within, rfl⟩

/-- The form to blame is not the whole program. -/
lemma blamed_of_program (hv : names.Valid) {s : Span} {fs : List Form}
    (h : Expr.ofForm names (.block s fs) = .error e) :
    e.readError = none ∧ ∃ n : Form, n.Inside (.block s fs) ∧ n.span = e.span := by
  obtain ⟨g, hg, hge⟩ := Expr.exists_of_ofForms_eq_error (map_eq_error_iff.mp h)
  obtain ⟨hread, n, hn, hspan⟩ := blamed_of_ofForm hv g hge
  exact ⟨hread, n, Relation.TransGen.tail' hn hg, hspan⟩

/-- Where a text is not read or not parsed, the report shows each label below the line of the text
that has its number, with marks below those characters of the line that the label covers. -/
theorem shows_source (hr : names.Reached) (file : Nat) (text path : String) :
    (∀ e, (Form.read file names text).2 = .error e → ShowsSource ⟨path, text⟩ e.diagnostic) ∧
      ∀ e, (Expr.parse file names text).2 = .error e → ShowsSource ⟨path, text⟩ e.diagnostic := by
  have hreading (e : ReadError) (h : (Form.read file names text).2 = .error e) :
      ShowsSource ⟨path, text⟩ e.diagnostic :=
    showsSource_of_ink (by simp [ReadError.diagnostic]) fun label hmem =>
      Form.inkIn_of_error hr.valid h _ (span_mem_of_label label hmem)
  refine ⟨hreading, fun e h => ?_⟩
  rw [Expr.parse] at h
  cases hread : Form.read file names text with
  | mk more r =>
    rw [hread] at h hreading
    cases r with
    | error r =>
      obtain rfl := Except.error.inj h
      exact hreading r rfl
    | ok f =>
      obtain ⟨hvalid, s, fs, rfl, -⟩ := Form.nested_of_read hr.valid hread
      obtain ⟨hnone, n, hin, hspan⟩ := blamed_of_program hvalid h
      have hlabels : e.diagnostic.labels = [⟨e.span, e.context.getD "here", true⟩] := by
        rw [ParseError.diagnostic, hnone]
      have hink : ∀ label ∈ e.diagnostic.labels, label.span.InkIn file text.toList := by
        rw [hlabels, List.forall_mem_singleton, ← hspan]
        exact Form.inkIn_of_inside hr.valid hread hin
      exact showsSource_of_ink (by simp [hlabels]) hink

/-- A bracket that does not match, in a line with a tab before a carriage return, and a form that
is not parsed, in the second line of its text. -/
theorem shows_source_bracket : Interner.new.Reached ∧
    (∃ e, (Form.read 0 Interner.new "(f\t[é\r\n  x)").2 = .error e ∧
      e.diagnostic.labels.length = 2 ∧ ShowsSource ⟨"a.yin", "(f\t[é\r\n  x)"⟩ e.diagnostic) ∧
    ∃ e, (Expr.parse 0 Interner.new "a\n\t(if\nx)").2 = .error e ∧ e.span.line = 2 ∧
      ShowsSource ⟨"b.yin", "a\n\t(if\nx)"⟩ e.diagnostic := by
  have hbracket := (shows_source .new 0 "(f\t[é\r\n  x)" "a.yin").1
  have hform := (shows_source .new 0 "a\n\t(if\nx)" "b.yin").2
  refine ⟨.new, ?_, ?_⟩
  · have hlabels : ((Form.read 0 Interner.new "(f\t[é\r\n  x)").2.mapError
        (·.diagnostic.labels.length)).map (fun _ => ()) = .error 2 := by decide +kernel
    generalize (Form.read 0 Interner.new "(f\t[é\r\n  x)").2 = r at hbracket hlabels ⊢
    cases r with
    | error e => exact ⟨e, rfl, Except.error.inj hlabels, hbracket e rfl⟩
    | ok f => cases hlabels
  · have hline : ((Expr.parse 0 Interner.new "a\n\t(if\nx)").2.mapError (·.span.line)).map
        (fun _ => ()) = .error 2 := by decide +kernel
    generalize (Expr.parse 0 Interner.new "a\n\t(if\nx)").2 = r at hform hline ⊢
    cases r with
    | error e => exact ⟨e, rfl, Except.error.inj hline, hform e rfl⟩
    | ok e => cases hline

-- The first line is shown without its carriage return, and a tab stands below the tab.
example : ((Form.read 0 Interner.new "(f\t[é\r\n  x)").2.mapError fun e =>
    write false (pieces (some ⟨"a.yin", "(f\t[é\r\n  x)"⟩) e.diagnostic)).map (fun _ => ()) =
    .error (String.join ["error[E0006]: mismatched closing delimiter: expected `]`, found `)`\n",
      "  --> a.yin:2:4\n", "  |\n", "2 |   x)\n", "  |    ^ mismatched closer\n",
      "  ::: a.yin:1:4\n", "  |\n", "1 | (f\t[é\n", "  |   \t- `[` opened here\n", "\n"]) := by
  decide +kernel

end Errors

end YinFrontEnd.Report
