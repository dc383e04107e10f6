import Mathlib.Tactic.Common
import YinFrontEnd.Report

/-!
# Colours

A terminal shows the characters of a text, apart from the sequences in it that only switch colours.
A report that is written with colours shows what the report without colours says, whatever the
problems are, as long as no text in it has the escape character. Each colour that is switched on in
it is switched off before the next.
-/
namespace YinFrontEnd

namespace Terminal

/-- The character that begins a sequence. -/
def escape : Char := '\x1b'

/-- The escape character is not in the text. -/
def Unescaped (s : String) : Prop := escape ∉ s.toList

instance (s : String) : Decidable (Unescaped s) := inferInstanceAs (Decidable (escape ∉ s.toList))

@[simp] lemma unescaped_append {s t : String} :
    Unescaped (s ++ t) ↔ Unescaped s ∧ Unescaped t := by
  simp [Unescaped]

@[simp] lemma unescaped_ofList {cs : List Char} : Unescaped (String.ofList cs) ↔ escape ∉ cs := by
  rw [Unescaped, String.toList_ofList]

/-- True of the characters between the bracket and the last letter of a sequence. -/
def isCode (c : Char) : Bool := c.isDigit || c == ';'

/-- The codes of the sequence at the front of a text, and what stands behind it. -/
def sequence? : List Char → Option (List Char × List Char)
  | '\x1b' :: '[' :: cs =>
      match cs.dropWhile isCode with
      | 'm' :: rest => some (cs.takeWhile isCode, rest)
      | _ => none
  | _ => none

theorem sequence?_length_lt {cs codes rest : List Char} (h : sequence? cs = some (codes, rest)) :
    rest.length < cs.length := by
  unfold sequence? at h
  split at h
  · rename_i cs
    split at h
    · rename_i tail htail
      obtain ⟨-, rfl⟩ := Prod.mk.inj (Option.some.inj h)
      have hle := (List.dropWhile_sublist (p := isCode) (l := cs)).length_le
      simp only [htail, List.length_cons] at hle ⊢
      omega
    · exact absurd h (by simp)
  · exact absurd h (by simp)

/-- What a text for a terminal is made of: characters that are shown, and sequences. -/
inductive Part where
  | shown (c : Char)
  | sequence (codes : List Char)
  deriving DecidableEq, Repr

/-- The parts of a text, each sequence as a whole. -/
def parts (cs : List Char) : List Part :=
  match cs with
  | [] => []
  | c :: rest =>
      match _h : sequence? (c :: rest) with
      | some (codes, tail) => .sequence codes :: parts tail
      | none => .shown c :: parts rest
termination_by cs.length
decreasing_by
  · exact sequence?_length_lt _h
  · simp

def Part.shown? : Part → Option Char
  | shown c => some c
  | sequence _ => none

def Part.codes? : Part → Option (List Char)
  | shown _ => none
  | sequence codes => some codes

/-- A text without its sequences. -/
def visible (s : String) : String := String.ofList ((parts s.toList).filterMap Part.shown?)

/-- The codes of the sequences of a text, in their order. -/
def sequences (s : String) : List (List Char) := (parts s.toList).filterMap Part.codes?

/-- The codes that switch every colour off. -/
def off : List Char := ['0']

/-- Whatever is switched on is switched off before anything else is. -/
inductive Closed : List (List Char) → Prop
  | nil : Closed []
  | colored {codes : List Char} {rest : List (List Char)} : codes ≠ off → Closed rest →
      Closed (codes :: off :: rest)

lemma Closed.append {xs ys : List (List Char)} (hx : Closed xs) (hy : Closed ys) :
    Closed (xs ++ ys) := by
  induction hx with
  | nil => exact hy
  | colored hne _ ih => exact .colored hne ih

lemma parts_cons {c : Char} (hc : c ≠ escape) (rest : List Char) :
    parts (c :: rest) = .shown c :: parts rest := by
  have hnone : sequence? (c :: rest) = none := by
    unfold sequence?
    split
    · rename_i heq
      exact absurd (List.cons.inj heq).1 hc
    · rfl
  rw [parts]
  split
  · rename_i h
    rw [hnone] at h
    exact absurd h (by simp)
  · rfl

/-- A text without the escape character is shown as it is. -/
lemma parts_append {t : List Char} (ht : escape ∉ t) (rest : List Char) :
    parts (t ++ rest) = t.map Part.shown ++ parts rest := by
  induction t with
  | nil => rfl
  | cons c t ih =>
    obtain ⟨hc, ht⟩ := List.ne_and_not_mem_of_not_mem_cons ht
    rw [List.cons_append, parts_cons hc.symm, ih ht]
    rfl

/-- A sequence is found wherever it stands. -/
lemma parts_sequence {codes : List Char} (h : ∀ c ∈ codes, isCode c = true) (rest : List Char) :
    parts (escape :: '[' :: (codes ++ 'm' :: rest)) = .sequence codes :: parts rest := by
  have hm : isCode 'm' = false := by decide
  have hfound : sequence? (escape :: '[' :: (codes ++ 'm' :: rest)) = some (codes, rest) := by
    have htake : (codes ++ 'm' :: rest).takeWhile isCode = codes := by
      rw [List.takeWhile_append_of_pos h, List.takeWhile_cons_of_neg (by simp [hm]),
        List.append_nil]
    have hdrop : (codes ++ 'm' :: rest).dropWhile isCode = 'm' :: rest := by
      rw [List.dropWhile_append_of_pos h, List.dropWhile_cons_of_neg (by simp [hm])]
    simp only [sequence?, escape, hdrop, htake]
  rw [parts]
  split
  · rename_i h
    rw [hfound] at h
    obtain ⟨rfl, rfl⟩ := Prod.mk.inj (Option.some.inj h)
    rfl
  · rename_i h
    rw [hfound] at h
    exact absurd h (by simp)

end Terminal

namespace Report

open Terminal (escape Unescaped)

/-- The report on several problems, and the line that counts them. -/
def whole (source : Option Source) (ds : List Diagnostic) (count : Nat) : List Piece :=
  ds.flatMap (pieces source) ++ summary count

/-- No text of a problem has the escape character. -/
structure UnescapedIn (d : Diagnostic) : Prop where
  message : Unescaped d.message
  labels : ∀ label ∈ d.labels, Unescaped label.message
  suggestions : ∀ s ∈ d.suggestions, Unescaped s

/-- Neither the path nor the text of a source has the escape character. -/
structure UnescapedSource (source : Source) : Prop where
  path : Unescaped source.path
  content : Unescaped source.content

/-- The codes of a colour. -/
def Style.codes : Style → List Char
  | .error => "1;31".toList
  | .help => "1;32".toList
  | .bold => "1".toList
  | .secondary => "1;34".toList

lemma Style.begin_eq (c : Style) : c.begin.toList = escape :: '[' :: (c.codes ++ ['m']) := by
  cases c <;> rfl

lemma Style.isCode_codes (c : Style) : ∀ ch ∈ c.codes, Terminal.isCode ch = true :=
  List.all_eq_true.mp (by cases c <;> rfl)

lemma Style.codes_ne_off (c : Style) : c.codes ≠ Terminal.off := by
  cases c <;> decide

/-- The parts of a piece that is written with its colour. -/
def Piece.parts (p : Piece) : List Terminal.Part :=
  match p.style with
  | none => p.text.toList.map .shown
  | some c => .sequence c.codes :: (p.text.toList.map .shown ++ [.sequence Terminal.off])

/-- The codes before and behind a piece that is written with its colour. -/
def Piece.codes (p : Piece) : List (List Char) :=
  match p.style with
  | none => []
  | some c => [c.codes, Terminal.off]

section Writing

variable {ps : List Piece}

lemma parts_write_piece {p : Piece} (h : Unescaped p.text) (rest : List Char) :
    Terminal.parts ((p.write true).toList ++ rest) = p.parts ++ Terminal.parts rest := by
  obtain ⟨style, text⟩ := p
  cases style with
  | none => exact Terminal.parts_append h rest
  | some c =>
    have hreset : reset.toList = escape :: '[' :: (Terminal.off ++ ['m']) := rfl
    have hwrite : (Piece.write true ⟨some c, text⟩).toList ++ rest =
        escape :: '[' :: (c.codes ++ 'm' :: (text.toList ++
          escape :: '[' :: (Terminal.off ++ 'm' :: rest))) := by
      simp [Piece.write, Style.begin_eq, hreset]
    rw [hwrite, Terminal.parts_sequence c.isCode_codes, Terminal.parts_append h,
      Terminal.parts_sequence (List.all_eq_true.mp rfl)]
    simp [Piece.parts]

/-- What is written with colours is made of the parts of its pieces. -/
lemma parts_write (h : ∀ p ∈ ps, Unescaped p.text) :
    Terminal.parts (write true ps).toList = ps.flatMap Piece.parts := by
  induction ps with
  | nil =>
    rw [write, List.map_nil, String.join_nil, String.toList_empty, Terminal.parts]
    rfl
  | cons p ps ih =>
    obtain ⟨hp, hps⟩ := List.forall_mem_cons.mp h
    have hcons : (write true (p :: ps)).toList =
        (p.write true).toList ++ (write true ps).toList := by
      rw [write, write, List.map_cons, String.join_cons, String.toList_append]
    rw [hcons, parts_write_piece hp, ih hps, List.flatMap_cons]

lemma shown_parts (p : Piece) : p.parts.filterMap Terminal.Part.shown? = p.text.toList := by
  have hshown (cs : List Char) :
      (cs.map Terminal.Part.shown).filterMap Terminal.Part.shown? = cs := by
    rw [List.filterMap_map]
    exact List.filterMap_some
  obtain ⟨style, text⟩ := p
  cases style with
  | none => exact hshown _
  | some c =>
    rw [Piece.parts, List.filterMap_cons_none rfl, List.filterMap_append, hshown,
      List.filterMap_cons_none rfl, List.filterMap_nil, List.append_nil]

lemma codes_parts (p : Piece) : p.parts.filterMap Terminal.Part.codes? = p.codes := by
  have hcodes (cs : List Char) :
      (cs.map Terminal.Part.shown).filterMap Terminal.Part.codes? = [] := by
    rw [List.filterMap_map]
    exact List.filterMap_eq_nil_iff.mpr fun _ _ => rfl
  obtain ⟨style, text⟩ := p
  cases style with
  | none => exact hcodes _
  | some c =>
    change c.codes :: List.filterMap _ (text.toList.map Terminal.Part.shown ++ _) = _
    rw [List.filterMap_append, hcodes]
    rfl

/-- Without colours the texts of the pieces are written one after another. -/
lemma toList_write (ps : List Piece) :
    (write false ps).toList = ps.flatMap fun p => p.text.toList := by
  have hpiece (p : Piece) : p.write false = p.text := rfl
  rw [write, String.toList_join, List.flatMap_map]
  simp only [hpiece]

lemma visible_write (h : ∀ p ∈ ps, Unescaped p.text) :
    Terminal.visible (write true ps) = write false ps := by
  rw [Terminal.visible, parts_write h, List.filterMap_flatMap, ← String.toList_inj,
    String.toList_ofList, toList_write]
  simp only [shown_parts]

lemma sequences_write (h : ∀ p ∈ ps, Unescaped p.text) :
    Terminal.sequences (write true ps) = ps.flatMap Piece.codes := by
  rw [Terminal.sequences, parts_write h, List.filterMap_flatMap]
  simp only [codes_parts]

lemma closed_codes (ps : List Piece) : Terminal.Closed (ps.flatMap Piece.codes) := by
  have hpiece (p : Piece) : Terminal.Closed p.codes := by
    obtain ⟨style, text⟩ := p
    cases style with
    | none => exact .nil
    | some c => exact .colored c.codes_ne_off .nil
  induction ps with
  | nil => exact .nil
  | cons p ps ih =>
    rw [List.flatMap_cons]
    exact (hpiece p).append ih

lemma unescaped_write (h : ∀ p ∈ ps, Unescaped p.text) : Unescaped (write false ps) := by
  rw [Unescaped, toList_write]
  intro hmem
  obtain ⟨p, hp, hmem⟩ := List.mem_flatMap.mp hmem
  exact h p hp hmem

end Writing

section Pieces

variable {source : Option Source} {label : Label} {d : Diagnostic}

lemma unescaped_toString (n : Nat) : Unescaped (toString n) := by
  rw [Nat.toString_eq_ofList_toDigits, Terminal.unescaped_ofList]
  intro h
  exact absurd (Nat.isDigit_of_mem_toDigits (by decide) (by decide) h) (by decide)

lemma unescaped_replicate {c : Char} (hc : c ≠ escape) (n : Nat) :
    Unescaped (String.ofList (List.replicate n c)) := by
  rw [Terminal.unescaped_ofList]
  exact fun h => hc (List.eq_of_mem_replicate h).symm

lemma unescaped_code (c : ErrorCode) : Unescaped c.text := by
  cases c <;> decide

lemma unescaped_arrow (label : Label) : Unescaped (arrow label) := by
  rw [arrow]
  split <;> decide

lemma unescaped_place (s : Span) : Unescaped s.place := by
  have hcolon : Unescaped (toString ":") := by decide
  simp only [Span.place, Terminal.unescaped_append]
  exact ⟨⟨unescaped_toString _, hcolon⟩, unescaped_toString _⟩

lemma unescaped_location (hs : ∀ src ∈ source, UnescapedSource src) (s : Span) :
    Unescaped (location source s) := by
  have hcolon : Unescaped ":" := by decide
  cases source with
  | none => exact unescaped_place s
  | some src =>
    simp only [location, Terminal.unescaped_append]
    exact ⟨⟨(hs src rfl).path, hcolon⟩, unescaped_place s⟩

lemma unescaped_gutter {number : String} (h : Unescaped number) (width : Nat) :
    Unescaped (gutter number width).text := by
  have hbar : Unescaped " |" := by decide
  simp only [gutter, colored, Terminal.unescaped_append]
  exact ⟨⟨unescaped_replicate (by decide) _, h⟩, hbar⟩

/-- A line has no characters that the source does not have. -/
lemma mem_of_lineAt? {src : Source} {offset : Nat} {line : List Char}
    (h : src.lineAt? offset = some line) : ∀ c ∈ line, c ∈ src.content.toList := by
  obtain ⟨⟨before, after⟩, hsplit, rfl⟩ := Option.map_eq_some_iff.mp h
  have happend : before ++ after = src.content.toList := by
    unfold Text.splitAtByte? at hsplit
    split at hsplit
    · obtain ⟨rfl, rfl⟩ := Prod.mk.inj (Option.some.inj hsplit)
      exact Text.takeBytes_append_dropBytes _ _
    · exact absurd hsplit (by simp)
  intro c hc
  rw [← happend]
  have hline := List.mem_reverse.mp ((List.dropWhile_sublist _).mem (List.mem_reverse.mp hc))
  obtain hbefore | hafter := List.mem_append.mp hline
  · have hmem := (List.takeWhile_sublist _).mem (List.mem_reverse.mp hbefore)
    exact List.mem_append_left _ (List.mem_reverse.mp hmem)
  · exact List.mem_append_right _ ((List.takeWhile_sublist _).mem hafter)

lemma unescaped_padding (line : List Char) (column : Nat) :
    Unescaped (String.ofList (padding line column)) := by
  rw [Terminal.unescaped_ofList]
  intro h
  obtain ⟨c, -, hc⟩ := List.mem_map.mp h
  split at hc <;> exact absurd hc (by decide)

lemma unescaped_labelMessage (hm : Unescaped label.message) :
    ∀ p ∈ labelMessage label, Unescaped p.text := by
  rw [labelMessage]
  split
  · simp
  · simpa [plain, colored, hm] using (by decide : Unescaped " ")

lemma unescaped_snippet {line : List Char} (hs : ∀ src ∈ source, UnescapedSource src)
    (hm : Unescaped label.message) (hline : escape ∉ line) :
    ∀ p ∈ snippet source label line, Unescaped p.text := by
  have hblank : Unescaped " " := by decide
  have hbreak : Unescaped "\n" := by decide
  have hempty : Unescaped "" := by decide
  have hmarks : Unescaped (String.ofList (List.replicate (markCount line label.span)
      (if label.isPrimary then '^' else '-'))) := unescaped_replicate (by split <;> decide) _
  have hplace : Unescaped
      (String.ofList (List.replicate ((toString label.span.line).length + 1) ' ') ++ arrow label ++
        " " ++ location source label.span ++ "\n") := by
    simp only [Terminal.unescaped_append]
    exact ⟨⟨⟨⟨unescaped_replicate (by decide) _, unescaped_arrow label⟩, hblank⟩,
      unescaped_location hs _⟩, hbreak⟩
  have hshown : Unescaped (" " ++ String.ofList line ++ "\n") := by
    simp only [Terminal.unescaped_append, Terminal.unescaped_ofList]
    exact ⟨⟨hblank, hline⟩, hbreak⟩
  have hpadding := Terminal.unescaped_append.mpr ⟨hblank, unescaped_padding line label.span.column⟩
  simp only [snippet, List.forall_mem_append, List.forall_mem_cons]
  exact ⟨⟨⟨hplace, unescaped_gutter hempty _, hbreak, unescaped_gutter (unescaped_toString _) _,
    hshown, unescaped_gutter hempty _, hpadding, hmarks, by simp⟩, unescaped_labelMessage hm⟩,
    hbreak, by simp⟩

lemma unescaped_bareLabel (hs : ∀ src ∈ source, UnescapedSource src)
    (hm : Unescaped label.message) : ∀ p ∈ bareLabel source label, Unescaped p.text := by
  have hplace : Unescaped ("  " ++ arrow label ++ " " ++ location source label.span ++ ": ") := by
    simp only [Terminal.unescaped_append]
    exact ⟨⟨⟨⟨by decide, unescaped_arrow label⟩, by decide⟩, unescaped_location hs _⟩, by decide⟩
  have hbreak : Unescaped "\n" := by decide
  simp only [bareLabel, List.forall_mem_cons]
  exact ⟨hplace, hm, hbreak, by simp⟩

lemma unescaped_labelPieces (hs : ∀ src ∈ source, UnescapedSource src)
    (hm : Unescaped label.message) : ∀ p ∈ labelPieces source label, Unescaped p.text := by
  rw [labelPieces]
  split
  · rename_i line hline
    obtain ⟨src, hsrc, hfound⟩ := Option.bind_eq_some_iff.mp hline
    exact unescaped_snippet hs hm fun h => (hs src hsrc).content (mem_of_lineAt? hfound _ h)
  · exact unescaped_bareLabel hs hm

lemma unescaped_pieces (hs : ∀ src ∈ source, UnescapedSource src) (hd : UnescapedIn d) :
    ∀ p ∈ pieces source d, Unescaped p.text := by
  have hbreak : Unescaped "\n" := by decide
  have herror : Unescaped "error" := by decide
  have hcode : Unescaped ("[" ++ d.code.text ++ "]") := by
    simp only [Terminal.unescaped_append]
    exact ⟨⟨by decide, unescaped_code d.code⟩, by decide⟩
  have hmessage : Unescaped (": " ++ d.message ++ "\n") := by
    simp only [Terminal.unescaped_append]
    exact ⟨⟨by decide, hd.message⟩, hbreak⟩
  have hlabels : ∀ p ∈ d.labels.flatMap (labelPieces source), Unescaped p.text := by
    intro p hp
    obtain ⟨label, hlabel, hp⟩ := List.mem_flatMap.mp hp
    exact unescaped_labelPieces hs (hd.labels label hlabel) p hp
  have hsuggestions : ∀ p ∈ d.suggestions.flatMap suggestionPieces, Unescaped p.text := by
    intro p hp
    obtain ⟨s, hmem, hp⟩ := List.mem_flatMap.mp hp
    have hadvice : Unescaped (": " ++ s ++ "\n") := by
      simp only [Terminal.unescaped_append]
      exact ⟨⟨by decide, hd.suggestions s hmem⟩, hbreak⟩
    simp only [suggestionPieces, List.mem_cons, List.not_mem_nil, or_false] at hp
    obtain rfl | rfl | rfl := hp
    · exact (by decide : Unescaped "  = ")
    · exact (by decide : Unescaped "help")
    · exact hadvice
  simp only [pieces, List.forall_mem_append, List.forall_mem_cons]
  exact ⟨⟨⟨⟨herror, hcode, hmessage, by simp⟩, hlabels⟩, hsuggestions⟩, hbreak, by simp⟩

lemma unescaped_summary (count : Nat) : ∀ p ∈ summary count, Unescaped p.text := by
  have herror : Unescaped "error" := by decide
  have hone : Unescaped ": aborting due to previous error\n" := by decide
  have hmany : Unescaped s!": aborting due to {count} previous errors\n" := by
    simp only [Terminal.unescaped_append]
    exact ⟨⟨by decide, unescaped_toString count⟩, by decide⟩
  rw [summary]
  split
  · simp
  split
  · simp only [List.forall_mem_cons]
    exact ⟨herror, hone, by simp⟩
  · simp only [List.forall_mem_cons]
    exact ⟨herror, hmany, by simp⟩

lemma unescaped_whole {ds : List Diagnostic} (hs : ∀ src ∈ source, UnescapedSource src)
    (hds : ∀ d ∈ ds, UnescapedIn d) (count : Nat) :
    ∀ p ∈ whole source ds count, Unescaped p.text := by
  intro p hp
  obtain hp | hp := List.mem_append.mp hp
  · obtain ⟨d, hd, hp⟩ := List.mem_flatMap.mp hp
    exact unescaped_pieces hs (hds d hd) p hp
  · exact unescaped_summary count p hp

end Pieces

/-- Without its sequences a report with colours is the report without colours, in which there are
none. Its sequences are those around its coloured pieces, so that each colour that is switched on is
switched off before the next. The problems may be any, with labels anywhere in their source or
outside it, as long as no text has the escape character. -/
theorem visible_of_colored {source : Option Source} {ds : List Diagnostic}
    (hs : ∀ src ∈ source, UnescapedSource src) (hds : ∀ d ∈ ds, UnescapedIn d) (count : Nat) :
    Terminal.visible (write true (whole source ds count)) = write false (whole source ds count) ∧
      Terminal.Closed (Terminal.sequences (write true (whole source ds count))) ∧
      Terminal.sequences (write true (whole source ds count)) =
        (whole source ds count).flatMap Piece.codes ∧
      Unescaped (write false (whole source ds count)) := by
  have hall := unescaped_whole hs hds count
  have hsequences := sequences_write hall
  refine ⟨visible_write hall, ?_, hsequences, unescaped_write hall⟩
  rw [hsequences]
  exact closed_codes _

/-- Two problems. The first has two places in a line, one of them without a message, and the second
has a place outside the text and some advice. -/
def twoProblems : List Diagnostic :=
  [⟨.duplicateField, "duplicated field name: x", [⟨⟨0, 3, 4, 1, 4⟩, "again", true⟩,
      ⟨⟨0, 1, 2, 1, 2⟩, "", false⟩], []⟩,
    ⟨.unclosedDelimiter, "unclosed delimiter", [⟨⟨0, 50, 51, 4, 1⟩, "opened here", true⟩],
      ["close it"]⟩]

theorem visible_of_colored_twoProblems :
    (∀ src ∈ some (⟨"a.yin", "(x\tx)\n"⟩ : Source), UnescapedSource src) ∧
    (∀ d ∈ twoProblems, UnescapedIn d) ∧
    Terminal.visible (write true (whole (some ⟨"a.yin", "(x\tx)\n"⟩) twoProblems 2)) =
      String.join ["error[E1016]: duplicated field name: x\n",
        "  --> a.yin:1:4\n", "  |\n", "1 | (x\tx)\n", "  |   \t^ again\n",
        "  ::: a.yin:1:2\n", "  |\n", "1 | (x\tx)\n", "  |  -\n", "\n",
        "error[E0004]: unclosed delimiter\n", "  --> a.yin:4:1: opened here\n",
        "  = help: close it\n", "\n", "error: aborting due to 2 previous errors\n"] ∧
    (Terminal.sequences (write true (whole (some ⟨"a.yin", "(x\tx)\n"⟩) twoProblems 2))).length =
      32 := by
  have hs : ∀ src ∈ some (⟨"a.yin", "(x\tx)\n"⟩ : Source), UnescapedSource src := by
    rintro src ⟨⟩
    exact ⟨by decide, by decide⟩
  have hds : ∀ d ∈ twoProblems, UnescapedIn d := by
    rintro d hd
    simp only [twoProblems, List.mem_cons, List.not_mem_nil, or_false] at hd
    obtain rfl | rfl := hd
    · exact ⟨by decide, by decide, by decide⟩
    · exact ⟨by decide, by decide, by decide⟩
  obtain ⟨hvisible, -, hsequences, -⟩ := visible_of_colored hs hds 2
  refine ⟨hs, hds, hvisible.trans (by decide +kernel), ?_⟩
  rw [hsequences]
  decide +kernel

end Report

end YinFrontEnd
