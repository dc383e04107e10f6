import Mathlib.Data.List.Induction
import Mathlib.Tactic.Common
import YinFrontEnd.Source.Cursor

/-!
# Positions as counts

The mark after a beginning of a text is determined by counting: the offset counts bytes,
the line counts line breaks, and the column counts the characters of the last line. A
cursor reaches it character by character or over a block of bytes, and both ways agree.
A span is then described by the part of the text that it covers, and independently of
what found it there.
-/
namespace YinFrontEnd

namespace Text

@[simp] theorem byteLength_append (cs ds : List Char) :
    byteLength (cs ++ ds) = byteLength cs + byteLength ds := by
  induction cs with
  | nil => simp [byteLength]
  | cons c cs ih => simp only [List.cons_append, byteLength, ih]; omega

lemma byteLength_pos {cs : List Char} (h : cs ≠ []) : 0 < byteLength cs := by
  cases cs with
  | nil => exact absurd rfl h
  | cons c cs =>
    have hc := c.utf8Size_pos
    simp only [byteLength]
    omega

lemma length_le_byteLength (cs : List Char) : cs.length ≤ byteLength cs := by
  induction cs with
  | nil => simp [byteLength]
  | cons c cs ih =>
    have hc := c.utf8Size_pos
    simp only [List.length_cons, byteLength]
    omega

lemma takeBytes_byteLength (cs ds : List Char) : takeBytes (byteLength cs) (cs ++ ds) = cs := by
  induction cs with
  | nil =>
    cases ds with
    | nil => rfl
    | cons d ds =>
      have hd := d.utf8Size_pos
      have hn : ¬ d.utf8Size ≤ 0 := by omega
      simp only [byteLength, List.nil_append, takeBytes, if_neg hn]
  | cons c cs ih =>
    have hle : c.utf8Size ≤ c.utf8Size + byteLength cs := by omega
    simp only [byteLength, List.cons_append, takeBytes, if_pos hle, Nat.add_sub_cancel_left, ih]

lemma dropBytes_byteLength (cs ds : List Char) : dropBytes (byteLength cs) (cs ++ ds) = ds := by
  have h := takeBytes_append_dropBytes (byteLength cs) (cs ++ ds)
  rw [takeBytes_byteLength] at h
  exact List.append_cancel_left h

/-- A kind of byte marks a kind of character if the bytes of that kind are exactly the
characters of that kind, each of which takes one byte. -/
structure Marks (p : UInt8 → Bool) (q : Char → Bool) : Prop where
  single : ∀ c : Char, c.utf8Size = 1 → p c.val.toUInt8 = q c
  longer : ∀ c : Char, c.utf8Size ≠ 1 → q c = false
  high : ∀ b : UInt8, 0x80 ≤ b → p b = false

lemma beq_toUInt8 {c d : Char} (hc : c.utf8Size = 1) (hd : d.utf8Size = 1) :
    (c.val.toUInt8 == d.val.toUInt8) = (c == d) := by
  rw [Char.utf8Size_eq_one_iff, UInt32.le_iff_toNat_le] at hc hd
  have h127 : (127 : UInt32).toNat = 127 := rfl
  have h : c.val.toUInt8 = d.val.toUInt8 ↔ c = d := by
    rw [← UInt8.toNat_inj, Char.ext_iff, ← UInt32.toNat_inj, UInt32.toNat_toUInt8,
      UInt32.toNat_toUInt8]
    omega
  rw [Bool.eq_iff_iff, beq_iff_eq, beq_iff_eq, h]

lemma marks_char (d : Char) (hd : d.utf8Size = 1) : Marks (· == d.val.toUInt8) (· == d) where
  single c hc := beq_toUInt8 hc hd
  longer c hc := by
    rw [beq_eq_false_iff_ne]
    rintro rfl
    exact hc hd
  high b hb := by
    rw [beq_eq_false_iff_ne]
    rintro rfl
    rw [Char.utf8Size_eq_one_iff, UInt32.le_iff_toNat_le] at hd
    rw [UInt8.le_iff_toNat_le, UInt32.toNat_toUInt8] at hb
    have h127 : (127 : UInt32).toNat = 127 := rfl
    have h128 : (0x80 : UInt8).toNat = 128 := rfl
    omega

lemma Marks.or {p p' : UInt8 → Bool} {q q' : Char → Bool} (h : Marks p q) (h' : Marks p' q') :
    Marks (fun b => p b || p' b) (fun c => q c || q' c) where
  single c hc := by rw [h.single c hc, h'.single c hc]
  longer c hc := by rw [h.longer c hc, h'.longer c hc]; rfl
  high b hb := by rw [h.high b hb, h'.high b hb]; rfl

lemma or_high (b m : UInt8) (h : 0x80 ≤ m) : 0x80 ≤ b ||| m := by
  rw [UInt8.le_iff_toNat_le] at h ⊢
  rw [UInt8.toNat_or]
  exact Nat.le_trans h Nat.right_le_or

/-- The bytes of a longer character are all high, so that none of them can be mistaken for
a character of one byte. -/
lemma high_of_mem_utf8EncodeChar {c : Char} (hc : c.utf8Size ≠ 1) {b : UInt8}
    (hb : b ∈ String.utf8EncodeChar c) : 0x80 ≤ b := by
  have h1 := c.utf8Size_pos
  have h4 := c.utf8Size_le_four
  obtain h | h | h : c.utf8Size = 2 ∨ c.utf8Size = 3 ∨ c.utf8Size = 4 := by omega
  · rw [String.utf8EncodeChar_eq_cons_cons h] at hb
    simp only [List.mem_cons, List.not_mem_nil, or_false] at hb
    obtain rfl | rfl := hb <;> exact or_high _ _ (by decide)
  · rw [String.utf8EncodeChar_eq_cons_cons_cons h] at hb
    simp only [List.mem_cons, List.not_mem_nil, or_false] at hb
    obtain rfl | rfl | rfl := hb <;> exact or_high _ _ (by decide)
  · rw [String.utf8EncodeChar_eq_cons_cons_cons_cons h] at hb
    simp only [List.mem_cons, List.not_mem_nil, or_false] at hb
    obtain rfl | rfl | rfl | rfl := hb <;> exact or_high _ _ (by decide)

lemma findIdx?_utf8EncodeChar {p : UInt8 → Bool} {q : Char → Bool} (h : Marks p q) (c : Char) :
    (String.utf8EncodeChar c).findIdx? p = if q c then some 0 else none := by
  by_cases hc : c.utf8Size = 1
  · rw [String.utf8EncodeChar_eq_singleton hc, List.findIdx?_cons, h.single c hc, List.findIdx?_nil]
    rfl
  · rw [h.longer c hc, if_neg (by simp), List.findIdx?_eq_none_iff]
    intro b hb
    exact h.high b (high_of_mem_utf8EncodeChar hc hb)

lemma bytesBefore_eq {p : UInt8 → Bool} {q : Char → Bool} (h : Marks p q) (cs : List Char) :
    bytesBefore p cs = byteLength (cs.takeWhile (!q ·)) := by
  induction cs with
  | nil => rfl
  | cons c cs ih =>
    rw [bytesBefore, findIdx?_utf8EncodeChar h]
    by_cases hq : q c = true
    · simp [hq, byteLength]
    · simp [hq, byteLength, ih]

end Text

namespace Mark

@[simp] lemma after_nil (m : Mark) : m.after [] = m := rfl

lemma after_cons (m : Mark) (c : Char) (cs : List Char) :
    m.after (c :: cs) = (m.step c).after cs := rfl

lemma after_singleton (m : Mark) (c : Char) : m.after [c] = m.step c := rfl

lemma lastLine_concat (cs : List Char) (c : Char) :
    lastLine (cs ++ [c]) = if c = '\n' then [] else lastLine cs ++ [c] := by
  by_cases h : c = '\n'
  · simp [lastLine, h]
  · simp [lastLine, h]

lemma afterBlock_concat (m : Mark) (cs : List Char) (c : Char) :
    m.afterBlock (cs ++ [c]) = (m.afterBlock cs).step c := by
  by_cases h : c = '\n'
  · subst h
    simp [afterBlock, step, lastLine_concat, Text.byteLength]
    omega
  · have hmem : ('\n' ∈ cs ++ [c]) ↔ '\n' ∈ cs := by simp [Ne.symm h]
    simp only [afterBlock, step, lastLine_concat, if_neg h, hmem, List.count_append,
      Text.byteLength_append, Text.byteLength, List.length_append, List.length_singleton]
    simp [h]
    omega

/-- Moving over a block counts what moving over its characters counts. -/
theorem after_eq_afterBlock (m : Mark) (cs : List Char) : m.after cs = m.afterBlock cs := by
  induction cs using List.reverseRec with
  | nil => simp [afterBlock, lastLine, Text.byteLength]
  | append_singleton cs c ih => rw [after_append, after_singleton, ih, afterBlock_concat]

/-- What the mark after a beginning of a text counts. -/
theorem origin_after (cs : List Char) :
    origin.after cs = ⟨Text.byteLength cs, 1 + cs.count '\n', 1 + (lastLine cs).length⟩ := by
  rw [after_eq_afterBlock]
  simp [afterBlock, origin]

end Mark

namespace Cursor

lemma marks_isLineBreak : Text.Marks isLineBreak (· == '\n') := Text.marks_char '\n' (by decide)

lemma marks_isQuoteMark : Text.Marks isQuoteMark (fun c => c == '"' || c == '\\') :=
  (Text.marks_char '"' (by decide)).or (Text.marks_char '\\' (by decide))

lemma blockBefore_eq {p : UInt8 → Bool} {q : Char → Bool} (h : Text.Marks p q) (c : Cursor) :
    c.blockBefore p = c.rest.takeWhile (!q ·) := by
  have hs : c.rest.takeWhile (!q ·) ++ c.rest.dropWhile (!q ·) = c.rest :=
    List.takeWhile_append_dropWhile
  rw [blockBefore, Text.bytesBefore_eq h]
  conv => lhs; arg 2; rw [← hs]
  exact Text.takeBytes_byteLength _ _

/-- Moving to the next marked byte is moving over the characters before the next marked one. -/
theorem skipToByte_eq {p : UInt8 → Bool} {q : Char → Bool} (h : Text.Marks p q) (c : Cursor) :
    c.skipToByte p = c.skipWhile (!q ·) := by
  have hs : c.rest.takeWhile (!q ·) ++ c.rest.dropWhile (!q ·) = c.rest :=
    List.takeWhile_append_dropWhile
  have hd : Text.dropBytes (Text.bytesBefore p c.rest) c.rest = c.rest.dropWhile (!q ·) := by
    rw [Text.bytesBefore_eq h]
    conv => lhs; arg 2; rw [← hs]
    exact Text.dropBytes_byteLength _ _
  rw [skipToByte, hd, blockBefore_eq h, ← Mark.after_eq_afterBlock, skipWhile]

lemma skipLine_eq (c : Cursor) : c.skipLine = c.skipWhile (fun ch => !(ch == '\n')) :=
  skipToByte_eq marks_isLineBreak c

lemma skipToQuote_eq (c : Cursor) :
    c.skipToQuote = c.skipWhile (fun ch => !(ch == '"' || ch == '\\')) :=
  skipToByte_eq marks_isQuoteMark c

/-- A cursor stands in a text after the beginning `before`. -/
structure After (text before : List Char) (c : Cursor) : Prop where
  text_eq : before ++ c.rest = text
  mark_eq : c.mark = Mark.origin.after before

lemma after_start (text : List Char) : (start text).After text [] := ⟨rfl, rfl⟩

lemma After.move {text before word rest : List Char} {c : Cursor} (h : c.After text before)
    (hr : c.rest = word ++ rest) :
    (⟨c.mark.after word, rest⟩ : Cursor).After text (before ++ word) := by
  refine ⟨?_, ?_⟩
  · rw [← h.text_eq, hr, List.append_assoc]
  · rw [h.mark_eq, Mark.after_append]

lemma past_eq {c : Cursor} {word rest : List Char} (hr : c.rest = word ++ rest) :
    c.past word = ⟨c.mark.after word, rest⟩ := by
  simp [past, hr]

end Cursor

namespace Span

/-- The span that covers `inside` in a text where it stands after `before`. -/
def covering (file : Nat) (before inside : List Char) : Span :=
  ⟨file, Text.byteLength before, Text.byteLength (before ++ inside), 1 + before.count '\n',
    1 + (Mark.lastLine before).length⟩

lemma spanTo_after (file : Nat) (before inside : List Char) :
    (Mark.origin.after before).spanTo file (Mark.origin.after (before ++ inside)) =
      covering file before inside := by
  rw [Mark.origin_after, Mark.origin_after]
  rfl

/-- A span covers some part of a text. -/
def CoversIn (file : Nat) (text : List Char) (s : Span) : Prop :=
  ∃ before inside rest, before ++ inside ++ rest = text ∧ inside ≠ [] ∧
    s = covering file before inside

/-- A span lies in a text at the place that its line and column name: both ends lie between
two characters or at an end, the line counts the line breaks before the start, and the column
counts the characters since the last of them. -/
structure Located (file : Nat) (text : List Char) (s : Span) : Prop where
  file_eq : s.file = file
  start_lt : s.start < s.stop
  stop_le : s.stop ≤ Text.byteLength text
  start_at : ∃ before rest, before ++ rest = text ∧ s.start = Text.byteLength before ∧
    s.line = 1 + before.count '\n' ∧ s.column = 1 + (Mark.lastLine before).length
  stop_at : ∃ before rest, before ++ rest = text ∧ s.stop = Text.byteLength before

lemma CoversIn.located {file : Nat} {text : List Char} {s : Span} (h : s.CoversIn file text) :
    s.Located file text := by
  obtain ⟨before, inside, rest, rfl, hne, rfl⟩ := h
  have hpos := Text.byteLength_pos hne
  constructor
  · rfl
  · simp only [covering, Text.byteLength_append]
    omega
  · simp only [covering, Text.byteLength_append]
    omega
  · exact ⟨before, inside ++ rest, by simp, rfl, rfl, rfl⟩
  · exact ⟨before ++ inside, rest, rfl, rfl⟩

/-- All four numbers of a span fit into 32 bits. -/
def Fits (s : Span) : Prop :=
  s.start ≤ maxOffset ∧ s.stop ≤ maxOffset ∧ s.line ≤ maxOffset ∧ s.column ≤ maxOffset

lemma lastLine_length_le (cs : List Char) : (Mark.lastLine cs).length ≤ cs.length := by
  have h := (List.takeWhile_sublist (p := (· != '\n')) (l := cs.reverse)).length_le
  simpa [Mark.lastLine] using h

/-- Lines and columns never exceed offsets by more than one, so that in a text of less than
2³² bytes they fit where offsets do. -/
lemma Located.fits {file : Nat} {text : List Char} {s : Span} (h : s.Located file text)
    (ht : Text.byteLength text ≤ maxOffset) : s.Fits := by
  obtain ⟨before, rest, rfl, hstart, hline, hcolumn⟩ := h.start_at
  have hlt := h.start_lt
  have hle := h.stop_le
  have h1 : before.count '\n' ≤ before.length := List.count_le_length
  have h2 := lastLine_length_le before
  have h3 := Text.length_le_byteLength before
  refine ⟨?_, ?_, ?_, ?_⟩ <;> omega

end Span

end YinFrontEnd
