import YinFrontEnd.Proofs.Source.Lines
import YinFrontEnd.Proofs.Lexeme.Scanning

/-!
# Skipping bytes and stepping over characters

Comments and string content are skipped by looking for a byte, after which the line and the
column are found by looking back at the bytes that were skipped. This module says how that is
done on the bytes of a text, with slices that fail where they would cut a character in two and
counts that are kept in 32 bits, and proves that no slice fails and that no count is cut: the
cursor ends where it would end by stepping over one character at a time.
-/
namespace YinFrontEnd

namespace Text

/-- The bytes of a text. -/
def bytes (cs : List Char) : List UInt8 := cs.flatMap String.utf8EncodeChar

@[simp] lemma bytes_append (cs ds : List Char) : bytes (cs ++ ds) = bytes cs ++ bytes ds :=
  List.flatMap_append

lemma bytes_cons (c : Char) (cs : List Char) :
    bytes (c :: cs) = String.utf8EncodeChar c ++ bytes cs := rfl

@[simp] lemma length_bytes (cs : List Char) : (bytes cs).length = byteLength cs := by
  induction cs with
  | nil => rfl
  | cons c cs ih =>
    rw [bytes_cons, List.length_append, String.length_utf8EncodeChar, ih, byteLength]

/-- Looking for a byte character by character is looking for it among the bytes. -/
lemma bytesBefore_eq_findIdx (p : UInt8 → Bool) (cs : List Char) :
    bytesBefore p cs = (bytes cs).findIdx p := by
  induction cs with
  | nil => rfl
  | cons c cs ih =>
    rw [bytesBefore, bytes_cons, List.findIdx_append]
    cases h : (String.utf8EncodeChar c).findIdx? p with
    | none =>
      rw [List.findIdx?_eq_none_iff_findIdx_eq] at h
      rw [if_neg (by omega), String.length_utf8EncodeChar, ih, Nat.add_comm]
    | some i =>
      rw [List.findIdx?_eq_some_iff_findIdx_eq] at h
      rw [if_pos (by omega), h.2]

/-- The bytes between two offsets, if these lie in the text. -/
def byteSlice? (start stop : Nat) (cs : List Char) : Option (List UInt8) :=
  if start ≤ stop ∧ stop ≤ (bytes cs).length then
    some (((bytes cs).drop start).take (stop - start))
  else none

/-- The text between two offsets, if each of these lies between two characters or at an end. -/
def slice? (start stop : Nat) (cs : List Char) : Option (List Char) :=
  if start ≤ stop then
    (splitAtByte? start cs).bind fun parts =>
      (splitAtByte? (stop - start) parts.2).map Prod.fst
  else none

/-- The index of the last byte that satisfies `p`. -/
def lastIdx? (p : UInt8 → Bool) (bs : List UInt8) : Option Nat :=
  (bs.reverse.findIdx? p).map (bs.length - 1 - ·)

lemma splitAtByte?_append (cs ds : List Char) :
    splitAtByte? (byteLength cs) (cs ++ ds) = some (cs, ds) := by
  rw [splitAtByte?, takeBytes_byteLength, dropBytes_byteLength, if_pos rfl]

lemma slice?_append (before word after : List Char) :
    slice? (byteLength before) (byteLength (before ++ word)) (before ++ word ++ after) =
      some word := by
  have hle : byteLength before ≤ byteLength (before ++ word) := by simp
  rw [slice?, if_pos hle, List.append_assoc, splitAtByte?_append, Option.bind_some,
    byteLength_append, Nat.add_sub_cancel_left, splitAtByte?_append, Option.map_some]

lemma byteSlice?_append (before word after : List Char) :
    byteSlice? (byteLength before) (byteLength (before ++ word)) (before ++ word ++ after) =
      some (bytes word) := by
  have hle : byteLength before ≤ byteLength (before ++ word) ∧
      byteLength (before ++ word) ≤ (bytes (before ++ word ++ after)).length := by simp
  rw [byteSlice?, if_pos hle, bytes_append, bytes_append, List.append_assoc,
    ← length_bytes before, List.drop_left, byteLength_append, ← length_bytes before,
    Nat.add_sub_cancel_left, ← length_bytes word, List.take_left]

section Kinds

variable {p : UInt8 → Bool} {q : Char → Bool}

lemma countP_utf8EncodeChar (h : Marks p q) (c : Char) :
    (String.utf8EncodeChar c).countP p = if q c then 1 else 0 := by
  by_cases hc : c.utf8Size = 1
  · rw [String.utf8EncodeChar_eq_singleton hc, List.countP_singleton, h.single c hc]
  · rw [h.longer c hc, List.countP_eq_zero.mpr]
    · rfl
    · intro b hb
      rw [h.high b (high_of_mem_utf8EncodeChar hc hb)]
      exact Bool.false_ne_true

/-- The bytes of a kind are as many as the characters of that kind. -/
lemma countP_bytes (h : Marks p q) (cs : List Char) : (bytes cs).countP p = cs.countP q := by
  induction cs with
  | nil => rfl
  | cons c cs ih =>
    rw [bytes_cons, List.countP_append, countP_utf8EncodeChar h, ih, List.countP_cons, Nat.add_comm]

lemma forall_bytes_eq_false (h : Marks p q) {cs : List Char} (hcs : ∀ c ∈ cs, q c = false) :
    ∀ b ∈ bytes cs, p b = false := by
  have hzero : (bytes cs).countP p = 0 := by
    rw [countP_bytes h, List.countP_eq_zero]
    intro c hc
    rw [hcs c hc]
    exact Bool.false_ne_true
  intro b hb
  simpa using List.countP_eq_zero.mp hzero b hb

lemma lastIdx?_eq_none {bs : List UInt8} (h : ∀ b ∈ bs, p b = false) : lastIdx? p bs = none := by
  rw [lastIdx?, List.findIdx?_eq_none_iff.mpr (fun b hb => h b (List.mem_reverse.mp hb)),
    Option.map_none]

lemma lastIdx?_append {front back : List UInt8} {b : UInt8} (hb : p b = true)
    (h : ∀ b ∈ back, p b = false) : lastIdx? p (front ++ b :: back) = some front.length := by
  have hback : back.reverse.findIdx? p = none :=
    List.findIdx?_eq_none_iff.mpr fun b hb => h b (List.mem_reverse.mp hb)
  rw [lastIdx?, List.reverse_append, List.reverse_cons, List.append_assoc, List.findIdx?_append,
    hback, Option.none_or, List.singleton_append, List.findIdx?_cons, if_pos hb, Option.map_some,
    Option.map_some, List.length_reverse, List.length_append, List.length_cons]
  congr 1
  omega

end Kinds

end Text

namespace Mark

/-- A count as it is kept in 32 bits. -/
def narrow (n : Nat) : Nat := min n Span.maxOffset

lemma narrow_of_le {n : Nat} (h : n ≤ Span.maxOffset) : narrow n = n := Nat.min_eq_left h

/-- The mark `n` bytes further in a text. Where these bytes hold line breaks, the column counts the
characters after the last one. -/
def advance? (text : List Char) (n : Nat) (m : Mark) : Option Mark :=
  (Text.byteSlice? m.offset (m.offset + n) text).bind fun skipped =>
    match Text.lastIdx? Cursor.isLineBreak skipped with
    | some last =>
        (Text.slice? (m.offset + last + 1) (m.offset + n) text).map fun line =>
          ⟨m.offset + n, m.line + narrow (skipped.countP Cursor.isLineBreak),
            1 + narrow line.length⟩
    | none =>
        (Text.slice? m.offset (m.offset + n) text).map fun line =>
          ⟨m.offset + n, m.line, m.column + narrow line.length⟩

/-- The first byte of a kind in a text from a mark on, if there is one, and the mark there or at
the end of the text. -/
def skip? (text : List Char) (p : UInt8 → Bool) (m : Mark) : Option (Option UInt8 × Mark) :=
  (Text.slice? m.offset (Text.byteLength text) text).bind fun rest =>
    (m.advance? text ((Text.bytes rest).findIdx p)).map fun d =>
      ((Text.bytes rest)[(Text.bytes rest).findIdx p]?, d)

end Mark

namespace Cursor

/-- Moves over one character, if there is one. -/
def bump (c : Cursor) : Cursor :=
  match c.rest with
  | [] => c
  | ch :: rest => ⟨c.mark.step ch, rest⟩

lemma bump_eq {c : Cursor} {ch : Char} {rest : List Char} (h : c.rest = ch :: rest) :
    c.bump = ⟨c.mark.step ch, rest⟩ := by
  rw [bump, h]

lemma exists_of_head?_any {p : Char → Bool} {cs : List Char} (h : cs.head?.any p = true) :
    ∃ ch rest, cs = ch :: rest ∧ p ch = true := by
  obtain ⟨ch, hch, hp⟩ := (Option.any_eq_true ..).mp h
  obtain ⟨rest, hrest⟩ := List.head?_eq_some_iff.mp hch
  exact ⟨ch, rest, hrest, hp⟩

/-- Moves over one character after the other as long as there is one that satisfies `p`. -/
def bumpWhile (p : Char → Bool) (c : Cursor) : Cursor :=
  if _h : c.rest.head?.any p then bumpWhile p c.bump else c
termination_by c.rest.length
decreasing_by
  obtain ⟨ch, rest, hr, -⟩ := exists_of_head?_any _h
  rw [bump_eq hr, hr, List.length_cons]
  exact Nat.lt_succ_self _

/-- Moving over the characters at the front at once is stepping over each of them. -/
theorem bumpWhile_eq (p : Char → Bool) (c : Cursor) : c.bumpWhile p = c.skipWhile p := by
  fun_induction bumpWhile p c with
  | case1 c h ih =>
    obtain ⟨ch, rest, hr, hp⟩ := exists_of_head?_any h
    rw [ih, bump_eq hr, skipWhile, skipWhile, hr, List.takeWhile_cons_of_pos hp,
      List.dropWhile_cons_of_pos hp, Mark.after_cons]
  | case2 c h =>
    cases hr : c.rest with
    | nil => rw [skipWhile, hr]; exact congrArg (Cursor.mk c.mark) hr
    | cons ch rest =>
      have hp : ¬ p ch = true := by simpa [hr] using h
      rw [skipWhile, hr, List.takeWhile_cons_of_neg hp, List.dropWhile_cons_of_neg hp, ← hr]
      rfl

/-- The cursors that moves of the reader lead to from the beginning of a text. -/
inductive Reached (text : List Char) : Cursor → Prop
  | start : Reached text (start text)
  | bump {c : Cursor} : Reached text c → Reached text c.bump
  | skipWhile {c : Cursor} (p : Char → Bool) : Reached text c → Reached text (c.skipWhile p)
  | skipLine {c : Cursor} : Reached text c → Reached text c.skipLine
  | skipToQuote {c : Cursor} : Reached text c → Reached text c.skipToQuote

variable {text before : List Char} {c d : Cursor}

lemma After.bump (h : c.After text before) : ∃ word, c.bump.After text (before ++ word) := by
  cases hr : c.rest with
  | nil => exact ⟨[], by rw [Cursor.bump, hr, List.append_nil]; exact h⟩
  | cons ch rest =>
    rw [bump_eq hr]
    exact ⟨[ch], h.move hr⟩

lemma After.skipWhile (p : Char → Bool) (h : c.After text before) :
    (c.skipWhile p).After text (before ++ c.rest.takeWhile p) :=
  h.move List.takeWhile_append_dropWhile.symm

/-- A move of the reader keeps the cursor between two characters of the text. -/
lemma Reached.exists_after (h : c.Reached text) : ∃ before, c.After text before := by
  induction h with
  | start => exact ⟨[], after_start text⟩
  | bump _ ih =>
    obtain ⟨before, hc⟩ := ih
    obtain ⟨word, hword⟩ := hc.bump
    exact ⟨before ++ word, hword⟩
  | skipWhile p _ ih =>
    obtain ⟨before, hc⟩ := ih
    exact ⟨_, hc.skipWhile p⟩
  | skipLine _ ih =>
    obtain ⟨before, hc⟩ := ih
    rw [skipLine_eq]
    exact ⟨_, hc.skipWhile _⟩
  | skipToQuote _ ih =>
    obtain ⟨before, hc⟩ := ih
    rw [skipToQuote_eq]
    exact ⟨_, hc.skipWhile _⟩

/-- Stepping reaches every place between two characters. -/
lemma After.reached (h : c.After text before) : c.Reached text := by
  induction before using List.reverseRec generalizing c with
  | nil =>
    obtain ⟨m, rest⟩ := c
    obtain ⟨rfl, rfl⟩ := h
    exact .start
  | append_singleton before ch ih =>
    have hprev : Cursor.After text before ⟨Mark.origin.after before, ch :: c.rest⟩ :=
      ⟨by simpa using h.text_eq, rfl⟩
    have hbump : Cursor.bump ⟨Mark.origin.after before, ch :: c.rest⟩ = c := by
      rw [bump_eq rfl, ← Mark.after_singleton, ← Mark.after_append, ← h.mark_eq]
    exact hbump ▸ (ih hprev).bump

theorem reached_iff : c.Reached text ↔ ∃ before, c.After text before :=
  ⟨Reached.exists_after, fun ⟨_, h⟩ => h.reached⟩

/-- Where the scanner goes on after a lexeme is a place that the cursor's own moves reach. -/
theorem Reached.next {file : Nat} {attached : Bool} {l : Lexeme} (h : c.Reached text)
    (hn : Scanned.next file attached c = .lexeme l d) : d.Reached text := by
  obtain ⟨before, hc⟩ := h.exists_after
  obtain ⟨word, hd⟩ := Scanned.after_next hc hn
  exact hd.reached

section Slices

lemma After.offset_eq (h : c.After text before) : c.mark.offset = Text.byteLength before := by
  rw [h.mark_eq, Mark.origin_after]

lemma After.offset_le (h : c.After text before) : c.mark.offset ≤ Text.byteLength text := by
  rw [h.offset_eq, ← h.text_eq, Text.byteLength_append]
  exact Nat.le_add_right _ _

/-- What stands between two places of the cursor can be cut out of the text. -/
lemma After.slice?_eq {word : List Char} (hc : c.After text before)
    (hd : d.After text (before ++ word)) :
    Text.slice? c.mark.offset d.mark.offset text = some word := by
  rw [hc.offset_eq, hd.offset_eq, ← hd.text_eq, Text.slice?_append]

lemma After.slice?_rest (h : c.After text before) :
    Text.slice? c.mark.offset (Text.byteLength text) text = some c.rest := by
  have hs := Text.slice?_append before c.rest []
  rwa [List.append_nil, h.text_eq, ← h.offset_eq] at hs

lemma Reached.exists_slice? (hc : c.Reached text) (hd : d.Reached text)
    (hle : c.mark.offset ≤ d.mark.offset) :
    ∃ part, Text.slice? c.mark.offset d.mark.offset text = some part := by
  obtain ⟨front, hc⟩ := hc.exists_after
  obtain ⟨back, hd⟩ := hd.exists_after
  obtain ⟨word, rfl⟩ | ⟨word, rfl⟩ :=
    List.prefix_or_prefix_of_prefix ⟨_, hc.text_eq⟩ ⟨_, hd.text_eq⟩
  · exact ⟨word, hc.slice?_eq hd⟩
  · rw [hc.offset_eq, hd.offset_eq, Text.byteLength_append] at hle
    have hnil : word = [] := by
      by_contra hne
      have := Text.byteLength_pos hne
      omega
    rw [hnil, List.append_nil] at hc
    rw [← List.append_nil back] at hd
    exact ⟨[], hc.slice?_eq hd⟩

/-- A cursor stands in a text where every slice from it or up to it can be cut, and its numbers are
no larger than the bytes are many. -/
structure Standing (text : List Char) (c : Cursor) : Prop where
  offset_le : c.mark.offset ≤ Text.byteLength text
  line_le : c.mark.line ≤ 1 + Text.byteLength text
  column_le : c.mark.column ≤ 1 + Text.byteLength text
  rest_eq : Text.slice? c.mark.offset (Text.byteLength text) text = some c.rest
  back : ∀ b : Cursor, b.Reached text → b.mark.offset ≤ c.mark.offset →
    ∃ part, Text.slice? b.mark.offset c.mark.offset text = some part

lemma Reached.standing (hc : c.Reached text) : c.Standing text := by
  obtain ⟨before, h⟩ := hc.exists_after
  have hle := Text.length_le_byteLength before
  have hoffset := h.offset_le
  rw [h.offset_eq] at hoffset
  refine ⟨h.offset_le, ?_, ?_, h.slice?_rest, fun b hb => hb.exists_slice? hc⟩
  · have hbreaks : before.count '\n' ≤ before.length := List.count_le_length
    rw [h.mark_eq, Mark.origin_after]
    dsimp only
    omega
  · have hline := Span.lastLine_length_le before
    rw [h.mark_eq, Mark.origin_after]
    dsimp only
    omega

end Slices

section Blocks

variable {block above line tail : List Char}

lemma forall_bytes_isLineBreak (h : '\n' ∉ block) : ∀ b ∈ Text.bytes block, isLineBreak b = false :=
  Text.forall_bytes_eq_false marks_isLineBreak fun _ hch =>
    beq_eq_false_iff_ne.mpr fun heq => h (heq ▸ hch)

lemma After.byteSlice?_eq (h : c.After text before) (hr : c.rest = block ++ tail) :
    Text.byteSlice? c.mark.offset (c.mark.offset + Text.byteLength block) text =
      some (Text.bytes block) := by
  rw [h.offset_eq, ← h.text_eq, hr, ← List.append_assoc, ← Text.byteLength_append,
    Text.byteSlice?_append]

/-- Within a line the column grows by the characters that are skipped. -/
lemma After.advance?_within (h : c.After text before) (hr : c.rest = line ++ tail)
    (hline : '\n' ∉ line) (hfits : line.length ≤ Span.maxOffset) :
    c.mark.advance? text (Text.byteLength line) =
      some ⟨c.mark.offset + Text.byteLength line, c.mark.line, c.mark.column + line.length⟩ := by
  have hlast : Text.lastIdx? isLineBreak (Text.bytes line) = none :=
    Text.lastIdx?_eq_none (forall_bytes_isLineBreak hline)
  have hslice : Text.slice? c.mark.offset (c.mark.offset + Text.byteLength line) text =
      some line := by
    have hmove := h.slice?_eq (h.move hr)
    rwa [Mark.after_offset] at hmove
  rw [Mark.advance?, h.byteSlice?_eq hr, Option.bind_some, hlast]
  simp only [hslice, Option.map_some, Mark.narrow_of_le hfits]

/-- Over line breaks the column starts again behind the last one. -/
lemma After.advance?_over (h : c.After text before) (hr : c.rest = above ++ '\n' :: line ++ tail)
    (hline : '\n' ∉ line) (hfits : (above ++ '\n' :: line).length ≤ Span.maxOffset) :
    c.mark.advance? text (Text.byteLength (above ++ '\n' :: line)) =
      some ⟨c.mark.offset + Text.byteLength (above ++ '\n' :: line),
        c.mark.line + (above ++ '\n' :: line).count '\n', 1 + line.length⟩ := by
  have hlast : Text.lastIdx? isLineBreak (Text.bytes (above ++ '\n' :: line)) =
      some (Text.bytes above).length := by
    rw [Text.bytes_append, Text.bytes_cons]
    exact Text.lastIdx?_append rfl (forall_bytes_isLineBreak hline)
  have hbreak : c.rest = (above ++ ['\n']) ++ (line ++ tail) := by simpa using hr
  have hfront : (c.mark.after (above ++ ['\n'])).offset =
      c.mark.offset + (Text.bytes above).length + 1 := by
    rw [Mark.after_offset, Text.byteLength_append, Text.length_bytes]
    rfl
  have hslice : Text.slice? (c.mark.offset + (Text.bytes above).length + 1)
      (c.mark.offset + Text.byteLength (above ++ '\n' :: line)) text = some line := by
    have hmid := h.move hbreak
    have hmove := hmid.slice?_eq (hmid.move rfl)
    dsimp only at hmove
    rwa [hfront, ← Mark.after_append, Mark.after_offset, List.append_assoc,
      List.singleton_append] at hmove
  have hcount : (Text.bytes (above ++ '\n' :: line)).countP isLineBreak =
      (above ++ '\n' :: line).count '\n' := Text.countP_bytes marks_isLineBreak _
  have hbreaks : (above ++ '\n' :: line).count '\n' ≤ Span.maxOffset :=
    List.count_le_length.trans hfits
  have hcolumn : line.length ≤ Span.maxOffset := by
    rw [List.length_append, List.length_cons] at hfits
    omega
  rw [Mark.advance?, h.byteSlice?_eq hr, Option.bind_some, hlast]
  simp only [hslice, Option.map_some, hcount, Mark.narrow_of_le hbreaks,
    Mark.narrow_of_le hcolumn]

/-- Looking back at the bytes of a block gives the line and the column that counting its characters
gives, as long as the counts fit into 32 bits. -/
lemma After.advance?_eq (h : c.After text before) (hr : c.rest = block ++ tail)
    (ht : Text.byteLength text ≤ Span.maxOffset) :
    c.mark.advance? text (Text.byteLength block) = some (c.mark.afterBlock block) := by
  have hfits : block.length ≤ Span.maxOffset := by
    have hle := Text.length_le_byteLength block
    rw [← h.text_eq, hr, Text.byteLength_append, Text.byteLength_append] at ht
    omega
  have hlast := Text.notMem_lastLine block
  obtain hline | ⟨above, habove⟩ := Text.eq_lastLine_or block
  · have hnone : '\n' ∉ block := hline ▸ hlast
    rw [h.advance?_within hr hnone hfits, Mark.afterBlock, if_neg hnone, ← hline,
      List.count_eq_zero.mpr hnone, Nat.add_zero]
  · have hmem : '\n' ∈ block := by rw [habove]; simp
    have hover := h.advance?_over (habove ▸ hr) hlast (habove ▸ hfits)
    rw [← habove] at hover
    rw [hover, Mark.afterBlock, if_pos hmem]

variable {p : UInt8 → Bool} {q : Char → Bool}

/-- The byte of a kind that comes first is that of the character that comes first. -/
lemma getElem?_findIdx_bytes (h : Text.Marks p q) (cs : List Char) :
    (Text.bytes cs)[(Text.bytes cs).findIdx p]? =
      (cs.dropWhile (!q ·)).head?.map fun ch => ch.val.toUInt8 := by
  rw [← List.find?_eq_getElem?_findIdx]
  induction cs with
  | nil => rfl
  | cons ch cs ih =>
    rw [Text.bytes_cons, List.find?_append]
    by_cases hq : q ch = true
    · have hone : ch.utf8Size = 1 := by
        by_contra hne
        exact absurd (h.longer ch hne) (by simp [hq])
      have hp : p ch.val.toUInt8 = true := by rw [h.single ch hone, hq]
      rw [String.utf8EncodeChar_eq_singleton hone, List.find?_cons_of_pos hp, Option.some_or,
        List.dropWhile_cons_of_neg (by simp [hq]), List.head?_cons, Option.map_some]
    · have hnone : (String.utf8EncodeChar ch).find? p = none := by
        have hzero := Text.countP_utf8EncodeChar h ch
        rw [if_neg hq, List.countP_eq_zero] at hzero
        exact List.find?_eq_none.mpr hzero
      rw [hnone, Option.none_or, ih, List.dropWhile_cons_of_pos (by simpa using hq)]

/-- Skipping on the bytes of a text never fails, and leads to the mark that the cursor reaches. -/
lemma After.skip?_eq (h : c.After text before) (hp : Text.Marks p q)
    (ht : Text.byteLength text ≤ Span.maxOffset) :
    c.mark.skip? text p =
      some ((c.skipToByte p).rest.head?.map fun ch => ch.val.toUInt8, (c.skipToByte p).mark) := by
  have hr : c.rest = c.rest.takeWhile (!q ·) ++ c.rest.dropWhile (!q ·) :=
    List.takeWhile_append_dropWhile.symm
  have hadvance := h.advance?_eq hr ht
  rw [← Text.bytesBefore_eq hp, Text.bytesBefore_eq_findIdx] at hadvance
  rw [Mark.skip?, h.slice?_rest, Option.bind_some, hadvance, Option.map_some,
    getElem?_findIdx_bytes hp, skipToByte_eq hp, Cursor.skipWhile, Mark.after_eq_afterBlock]

end Blocks

/-- The double quote or backslash at a cursor, as a byte. -/
def quoteMark? (c : Cursor) : Option UInt8 :=
  match c.rest with
  | '"' :: _ => some 0x22
  | '\\' :: _ => some 0x5c
  | _ => none

/-- After skipping plain string content a quote or a backslash is met unless the text ends. -/
lemma skipToQuote_rest (c : Cursor) : c.skipToQuote.rest = [] ∨
    ∃ ch rest, c.skipToQuote.rest = ch :: rest ∧ (ch = '"' ∨ ch = '\\') := by
  rw [skipToQuote_eq]
  cases hr : c.rest.dropWhile (fun ch => !(ch == '"' || ch == '\\')) with
  | nil => exact .inl hr
  | cons ch rest =>
    have hhead := List.head?_dropWhile_not (fun ch => !(ch == '"' || ch == '\\')) c.rest
    rw [hr] at hhead
    have hch : (!(ch == '"' || ch == '\\')) = false := hhead
    rw [Bool.not_eq_false', Bool.or_eq_true, beq_iff_eq, beq_iff_eq] at hch
    exact .inr ⟨ch, rest, hr, hch⟩

lemma head?_skipToQuote (c : Cursor) :
    (c.skipToQuote.rest.head?.map fun ch => ch.val.toUInt8) = c.skipToQuote.quoteMark? := by
  rw [quoteMark?]
  obtain hr | ⟨ch, rest, hr, rfl | rfl⟩ := c.skipToQuote_rest
  · rw [hr]; rfl
  · rw [hr]; rfl
  · rw [hr]; rfl

lemma quoteMark?_skipToQuote (c : Cursor) :
    c.skipToQuote.quoteMark? = none ↔ c.skipToQuote.rest = [] := by
  rw [← head?_skipToQuote, Option.map_eq_none_iff, List.head?_eq_none_iff]

/-- In a text of less than 2³² bytes both ways of skipping on its bytes are ways of stepping over
its characters, from wherever the cursor can get, and they end where no slice fails. -/
theorem skip_eq_bumpWhile (ht : Text.byteLength text ≤ Span.maxOffset) (hc : c.Reached text) :
    (c.skipLine = c.bumpWhile (· != '\n') ∧
      (∃ found, c.mark.skip? text isLineBreak = some (found, c.skipLine.mark)) ∧
      c.skipLine.Standing text) ∧
    (c.skipToQuote = c.bumpWhile (fun ch => ch != '"' && ch != '\\') ∧
      c.mark.skip? text isQuoteMark = some (c.skipToQuote.quoteMark?, c.skipToQuote.mark) ∧
      (c.skipToQuote.quoteMark? = none ↔ c.skipToQuote.rest = []) ∧
      c.skipToQuote.Standing text) := by
  obtain ⟨before, h⟩ := reached_iff.mp hc
  have hline : (fun ch => !(ch == '\n')) = (· != '\n') := rfl
  have hquote : (fun ch => !(ch == '"' || ch == '\\')) = fun ch => ch != '"' && ch != '\\' := by
    funext ch
    rw [Bool.not_or]
    rfl
  refine ⟨⟨?_, ?_, hc.skipLine.standing⟩, ?_, ?_, c.quoteMark?_skipToQuote, hc.skipToQuote.standing⟩
  · rw [bumpWhile_eq, skipLine_eq, hline]
  · exact ⟨_, h.skip?_eq marks_isLineBreak ht⟩
  · rw [bumpWhile_eq, skipToQuote_eq, hquote]
  · rw [h.skip?_eq marks_isQuoteMark ht, ← head?_skipToQuote, skipToQuote]

/-- A comment and a string with characters of several bytes and a line break in it. -/
theorem skip_eq_bumpWhile_multibyte :
    let text := "-- é\n\"λ\n→\\".toList
    let c := (start text).skipLine.bump.bump
    (Text.byteLength text ≤ Span.maxOffset ∧ c.Reached text) ∧
      (start text).skipLine.mark = ⟨5, 1, 5⟩ ∧ c.mark = ⟨7, 2, 2⟩ ∧
      c.skipToQuote = ⟨⟨13, 3, 2⟩, ['\\']⟩ ∧
      c.mark.skip? text isQuoteMark = some (some 0x5c, ⟨13, 3, 2⟩) ∧
      c.skipToQuote = c.bumpWhile (fun ch => ch != '"' && ch != '\\') := by
  have ht : Text.byteLength "-- é\n\"λ\n→\\".toList ≤ Span.maxOffset := by decide
  have hc : ((start "-- é\n\"λ\n→\\".toList).skipLine.bump.bump).Reached
      "-- é\n\"λ\n→\\".toList := .bump (.bump (.skipLine .start))
  exact ⟨⟨ht, hc⟩, by decide, by decide, by decide, by decide, (skip_eq_bumpWhile ht hc).2.1⟩

end Cursor

end YinFrontEnd
