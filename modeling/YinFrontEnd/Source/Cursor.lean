import YinFrontEnd.Text.Bytes
import YinFrontEnd.Span

/-!
# Positions in source text

A mark is an offset in bytes together with the line and the column there. A cursor
is a mark together with the text after it. A cursor moves over characters one by
one, or over a block at once. No move ever gains text.
-/
namespace YinFrontEnd

structure Mark where
  offset : Nat
  line : Nat
  column : Nat
  deriving DecidableEq, Repr

namespace Mark

/-- The beginning of a text. -/
def origin : Mark := ⟨0, 1, 1⟩

/-- The mark after one more character. -/
def step (m : Mark) (c : Char) : Mark :=
  if c = '\n' then ⟨m.offset + c.utf8Size, m.line + 1, 1⟩
  else ⟨m.offset + c.utf8Size, m.line, m.column + 1⟩

/-- The mark after some more text, taken character by character. -/
def after (m : Mark) (cs : List Char) : Mark := cs.foldl step m

/-- The part of a text after its last line break. -/
def lastLine (cs : List Char) : List Char := (cs.reverse.takeWhile (· != '\n')).reverse

/-- The mark after some more text, from its number of bytes and line breaks and its last line. -/
def afterBlock (m : Mark) (cs : List Char) : Mark :=
  ⟨m.offset + Text.byteLength cs, m.line + cs.count '\n',
    (if '\n' ∈ cs then 1 else m.column) + (lastLine cs).length⟩

/-- The span between two marks. -/
def spanTo (file : Nat) (m n : Mark) : Span := ⟨file, m.offset, n.offset, m.line, m.column⟩

theorem after_append (m : Mark) (cs ds : List Char) : m.after (cs ++ ds) = (m.after cs).after ds := by
  simp [after]

theorem after_offset (m : Mark) (cs : List Char) :
    (m.after cs).offset = m.offset + Text.byteLength cs := by
  induction cs generalizing m with
  | nil => simp [after, Text.byteLength]
  | cons c cs ih =>
    have h : m.after (c :: cs) = (m.step c).after cs := rfl
    rw [h, ih]
    simp only [step, Text.byteLength]
    split <;> simp only [Nat.add_assoc]

end Mark

structure Cursor where
  mark : Mark
  rest : List Char
  deriving DecidableEq, Repr

namespace Cursor

/-- The cursor at the beginning of a text. -/
def start (text : List Char) : Cursor := ⟨.origin, text⟩

/-- Moves over the characters at the front that satisfy `p`. -/
def skipWhile (p : Char → Bool) (c : Cursor) : Cursor :=
  ⟨c.mark.after (c.rest.takeWhile p), c.rest.dropWhile p⟩

/-- Moves over a text that stands at the front. -/
def past (c : Cursor) (text : List Char) : Cursor :=
  ⟨c.mark.after text, c.rest.drop text.length⟩

/-- The text before the first byte that satisfies `p`. -/
def blockBefore (p : UInt8 → Bool) (c : Cursor) : List Char :=
  Text.takeBytes (Text.bytesBefore p c.rest) c.rest

/-- Moves over the bytes before the first one that satisfies `p`, all in one go. -/
def skipToByte (p : UInt8 → Bool) (c : Cursor) : Cursor :=
  ⟨c.mark.afterBlock (c.blockBefore p), Text.dropBytes (Text.bytesBefore p c.rest) c.rest⟩

/-- True of the byte of a line break. -/
def isLineBreak (b : UInt8) : Bool := b == 0x0a

/-- True of the bytes of a double quote and a backslash. -/
def isQuoteMark (b : UInt8) : Bool := b == 0x22 || b == 0x5c

/-- Moves to the end of the line. -/
def skipLine (c : Cursor) : Cursor := c.skipToByte isLineBreak

/-- Moves over plain string content to the next quote or backslash. -/
def skipToQuote (c : Cursor) : Cursor := c.skipToByte isQuoteMark

theorem skipToByte_length_le (p : UInt8 → Bool) (c : Cursor) :
    (c.skipToByte p).rest.length ≤ c.rest.length :=
  Text.dropBytes_length_le _ _

theorem skipWhile_length_le (p : Char → Bool) (c : Cursor) :
    (c.skipWhile p).rest.length ≤ c.rest.length :=
  (List.dropWhile_sublist p).length_le

theorem past_length_lt {c : Cursor} {text : List Char} (h : text ≠ []) (hc : c.rest ≠ []) :
    (c.past text).rest.length < c.rest.length := by
  have h1 := List.length_pos_iff.mpr h
  have h2 := List.length_pos_iff.mpr hc
  simp only [past, List.length_drop]
  omega

end Cursor

end YinFrontEnd
