import YinFrontEnd.Proofs.Source.Position

/-!
# Text that stands further behind

What follows a line break has the places that it would have at the beginning of a text, moved by
the bytes and line breaks that stand before it. Columns do not change. A cursor that is moved
meets the same text, so whatever it is asked is answered with marks that are moved as well.
-/
namespace YinFrontEnd

/-- How many bytes and lines a text stands behind the beginning. -/
structure Shift where
  bytes : Nat
  lines : Nat
  deriving DecidableEq, Repr

namespace Shift

/-- The shift of a text that stands where it would by itself. -/
def zero : Shift := ⟨0, 0⟩

/-- The shift of what stands after a text and a line break. -/
def behind (before : List Char) : Shift := ⟨Text.byteLength before + 1, before.count '\n' + 1⟩

end Shift

variable {d : Shift}

namespace Mark

def shift (d : Shift) (m : Mark) : Mark := ⟨m.offset + d.bytes, m.line + d.lines, m.column⟩

lemma shift_zero (m : Mark) : m.shift .zero = m := rfl

lemma step_shift (m : Mark) (c : Char) : (m.shift d).step c = (m.step c).shift d := by
  unfold step shift
  split <;> simp only [mk.injEq, and_true] <;> omega

lemma after_shift (m : Mark) (cs : List Char) : (m.shift d).after cs = (m.after cs).shift d := by
  induction cs generalizing m with
  | nil => rfl
  | cons c cs ih => rw [after_cons, after_cons, step_shift, ih]

/-- After a text and a line break stands what stands at the beginning, but for the shift. -/
lemma origin_after_newline (before : List Char) :
    origin.after (before ++ ['\n']) = origin.shift (.behind before) := by
  have hbreak : Text.byteLength ['\n'] = 1 := rfl
  rw [origin_after, lastLine_concat, if_pos rfl, Text.byteLength_append, hbreak, List.count_append]
  simp only [origin, shift, Shift.behind, List.count_singleton_self, List.length_nil, Nat.zero_add,
    Nat.add_zero]

end Mark

namespace Span

def shift (d : Shift) (s : Span) : Span :=
  ⟨s.file, s.start + d.bytes, s.stop + d.bytes, s.line + d.lines, s.column⟩

lemma shift_zero (s : Span) : s.shift .zero = s := rfl

lemma shift_injective : Function.Injective (shift d) := by
  rintro ⟨f, a, b, l, c⟩ ⟨f', a', b', l', c'⟩ h
  simp only [shift, mk.injEq, Nat.add_right_cancel_iff] at h
  simpa using h

lemma merge_shift (s t : Span) : (s.shift d).merge (t.shift d) = (s.merge t).shift d := by
  have hlt : t.start + d.bytes < s.start + d.bytes ↔ t.start < s.start := by omega
  unfold merge shift
  simp only [hlt]
  split <;> simp only [mk.injEq, true_and, and_true] <;> omega

end Span

lemma Mark.spanTo_shift (file : Nat) (m n : Mark) :
    (m.shift d).spanTo file (n.shift d) = (m.spanTo file n).shift d := rfl

namespace Cursor

def shift (d : Shift) (c : Cursor) : Cursor := ⟨c.mark.shift d, c.rest⟩

@[simp] lemma shift_rest (c : Cursor) : (c.shift d).rest = c.rest := rfl

@[simp] lemma shift_mark (c : Cursor) : (c.shift d).mark = c.mark.shift d := rfl

lemma skipWhile_shift (p : Char → Bool) (c : Cursor) :
    (c.shift d).skipWhile p = (c.skipWhile p).shift d := by
  simp only [skipWhile, shift, Mark.after_shift]

lemma past_shift (c : Cursor) (text : List Char) :
    (c.shift d).past text = (c.past text).shift d := by
  simp only [past, shift, Mark.after_shift]

lemma skipLine_shift (c : Cursor) : (c.shift d).skipLine = c.skipLine.shift d := by
  rw [skipLine_eq, skipLine_eq, skipWhile_shift]

end Cursor

end YinFrontEnd
