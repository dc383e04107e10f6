import YinFrontEnd.Text.Shown

/-!
# Places in source text

A span names a file, a half-open range of byte offsets, and the line and column
of its first character, both counted from one. Spans of code that was never
written carry zeros throughout.
-/
namespace YinFrontEnd

structure Span where
  file : Nat
  start : Nat
  stop : Nat
  line : Nat
  column : Nat
  deriving DecidableEq, Repr, Inhabited

namespace Span

/-- The span of generated code. -/
def dummy : Span := ⟨0, 0, 0, 0, 0⟩

/-- The largest offset a span may hold. -/
def maxOffset : Nat := 0xffffffff

/-- Why a range of offsets is refused. -/
inductive RangeError where
  | startTooLarge (offset : Nat)
  | endTooLarge (offset : Nat)
  deriving DecidableEq, Repr

/-- The span of a range whose two ends are offsets a span may hold. -/
def ofRange (file start stop line column : Nat) : Except RangeError Span :=
  if maxOffset < start then .error (.startTooLarge start)
  else if maxOffset < stop then .error (.endTooLarge stop)
  else .ok ⟨file, start, stop, line, column⟩

/-- The number of bytes covered. -/
def length (s : Span) : Nat := s.stop - s.start

def isEmpty (s : Span) : Bool := s.start == s.stop

def contains (s : Span) (offset : Nat) : Bool := decide (s.start ≤ offset ∧ offset < s.stop)

/-- The least span that covers both, placed where the earlier of the two starts. -/
def merge (s t : Span) : Span :=
  let first := if t.start < s.start then t else s
  ⟨s.file, first.start, max s.stop t.stop, first.line, first.column⟩

/-- The line and column, as they are written in messages. -/
def place (s : Span) : String := s!"{s.line}:{s.column}"

/-- All five numbers. -/
def text (s : Span) : String := s!"{s.file}:{s.start}..{s.stop}@{s.line}:{s.column}"

@[simp] theorem merge_start (s t : Span) : (s.merge t).start = min s.start t.start := by
  simp only [merge]; split <;> omega

@[simp] theorem merge_stop (s t : Span) : (s.merge t).stop = max s.stop t.stop := rfl

@[simp] theorem merge_file (s t : Span) : (s.merge t).file = s.file := rfl

theorem merge_self (s : Span) : s.merge s = s := by simp [merge]

end Span

def Span.RangeError.message : Span.RangeError → String
  | .startTooLarge n => tooLarge "start" n
  | .endTooLarge n => tooLarge "end" n
where
  tooLarge (side : String) (n : Nat) : String :=
    s!"span {side} {n} (0x{Text.hexUpper n}) exceeds u32::MAX (0x{Text.hexUpper Span.maxOffset})"

end YinFrontEnd
