import YinFrontEnd.Delimiter
import YinFrontEnd.Diagnostic

/-!
# Reading errors

The ways in which a text fails to be read, each with its code and wording. Reading
stops at the first of them.
-/
namespace YinFrontEnd

inductive ReadFault where
  | unterminatedString
  | invalidEscape (escape : Char)
  | invalidNumber (text : String) (overflow : Bool)
  | unclosedDelimiter (opened : Delimiter)
  | unexpectedCloser (closed : Delimiter)
  | mismatchedCloser (opened : Delimiter) (openSpan : Span) (closed : Delimiter)
  | emptyKeyword
  | danglingMember
  deriving DecidableEq, Repr

structure ReadError where
  fault : ReadFault
  span : Span
  deriving DecidableEq, Repr

namespace ReadFault

def code : ReadFault → ErrorCode
  | unterminatedString => .unterminatedString
  | invalidEscape _ => .invalidEscape
  | invalidNumber _ _ => .invalidNumber
  | unclosedDelimiter _ => .unclosedDelimiter
  | unexpectedCloser _ => .unexpectedCloser
  | mismatchedCloser _ _ _ => .mismatchedCloser
  | emptyKeyword => .emptyKeyword
  | danglingMember => .danglingMember

/-- The headline. -/
def message : ReadFault → String
  | unterminatedString => "unterminated string literal"
  | invalidEscape c => "invalid escape sequence `\\" ++ Text.shownChar c ++ "`"
  | invalidNumber text true => "number literal `" ++ text ++ "` is out of range"
  | invalidNumber text false => "invalid number literal `" ++ text ++ "`"
  | unclosedDelimiter d => "unclosed delimiter `" ++ d.opening.toString ++ "`"
  | unexpectedCloser d => "unexpected closing delimiter `" ++ d.closing.toString ++ "`"
  | mismatchedCloser o _ c =>
      "mismatched closing delimiter: expected `" ++ o.closing.toString ++ "`, found `" ++
        c.closing.toString ++ "`"
  | emptyKeyword => "keyword has no name after `:`"
  | danglingMember => "expected attribute name after `.`"

/-- The label of the place to blame. -/
def label : ReadFault → String
  | unterminatedString => "string starts here"
  | invalidEscape _ => "unknown escape"
  | invalidNumber _ _ => "not a number"
  | unclosedDelimiter _ => "opened here and never closed"
  | unexpectedCloser _ => "nothing to close"
  | mismatchedCloser _ _ _ => "mismatched closer"
  | emptyKeyword => "empty keyword"
  | danglingMember => "dangling `.`"

def suggestion? : ReadFault → Option String
  | unterminatedString => some "add closing `\"`"
  | invalidEscape _ => some "valid escapes are: \\n, \\t, \\r, \\\\, \\\", \\0"
  | _ => none

/-- The label of the other place that has a part in the problem. -/
def secondary? : ReadFault → Option Label
  | mismatchedCloser o s _ => some ⟨s, "`" ++ o.opening.toString ++ "` opened here", false⟩
  | _ => none

theorem code_isLexical (f : ReadFault) : f.code.isLexical = true := by cases f <;> rfl

end ReadFault

namespace ReadError

def code (e : ReadError) : ErrorCode := e.fault.code

def message (e : ReadError) : String := e.fault.message

/-- The place and the headline. -/
def text (e : ReadError) : String := s!"{e.span.place}: {e.message}"

def diagnostic (e : ReadError) : Diagnostic :=
  ⟨e.code, e.message, ⟨e.span, e.fault.label, true⟩ :: e.fault.secondary?.toList,
    e.fault.suggestion?.toList⟩

end ReadError

end YinFrontEnd
