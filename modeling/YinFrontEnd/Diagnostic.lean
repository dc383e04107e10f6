import YinFrontEnd.ErrorCode
import YinFrontEnd.Span

/-!
# Diagnostics

A diagnostic is what a reader of messages is told about one problem: its code, a
headline, labelled places of which the primary ones are to blame, and advice.
-/
namespace YinFrontEnd

structure Label where
  span : Span
  message : String
  isPrimary : Bool
  deriving DecidableEq, Repr

structure Diagnostic where
  code : ErrorCode
  message : String
  labels : List Label
  suggestions : List String
  deriving DecidableEq, Repr

/-- The code and the headline. -/
def Diagnostic.text (d : Diagnostic) : String := s!"error[{d.code.text}]: {d.message}"

end YinFrontEnd
