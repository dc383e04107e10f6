import YinFrontEnd.Diagnostic
import YinFrontEnd.Text.Bytes

/-!
# Reports

A report is the text that shows diagnostics to a person. Each label is shown with the
line of the source it points into, marked below, if the source has that line. A report
is made of pieces, some of which have a colour; only the last step decides whether the
colours are written.
-/
namespace YinFrontEnd.Report

/-- The colours of a report's pieces. -/
inductive Style where
  | error
  | help
  | bold
  | secondary
  deriving DecidableEq, Repr

/-- The terminal sequence that begins a colour. -/
def Style.begin : Style → String
  | .error => "\x1b[1;31m"
  | .help => "\x1b[1;32m"
  | .bold => "\x1b[1m"
  | .secondary => "\x1b[1;34m"

/-- The terminal sequence that ends every colour. -/
def reset : String := "\x1b[0m"

structure Piece where
  style : Option Style
  text : String
  deriving DecidableEq, Repr

def plain (s : String) : Piece := ⟨none, s⟩

def colored (c : Style) (s : String) : Piece := ⟨some c, s⟩

/-- A piece as it is written, with or without its colour. -/
def Piece.write (colors : Bool) (p : Piece) : String :=
  match colors, p.style with
  | true, some c => c.begin ++ p.text ++ reset
  | _, _ => p.text

def write (colors : Bool) (ps : List Piece) : String := String.join (ps.map (Piece.write colors))

/-- The text of a source and the path under which it is shown. -/
structure Source where
  path : String
  content : String
  deriving DecidableEq, Repr

/-- The line around an offset, without the carriage returns at its end. An offset past the end or
inside a character has no line. -/
def Source.lineAt? (source : Source) (offset : Nat) : Option (List Char) :=
  (Text.splitAtByte? offset source.content.toList).map fun (before, after) =>
    let line := (before.reverse.takeWhile (· != '\n')).reverse ++ after.takeWhile (· != '\n')
    (line.reverse.dropWhile (· == '\r')).reverse

/-- The number of characters at the front that begin within `budget` bytes. -/
def charsWithin : Nat → List Char → Nat
  | _, [] => 0
  | budget, c :: cs => if budget = 0 then 0 else 1 + charsWithin (budget - c.utf8Size) cs

/-- Blanks below the characters of a line up to a column; tabs stay tabs. -/
def padding (line : List Char) (column : Nat) : List Char :=
  (line.take (column - 1)).map fun c => if c = '\t' then '\t' else ' '

/-- The number of marks below the part of a line that a span covers. -/
def markCount (line : List Char) (s : Span) : Nat :=
  max 1 (charsWithin s.length (line.drop (s.column - 1)))

/-- What stands left of a line: its number, or as many blanks. -/
def gutter (number : String) (width : Nat) : Piece :=
  colored .secondary (String.ofList (List.replicate (width - number.length) ' ') ++ number ++ " |")

/-- Where a label points to. -/
def location (source : Option Source) (s : Span) : String :=
  match source with
  | some src => src.path ++ ":" ++ s.place
  | none => s.place

/-- The arrow before a location. -/
def arrow (label : Label) : String := if label.isPrimary then "-->" else ":::"

def labelStyle (label : Label) : Style := if label.isPrimary then .error else .secondary

/-- A label without a line of source. -/
def bareLabel (source : Option Source) (label : Label) : List Piece :=
  [plain ("  " ++ arrow label ++ " " ++ location source label.span ++ ": "),
    colored (labelStyle label) label.message, plain "\n"]

/-- The message after the marks, if there is one. -/
def labelMessage (label : Label) : List Piece :=
  if label.message = "" then [] else [plain " ", colored (labelStyle label) label.message]

/-- A label with the line of source it points into. -/
def snippet (source : Option Source) (label : Label) (line : List Char) : List Piece :=
  let number := toString label.span.line
  let width := number.length
  let mark := if label.isPrimary then '^' else '-'
  [plain (String.ofList (List.replicate (width + 1) ' ') ++ arrow label ++ " " ++
      location source label.span ++ "\n"),
    gutter "" width, plain "\n",
    gutter number width, plain (" " ++ String.ofList line ++ "\n"),
    gutter "" width, plain (" " ++ String.ofList (padding line label.span.column)),
    colored (labelStyle label)
      (String.ofList (List.replicate (markCount line label.span) mark))] ++
    labelMessage label ++ [plain "\n"]

def labelPieces (source : Option Source) (label : Label) : List Piece :=
  match source.bind fun src => src.lineAt? label.span.start with
  | some line => snippet source label line
  | none => bareLabel source label

def suggestionPieces (s : String) : List Piece :=
  [plain "  = ", colored .help "help", plain (": " ++ s ++ "\n")]

/-- One diagnostic, with an empty line after it. -/
def pieces (source : Option Source) (d : Diagnostic) : List Piece :=
  [colored .error "error", colored .bold ("[" ++ d.code.text ++ "]"),
    plain (": " ++ d.message ++ "\n")] ++
    d.labels.flatMap (labelPieces source) ++ d.suggestions.flatMap suggestionPieces ++ [plain "\n"]

/-- The last line of a report on `count` problems. -/
def summary (count : Nat) : List Piece :=
  if count = 0 then []
  else if count = 1 then [colored .error "error", plain ": aborting due to previous error\n"]
  else [colored .error "error", plain s!": aborting due to {count} previous errors\n"]

/-- When colours are written. -/
inductive ColorMode where
  /-- On a terminal. -/
  | auto
  | always
  | never
  deriving DecidableEq, Repr, Inhabited

namespace ColorMode

def all : List ColorMode := [auto, always, never]

/-- The word that asks for the mode. -/
def text : ColorMode → String
  | auto => "auto"
  | always => "always"
  | never => "never"

def ofText? (s : String) : Option ColorMode := all.find? fun m => m.text == s

/-- Whether colours are written, on a terminal or elsewhere. -/
def enabled (m : ColorMode) (terminal : Bool) : Bool :=
  match m with
  | auto => terminal
  | always => true
  | never => false

end ColorMode

end YinFrontEnd.Report
