import YinFrontEnd.Form
import YinFrontEnd.Interner
import YinFrontEnd.Lexeme.Scan

/-!
# Reading forms

The lexemes of a text are put together from left to right. The groups that are still
open form a stack; a closing bracket must fit the innermost one, and the end of the
text must find none open. Texts are interned as their lexemes are met, so a text that
fails to be read has interned what stands before the mistake.
-/
namespace YinFrontEnd

/-- A group that is still open, and the forms before it at its own level, the last one first. -/
structure OpenGroup where
  delimiter : Delimiter
  start : Mark
  before : List Form
  deriving DecidableEq

/-- The state of reading: the finished forms of the innermost level, the last one first, and the
open groups, the innermost one first. -/
structure Assembly where
  done : List Form
  groups : List OpenGroup
  deriving DecidableEq

namespace Assembly

def empty : Assembly := ⟨[], []⟩

/-- Adds a form at the innermost level. -/
def push (a : Assembly) (f : Form) : Assembly := ⟨f :: a.done, a.groups⟩

/-- The span of the bracket that opened a group. -/
def openSpan (file : Nat) (g : OpenGroup) : Span :=
  g.start.spanTo file (g.start.step g.delimiter.opening)

/-- Closes the innermost group with the bracket `d` of the lexeme `l`. -/
def close (file : Nat) (a : Assembly) (d : Delimiter) (l : Lexeme) : Except ReadError Assembly :=
  match a.groups with
  | [] => .error ⟨.unexpectedCloser d, l.span file⟩
  | g :: groups =>
      if d = g.delimiter then
        .ok ⟨.group (g.start.spanTo file l.stop) d a.done.reverse :: g.before, groups⟩
      else .error ⟨.mismatchedCloser g.delimiter (openSpan file g) d, l.span file⟩

/-- Makes the last form the value of the member `n` that ends at the lexeme `l`. -/
def attach (file : Nat) (a : Assembly) (n : Name) (l : Lexeme) : Except ReadError Assembly :=
  match a.done with
  | [] => .error ⟨.danglingMember, l.start.spanTo file (l.start.step '.')⟩
  | value :: done =>
      let name : Ident := ⟨n, (l.start.step '.').spanTo file l.stop⟩
      .ok ⟨.member ⟨file, value.span.start, l.stop.offset, value.span.line, value.span.column⟩
        value name :: done, a.groups⟩

/-- Takes in one lexeme. -/
def step (file : Nat) (names : Interner) (a : Assembly) (l : Lexeme) :
    Interner × Except ReadError Assembly :=
  match l.token with
  | .opening d => (names, .ok ⟨[], ⟨d, l.start, a.done⟩ :: a.groups⟩)
  | .closing d => (names, a.close file d l)
  | .member s => ((names.intern s).1, a.attach file (names.intern s).2 l)
  | .name s => ((names.intern s).1, .ok (a.push (.name (l.span file) (names.intern s).2)))
  | .keyword s => ((names.intern s).1, .ok (a.push (.keyword (l.span file) (names.intern s).2)))
  | .str s => ((names.intern s).1, .ok (a.push (.str (l.span file) (names.intern s).2)))
  | .numeral (.int v) => (names, .ok (a.push (.int (l.span file) v)))
  | .numeral (.float b) => (names, .ok (a.push (.float (l.span file) b)))

/-- Takes in lexemes up to the first that does not fit. -/
def run (file : Nat) (names : Interner) (a : Assembly) :
    List Lexeme → Interner × Except ReadError Assembly
  | [] => (names, .ok a)
  | l :: ls =>
      match a.step file names l with
      | (names, .ok a) => run file names a ls
      | (names, .error e) => (names, .error e)

/-- The program that has been read when the text ends at `stop`. -/
def finish (file : Nat) (a : Assembly) (stop : Mark) : Except ReadError Form :=
  match a.groups with
  | [] => .ok (.block (Mark.origin.spanTo file stop) a.done.reverse)
  | g :: _ => .error ⟨.unclosedDelimiter g.delimiter, openSpan file g⟩

end Assembly

/-- Reads a program. -/
def Form.read (file : Nat) (names : Interner) (text : String) :
    Interner × Except ReadError Form :=
  let scan := Scan.ofText file text.toList
  match Assembly.empty.run file names scan.lexemes with
  | (names, .error e) => (names, .error e)
  | (names, .ok a) => (names, scan.ending.bind (a.finish file))

end YinFrontEnd
