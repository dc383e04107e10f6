import Std.Data.TreeMap
import YinFrontEnd.Name

/-!
# The interner

An interner numbers texts in the order in which they first come in. The list of
texts answers what a name stands for, and the index answers which name a text
has. Every interner begins with the empty text and the reserved words, which
therefore have the same names everywhere.
-/
namespace YinFrontEnd

structure Interner where
  strings : Array String
  index : Std.TreeMap String Nat

namespace Interner

/-- The words with a fixed name, the empty text being the first. -/
def reserved : List String :=
  ["", "seq", "if", "define", "set!", "declare", "fun", "record", "->", "type"]

/-- The number of texts that names can tell apart. -/
def capacity : Nat := 0x100000000

/-- A text that found the interner full. -/
structure Overflow where
  count : Nat
  deriving DecidableEq, Repr

def Overflow.message (e : Overflow) : String :=
  s!"interner exceeded capacity: {e.count} strings, max is {capacity - 1}"

def empty : Interner := ⟨#[], {}⟩

/-- The name a text already has. -/
def find? (t : Interner) (s : String) : Option Name := t.index[s]?.map Name.mk

/-- Adds a text at the end, without looking whether it is known. -/
def push (t : Interner) (s : String) : Interner :=
  ⟨t.strings.push s, t.index.insert s t.strings.size⟩

/-- The name of a text, given to it now if it is new. -/
def intern (t : Interner) (s : String) : Interner × Name :=
  match t.find? s with
  | some n => (t, n)
  | none => (t.push s, ⟨t.strings.size⟩)

/-- Interns a text unless it is new and every name is taken. -/
def tryIntern (t : Interner) (s : String) : Interner × Except Overflow Name :=
  match t.find? s with
  | some n => (t, .ok n)
  | none =>
      if capacity ≤ t.strings.size then (t, .error ⟨t.strings.size⟩)
      else (t.push s, .ok ⟨t.strings.size⟩)

/-- The interner that holds the reserved words and nothing else. -/
def new : Interner := reserved.foldl (fun t s => (t.intern s).1) empty

def size (t : Interner) : Nat := t.strings.size

/-- True of an interner that holds at most the empty text. -/
def isEmpty (t : Interner) : Bool := decide (t.size ≤ 1)

def text? (t : Interner) (n : Name) : Option String := t.strings[n.index]?

/-- The text of a name; a name from elsewhere reads as the empty text. -/
def text (t : Interner) (n : Name) : String := (t.text? n).getD ""

def toList (t : Interner) : List String := t.strings.toList

/-- The texts that came in after the reserved words. -/
def learned (t : Interner) : List String := t.toList.drop reserved.length

end Interner

end YinFrontEnd
