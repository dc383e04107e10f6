import Std.Data.TreeMap
import YinFrontEnd.Attributes

/-!
# Properties

A table of properties gives a bag of attributes to each of its fields. Fields keep the
order and the identifier with which they first came. The index finds a field's position
by its name. Two tables are the same table if they have the same entries in the same
order, since the index follows from the entries.
-/
namespace YinFrontEnd

structure Properties (α : Type) where
  entries : List (Ident × Attributes α)
  index : Std.TreeMap Nat Nat
  deriving Inhabited

namespace Properties

variable {α : Type}

def empty : Properties α := ⟨[], {}⟩

/-- The position of the field with a name. -/
def position? (t : Properties α) (n : Name) : Option Nat := t.index[n.index]?

def contains (t : Properties α) (n : Name) : Bool := (t.position? n).isSome

/-- Applies `f` to the attributes of a field, which comes in at the end if it is new. -/
def update (t : Properties α) (field : Ident) (f : Attributes α → Attributes α) : Properties α :=
  match t.position? field.name with
  | some i => ⟨t.entries.modify i fun e => (e.1, f e.2), t.index⟩
  | none =>
      ⟨t.entries ++ [(field, f .empty)], t.index.insert field.name.index t.entries.length⟩

/-- Puts one attribute into a field. -/
def insert (t : Properties α) (field : Ident) (key : Name) (value : α) : Properties α :=
  t.update field fun a => a.insert key value

/-- Puts a bag of attributes into a field. -/
def extend (t : Properties α) (field : Ident) (attributes : Attributes α) : Properties α :=
  t.update field fun a => a.merge attributes

def entry? (t : Properties α) (n : Name) : Option (Ident × Attributes α) :=
  (t.position? n).bind fun i => t.entries[i]?

def get? (t : Properties α) (n : Name) : Option (Attributes α) := (t.entry? n).map Prod.snd

/-- The identifier with which a field first came. -/
def field? (t : Properties α) (n : Name) : Option Ident := (t.entry? n).map Prod.fst

def names (t : Properties α) : List Name := t.entries.map fun e => e.1.name

def size (t : Properties α) : Nat := t.entries.length

def isEmpty (t : Properties α) : Bool := t.entries.isEmpty

instance [BEq α] : BEq (Properties α) := ⟨fun s t => s.entries == t.entries⟩

end Properties

end YinFrontEnd
