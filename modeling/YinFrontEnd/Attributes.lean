import YinFrontEnd.Name

/-!
# Attributes

A bag of attributes gives values to keys. Keys keep the order in which they first
came; a later value for a key takes the place of the earlier one.
-/
namespace YinFrontEnd

structure Attributes (α : Type) where
  entries : List (Name × α)
  deriving Repr, BEq

namespace Attributes

variable {α : Type}

def empty : Attributes α := ⟨[]⟩

/-- Puts a value under a key in a list of entries. -/
def put (key : Name) (value : α) : List (Name × α) → List (Name × α)
  | [] => [(key, value)]
  | (k, v) :: es => if k = key then (k, value) :: es else (k, v) :: put key value es

def insert (a : Attributes α) (key : Name) (value : α) : Attributes α := ⟨put key value a.entries⟩

/-- Puts every entry of `b` into `a`, in the order of `b`. -/
def merge (a b : Attributes α) : Attributes α :=
  b.entries.foldl (fun a e => a.insert e.1 e.2) a

def get? (a : Attributes α) (key : Name) : Option α :=
  (a.entries.find? fun e => e.1 == key).map Prod.snd

def contains (a : Attributes α) (key : Name) : Bool := (a.get? key).isSome

def keys (a : Attributes α) : List Name := a.entries.map Prod.fst

def size (a : Attributes α) : Nat := a.entries.length

def isEmpty (a : Attributes α) : Bool := a.entries.isEmpty

end Attributes

end YinFrontEnd
