import YinFrontEnd.Span

/-!
# Names

A name stands for a text that an interner holds, and is nothing but the text's
position there. An identifier is a name together with the place it was written.
-/
namespace YinFrontEnd

structure Name where
  index : Nat
  deriving DecidableEq, Repr, Inhabited

/-- The name of the empty text. -/
def Name.empty : Name := ⟨0⟩

structure Ident where
  name : Name
  span : Span
  deriving DecidableEq, Repr, Inhabited

end YinFrontEnd
