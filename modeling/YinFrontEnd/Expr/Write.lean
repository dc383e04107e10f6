import YinFrontEnd.Expr
import YinFrontEnd.Form.Write

/-!
# Writing expressions

An expression is written as a form that has its meaning. The attribute `type` of a field
is written by position, before the others. A typed parameter list is written from the
parameters and their table together, in the order of both.
-/
namespace YinFrontEnd

/-- Brings parameters and table entries into one list. A parameter takes the first entry that is
left for it, with the entries before that one; a parameter without an entry stands alone. -/
def alignParams {α : Type} : List Ident → List (Ident × α) → List (Ident × Option α)
  | [], fields => fields.map fun f => (f.1, some f.2)
  | p :: ps, fields =>
      match fields.findIdx? fun f => f.1 == p with
      | some i =>
          (fields.take (i + 1)).map (fun f => (f.1, some f.2)) ++
            alignParams ps (fields.drop (i + 1))
      | none => (p, none) :: alignParams ps fields

namespace Expr

/-- True of the key of the attribute that is written by position. -/
def isTypeKey (names : Interner) (key : Name) : Bool := names.text key == "type"

/-- The pieces of a bag whose values are written already: the type, then keys and values. -/
def bagPieces (names : Interner) (entries : List (Name × List Char)) : List (List Char) :=
  let isType (e : Name × List Char) : Bool := isTypeKey names e.1
  ((entries.find? isType).map Prod.snd).toList ++
    (entries.filter fun e => !isType e).flatMap fun e => [':' :: names.chars e.1, e.2]

/-- A field with the pieces of its attributes. -/
def fieldChars (names : Interner) (field : Ident) (pieces : List (List Char)) : List Char :=
  Text.bracketed '[' ']' (names.chars field.name :: pieces)

/-- A list of names in parentheses. -/
def namesChars (names : Interner) (idents : List Ident) : List Char :=
  Text.bracketed '(' ')' (idents.map fun i => names.chars i.name)

/-- A typed parameter list, from the parameters and the pieces of their table's attributes. -/
def paramsChars (names : Interner) (params : List Ident)
    (fields : List (Ident × List (List Char))) : List Char :=
  Text.bracketed '(' ')' ((alignParams params fields).map fun
    | (field, some pieces) => fieldChars names field pieces
    | (param, none) => namesChars names [param])

mutual

/-- An expression as it is written. -/
def chars (names : Interner) : Expr → List Char
  | block _ es => Text.bracketed '(' ')' ("seq".toList :: charsAll names es)
  | conditional _ a b c =>
      Text.bracketed '(' ')' ["if".toList, chars names a, chars names b, chars names c]
  | definition _ a b => Text.bracketed '(' ')' ["define".toList, chars names a, chars names b]
  | assignment _ a b => Text.bracketed '(' ')' ["set!".toList, chars names a, chars names b]
  | declaration _ ⟨fields, _⟩ =>
      Text.bracketed '(' ')' ("declare".toList ::
        (charsFields names fields).map fun f => fieldChars names f.1 f.2)
  | function _ params none (block _ es) =>
      Text.bracketed '(' ')' ("fun".toList :: namesChars names params :: charsAll names es)
  | function _ params none e =>
      Text.bracketed '(' ')' ["fun".toList, namesChars names params, chars names e]
  | function _ params (some ⟨fields, _⟩) (block _ es) =>
      Text.bracketed '(' ')'
        ("fun".toList :: paramsChars names params (charsFields names fields) ::
          charsAll names es)
  | function _ params (some ⟨fields, _⟩) e =>
      Text.bracketed '(' ')'
        ["fun".toList, paramsChars names params (charsFields names fields), chars names e]
  | recordType _ n parents ⟨fields, _⟩ =>
      Text.bracketed '(' ')' ("record".toList :: names.chars n.name ::
        ((parents.map (namesChars names)).toList ++
          (charsFields names fields).map fun f => fieldChars names f.1 f.2))
  | recordLiteral _ es => Text.bracketed '\x7b' '\x7d' (charsAll names es)
  | vector _ es => Text.bracketed '[' ']' (charsAll names es)
  | call _ e es => Text.bracketed '(' ')' (chars names e :: charsAll names es)
  | member _ e n => chars names e ++ '.' :: names.chars n.name
  | ident _ n => names.chars n
  | keyword _ n => ':' :: names.chars n
  | int _ v => Decimal.intText v.toInt
  | float _ bits => FloatText.ofBits bits
  | str _ n => Text.quote (names.chars n)

def charsAll (names : Interner) : List Expr → List (List Char)
  | [] => []
  | e :: es => chars names e :: charsAll names es

def charsFields (names : Interner) :
    List (Ident × Attributes Expr) → List (Ident × List (List Char))
  | [] => []
  | (field, ⟨entries⟩) :: fields =>
      (field, bagPieces names (charsBag names entries)) :: charsFields names fields

def charsBag (names : Interner) : List (Name × Expr) → List (Name × List Char)
  | [] => []
  | (key, e) :: es => (key, chars names e) :: charsBag names es

end

theorem charsAll_eq_map (names : Interner) (es : List Expr) :
    charsAll names es = es.map (chars names) := by
  induction es with
  | nil => rfl
  | cons e es ih => simp [charsAll, ih]

def write (names : Interner) (e : Expr) : String := String.ofList (chars names e)

/-- The lines of a program, one for each statement. -/
def writeLines (names : Interner) (e : Expr) : List String := e.statements.map (write names)

end Expr

end YinFrontEnd
