import YinFrontEnd.Expr.Write
import YinFrontEnd.Form.Read
import YinFrontEnd.ParseError

/-!
# Parsing forms

A group in square brackets is a vector and one in curly brackets a record literal. A
group in parentheses is a special form if its first element is the name of one, and a
call otherwise. The first form that does not fit ends the parsing.

A field is a square group of a name, a type, and keywords with values. Parameters are
either all names or all groups that begin with a name; the square groups among them make
up the table of the parameters, in which `->` names the return type.
-/
namespace YinFrontEnd

namespace Attributes

/-- Puts keys and values, which take turns, into a bag. -/
def ofPairs (names : Interner) (a : Attributes Expr) :
    List Expr → Except ParseError (Attributes Expr)
  | key :: value :: es =>
      match key.keyword? with
      | some k => ofPairs names (a.insert k value) es
      | none => .error (FormFault.error (.keyNotKeyword (key.write names)) key.span)
  | _ => .ok a

/-- The bag of keys and values that take turns, of which there must be equally many. -/
def ofKeywordMap (names : Interner) (es : List Expr) (span : Span) :
    Except ParseError (Attributes Expr) :=
  if es.length % 2 = 0 then ofPairs names .empty es
  else
    let shown := Text.bracketed '(' ')' (es.map (Expr.chars names))
    .error (FormFault.error (.oddKeywordMap (String.ofList shown)) span)

end Attributes

namespace Properties

/-- Adds a field from the elements of its group. -/
def addField (names : Interner) (t : Properties Expr) (span : Span) :
    List Expr → Except ParseError (Properties Expr)
  | field :: type :: rest =>
      match field.ident? with
      | none => .error (FormFault.error (.fieldNotName (field.write names)) field.span)
      | some n =>
          if t.contains n then
            .error (FormFault.error (.duplicateField (names.text n)) field.span)
          else
            (Attributes.ofKeywordMap names rest span).map fun a =>
              t.extend ⟨n, field.span⟩ ((Attributes.empty.insert .typeKey type).merge a)
  | _ => .error (FormFault.error .emptySlot span)

end Properties

namespace Expr

/-- A parameter: its identifier unless it is the return type, and whether it is a group. -/
def parameter (names : Interner) : Form → Except ParseError (Option Ident × Bool)
  | .name s n => .ok (some ⟨n, s⟩, false)
  | .group s d [] =>
      .error (FormFault.error (.emptyParameter ((Form.group s d []).write names)) s)
  | .group _ _ (first :: _) =>
      match first.ident? with
      | none => .error (FormFault.error (.illegalParameterName (first.write names)) first.span)
      | some i => .ok (if i.name = .returnArrow then none else some i, true)
  | f => .error (FormFault.error (.illegalParameter (f.write names)) f.span)

/-- The parameters of a list and whether they are groups; it is an error if some are and some
are not. -/
def parameters (names : Interner) (list : Form) (elements : List Form) :
    Except ParseError (List Ident × Bool) :=
  match elements.mapM (parameter names) with
  | .error e => .error e
  | .ok params =>
      if params.any (·.2) && params.any (!·.2) then
        .error (FormFault.error (.mixedParameters (list.write names)) list.span)
      else .ok (params.filterMap (·.1), params.any (·.2))

/-- The parents of a record type. -/
def parents (names : Interner) (elements : List Form) : Except ParseError (List Ident) :=
  elements.mapM fun f =>
    match f.ident? with
    | some i => .ok i
    | none => .error (FormFault.error (.parentNotName (f.write names)) f.span)

mutual

/-- The expression that a form denotes. -/
def ofForm (names : Interner) : Form → Except ParseError Expr
  | .block s fs => (ofForms names fs).map (block s)
  | .member s f n => (ofForm names f).map fun e => member s e n
  | .name s n => .ok (ident s n)
  | .keyword s n => .ok (keyword s n)
  | .int s v => .ok (int s v)
  | .float s b => .ok (float s b)
  | .str s n => .ok (str s n)
  | .group s .curly fs => (ofForms names fs).map (recordLiteral s)
  | .group s .square fs => (ofForms names fs).map (vector s)
  | .group s .paren [] => .error (FormFault.error .emptyForm s)
  | .group s .paren (head :: operands) =>
      match head.name?.bind SpecialForm.ofName? with
      | none => do
          let e ← ofForm names head
          let es ← ofForms names operands
          return call s e es
      | some .sequence => (ofForms names operands).map (block s)
      | some .conditional =>
          match operands with
          | [test, consequent, alternative] => do
              let a ← ofForm names test
              let b ← ofForm names consequent
              let c ← ofForm names alternative
              return conditional s a b c
          | _ => .error (FormFault.error (.conditionalShape operands.length) s)
      | some .definition =>
          match operands with
          | [pattern, value] => do
              let a ← ofForm names pattern
              let b ← ofForm names value
              return definition s a b
          | _ => .error (FormFault.error (.definitionShape operands.length) s)
      | some .assignment =>
          match operands with
          | [pattern, value] => do
              let a ← ofForm names pattern
              let b ← ofForm names value
              return assignment s a b
          | _ => .error (FormFault.error (.assignmentShape operands.length) s)
      | some .declaration =>
          match operands with
          | [] => .error (FormFault.error .declarationShape s)
          | fields => (tableOf names .empty fields).map (declaration s)
      | some .function =>
          match operands with
          | [] => .error (FormFault.error .functionWithoutParameters s)
          | [_] => .error (FormFault.error .functionWithoutBody s)
          | list :: first :: others =>
              match list with
              | .group ls ld elements => do
                  let (params, typed) ← parameters names (.group ls ld elements) elements
                  let table ← if typed then (tableOf names .empty elements).map some else .ok none
                  let e ← ofForm names first
                  let es ← ofForms names others
                  let last := others.getLastD first
                  return function s params table (block (first.span.merge last.span) (e :: es))
              | f => .error (FormFault.error (.parametersNotGroup (f.write names)) f.span)
      | some .record =>
          match operands with
          | [] | [_] => .error (FormFault.error .recordShape s)
          | name :: first :: others =>
              match name.ident? with
              | none =>
                  .error (FormFault.error (.recordNameNotName (name.write names)) name.span)
              | some i =>
                  match first with
                  | .group _ .paren elements => do
                      let ps ← parents names elements
                      let table ← tableOf names .empty others
                      return recordType s i (some ps) table
                  | _ => do
                      let table ← tableOf names .empty (first :: others)
                      return recordType s i none table

def ofForms (names : Interner) : List Form → Except ParseError (List Expr)
  | [] => .ok []
  | f :: fs => do
      let e ← ofForm names f
      let es ← ofForms names fs
      return e :: es

/-- Adds the fields that the square groups among some forms write to a table. -/
def tableOf (names : Interner) (t : Properties Expr) :
    List Form → Except ParseError (Properties Expr)
  | [] => .ok t
  | f :: fs =>
      match f with
      | .group s .square elements => do
          let es ← ofForms names elements
          let t ← t.addField names s es
          tableOf names t fs
      | _ => tableOf names t fs

end

/-- The table of fields that the square groups among some forms write. -/
def properties (names : Interner) (fs : List Form) : Except ParseError (Properties Expr) :=
  tableOf names .empty fs

/-- Reads and parses a program. -/
def parse (file : Nat) (names : Interner) (text : String) : Interner × Except ParseError Expr :=
  match Form.read file names text with
  | (names, .error e) => (names, .error (.ofReadError e))
  | (names, .ok f) => (names, ofForm names f)

end Expr

end YinFrontEnd
