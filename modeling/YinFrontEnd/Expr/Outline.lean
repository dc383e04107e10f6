import YinFrontEnd.Expr
import YinFrontEnd.Form.Outline

/-!
# Outlines of expressions

Expressions are outlined as forms are. A table is shown as its bags by the names of its
fields.
-/
namespace YinFrontEnd.Expr

mutual

def outline : Expr → String
  | block s es => placed s (Text.outlineCon "Block" (Text.outlineList (outlineAll es)))
  | conditional s a b c =>
      placed s (Text.outlineRecord "If"
        [("test", outline a), ("conseq", outline b), ("alt", outline c)])
  | definition s a b =>
      placed s (Text.outlineRecord "Def" [("pattern", outline a), ("value", outline b)])
  | assignment s a b =>
      placed s (Text.outlineRecord "Assign" [("pattern", outline a), ("value", outline b)])
  | declaration s ⟨fields, _⟩ =>
      placed s (Text.outlineCon "Declare" (Text.outlineTable (outlineFields fields)))
  | function s ps none e =>
      placed s (Text.outlineRecord "Fun" [("params", Text.outlineList (ps.map Ident.outline)),
        ("param_properties", Text.outlineOption none), ("body", outline e)])
  | function s ps (some ⟨fields, _⟩) e =>
      placed s (Text.outlineRecord "Fun" [("params", Text.outlineList (ps.map Ident.outline)),
        ("param_properties", Text.outlineOption (some (Text.outlineTable (outlineFields fields)))),
        ("body", outline e)])
  | recordType s n ps ⟨fields, _⟩ =>
      placed s (Text.outlineRecord "RecordDef" [("name", n.outline),
        ("parents", Text.outlineOption (ps.map fun is => Text.outlineList (is.map Ident.outline))),
        ("properties", Text.outlineTable (outlineFields fields))])
  | recordLiteral s es =>
      placed s (Text.outlineCon "RecordLiteral" (Text.outlineList (outlineAll es)))
  | vector s es => placed s (Text.outlineCon "VectorLiteral" (Text.outlineList (outlineAll es)))
  | call s e es =>
      placed s (Text.outlineRecord "Call"
        [("func", outline e), ("args", Text.outlineList (outlineAll es))])
  | member s e n =>
      placed s (Text.outlineRecord "Attr" [("value", outline e), ("attr", n.outline)])
  | ident s n => placed s (Text.outlineCon "Ident" n.outline)
  | keyword s n => placed s (Text.outlineCon "Keyword" n.outline)
  | int s v => placed s (Text.outlineCon "Int" (toString v.toInt))
  | float s b => placed s (Text.outlineCon "Float" (toString b.toNat))
  | str s n => placed s (Text.outlineCon "Str" n.outline)
where
  /-- An outline with the span it belongs to. -/
  placed (s : Span) (text : String) : String := text ++ " @ " ++ s.text

def outlineAll : List Expr → List String
  | [] => []
  | e :: es => outline e :: outlineAll es

/-- The outlines of a table's entries. -/
def outlineFields : List (Ident × Attributes Expr) → List (String × String)
  | [] => []
  | (field, ⟨entries⟩) :: fields =>
      (field.name.outline, Text.outlineTable (outlineBag entries)) :: outlineFields fields

/-- The outlines of a bag's entries. -/
def outlineBag : List (Name × Expr) → List (String × String)
  | [] => []
  | (key, e) :: es => (key.outline, outline e) :: outlineBag es

end

end YinFrontEnd.Expr

namespace YinFrontEnd

def Attributes.outline (a : Attributes Expr) : String :=
  Text.outlineTable (Expr.outlineBag a.entries)

def Properties.outline (t : Properties Expr) : String :=
  Text.outlineTable (Expr.outlineFields t.entries)

end YinFrontEnd
