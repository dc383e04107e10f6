import YinFrontEnd.Form
import YinFrontEnd.Text.Outline

/-!
# Outlines of forms

Names are shown by their number, floating-point numbers by their words, and every part
with its span.
-/
namespace YinFrontEnd

def Name.outline (n : Name) : String := Text.outlineCon "Name" (toString n.index)

def Ident.outline (i : Ident) : String := i.name.outline ++ " @ " ++ i.span.text

def Delimiter.outline : Delimiter → String
  | .paren => "Paren"
  | .square => "Square"
  | .curly => "Curly"

namespace Form

mutual

def outline : Form → String
  | block s fs => Text.outlineCon "Block" (Text.outlineList (outlineAll fs)) ++ " @ " ++ s.text
  | group s d fs =>
      Text.outlineRecord "Tuple"
        [("open", d.outline), ("elements", Text.outlineList (outlineAll fs))] ++ " @ " ++ s.text
  | member s f n =>
      Text.outlineRecord "Attr" [("value", outline f), ("attr", n.outline)] ++ " @ " ++ s.text
  | name s n => Text.outlineCon "Name" n.outline ++ " @ " ++ s.text
  | keyword s n => Text.outlineCon "Keyword" n.outline ++ " @ " ++ s.text
  | int s v => Text.outlineCon "Int" (toString v.toInt) ++ " @ " ++ s.text
  | float s b => Text.outlineCon "Float" (toString b.toNat) ++ " @ " ++ s.text
  | str s n => Text.outlineCon "Str" n.outline ++ " @ " ++ s.text

def outlineAll : List Form → List String
  | [] => []
  | f :: fs => outline f :: outlineAll fs

end

end Form

end YinFrontEnd
