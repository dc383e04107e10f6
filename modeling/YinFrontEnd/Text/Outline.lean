/-!
# Outlines of data

An outline shows the constructors of a value with their parts: lists in square
brackets, tables and named parts in curly ones.
-/
namespace YinFrontEnd.Text

def outlineList (items : List String) : String := "[" ++ ", ".intercalate items ++ "]"

/-- A constructor with parts that have no names. -/
def outlineCon (name : String) (part : String) : String := name ++ "(" ++ part ++ ")"

/-- A table from keys to values. -/
def outlineTable (entries : List (String × String)) : String :=
  "\x7b" ++ ", ".intercalate (entries.map fun e => e.1 ++ ": " ++ e.2) ++ "\x7d"

/-- A constructor with named parts. -/
def outlineRecord (name : String) (parts : List (String × String)) : String :=
  name ++ " \x7b " ++ ", ".intercalate (parts.map fun p => p.1 ++ ": " ++ p.2) ++ " \x7d"

def outlineOption : Option String → String
  | none => "None"
  | some s => outlineCon "Some" s

end YinFrontEnd.Text
