import YinFrontEnd.ErrorCode

/-!
# Explanations

Each code has an explanation in Markdown: what the mistake is, an example, and
how to put it right.
-/
namespace YinFrontEnd.ErrorCode

/-- The lines of a code's explanation. -/
def explanationLines : ErrorCode → List String
  | unterminatedString =>
    ["# E0001: Unterminated String Literal",
      "",
      "A string literal was opened with `\"` but the file ended before the closing quote.",
      "",
      "## Example",
      "",
      "```yin",
      "(print \"hello)",
      "```",
      "",
      "## Solution",
      "",
      "Add the missing closing quote. Strings may span lines, so the error points at the opening quote.",
      "",
      "```yin",
      "(print \"hello\")",
      "```"]
  | invalidEscape =>
    ["# E0002: Invalid Escape Sequence",
      "",
      "A backslash inside a string literal was followed by a character that is not a known escape.",
      "",
      "The recognized escapes are `\\n`, `\\t`, `\\r`, `\\\\`, `\\\"` and `\\0`.",
      "",
      "## Example",
      "",
      "```yin",
      "(print \"tab:\\q\")",
      "```",
      "",
      "## Solution",
      "",
      "Use one of the recognized escapes, or write `\\\\` for a literal backslash.",
      "",
      "```yin",
      "(print \"tab:\\t\")",
      "```"]
  | invalidNumber =>
    ["# E0003: Invalid Number Literal",
      "",
      "A token starts like a number (a digit, or a sign followed by a digit) but is not a valid integer or float.",
      "",
      "## Example",
      "",
      "```yin",
      "(define x 12ab)",
      "```",
      "",
      "## Solution",
      "",
      "Integers may use `_` as a digit separator. Floats need digits after the `.` or an exponent such as `1e10`. Integers must fit in 64 bits.",
      "",
      "```yin",
      "(define x 12)",
      "```"]
  | unclosedDelimiter =>
    ["# E0004: Unclosed Delimiter",
      "",
      "An opening `(`, `[` or `\x7b` has no matching closing delimiter before the end of the file.",
      "",
      "## Example",
      "",
      "```yin",
      "(define x (add 1 2)",
      "```",
      "",
      "## Solution",
      "",
      "Add the missing closer. The error points at the opening delimiter that was never closed.",
      "",
      "```yin",
      "(define x (add 1 2))",
      "```"]
  | unexpectedCloser =>
    ["# E0005: Unexpected Closing Delimiter",
      "",
      "A closing `)`, `]` or `\x7d` appeared where no group was open.",
      "",
      "## Example",
      "",
      "```yin",
      "(print 1))",
      "```",
      "",
      "## Solution",
      "",
      "Remove the extra closer, or add the opener it was meant to match.",
      "",
      "```yin",
      "(print 1)",
      "```"]
  | mismatchedCloser =>
    ["# E0006: Mismatched Closing Delimiter",
      "",
      "A closing delimiter does not match the innermost open group.",
      "",
      "## Example",
      "",
      "```yin",
      "(print [1 2)",
      "```",
      "",
      "## Solution",
      "",
      "Close the innermost group first. `(` pairs with `)`, `[` with `]` and `\x7b` with `\x7d`.",
      "",
      "```yin",
      "(print [1 2])",
      "```"]
  | emptyKeyword =>
    ["# E0007: Empty Keyword",
      "",
      "A `:` was not followed by a keyword name.",
      "",
      "## Example",
      "",
      "```yin",
      "[x Int : 0]",
      "```",
      "",
      "## Solution",
      "",
      "Write the keyword name directly after the colon, with no space.",
      "",
      "```yin",
      "[x Int :default 0]",
      "```"]
  | danglingMember =>
    ["# E0008: Dangling Attribute Access",
      "",
      "A `.` used for attribute access was not followed by an attribute name.",
      "",
      "## Example",
      "",
      "```yin",
      "(print point.)",
      "```",
      "",
      "## Solution",
      "",
      "Write the attribute name after the dot, or remove the dot.",
      "",
      "```yin",
      "(print point.x)",
      "```"]
  | emptyForm =>
    ["# E1001: Empty Form",
      "",
      "A parenthesized form `()` has no elements. Parentheses always denote a special form or a call, and neither can be empty.",
      "",
      "## Example",
      "",
      "```yin",
      "(print ())",
      "```",
      "",
      "## Solution",
      "",
      "Use `[]` for an empty vector or `\x7b\x7d` for an empty record literal.",
      "",
      "```yin",
      "(print [])",
      "```"]
  | conditionalShape =>
    ["# E1002: Incorrect Format of If",
      "",
      "An `if` form must have exactly three operands: the test, the branch taken when it holds, and the branch taken otherwise.",
      "",
      "## Example",
      "",
      "```yin",
      "(if (ready) (start))",
      "```",
      "",
      "## Solution",
      "",
      "Supply both branches. Wrap several statements in `(seq ...)` to use them as one branch.",
      "",
      "```yin",
      "(if (ready) (start) (wait))",
      "```"]
  | definitionShape =>
    ["# E1003: Incorrect Format of Definition",
      "",
      "A `define` form must have exactly two operands: the pattern being defined and its value.",
      "",
      "## Example",
      "",
      "```yin",
      "(define x)",
      "```",
      "",
      "## Solution",
      "",
      "Provide exactly one pattern and one value.",
      "",
      "```yin",
      "(define x 0)",
      "```"]
  | assignmentShape =>
    ["# E1004: Incorrect Format of Assignment",
      "",
      "A `set!` form must have exactly two operands: the target and the new value.",
      "",
      "## Example",
      "",
      "```yin",
      "(set! x 1 2)",
      "```",
      "",
      "## Solution",
      "",
      "Provide exactly one target and one value.",
      "",
      "```yin",
      "(set! x 1)",
      "```"]
  | declarationShape =>
    ["# E1005: Incorrect Format of Declaration",
      "",
      "A `declare` form needs at least one field spec of the form `[name Type ...]`.",
      "",
      "## Example",
      "",
      "```yin",
      "(declare)",
      "```",
      "",
      "## Solution",
      "",
      "List the names being declared, each in its own square-bracket spec.",
      "",
      "```yin",
      "(declare [count Int])",
      "```"]
  | functionShape =>
    ["# E1006: Incorrect Format of Function",
      "",
      "A `fun` form needs a parameter list followed by at least one body statement.",
      "",
      "## Example",
      "",
      "```yin",
      "(fun (x))",
      "```",
      "",
      "## Solution",
      "",
      "Add a body. An empty parameter list is written `()`.",
      "",
      "```yin",
      "(fun (x) x)",
      "```"]
  | parametersNotGroup =>
    ["# E1007: Parameters Not a Tuple",
      "",
      "The first operand of `fun` must be the parameter list, written as a tuple.",
      "",
      "## Example",
      "",
      "```yin",
      "(fun x (print x))",
      "```",
      "",
      "## Solution",
      "",
      "Wrap the parameters in parentheses.",
      "",
      "```yin",
      "(fun (x) (print x))",
      "```"]
  | illegalParameter =>
    ["# E1008: Illegal Argument Format",
      "",
      "Each parameter must be either a plain name or a typed spec `[name Type ...]`. Empty specs and other kinds of node are rejected.",
      "",
      "## Example",
      "",
      "```yin",
      "(fun ([] y) y)",
      "```",
      "",
      "## Solution",
      "",
      "Write every parameter as a name, or every parameter as `[name Type]`.",
      "",
      "```yin",
      "(fun (x y) y)",
      "```"]
  | illegalParameterName =>
    ["# E1009: Illegal Argument Name",
      "",
      "A typed parameter spec must start with the parameter name.",
      "",
      "## Example",
      "",
      "```yin",
      "(fun ([1 Int]) 0)",
      "```",
      "",
      "## Solution",
      "",
      "Put the parameter name first in the spec.",
      "",
      "```yin",
      "(fun ([n Int]) 0)",
      "```"]
  | mixedParameters =>
    ["# E1010: Mixed Parameter Styles",
      "",
      "A parameter list either names every parameter plainly or types every parameter. Mixing the two styles is not allowed.",
      "",
      "## Example",
      "",
      "```yin",
      "(fun (x [y Int]) (add x y))",
      "```",
      "",
      "## Solution",
      "",
      "Give every parameter a type, or drop all the types.",
      "",
      "```yin",
      "(fun ([x Int] [y Int]) (add x y))",
      "```"]
  | recordShape =>
    ["# E1011: Incorrect Format of Record",
      "",
      "A `record` form needs a name and at least one more operand (a parent list or a field spec).",
      "",
      "## Example",
      "",
      "```yin",
      "(record Point)",
      "```",
      "",
      "## Solution",
      "",
      "Add the fields of the record.",
      "",
      "```yin",
      "(record Point [x Int] [y Int])",
      "```"]
  | recordNameNotName =>
    ["# E1012: Record Name Not a Name",
      "",
      "The first operand of `record` must be the record's name.",
      "",
      "## Example",
      "",
      "```yin",
      "(record [x Int] [y Int])",
      "```",
      "",
      "## Solution",
      "",
      "Put the record name directly after `record`.",
      "",
      "```yin",
      "(record Point [x Int] [y Int])",
      "```"]
  | parentNotName =>
    ["# E1013: Record Parent Not a Name",
      "",
      "Every element of a record's parent list must be the name of another record.",
      "",
      "## Example",
      "",
      "```yin",
      "(record Dog (1) [name String])",
      "```",
      "",
      "## Solution",
      "",
      "List parent records by name.",
      "",
      "```yin",
      "(record Dog (Animal) [name String])",
      "```"]
  | emptySlot =>
    ["# E1014: Empty Record Slot",
      "",
      "A field spec must contain at least a field name and a type.",
      "",
      "## Example",
      "",
      "```yin",
      "(record Point [x])",
      "```",
      "",
      "## Solution",
      "",
      "Add the type after the field name.",
      "",
      "```yin",
      "(record Point [x Int])",
      "```"]
  | fieldNotName =>
    ["# E1015: Expected Field Name",
      "",
      "A field spec must start with the field's name.",
      "",
      "## Example",
      "",
      "```yin",
      "(record Point [1 Int])",
      "```",
      "",
      "## Solution",
      "",
      "Put the field name first in the spec.",
      "",
      "```yin",
      "(record Point [x Int])",
      "```"]
  | duplicateField =>
    ["# E1016: Duplicated Field Name",
      "",
      "The same name appears in two field specs of one record, declaration or parameter list.",
      "",
      "## Example",
      "",
      "```yin",
      "(record Point [x Int] [x Int])",
      "```",
      "",
      "## Solution",
      "",
      "Rename or remove one of the duplicated fields.",
      "",
      "```yin",
      "(record Point [x Int] [y Int])",
      "```"]
  | oddKeywordMap =>
    ["# E1017: Odd Keyword Map",
      "",
      "The extra attributes after a field's type are read as `:key value` pairs, so their count must be even.",
      "",
      "## Example",
      "",
      "```yin",
      "(record Point [x Int :default])",
      "```",
      "",
      "## Solution",
      "",
      "Give every keyword a value.",
      "",
      "```yin",
      "(record Point [x Int :default 0])",
      "```"]
  | keyNotKeyword =>
    ["# E1018: Key Not a Keyword",
      "",
      "In the `:key value` pairs after a field's type, every key must be a keyword written with a leading `:`.",
      "",
      "## Example",
      "",
      "```yin",
      "(record Point [x Int default 0])",
      "```",
      "",
      "## Solution",
      "",
      "Prefix the attribute name with `:`.",
      "",
      "```yin",
      "(record Point [x Int :default 0])",
      "```"]

/-- A code's explanation. Every line of it is ended. -/
def explanation (c : ErrorCode) : String := String.join (c.explanationLines.map (· ++ "\n"))

end YinFrontEnd.ErrorCode
