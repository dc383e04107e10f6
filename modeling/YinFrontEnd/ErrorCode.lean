/-!
# Error codes

Every problem that the front end reports has a code. Codes that begin with `E0`
belong to the reading of text, and those that begin with `E1` to the shape of forms.
-/
namespace YinFrontEnd

inductive ErrorCode where
  | unterminatedString
  | invalidEscape
  | invalidNumber
  | unclosedDelimiter
  | unexpectedCloser
  | mismatchedCloser
  | emptyKeyword
  | danglingMember
  | emptyForm
  | conditionalShape
  | definitionShape
  | assignmentShape
  | declarationShape
  | functionShape
  | parametersNotGroup
  | illegalParameter
  | illegalParameterName
  | mixedParameters
  | recordShape
  | recordNameNotName
  | parentNotName
  | emptySlot
  | fieldNotName
  | duplicateField
  | oddKeywordMap
  | keyNotKeyword
  deriving DecidableEq, Repr, Inhabited

namespace ErrorCode

/-- All codes, in the order of their numbers. -/
def all : List ErrorCode :=
  [unterminatedString, invalidEscape, invalidNumber, unclosedDelimiter, unexpectedCloser,
    mismatchedCloser, emptyKeyword, danglingMember, emptyForm, conditionalShape, definitionShape,
    assignmentShape, declarationShape, functionShape, parametersNotGroup, illegalParameter,
    illegalParameterName, mixedParameters, recordShape, recordNameNotName, parentNotName,
    emptySlot, fieldNotName, duplicateField, oddKeywordMap, keyNotKeyword]

/-- The code as it is written. -/
def text : ErrorCode → String
  | unterminatedString => "E0001"
  | invalidEscape => "E0002"
  | invalidNumber => "E0003"
  | unclosedDelimiter => "E0004"
  | unexpectedCloser => "E0005"
  | mismatchedCloser => "E0006"
  | emptyKeyword => "E0007"
  | danglingMember => "E0008"
  | emptyForm => "E1001"
  | conditionalShape => "E1002"
  | definitionShape => "E1003"
  | assignmentShape => "E1004"
  | declarationShape => "E1005"
  | functionShape => "E1006"
  | parametersNotGroup => "E1007"
  | illegalParameter => "E1008"
  | illegalParameterName => "E1009"
  | mixedParameters => "E1010"
  | recordShape => "E1011"
  | recordNameNotName => "E1012"
  | parentNotName => "E1013"
  | emptySlot => "E1014"
  | fieldNotName => "E1015"
  | duplicateField => "E1016"
  | oddKeywordMap => "E1017"
  | keyNotKeyword => "E1018"

/-- What the code means, in one line. -/
def description : ErrorCode → String
  | unterminatedString => "unterminated string literal"
  | invalidEscape => "invalid escape sequence in string literal"
  | invalidNumber => "invalid number literal"
  | unclosedDelimiter => "unclosed delimiter"
  | unexpectedCloser => "unexpected closing delimiter"
  | mismatchedCloser => "mismatched closing delimiter"
  | emptyKeyword => "keyword has no name after `:`"
  | danglingMember => "attribute access has no attribute name after `.`"
  | emptyForm => "empty parenthesized form"
  | conditionalShape => "incorrect format of `if`"
  | definitionShape => "incorrect format of definition"
  | assignmentShape => "incorrect format of assignment"
  | declarationShape => "incorrect format of declaration"
  | functionShape => "incorrect format of function literal"
  | parametersNotGroup => "function parameter list is not a tuple"
  | illegalParameter => "illegal argument format"
  | illegalParameterName => "illegal argument name"
  | mixedParameters => "parameters mix plain names and typed tuples"
  | recordShape => "incorrect format of record definition"
  | recordNameNotName => "record name is not a name"
  | parentNotName => "record parent is not a name"
  | emptySlot => "empty record slot"
  | fieldNotName => "field spec does not start with a field name"
  | duplicateField => "duplicated field name"
  | oddKeywordMap => "keyword map has an odd number of elements"
  | keyNotKeyword => "keyword map key is not a keyword"

/-- True of the codes for text that cannot be read. -/
def isLexical : ErrorCode → Bool
  | unterminatedString | invalidEscape | invalidNumber | unclosedDelimiter | unexpectedCloser
  | mismatchedCloser | emptyKeyword | danglingMember => true
  | _ => false

/-- The code that a text writes; its letter may be small. -/
def ofText? (s : String) : Option ErrorCode :=
  all.find? fun c => c.text.toList == s.toList.map Char.toUpper

end ErrorCode

/-- What kind of mistake a code is about. -/
inductive ErrorCategory where
  /-- The number of elements is wrong. -/
  | shape
  /-- An element is of the wrong kind. -/
  | kind
  /-- Elements are right one by one but do not go together. -/
  | semanticShape
  /-- The text could not be read. -/
  | lexical
  deriving DecidableEq, Repr

def ErrorCategory.text : ErrorCategory → String
  | .shape => "shape"
  | .kind => "kind"
  | .semanticShape => "semantic shape"
  | .lexical => "lexical"

def ErrorCode.category (c : ErrorCode) : ErrorCategory :=
  if c.isLexical then .lexical
  else
    match c with
    | .mixedParameters | .duplicateField => .semanticShape
    | .parametersNotGroup | .illegalParameter | .illegalParameterName | .recordNameNotName
    | .parentNotName | .fieldNotName | .keyNotKeyword => .kind
    | _ => .shape

end YinFrontEnd
