import YinFrontEnd.ReadError
import YinFrontEnd.SpecialForm

/-!
# Parsing errors

The ways in which forms fail to make sense, each with its code and wording. An error
that comes from reading keeps the reading error.
-/
namespace YinFrontEnd

structure ParseError where
  code : ErrorCode
  message : String
  span : Span
  context : Option String
  readError : Option ReadError
  deriving DecidableEq, Repr

namespace ParseError

def category (e : ParseError) : ErrorCategory := e.code.category

/-- The place, the code and the message. -/
def text (e : ParseError) : String := s!"{e.span.place}: error[{e.code.text}]: {e.message}"

def diagnostic (e : ParseError) : Diagnostic :=
  match e.readError with
  | some r => r.diagnostic
  | none => ⟨e.code, e.message, [⟨e.span, e.context.getD "here", true⟩], []⟩

def ofReadError (e : ReadError) : ParseError := ⟨e.code, e.message, e.span, none, some e⟩

end ParseError

/-- What is wrong with a form. Texts show the part of the form that is to blame. -/
inductive FormFault where
  | emptyForm
  | conditionalShape (operands : Nat)
  | definitionShape (operands : Nat)
  | assignmentShape (operands : Nat)
  | declarationShape
  | functionWithoutParameters
  | functionWithoutBody
  | parametersNotGroup (shown : String)
  | emptyParameter (shown : String)
  | illegalParameter (shown : String)
  | illegalParameterName (shown : String)
  | mixedParameters (shown : String)
  | recordShape
  | recordNameNotName (shown : String)
  | parentNotName (shown : String)
  | emptySlot
  | fieldNotName (shown : String)
  | duplicateField (name : String)
  | oddKeywordMap (shown : String)
  | keyNotKeyword (shown : String)
  deriving DecidableEq, Repr

namespace FormFault

def code : FormFault → ErrorCode
  | emptyForm => .emptyForm
  | conditionalShape _ => .conditionalShape
  | definitionShape _ => .definitionShape
  | assignmentShape _ => .assignmentShape
  | declarationShape => .declarationShape
  | functionWithoutParameters | functionWithoutBody => .functionShape
  | parametersNotGroup _ => .parametersNotGroup
  | emptyParameter _ | illegalParameter _ => .illegalParameter
  | illegalParameterName _ => .illegalParameterName
  | mixedParameters _ => .mixedParameters
  | recordShape => .recordShape
  | recordNameNotName _ => .recordNameNotName
  | parentNotName _ => .parentNotName
  | emptySlot => .emptySlot
  | fieldNotName _ => .fieldNotName
  | duplicateField _ => .duplicateField
  | oddKeywordMap _ => .oddKeywordMap
  | keyNotKeyword _ => .keyNotKeyword

def message : FormFault → String
  | emptyForm => "syntax error"
  | conditionalShape _ => "incorrect format of if"
  | definitionShape _ => "incorrect format of definition"
  | assignmentShape _ => "incorrect format of assignment"
  | declarationShape => "incorrect format of declaration"
  | functionWithoutParameters | functionWithoutBody => "syntax error in function definition"
  | parametersNotGroup shown => "incorrect format of parameters: " ++ shown
  | emptyParameter shown | illegalParameter shown => "illegal argument format: " ++ shown
  | illegalParameterName shown => "illegal argument name: " ++ shown
  | mixedParameters shown => "parameters must be either all names or all tuples: " ++ shown
  | recordShape => "syntax error in record type definition"
  | recordNameNotName shown => "syntax error in record name: " ++ shown
  | parentNotName shown => "parents can only be names: " ++ shown
  | emptySlot => "empty record slot not allowed"
  | fieldNotName shown => "expect field name, but got: " ++ shown
  | duplicateField name => "duplicated field name: " ++ name
  | oddKeywordMap shown => "must be of the form (:key1 value1 :key2 value2), but got: " ++ shown
  | keyNotKeyword shown => "key must be a keyword, but got: " ++ shown

/-- What is said of a special form with the wrong number of operands. -/
def operandContext (form : SpecialForm) (expected found : Nat) : String :=
  s!"`{form.keyword}` takes {expected} operands, found {found}"

/-- What is said at the place to blame. -/
def context : FormFault → String
  | emptyForm => "empty form"
  | conditionalShape n => operandContext .conditional 3 n
  | definitionShape n => operandContext .definition 2 n
  | assignmentShape n => operandContext .assignment 2 n
  | declarationShape => "expected at least one field after `declare`"
  | functionWithoutParameters => "missing parameter list and body"
  | functionWithoutBody => "missing function body"
  | parametersNotGroup _ => "expected a parameter list"
  | emptyParameter _ => "empty parameter"
  | illegalParameter _ => "expected a name or a tuple"
  | illegalParameterName _ => "expected a parameter name"
  | mixedParameters _ => "mixed parameter styles"
  | recordShape => "expected a name and at least one parent list or field"
  | recordNameNotName _ => "expected a record name"
  | parentNotName _ => "expected a parent record name"
  | emptySlot => "expected `[name Type ...]`"
  | fieldNotName _ => "expected a field name"
  | duplicateField _ => "duplicated field name"
  | oddKeywordMap _ => "every key needs a value"
  | keyNotKeyword _ => "expected `:key`"

/-- The error that a fault is, found at a place. -/
def error (f : FormFault) (s : Span) : ParseError := ⟨f.code, f.message, s, some f.context, none⟩

theorem code_isLexical (f : FormFault) : f.code.isLexical = false := by cases f <;> rfl

end FormFault

end YinFrontEnd
