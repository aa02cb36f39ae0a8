/-! The kinds of nodes in a source tree. -/
namespace UiLint

/-- What a node of the tree stands for. -/
inductive Kind where
  | file
  | typeDeclaration
  | functionDeclaration
  | parameterList
  | parameter
  | defaultValue
  | body
  | call
  | token
  | other
  deriving DecidableEq, Repr, Inhabited

namespace Kind

/-- The name of the kind in messages. -/
def name : Kind → String
  | file => "File"
  | typeDeclaration => "TypeDeclaration"
  | functionDeclaration => "FunctionDeclaration"
  | parameterList => "ParameterList"
  | parameter => "Parameter"
  | defaultValue => "DefaultValue"
  | body => "Body"
  | call => "Call"
  | token => "Token"
  | other => "Other"

/-- Every kind. -/
def all : List Kind :=
  [file, typeDeclaration, functionDeclaration, parameterList, parameter, defaultValue, body, call,
    token, other]

/-- The kind with the given name. A text that names no kind stands for `other`. -/
def ofName (text : String) : Kind :=
  (all.find? fun kind => kind.name == text).getD other

theorem ofName_name (kind : Kind) : ofName kind.name = kind := by
  cases kind <;> decide

end Kind

end UiLint
