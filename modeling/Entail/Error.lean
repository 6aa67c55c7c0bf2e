import Entail.Node
/-!
# Errors

What can go wrong in evaluating an expression or in asking an engine for something, with the message
for each cause and the place it arose.
-/

namespace Entail

/-- The kinds of value that operations ask for. `numeric` covers integers and decimals. -/
inductive ValueType where
  | bool
  | integer
  | decimal
  | string
  | node
  | numeric
deriving DecidableEq

namespace ValueType

def isNumeric : ValueType → Bool
  | integer | decimal | numeric => true
  | bool | string | node => false

def text : ValueType → String
  | bool => "bool"
  | integer => "integer"
  | decimal => "decimal"
  | string => "string"
  | node => "node"
  | numeric => "numeric"

end ValueType

/-- The cause of a refused or failed operation. -/
inductive Error where
  | typeMismatch (expected actual : ValueType)
  | unboundVariable (name : String)
  | divisionByZero
  | overflow
  | unsupportedNode (reason : String)
  | invalidRule (rule reason : String)
  | invalidQuery (reason : String)
  | duplicateRule (rule : String)
  | unknownRule (rule : String)
  /-- More rounds were needed than allowed; `activity` is what the next round would have done. -/
  | roundsExceeded (limit : Nat) (activity : Option String)
  | internal (reason : String)
deriving DecidableEq

def Error.message : Error → String
  | typeMismatch expected actual =>
    "type mismatch: expected " ++ expected.text ++ ", got " ++ actual.text
  | unboundVariable name => "unbound variable: ?" ++ name
  | divisionByZero => "division by zero"
  | overflow => "arithmetic overflow"
  | unsupportedNode reason => "unsupported node: " ++ reason
  | invalidRule rule reason => "invalid rule " ++ rule ++ ": " ++ reason
  | invalidQuery reason => "invalid query: " ++ reason
  | duplicateRule rule => "duplicate rule: " ++ rule
  | unknownRule rule => "unknown rule: " ++ rule
  | roundsExceeded limit activity =>
    "limit exceeded: max rounds (" ++ toString limit ++ ") exceeded" ++
      match activity with
      | some a => ": " ++ a
      | none => ""
  | internal reason => "internal error: " ++ reason

/-- Where an error arose: the rule or text it belongs to, and the parts of it, outermost first. -/
structure ErrorContext where
  source : Option String
  stack : List String
deriving DecidableEq

def ErrorContext.text (c : ErrorContext) : String :=
  let place := match c.source with
    | some s => "at " ++ s
    | none => ""
  let frames := c.stack.foldl (fun t frame => t ++ "  in " ++ frame ++ "\n") ""
  if c.stack = [] then place else place ++ "\n" ++ frames

/-- An error and, if known, where it arose. -/
structure Diagnostic where
  error : Error
  context : Option ErrorContext
deriving DecidableEq

end Entail
