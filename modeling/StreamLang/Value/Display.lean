import StreamLang.Value.Basic
/-!
How a value is shown: texts in plain quotes without escapes, items apart by blanks, fields by
commas, a function by its parameters, a failure by its kind and message.
-/
namespace StreamLang

/-- How a failure is shown. -/
def ExceptionKind.display : ExceptionKind → String
  | compileTimeConflict => "CompileTimeConflict"
  | unknownName => "UnknownName"
  | runtimeTypeMismatch => "RuntimeTypeMismatch"
  | nonTermination => "NonTermination"
  | streamUnavailable => "StreamUnavailable"
  | incompleteExpression => "IncompleteExpression"

namespace Value

mutual
def displayChars : Value → List Char
  | number n => n.display
  | text s => '"' :: s.toList ++ ['"']
  | boolean b => (if b then "true" else "false").toList
  | list items => '[' :: displayItems items ++ [']']
  | struct fields => '\x7b' :: displayFields fields ++ ['\x7d']
  | function c => 'ƒ' :: '(' :: (" ".intercalate c.parameters).toList ++ [')']
  | exception e => '!' :: (e.kind.display ++ ": " ++ e.message).toList

def displayItems : List Value → List Char
  | [] => []
  | [v] => v.displayChars
  | v :: rest => v.displayChars ++ ' ' :: displayItems rest

def displayFields : List (String × Value) → List Char
  | [] => []
  | [(name, v)] => name.toList ++ ':' :: ' ' :: v.displayChars
  | (name, v) :: rest =>
    name.toList ++ ':' :: ' ' :: v.displayChars ++ ',' :: ' ' :: displayFields rest
end

def display (v : Value) : String := String.ofList v.displayChars

end Value
end StreamLang
