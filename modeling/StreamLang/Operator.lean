/-!
The operators of the language, with the symbol that a message shows and the name that an interchange
text uses.
-/
namespace StreamLang

inductive BinaryOperator where
  | add | subtract | multiply | divide | remainder
  | less | greater | lessOrEqual | greaterOrEqual
  | equal | notEqual | and | or
  deriving DecidableEq, Repr

inductive UnaryOperator where
  | negate | not
  deriving DecidableEq, Repr

namespace BinaryOperator

def symbol : BinaryOperator → String
  | add => "+"
  | subtract => "-"
  | multiply => "×"
  | divide => "÷"
  | remainder => "%"
  | less => "<"
  | greater => ">"
  | lessOrEqual => "≤"
  | greaterOrEqual => "≥"
  | equal => "="
  | notEqual => "≠"
  | and => "&"
  | or => "|"

def name : BinaryOperator → String
  | add => "add"
  | subtract => "subtract"
  | multiply => "multiply"
  | divide => "divide"
  | remainder => "remainder"
  | less => "less"
  | greater => "greater"
  | lessOrEqual => "less_or_equal"
  | greaterOrEqual => "greater_or_equal"
  | equal => "equal"
  | notEqual => "not_equal"
  | and => "and"
  | or => "or"

def all : List BinaryOperator :=
  [add, subtract, multiply, divide, remainder, less, greater, lessOrEqual, greaterOrEqual, equal,
    notEqual, and, or]

def ofName? (s : String) : Option BinaryOperator := all.find? (·.name == s)

theorem ofName?_name (o : BinaryOperator) : ofName? o.name = some o := by cases o <;> rfl

end BinaryOperator

namespace UnaryOperator

def symbol : UnaryOperator → String
  | negate => "-"
  | not => "~"

def name : UnaryOperator → String
  | negate => "negate"
  | not => "not"

def ofName? (s : String) : Option UnaryOperator := [negate, not].find? (·.name == s)

theorem ofName?_name (o : UnaryOperator) : ofName? o.name = some o := by cases o <;> rfl

end UnaryOperator
end StreamLang
