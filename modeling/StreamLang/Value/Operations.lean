import StreamLang.Value.Basic
/-!
What operators and field access do. Every operation gives a value: operands that do not fit give a
failure about the node, and an operand that is a failure is handed on, the left one first. Equality
alone compares failures like other values.
-/
namespace StreamLang
namespace Value

def mismatch (node : NodeId) (message : String) : Value :=
  failure .runtimeTypeMismatch message node

/-- How a message names the unit of a number. -/
def unitText (n : Number) : String := n.unit.getD "a plain number"

/-- The unit of a result, if the units of the operands go together. Addition, subtraction and
comparison ask for one unit; of a product or a quotient only one side may have a unit, but equal
units cancel in a quotient and stay in a remainder. -/
def resultUnit? (operator : BinaryOperator) (a b : Option String) : Option (Option String) :=
  let either := a.or b
  let single := a.isNone || b.isNone
  match operator with
  | .add | .subtract | .less | .greater | .lessOrEqual | .greaterOrEqual =>
    if a = b then some a else none
  | .multiply => if single then some either else none
  | .divide => if a = b then some none else if single then some either else none
  | .remainder => if a = b then some a else if single then some either else none
  | .and | .or | .equal | .notEqual => none

def arithmetic (operator : BinaryOperator) (a b : Number) (node : NodeId) : Value :=
  match resultUnit? operator a.unit b.unit with
  | none =>
    mismatch node
      ("cannot apply " ++ operator.symbol ++ " to " ++ unitText a ++ " and " ++ unitText b)
  | some unit =>
    let x := a.amount
    let y := b.amount
    match operator with
    | .add => number ⟨x + y, unit⟩
    | .subtract => number ⟨x - y, unit⟩
    | .multiply => number ⟨x * y, unit⟩
    | .divide => number ⟨x / y, unit⟩
    | .remainder => number ⟨x.rem y, unit⟩
    | .less => boolean (x.less y)
    | .greater => boolean (y.less x)
    | .lessOrEqual => boolean (x.atMost y)
    | .greaterOrEqual => boolean (y.atMost x)
    | .and | .or | .equal | .notEqual =>
      mismatch node (operator.symbol ++ " is not an arithmetic operator")

def applyOperator (operator : BinaryOperator) (left right : Value) (node : NodeId) : Value :=
  match operator, left, right with
  | .add, text a, text b => text (a ++ b)
  | .and, boolean a, boolean b => boolean (a && b)
  | .or, boolean a, boolean b => boolean (a || b)
  | _, number a, number b => arithmetic operator a b node
  | _, _, _ =>
    mismatch node
      ("cannot apply " ++ operator.symbol ++ " to " ++ left.typeName ++ " and " ++ right.typeName)

def binary (operator : BinaryOperator) (left right : Value) (node : NodeId) : Value :=
  match operator with
  | .equal => boolean (left.equal right)
  | .notEqual => boolean (!left.equal right)
  | _ =>
    if left.isException then left
    else if right.isException then right
    else applyOperator operator left right node

def unary (operator : UnaryOperator) (operand : Value) (node : NodeId) : Value :=
  match operator, operand with
  | _, exception e => exception e
  | .negate, number n => number ⟨-n.amount, n.unit⟩
  | .not, boolean b => boolean (!b)
  | _, _ => mismatch node ("cannot apply " ++ operator.symbol ++ " to " ++ operand.typeName)

def property (subject : Value) (name : String) (node : NodeId) : Value :=
  match subject with
  | exception e => exception e
  | struct fields =>
    match Assoc.get? name fields with
    | some v => v
    | none => failure .unknownName ("structure has no field `" ++ name ++ "`") node
  | other => mismatch node ("cannot read `" ++ name ++ "` of " ++ other.typeName)

end Value
end StreamLang
