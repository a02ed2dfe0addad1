import StreamLang.Number
import StreamLang.Ordered
import StreamLang.Tree.Node
/-!
Values. A failure is a value like any other and flows on through whatever uses it. A function value
names the scope it was made in; the scopes themselves are kept apart, in `Scopes`.

Equality is the one programs see: amounts compare as numbers, so zero equals its negative and NaN
nothing; structures compare up to the order of their fields; functions are equal when one node made
them in one scope.
-/
namespace StreamLang

/-- The place of a scope among all scopes. -/
abbrev ScopeId := Nat

inductive ExceptionKind where
  | compileTimeConflict
  | unknownName
  | runtimeTypeMismatch
  | nonTermination
  | streamUnavailable
  | incompleteExpression
  deriving DecidableEq, Repr

structure Exception where
  kind : ExceptionKind
  message : String
  /-- The smallest expression that the failure is about. -/
  node : Option NodeId
  deriving DecidableEq, Repr

/-- A function node with the scope in which it was evaluated. -/
structure Closure where
  function : NodeId
  body : NodeId
  parameters : List String
  scope : ScopeId
  deriving DecidableEq, Repr

def Closure.same (a b : Closure) : Bool := a.function == b.function && a.scope == b.scope

inductive Value where
  | number (n : Number)
  | text (s : String)
  | boolean (b : Bool)
  | list (items : List Value)
  /-- Fields in order, no name twice. -/
  | struct (fields : List (String × Value))
  | function (c : Closure)
  | exception (e : Exception)
  deriving Repr, Inhabited

namespace Value

def plain (x : Amount) : Value := number (.plain x)

def failure (kind : ExceptionKind) (message : String) (node : NodeId) : Value :=
  exception ⟨kind, message, some node⟩

def exception? : Value → Option Exception
  | exception e => some e
  | _ => none

def isException : Value → Bool
  | exception _ => true
  | _ => false

/-- How a message names the type of a value. -/
def typeName : Value → String
  | number _ => "number"
  | text _ => "text"
  | boolean _ => "boolean"
  | list _ => "list"
  | struct _ => "structure"
  | function _ => "function"
  | exception _ => "exception"

mutual
def equal : Value → Value → Bool
  | number a, number b => a.equal b
  | text a, text b => a == b
  | boolean a, boolean b => a == b
  | list xs, list ys => equalItems xs ys
  | struct xs, struct ys => xs.length == ys.length && equalFields xs ys
  | function a, function b => a.same b
  | exception a, exception b => decide (a = b)
  | _, _ => false

def equalItems : List Value → List Value → Bool
  | [], [] => true
  | v :: vs, w :: ws => v.equal w && equalItems vs ws
  | _, _ => false

/-- Whether each field is equal to the one of its name. -/
def equalFields : List (String × Value) → Assoc String Value → Bool
  | [], _ => true
  | (name, v) :: rest, fields =>
    (match Assoc.get? name fields with
      | some w => v.equal w
      | none => false) && equalFields rest fields
end

end Value
end StreamLang
