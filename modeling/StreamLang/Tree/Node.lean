import StreamLang.Number
import StreamLang.Operator
import Std.Data.ExtTreeMap
/-!
The nodes of a program. A node knows its children by number; what it means depends on its kind, and
nothing here asks for the right number of children.
-/
namespace StreamLang

/-- The place of a node in its tree. -/
abbrev NodeId := Nat

abbrev NodeMap (α : Type) := Std.ExtTreeMap NodeId α

/-- How a message names a node. -/
def NodeId.label (i : NodeId) : String := "#" ++ toString i

inductive NodeKind where
  | program
  | block
  | bind (name : String)
  | number (n : Number)
  | text (s : String)
  | boolean (b : Bool)
  | list
  | struct (fields : List String)
  | property (name : String)
  | reference (name : String)
  | binary (operators : List BinaryOperator)
  | unary (operator : UnaryOperator)
  | conditional
  | function (parameters : List String)
  | call
  | stream (name : String)
  | changed (stream : String)
  | reaction
  | previous
  | placeholder
  deriving DecidableEq, Repr

namespace NodeKind

/-- How a message names the kind. -/
def name : NodeKind → String
  | program => "program"
  | block => "block"
  | bind _ => "bind"
  | number _ => "number"
  | text _ => "text"
  | boolean _ => "boolean"
  | list => "list"
  | struct _ => "structure"
  | property _ => "property"
  | reference _ => "reference"
  | binary _ => "operation"
  | unary _ => "unary operation"
  | conditional => "conditional"
  | function _ => "function"
  | call => "call"
  | stream _ => "stream"
  | changed _ => "change check"
  | reaction => "reaction"
  | previous => "previous value"
  | placeholder => "placeholder"

def isBind : NodeKind → Bool
  | bind _ => true
  | _ => false

/-- The stream that the node reads. -/
def stream? : NodeKind → Option String
  | stream name => some name
  | changed name => some name
  | _ => none

end NodeKind

inductive Severity where
  | blocking
  | warning
  deriving DecidableEq, Repr

structure Diagnostic where
  severity : Severity
  message : String
  deriving DecidableEq, Repr

structure Node where
  kind : NodeKind
  children : List NodeId
  parent : Option NodeId
  diagnostic : Option Diagnostic
  deriving DecidableEq, Repr

/-- The message of a diagnostic that keeps the node from being evaluated. -/
def Node.blocked? (n : Node) : Option String :=
  match n.diagnostic with
  | some ⟨.blocking, message⟩ => some message
  | _ => none

end StreamLang
