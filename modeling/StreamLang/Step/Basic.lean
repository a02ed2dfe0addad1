import StreamLang.Value.Basic
/-!
The steps of a node. They speak of their own node only: children are reached by position, and a jump
leads to a place in the same list. A stream is named and not read, so one list serves every pass.
-/
namespace StreamLang

/-- What is asked of a stream. -/
inductive FetchMode where
  | latest
  | changed
  deriving DecidableEq, Repr

/-- Takes operands from the values of a frame and leaves one result. -/
inductive Operation where
  | binary (operator : BinaryOperator)
  | unary (operator : UnaryOperator)
  | lookup (name : String)
  | property (name : String)
  | makeList (count : Nat)
  | makeStruct (names : List String)
  | makeFunction (function body : NodeId) (parameters : List String)
  /-- Takes this many arguments and, below them, what is called. -/
  | call (count : Nat)
  /-- The last committed value of a reaction. -/
  | previous (reaction : NodeId)
  | fail (kind : ExceptionKind) (message : String)
  deriving DecidableEq, Repr

inductive Step where
  | push (v : Value)
  /-- Evaluates the child at this position. -/
  | evaluate (index : Nat)
  | apply (o : Operation)
  | fetch (stream : String) (mode : FetchMode)
  /-- Binds the top value to a name and leaves it in place. -/
  | define (name : String)
  | discard
  | enterScope
  | jump (target : Nat)
  | jumpIfFalse (target : Nat)
  /-- Jumps if the node already has a committed value. -/
  | jumpIfInitialized (target : Nat)
  | finish
  deriving Repr, Inhabited

end StreamLang
