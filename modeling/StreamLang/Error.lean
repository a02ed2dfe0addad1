import StreamLang.Tree.Draft
/-!
What an engine refuses, and why. A failure of the program itself is no error but a value.
-/
namespace StreamLang

/-- A rule that the machine keeps by construction and that a foreign state could break. -/
inductive Fault where
  /-- A node is looked up that is not in the tree. No error is returned then: the program crashes. -/
  | outside (node : NodeId) (size : Nat)
  | noFrame
  | noChild (node : NodeId) (index : Nat)
  | pastEnd (node : NodeId)
  | noValue (node : NodeId)
  | fewValues (node : NodeId) (needed available : Nat)
  | lostScope (function : NodeId)
  | valueless
  deriving DecidableEq, Repr

def Fault.message : Fault → String
  | outside node size =>
    "index out of bounds: the len is " ++ toString size ++ " but the index is " ++ toString node
  | noFrame => "no frame to run"
  | noChild node index => "node " ++ node.label ++ " has no child " ++ toString index
  | pastEnd node => "node " ++ node.label ++ " ran past its last step"
  | noValue node => "value stack of node " ++ node.label ++ " is empty"
  | fewValues node needed available =>
    "node " ++ node.label ++ " needs " ++ toString needed ++ " values but has " ++ toString available
  | lostScope function => "scope of function " ++ function.label ++ " was dropped"
  | valueless => "pass ended without a value"

inductive Error where
  | stopped
  /-- A node is kept from being evaluated, and the engine refuses to work around it. -/
  | blockingConflict (node : NodeId) (message : String)
  | aborted
  | unknownStream (name : String)
  /-- A value that does not have the shape of its stream. -/
  | streamContract (stream expected found : String)
  | invariantViolation (fault : Fault)
  deriving DecidableEq, Repr

def Error.message : Error → String
  | stopped => "engine has been stopped"
  | blockingConflict node message =>
    "evaluation blocked by conflict at node " ++ node.label ++ ": " ++ message
  | aborted => "pass was aborted before committing a value"
  | unknownStream name => "unknown stream `" ++ name ++ "`"
  | streamContract stream expected found =>
    "stream `" ++ stream ++ "` expects " ++ expected ++ ", got " ++ found
  | invariantViolation fault => "internal invariant violated: " ++ fault.message

end StreamLang
