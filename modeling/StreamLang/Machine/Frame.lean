import StreamLang.Step.Basic
/-!
A node in evaluation: where it stands in its steps, the values it has gathered, the scope it runs
in, and the newest version of a stream that it or anything below it has read.
-/
namespace StreamLang

structure Frame where
  node : NodeId
  steps : List Step
  cursor : Nat
  /-- The last value first. -/
  values : List Value
  scope : ScopeId
  streamVersion : Option Nat
  deriving Repr

namespace Frame

def start (node : NodeId) (steps : List Step) (scope : ScopeId) : Frame :=
  ⟨node, steps, 0, [], scope, none⟩

def push (f : Frame) (v : Value) : Frame := { f with values := v :: f.values }

/-- The last values, in the order in which they came. -/
def lastValues (f : Frame) (count : Nat) : List Value := (f.values.take count).reverse

def dropValues (f : Frame) (count : Nat) : Frame := { f with values := f.values.drop count }

def jump (f : Frame) (target : Nat) : Frame := { f with cursor := target }

/-- Makes a value the result and leads to the last step. -/
def completeWith (f : Frame) (v : Value) : Frame :=
  { f with values := [v], cursor := f.steps.length - 1 }

/-- The newer of two versions. -/
def newer : Option Nat → Option Nat → Option Nat
  | none, b => b
  | a, none => a
  | some a, some b => some (max a b)

def observe (f : Frame) (version : Option Nat) : Frame :=
  { f with streamVersion := newer f.streamVersion version }

end Frame
end StreamLang
