import StreamLang.Value.Basic
/-!
What a pass has done so far. Nothing of it counts until the pass commits.
-/
namespace StreamLang

/-- The value that a node got. -/
structure Write where
  value : Value
  reusable : Bool
  reaction : Bool
  /-- The newest version of a stream read for the value. -/
  streamVersion : Option Nat
  deriving Repr

structure Record where
  /-- Values in the order of the first write to each node; the last write counts. -/
  writes : Assoc NodeId Write
  /-- Marked nodes that were found to be up to date. -/
  cleaned : List NodeId
  /-- Whether a bind has another value than the committed one. -/
  bindsChanged : NodeMap Bool
  /-- Streams read, each with its reader. -/
  subscriptions : List (String × NodeId)
  /-- Nodes that asked whether their stream had changed, and were told so. -/
  edgeTriggered : List NodeId
  /-- Unavailable streams that were read. -/
  degraded : List String
  /-- Streams that give values on demand and were read. -/
  demands : List String
  /-- How often each node was run. -/
  evaluations : NodeMap Nat
  evaluated : Nat
  reused : Nat
  steps : Nat

namespace Record

def empty : Record := ⟨[], [], ∅, [], [], [], [], ∅, 0, 0, 0⟩

def countEvaluation (r : Record) (i : NodeId) : Record :=
  { r with
    evaluated := r.evaluated + 1
    evaluations := r.evaluations.insert i ((r.evaluations[i]?).getD 0 + 1) }

def countStep (r : Record) : Record := { r with steps := r.steps + 1 }

def countReuse (r : Record) : Record := { r with reused := r.reused + 1 }

def write (r : Record) (i : NodeId) (w : Write) : Record :=
  { r with writes := Assoc.put i w r.writes }

def setBind (r : Record) (i : NodeId) (changed : Bool) : Record :=
  { r with bindsChanged := r.bindsChanged.insert i changed }

end Record
end StreamLang
