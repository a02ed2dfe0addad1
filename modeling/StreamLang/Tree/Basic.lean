import StreamLang.Tree.Node
/-!
A program is a tree kept as an array of nodes, children before their parents. Walks go up by parents
and down by children; each is bounded by a count that the order of the nodes makes large enough.
-/
namespace StreamLang

structure Tree where
  nodes : Array Node
  root : NodeId
  deriving DecidableEq, Repr

namespace Tree

def size (t : Tree) : Nat := t.nodes.size

def node? (t : Tree) (i : NodeId) : Option Node := t.nodes[i]?

theorem lt_size_iff {t : Tree} {i : NodeId} : i < t.size ↔ (t.node? i).isSome := by
  simp [size, node?]

def kind? (t : Tree) (i : NodeId) : Option NodeKind := (t.node? i).map (·.kind)

/-- A node that is not in the tree has no children. -/
def children (t : Tree) (i : NodeId) : List NodeId := ((t.node? i).map (·.children)).getD []

def parent? (t : Tree) (i : NodeId) : Option NodeId := (t.node? i).bind (·.parent)

def ids (t : Tree) : List NodeId := List.range t.size

/-- The first `n` nodes above `i`, nearest first. -/
def ancestorsWithin (t : Tree) : Nat → NodeId → List NodeId
  | 0, _ => []
  | n + 1, i => match t.parent? i with
    | none => []
    | some p => p :: t.ancestorsWithin n p

/-- The nodes above `i`, nearest first. -/
def ancestors (t : Tree) (i : NodeId) : List NodeId := t.ancestorsWithin t.size i

def isAncestorOrSelf (t : Tree) (a i : NodeId) : Bool := i == a || (t.ancestors i).contains a

/-- A node and those below it down to `n` levels, each before its children. -/
def descendantsWithin (t : Tree) : Nat → NodeId → List NodeId
  | 0, _ => []
  | n + 1, i => i :: (t.children i).flatMap (t.descendantsWithin n)

/-- A node and all below it, each before its children. Numbers fall from a node to its children, so
there are at most as many levels as numbers up to `i`. -/
def descendants (t : Tree) (i : NodeId) : List NodeId := t.descendantsWithin (i + 1) i

def kindIs (t : Tree) (p : NodeKind → Bool) (i : NodeId) : Bool := (t.kind? i).any p

end Tree
end StreamLang
