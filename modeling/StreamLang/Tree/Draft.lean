import StreamLang.Tree.Basic
/-!
A tree under construction. Nodes get their numbers in the order in which they are added and may name
any children; `finish` puts a root on top and accepts exactly what is a tree with children before
their parents. The first fault in node order and child order decides what is reported, and an
unclaimed node only counts where all children are in order.
-/
namespace StreamLang

inductive TreeError where
  /-- Two places claim one child. -/
  | sharedChild (child first second : NodeId)
  | unknownChild (parent child : NodeId)
  | childAfterParent (parent child : NodeId)
  /-- No node claims this one. -/
  | orphan (node : NodeId)
  /-- A text that describes no expression. -/
  | unreadable
  deriving DecidableEq, Repr

/-- What is said of the fault; nothing is said of an unreadable text. -/
def TreeError.message? : TreeError → Option String
  | sharedChild child first second =>
    some ("node " ++ child.label ++ " is claimed by both " ++ first.label ++ " and " ++ second.label)
  | unknownChild parent child =>
    some ("node " ++ parent.label ++ " refers to unknown child " ++ child.label)
  | childAfterParent parent child =>
    some ("child " ++ child.label ++ " must be created before its parent " ++ parent.label)
  | orphan node => some ("node " ++ node.label ++ " is not reachable from the root")
  | unreadable => none

/-- The nodes so far; none has a parent yet. -/
structure Draft where
  nodes : Array Node
  deriving Repr

namespace Draft

def empty : Draft := ⟨#[]⟩

def add (d : Draft) (kind : NodeKind) (children : List NodeId) : NodeId × Draft :=
  (d.nodes.size, ⟨d.nodes.push ⟨kind, children, none, none⟩⟩)

/-- Attaches a diagnostic, in place of any earlier one; a node not added yet gets none. -/
def diagnose (d : Draft) (i : NodeId) (diagnostic : Diagnostic) : Draft :=
  ⟨d.nodes.modify i ({ · with diagnostic := some diagnostic })⟩

/-- Every pair of a node and a child that it names, in order. -/
def links (nodes : Array Node) : List (NodeId × NodeId) :=
  nodes.toList.zipIdx.flatMap fun (n, i) => n.children.map (i, ·)

/-- Gives a child to its parent, unless that is no place for it. -/
def claim (size : Nat) (owners : NodeMap NodeId) (link : NodeId × NodeId) :
    Except TreeError (NodeMap NodeId) :=
  let (parent, child) := link
  if size ≤ child then .error (.unknownChild parent child)
  else if parent ≤ child then .error (.childAfterParent parent child)
  else match owners[child]? with
    | some first => .error (.sharedChild child first parent)
    | none => .ok (owners.insert child parent)

/-- Puts the root above `body` and gives every node its parent. -/
def finish (d : Draft) (body : NodeId) : Except TreeError Tree := do
  let (root, d) := d.add .program [body]
  let owners ← (links d.nodes).foldlM (claim d.nodes.size) ∅
  match (List.range root).find? (fun i => !owners.contains i) with
  | some i => .error (.orphan i)
  | none => return ⟨d.nodes.mapIdx fun i n => { n with parent := owners[i]? }, root⟩

end Draft
end StreamLang
