import StreamLang.Tree.Basic
/-!
What the structure of a tree says about its nodes. A name refers to the nearest bind before it in an
enclosing block or to a parameter; inside a function it may also refer to a bind that comes later in
a block around the function, because the body runs after the block has finished. A node depends on
the binds outside of it that something in it refers to. A node is volatile, and never answered from
earlier results, if it lies in a function or on the way from a previous value up to its reaction.
-/
namespace StreamLang

inductive Resolution where
  | bind (node : NodeId)
  | parameter (function : NodeId) (index : Nat)
  /-- Not bound in the tree. -/
  | global
  deriving DecidableEq, Repr

namespace Tree

def isBindOf (t : Tree) (name : String) (i : NodeId) : Bool := t.kind? i == some (.bind name)

def isFunction (t : Tree) (i : NodeId) : Bool :=
  match t.kind? i with
  | some (.function _) => true
  | _ => false

/-- Follows a name outwards along the nodes above it, `below` being the last one passed. -/
def resolveAlong (t : Tree) (name : String) : NodeId → Bool → List NodeId → Resolution
  | _, _, [] => .global
  | below, inFunction, i :: above =>
    match t.kind? i with
    | some .block =>
      let (before, onwards) := (t.children i).span (· != below)
      match before.reverse.find? (t.isBindOf name) with
      | some b => .bind b
      | none =>
        match if inFunction then onwards.find? (t.isBindOf name) else none with
        | some b => .bind b
        | none => t.resolveAlong name i inFunction above
    | some (.function parameters) =>
      match parameters.idxOf? name with
      | some index => .parameter i index
      | none => t.resolveAlong name i true above
    | _ => t.resolveAlong name i inFunction above

/-- What a reference refers to; other nodes refer to nothing. -/
def resolution? (t : Tree) (i : NodeId) : Option Resolution :=
  match t.kind? i with
  | some (.reference name) => some (t.resolveAlong name i false (t.ancestors i))
  | _ => none

/-- The nearest reaction above a node. -/
def enclosingReaction? (t : Tree) (i : NodeId) : Option NodeId :=
  (t.ancestors i).find? fun a => t.kind? a == some .reaction

/-- A previous value and the nodes above it that lie below its reaction. -/
def previousPath (t : Tree) (i : NodeId) : List NodeId :=
  match t.kind? i, t.enclosingReaction? i with
  | some .previous, some r => i :: (t.ancestors i).takeWhile (· != r)
  | _, _ => []

/-- Adds to the dependencies of `i` those binds of a part that do not lie in `i`. -/
def addDependencies (t : Tree) (i : NodeId) (found more : List NodeId) : List NodeId :=
  more.foldl (fun found b =>
    if found.contains b || t.isAncestorOrSelf i b then found else found ++ [b]) found

/-- The dependencies of a node from those of its children. -/
def dependenciesFrom (t : Tree) (below : Array (List NodeId)) (i : NodeId) : List NodeId :=
  let own := match t.resolution? i with
    | some (.bind b) => [b]
    | _ => []
  (t.children i).foldl (fun found c => t.addDependencies i found (below.getD c [])) own

end Tree

/-- All that the structure says, for every node of a tree. -/
structure Analysis where
  resolutions : Array (Option Resolution)
  referrers : NodeMap (List NodeId)
  dependencyLists : Array (List NodeId)
  volatile : Array Bool
  /-- Nodes that read a stream, with its name. -/
  readers : List (String × NodeId)
  /-- Nodes kept from being evaluated. -/
  blocking : List NodeId

namespace Analysis

def addReferrer (resolutions : Array (Option Resolution)) (m : NodeMap (List NodeId)) (i : NodeId) :
    NodeMap (List NodeId) :=
  match resolutions[i]? with
  | some (some (.bind b)) => m.insert b ((m[b]?).getD [] ++ [i])
  | _ => m

def ofTree (t : Tree) : Analysis :=
  let resolutions := (t.ids.map t.resolution?).toArray
  let onPath := t.ids.flatMap t.previousPath
  { resolutions
    referrers := t.ids.foldl (addReferrer resolutions) ∅
    dependencyLists := t.ids.foldl (fun below i => below.push (t.dependenciesFrom below i)) #[]
    volatile := (t.ids.map fun i => (t.ancestors i).any t.isFunction || onPath.contains i).toArray
    readers := t.ids.filterMap fun i => ((t.kind? i).bind NodeKind.stream?).map (·, i)
    blocking := t.ids.filter fun i => ((t.node? i).bind Node.blocked?).isSome }

def resolution? (a : Analysis) (i : NodeId) : Option Resolution := a.resolutions.getD i none

/-- The references that refer to a bind. -/
def referrersOf (a : Analysis) (b : NodeId) : List NodeId := (a.referrers[b]?).getD []

/-- The binds outside of a node that it reads. -/
def dependencies (a : Analysis) (i : NodeId) : List NodeId := a.dependencyLists.getD i []

/-- Whether a node must run whenever it is reached; so must one that is not in the tree. -/
def isVolatile (a : Analysis) (i : NodeId) : Bool := a.volatile.getD i true

end Analysis

/-- A tree with its analysis. -/
structure Program where
  tree : Tree
  analysis : Analysis

def Program.ofTree (t : Tree) : Program := ⟨t, .ofTree t⟩

end StreamLang
