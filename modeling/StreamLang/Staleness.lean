import StreamLang.Tree.Analysis
/-!
Marks on nodes whose committed value may be out of date. When a stream changes, its readers and all
nodes above them become dirty. Where that reaches a bind, what refers to the bind may be dirty, and
so may everything above: that is settled during the pass, by whether the bind changed.

A walk remembers how strongly it has passed each node, so a burst of events on one stream walks
once. Cleaning can leave marked nodes below clean ones, and therefore makes all walks forgotten.
-/
namespace StreamLang

inductive Mark where
  /-- A bind that the node reads might have changed. -/
  | maybeDirty
  /-- Something that the node reads has changed. -/
  | dirty
  deriving DecidableEq, Repr

namespace Mark

def rank : Mark → Nat
  | maybeDirty => 1
  | dirty => 2

def max (a b : Mark) : Mark := if a.rank < b.rank then b else a

/-- Whether a node with this mark, or none, is marked at least as strongly. -/
def covers : Option Mark → Mark → Bool
  | none, _ => false
  | some a, b => b.rank ≤ a.rank

end Mark

@[ext] structure Staleness where
  /-- The nodes that are not clean. -/
  marks : NodeMap Mark
  /-- The nodes walked from since the last cleaning, with the mark they were walked at. -/
  walked : NodeMap Mark

namespace Staleness

def empty : Staleness := ⟨∅, ∅⟩

/-- The mark of a node; a clean one has none. -/
def mark? (s : Staleness) (i : NodeId) : Option Mark := s.marks[i]?

def isClean (s : Staleness) (i : NodeId) : Bool := (s.mark? i).isNone

def size (s : Staleness) : Nat := s.marks.size

/-- Marks a node at least this strongly. -/
def raise (s : Staleness) (i : NodeId) (m : Mark) : Staleness :=
  { s with marks := s.marks.insert i (((s.mark? i).map (Mark.max m)).getD m) }

/-- A walk under way: what is still to be visited, first come first served, and what was raised. -/
structure Walk where
  staleness : Staleness
  queue : List (NodeId × Mark)
  raised : List NodeId

/-- Where a change at a node leads: what refers to it, if it is a bind, and its parent. -/
def onwards (p : Program) (i : NodeId) (m : Mark) : List (NodeId × Mark) :=
  let referrers := if p.tree.kindIs NodeKind.isBind i then p.analysis.referrersOf i else []
  referrers.map (·, .maybeDirty) ++ ((p.tree.parent? i).map (·, m)).toList

/-- Visits a node, unless it is none of the tree or was walked at least as strongly before. -/
def Walk.visit (p : Program) (w : Walk) (i : NodeId) (m : Mark) : Walk :=
  let s := w.staleness
  if (p.tree.node? i).isNone || Mark.covers s.walked[i]? m then w
  else
    let queue := w.queue ++ onwards p i m
    let walked := s.walked.insert i m
    if Mark.covers (s.mark? i) m then ⟨⟨s.marks, walked⟩, queue, w.raised⟩
    else ⟨⟨s.marks.insert i m, walked⟩, queue, w.raised ++ [i]⟩

/-- Makes at most so many visits. -/
def Walk.run (p : Program) : Nat → Walk → Walk
  | 0, w => w
  | n + 1, w =>
    match w.queue with
    | [] => w
    | (i, m) :: rest => Walk.run p n (Walk.visit p { w with queue := rest } i m)

/-- Marks what depends on a reader whose stream has changed, and tells which marks were raised, in
order. A node is walked at most twice and leads to its parent and, if it is a bind, to references
that no other bind has; so four visits a node and one more are enough. -/
def markChanged (s : Staleness) (p : Program) (reader : NodeId) : List NodeId × Staleness :=
  let w := Walk.run p (4 * p.tree.size + 1) ⟨s, [(reader, .dirty)], []⟩
  (w.raised, w.staleness)

def markAllChanged (s : Staleness) (p : Program) (readers : List NodeId) : Staleness :=
  readers.foldl (fun s i => (s.markChanged p i).2) s

/-- Takes the mark off a node whose value is new. -/
def markClean (s : Staleness) (i : NodeId) : Staleness := ⟨s.marks.erase i, ∅⟩

/-- Takes the mark off a node, and off the marked nodes that hang together below it, down to `n`
levels. -/
def cleanWithin (t : Tree) : Nat → NodeId → NodeMap Mark → NodeMap Mark
  | 0, _, marks => marks
  | n + 1, i, marks =>
    (t.children i).foldl
      (fun marks c => if marks.contains c then cleanWithin t n c marks else marks) (marks.erase i)

/-- Cleans a node that was found to be up to date. What stays marked below a clean node was not read
by the pass and is looked at again in the next one. -/
def cleanSubtree (s : Staleness) (t : Tree) (i : NodeId) : Staleness :=
  ⟨cleanWithin t (i + 1) i s.marks, ∅⟩

/-- Makes every doubt a certainty: whether a bind changed is known for one pass only. -/
def promote (s : Staleness) : Staleness := { s with marks := s.marks.map fun _ _ => .dirty }

@[simp] theorem mark?_empty (i : NodeId) : empty.mark? i = none := by simp [mark?, empty]

theorem mark?_raise (s : Staleness) (i j : NodeId) (m : Mark) :
    (s.raise i m).mark? j =
      if i = j then some (((s.mark? i).map (Mark.max m)).getD m) else s.mark? j := by
  simp [mark?, raise, Std.ExtTreeMap.getElem?_insert]

theorem mark?_markClean (s : Staleness) (i j : NodeId) :
    (s.markClean i).mark? j = if i = j then none else s.mark? j := by
  simp [mark?, markClean, Std.ExtTreeMap.getElem?_erase]

theorem mark?_promote (s : Staleness) (i : NodeId) :
    s.promote.mark? i = (s.mark? i).map fun _ => .dirty := by
  simp [mark?, promote, Std.ExtTreeMap.getElem?_map]

end Staleness
end StreamLang
