import StreamLang.Cache
import StreamLang.Config.Basic
import StreamLang.Machine.Frame
import StreamLang.Machine.Record
import StreamLang.Staleness
import StreamLang.Stream.Registry
/-!
What a pass runs against, and what that says about committed values. A value is used again if it is
reusable, its node is not volatile, and nothing that the node reads has changed: either the node has
no mark, or it is only in doubt and every bind that it depends on is known to be the same.
-/
namespace StreamLang

/-- How a pass ended. -/
inductive Terminal where
  | done (v : Value)
  /-- The value of the root is a failure. -/
  | exception (v : Value)
  | budgetExceeded
  | aborted
  deriving Repr

namespace Terminal

def ofValue (v : Value) : Terminal := if v.isException then .exception v else .done v

def value? : Terminal → Option Value
  | done v | exception v => some v
  | budgetExceeded | aborted => none

/-- Whether two passes ended alike, with values that programs call equal. -/
def equal : Terminal → Terminal → Bool
  | done v, done w => v.equal w
  | exception v, exception w => v.equal w
  | budgetExceeded, budgetExceeded => true
  | aborted, aborted => true
  | _, _ => false

end Terminal

/-- What a pass runs against. -/
structure Setting where
  program : Program
  cache : Cache
  staleness : Staleness
  /-- The scope around the whole program. -/
  globals : ScopeId
  snapshot : Snapshot
  root : NodeId
  budget : Nat
  policy : UnavailablePolicy

namespace Setting

/-- Whether a bind differs from what was committed. One that this pass has not come to is taken to
differ if its committed value cannot be relied on. -/
def bindChanged (s : Setting) (r : Record) (b : NodeId) : Bool :=
  match r.bindsChanged[b]? with
  | some changed => changed
  | none => !s.staleness.isClean b || (s.cache.reusable? b).isNone

/-- Whether nothing that the node reads has changed since it was committed. -/
def unaffected (s : Setting) (r : Record) (i : NodeId) : Bool :=
  match s.staleness.mark? i with
  | none => true
  | some .dirty => false
  | some .maybeDirty => !(s.program.analysis.dependencies i).any (s.bindChanged r)

/-- Whether a committed value still holds. A reaction that has one never looks at its first part
again. -/
def holds (s : Setting) (r : Record) (i : NodeId) : Bool :=
  if s.program.tree.kindIs (· == .reaction) i then
    ((s.program.tree.children i).drop 1).all (s.unaffected r)
  else s.unaffected r i

/-- The committed value that stands in for an evaluation, if one does. -/
def reuse? (s : Setting) (r : Record) (i : NodeId) : Option Value :=
  if s.program.analysis.isVolatile i then none
  else if s.holds r i then s.cache.reusable? i
  else none

/-- What is noted about a node whose committed value is used. -/
def noteReuse (s : Setting) (r : Record) (i : NodeId) : Record :=
  let r := if s.staleness.isClean i then r else { r with cleaned := r.cleaned ++ [i] }
  let r := if s.program.tree.kindIs NodeKind.isBind i then r.setBind i false else r
  r.countReuse

/-- What is noted about a node that has finished. -/
def noteFinish (s : Setting) (r : Record) (f : Frame) (v : Value) : Record :=
  let kind := s.program.tree.kind? f.node
  let r :=
    if kind.any NodeKind.isBind then
      r.setBind f.node !((s.cache.value? f.node).any (·.equal v))
    else r
  r.write f.node
    ⟨v, !s.program.analysis.isVolatile f.node, kind == some .reaction, f.streamVersion⟩

end Setting

end StreamLang
