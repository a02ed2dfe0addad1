import StreamLang.Proofs.Reuse.Committed
import StreamLang.Proofs.Reuse.Readers
/-!
The invariant that holds between passes: committed values and marks fit the world seen last, and
readers are told of whatever is new since. Every operation on a reactor keeps it.
-/
namespace StreamLang

open Staleness (Walked)

namespace Kept

variable {t : Tree} {f : t.Focus} {left : NodeId → Prop} {V : NodeId → Value} {c : Cache} {s : Staleness}

theorem markAllChanged (k : Kept f left V c s) (readers : List NodeId) :
    Kept f left V c (s.markAllChanged (.ofTree t) readers) := by
  have o := f.ordered
  obtain ⟨hw, hg, -⟩ := Staleness.walked_markAllChanged o readers k.walked
  -- what is in step with the walks before stays in step with them
  have off : Walked t (fun i => s.mark? i ≠ s.walked[i]?) s :=
    { k.walked with sync := fun i hi => not_not.1 hi }
  have sync := (Staleness.walked_markAllChanged o readers off).1.sync
  refine { k with walked := hw, dirty := fun i e hi hl he => ?_, parts := fun r n m hr hl hm => ?_ }
  · have hle := hg.marks i
    rw [k.dirty i e hi hl he] at hle
    exact Mark.eq_dirty_of_le hle
  · exact (k.parts r n m hr hl hm).imp_left fun h => sync m (not_not.2 h)

end Kept

namespace Staleness

theorem dirty_markAllChanged {t : Tree} (o : t.Ordered) {left : NodeId → Prop} {s : Staleness}
    (h : Walked t left s) (readers : List NodeId) {i : NodeId} (hi : s.walked[i]? = some .dirty) :
    (s.markAllChanged (.ofTree t) readers).walked[i]? = some .dirty := by
  have hle := (walked_markAllChanged o readers h).2.1.walked i
  rw [hi] at hle
  exact Mark.eq_dirty_of_le hle

end Staleness

namespace Reactor

/-- What happens between passes, one thing after another: some nodes are marked with all that they
lead to, among them the readers of every stream that shows something else, and the nodes that were
to be told and no longer wait for it. Subscriptions and waiting events are free to change. -/
structure Marked (t : Tree) (readers : List NodeId) (r r' : Reactor) : Prop where
  cache : r'.cache = r.cache
  staleness : r'.staleness = r.staleness.markAllChanged (.ofTree t) readers
  registry : Registry.AllFollow (fun rs => readers = rs) r.registry r'.registry
  edges : ∀ i ∈ r.edgeTriggered, i ∈ readers ∨ i ∈ r'.edgeTriggered

/-- All that can happen between passes. -/
def Between (t : Tree) : Reactor → Reactor → Prop :=
  Relation.ReflTransGen fun r r' => ∃ readers, Marked t readers r r'

variable {t : Tree} {f : t.Focus} {left : NodeId → Prop} {w : World} {V : NodeId → Value}
  {r r' : Reactor}

theorem Marked.between {readers : List NodeId} (h : Marked t readers r r') : Between t r r' :=
  Relation.ReflTransGen.single ⟨readers, h⟩

theorem between_inbox (r : Reactor) (inbox : Inbox) : Between t r { r with inbox } :=
  Relation.ReflTransGen.single
    ⟨[], rfl, rfl, Registry.AllFollow.refl _, fun _ h => .inr h⟩

theorem between_takeIn (r : Reactor) (e : StreamEvent) :
    Between t r (takeIn (.ofTree t) r e) := by
  unfold takeIn record
  cases hr : r.registry.record e.stream e.value with
  | error e => exact Relation.ReflTransGen.refl
  | ok p =>
    obtain ⟨recorded, registry⟩ := p
    exact Marked.between ⟨rfl, rfl, Registry.allFollow_record hr, fun _ hi => .inr hi⟩

theorem between_takeInAll (events : List StreamEvent) (r : Reactor) :
    Between t r (events.foldl (takeIn (.ofTree t)) r) := by
  induction events generalizing r with
  | nil => exact Relation.ReflTransGen.refl
  | cons e rest ih => exact (between_takeIn r e).trans (ih _)

theorem between_setAvailable {stream : String} {available : Bool}
    (h : r.setAvailable (.ofTree t) stream available = .ok r') : Between t r r' := by
  obtain ⟨readers, registry, ha, rfl⟩ := setAvailable_eq_ok h
  exact Marked.between ⟨rfl, rfl, Registry.allFollow_setAvailable ha, fun _ hi => .inr hi⟩

/-- When a pass begins, events are taken in, and nodes that were told of a change are marked and
forgotten. -/
theorem between_beginPass (r : Reactor) : Between t r (r.beginPass (.ofTree t)).2 := by
  refine ((between_inbox r r.inbox.drain.2).trans (between_takeInAll r.inbox.drain.1 _)).trans ?_
  exact Marked.between ⟨rfl, rfl, Registry.AllFollow.refl _, fun i hi => .inl hi⟩

/-- A pass that is dropped leaves its subscriptions. -/
theorem between_discard (r : Reactor) (done : Record) : Between t r (r.discard done) :=
  Relation.ReflTransGen.single
    ⟨[], rfl, rfl, (Registry.allFollow_subscribeAll _ _).mono fun _ => False.elim,
      fun _ h => .inr h⟩

/-- Committed values and marks fit the world `w` with its values `V`, but for the nodes that were
left behind, and readers are told of what is new. -/
structure Coherent {t : Tree} (f : t.Focus) (left : NodeId → Prop) (w : World) (V : NodeId → Value)
    (r : Reactor) : Prop where
  kept : Kept f left V r.cache r.staleness
  attentive : Attentive f left w r.staleness r.edgeTriggered r.registry

/-- Marking what the readers of changed streams lead to keeps everything. -/
theorem Coherent.marked (h : Coherent f left w V r) {readers : List NodeId}
    (m : Marked t readers r r') : Coherent f left w V r' := by
  have o := f.ordered
  have hdirty := (Staleness.walked_markAllChanged o readers h.kept.walked).2.2
  refine ⟨?_, ?_⟩
  · rw [m.cache, m.staleness]
    exact h.kept.markAllChanged readers
  · rw [m.staleness]
    refine h.attentive.follow (m.registry.mono ?_) ?_ ?_
    · rintro _ rfl
      exact hdirty
    · exact fun i hi => Staleness.dirty_markAllChanged o h.kept.walked readers hi
    · exact fun i hi hlt => (m.edges i hi).imp (fun hm => hdirty i hm hlt) id

theorem Coherent.between (h : Coherent f left w V r) (hb : Between t r r') :
    Coherent f left w V r' := by
  induction hb with
  | refl => exact h
  | tail _ hm ih =>
    obtain ⟨readers, hm⟩ := hm
    exact ih.marked hm

/-- With nothing committed, nothing can be out of date. -/
theorem Coherent.fresh (f : t.Focus) (w : World) (V : NodeId → Value) (hc : r.cache = .empty)
    (hs : r.staleness = .empty) :
    Coherent f (fun _ => True) w V (r.subscribeReaders (.ofTree t)) := by
  refine ⟨by rw [subscribeReaders, hc, hs]; exact Kept.empty f V,
    Registry.Subscribed.subscribeReaders t r.registry, ?_, ?_⟩
  · exact fun i n stream mode hl => absurd trivial hl
  · exact fun c i hl => absurd trivial hl

end Reactor

namespace Registry

/-- After a commit a stream shows what the pass has seen, and has changed no more. -/
theorem stream?_committed (r : Registry) (pass : Nat) (subscriptions : List (String × NodeId))
    (name : String) :
    let r' := (r.subscribeAll subscriptions).markObserved (r.snapshot pass)
    (r.stream? name = none ∧ r'.stream? name = none) ∨
      ∃ x x', r.stream? name = some x ∧ r'.stream? name = some x' ∧
        (∀ i ∈ x.readers, i ∈ x'.readers) ∧ x'.entry = { x.entry with changed := false } ∧
          x'.observed = x'.version := by
  intro r'
  have hr' : r'.stream? name = _ := stream?_markObserved _ (r.snapshot pass) name
  rcases allFollow_subscribeAll subscriptions r name with ⟨h, h'⟩ | ⟨x, x₁, h, h', hf⟩
  · exact .inl ⟨h, by rw [hr', h', Option.map_none]⟩
  · rw [h', Option.map_some, snapshot_get?, h, Option.map_some] at hr'
    refine .inr ⟨x, _, h, hr', hf.readers, ?_⟩
    have hshow := hf.shows.resolve_right id
    simp only [Stream.entry, SnapshotEntry.mk.injEq] at hshow
    obtain ⟨hcurrent, hversion, -, havailable, hdemand⟩ := hshow
    have hcur : Stream.current { x₁ with observed := x.version } = x₁.current := rfl
    simp only [Stream.entry, SnapshotEntry.mk.injEq]
    refine ⟨⟨hcur.trans hcurrent, hversion, ?_, havailable, hdemand⟩, hversion.symm⟩
    simp [hversion]

theorem Subscribed.committed {t : Tree} {r : Registry} (h : r.Subscribed t) (pass : Nat)
    (subscriptions : List (String × NodeId)) :
    ((r.subscribeAll subscriptions).markObserved (r.snapshot pass)).Subscribed t := by
  intro i k stream x' hk hstream hx'
  rcases r.stream?_committed pass subscriptions stream with ⟨-, hn⟩ | ⟨x, x₁, hx, hx₁, hreaders, -⟩
  · rw [hn] at hx'
    cases hx'
  · obtain rfl : x₁ = x' := Option.some.inj (hx₁.symm.trans hx')
    exact hreaders i (h i k stream x hk hstream hx)

end Registry

namespace Begun

variable {t : Tree} {f : t.Focus} {left : NodeId → Prop} {w w' : World} {V V' : NodeId → Value}
  {s : Setting} {done : Record} {r : Reactor} (b : Begun f left w w' V V' s) (h : Sound f left V' s done)
include b h

/-- After a commit everything fits the world of the pass, if it takes the mark off no node that is
known to be dirty but by writing it. -/
theorem coherent_commit (mindful : f.Mindful s) (root : f.known t.root → Settled left s done t.root)
    (hr : r.Coherent f left w V) (hcache : s.cache = r.cache) (hstale : s.staleness = r.staleness)
    (hseen : s.snapshot = r.registry.snapshot s.snapshot.pass)
    (spares : ∀ i e, f.steady i → t.kind? i ≠ some .reaction → s.cache.find? i = some e →
      s.staleness.mark? i = some .dirty →
      (r.commit t s.snapshot done).staleness.mark? i = none → done.Wrote i) :
    (r.commit t s.snapshot done).Coherent f
      (LeftAfter left done (r.commit t s.snapshot done).staleness) w' V' := by
  have c := r.commit_cleans f.ordered s.snapshot done
  rw [← hstale] at c
  have reaction {i : NodeId} (hk : t.kind? i = some .reaction) : (t.kind? i == some .reaction) = true := by
    rw [hk]
    rfl
  refine ⟨b.kept_commit h c mindful root spares s.snapshot.pass (fun i e he => ?_) fun i hk hi => ?_, ?_⟩
  · rw [hcache]
    exact r.commit_find? he
  · refine r.commit_has_reaction (fun w hw => ?_) (fun e he => ?_) (hcache ▸ hi)
    · rw [(h.flags i w hw).2, reaction hk]
    · rw [(hr.kept.flags i e he).2, reaction hk]
  have told (i : NodeId) (hl : ¬ left i) (hsignals : t.Signals s.snapshot i) :
      s.staleness.walked[i]? = some .dirty := by
    rw [hstale]
    refine hr.attentive.told i i hl ?_
    obtain ⟨n, stream, e, hw, hk, he, hch⟩ := hsignals
    rw [hseen, Registry.snapshot_get?, ← Registry.snapshot_get? _ 0] at he
    exact ⟨n, stream, e, hw, hk, he, hch⟩
  have hregistry := r.commit_registry t s.snapshot done
  have committed := r.registry.stream?_committed s.snapshot.pass done.subscriptions
  simp only [← hseen, ← hregistry] at committed
  refine ⟨hregistry ▸ hseen ▸ hr.attentive.readers.committed _ _, ?_, ?_⟩
  · intro i n stream mode hl hi hw hk hne
    right
    rw [r.commit_edgeTriggered]
    have hshown : w'.snapshot.get? stream = (r.registry.stream? stream).map Stream.entry := by
      rw [b.snapshot, hseen, Registry.snapshot_get?]
    have hnow : (w'.now (r.commit t s.snapshot done).registry).snapshot.get? stream =
        ((r.commit t s.snapshot done).registry.stream? stream).map Stream.entry :=
      Registry.snapshot_get? _ _ _
    rcases committed stream with ⟨hx, hx'⟩ | ⟨x, x', hx, hx', -, hentry, -⟩
    · rw [hx] at hshown
      rw [hx'] at hnow
      exact absurd (World.reading_of_entry (hshown.trans hnow.symm) rfl i mode) hne
    rw [hx] at hshown
    rw [hx', Option.map_some, hentry] at hnow
    cases mode with
    | latest =>
      have hmap : (w'.now (r.commit t s.snapshot done).registry).snapshot.get? stream =
          (w'.snapshot.get? stream).map fun e => { e with changed := false } := by
        rw [hshown, hnow]
        rfl
      exact absurd (World.reading_latest hmap rfl i).symm hne
    | changed =>
      refine ⟨rfl, ?_⟩
      cases hch : x.entry.changed with
      | false =>
        refine absurd ?_ hne
        simp only [World.reading, hshown, hnow, Option.map_some, hch]
      | true =>
        have hget : s.snapshot.get? stream = some x.entry := by
          rw [← b.snapshot, hshown]
          rfl
        exact b.edgeTriggered_or_leftAfter h c (told i) hl hi hw (Machine.reads?_changed hk) hget hch
  · rintro c i - ⟨n, stream, e, hw, hk, he, hch⟩
    rw [Registry.snapshot_get?] at he
    obtain ⟨x', hx', rfl⟩ := Option.map_eq_some_iff.1 he
    rcases committed stream with ⟨-, hn⟩ | ⟨x, x₁, -, hx₁, -, -, hobserved⟩
    · rw [hn] at hx'
      cases hx'
    · obtain rfl : x₁ = x' := Option.some.inj (hx₁.symm.trans hx')
      simp [Stream.entry, hobserved] at hch

end Begun
end StreamLang
