import StreamLang.Proofs.Reuse.Pass
import StreamLang.Proofs.Success
/-!
What comes in between passes. A steady reader whose stream shows something else than in the world
seen last has been walked from, or will be: it was told of a change, and that it has changed no more is
something that it has not seen. Events, openings and closings of streams and the beginning of a pass
keep this, and so the marks at the beginning of a pass tell all that is new in its world.
-/
namespace StreamLang

open Mark (level)

namespace Assoc

variable {α : Type u} {β : Type v} {γ : Type x} [DecidableEq α]

theorem get?_map (f : α → β → γ) (k : α) (a : Assoc α β) :
    get? k (a.map fun p => (p.1, f p.1 p.2)) = (get? k a).map (f k) := by
  induction a with
  | nil => rfl
  | cons p rest ih =>
    obtain ⟨k', v⟩ := p
    by_cases h : k' = k
    · subst h
      simp [get?]
    · simpa [get?, h] using ih

end Assoc

/-- How a stream shows in a snapshot. -/
def Stream.entry (s : Stream) : SnapshotEntry :=
  ⟨s.current, s.version, s.observed < s.version, !s.available, s.spec.emission == .onDemand⟩

namespace Registry

theorem snapshot_get? (r : Registry) (pass : Nat) (name : String) :
    (r.snapshot pass).get? name = (r.stream? name).map Stream.entry :=
  Assoc.get?_map (fun _ s => Stream.entry s) name r.streams

theorem stream?_set (r : Registry) (name other : String) (s : Stream) :
    (r.set name s).stream? other = if name = other then some s else r.stream? other :=
  Assoc.get?_put name other s r.streams

theorem stream?_mapStreams (r : Registry) (f : Stream → Stream) (name : String) :
    (r.mapStreams f).stream? name = (r.stream? name).map f :=
  Assoc.get?_map (fun _ s => f s) name r.streams

theorem stream?_markObserved (r : Registry) (seen : Snapshot) (name : String) :
    (r.markObserved seen).stream? name = (r.stream? name).map fun s =>
      match seen.get? name with
      | some e => { s with observed := e.version }
      | none => s := by
  have h : (r.markObserved seen).streams = r.streams.map fun p => (p.1, match seen.get? p.1 with
      | some e => { p.2 with observed := e.version }
      | none => p.2) := by
    refine List.map_congr_left fun p _ => ?_
    obtain ⟨name, s⟩ := p
    simp only
    cases seen.get? name <;> rfl
  rw [stream?, h]
  exact Assoc.get?_map (fun name s => match seen.get? name with
    | some e => { s with observed := e.version }
    | none => s) name r.streams

/-- A stream has the readers that it had, and shows what it did unless some nodes hear of it. -/
structure Follows (hear : List NodeId → Prop) (s s' : Stream) : Prop where
  readers : ∀ i ∈ s.readers, i ∈ s'.readers
  shows : s'.entry = s.entry ∨ hear s.readers

/-- All streams follow, and none is added or lost. -/
def AllFollow (hear : List NodeId → Prop) (r r' : Registry) : Prop :=
  ∀ name, (r.stream? name = none ∧ r'.stream? name = none) ∨
    ∃ s s', r.stream? name = some s ∧ r'.stream? name = some s' ∧ Follows hear s s'

variable {hear : List NodeId → Prop}

theorem AllFollow.refl (r : Registry) : AllFollow hear r r := fun name => by
  cases h : r.stream? name with
  | none => exact .inl ⟨rfl, rfl⟩
  | some s => exact .inr ⟨s, s, rfl, rfl, fun _ h => h, .inl rfl⟩

theorem AllFollow.set {r : Registry} {name : String} {s s' : Stream} (h : r.stream? name = some s)
    (follows : Follows hear s s') : AllFollow hear r (r.set name s') := fun other => by
  rw [stream?_set]
  by_cases hn : name = other
  · subst hn
    exact .inr ⟨s, s', h, if_pos rfl, follows⟩
  · rw [if_neg hn]
    exact AllFollow.refl r other

theorem AllFollow.mono {hear' : List NodeId → Prop} {r r' : Registry} (h : AllFollow hear r r')
    (le : ∀ readers, hear readers → hear' readers) : AllFollow hear' r r' := fun name => by
  rcases h name with h | ⟨s, s', h, h', hf⟩
  · exact .inl h
  · exact .inr ⟨s, s', h, h', hf.readers, hf.shows.imp id (le s.readers)⟩

theorem AllFollow.trans {r r' r'' : Registry} (h : AllFollow (fun _ => False) r r')
    (h' : AllFollow (fun _ => False) r' r'') : AllFollow (fun _ => False) r r'' := fun name => by
  rcases h name with ⟨h₁, h₂⟩ | ⟨s, s', h₁, h₂, hf⟩
  · rcases h' name with ⟨-, h₃⟩ | ⟨s', -, h₃, -⟩
    · exact .inl ⟨h₁, h₃⟩
    · rw [h₂] at h₃
      cases h₃
  · rcases h' name with ⟨h₃, -⟩ | ⟨s₂, s'', h₃, h₄, hf'⟩
    · rw [h₂] at h₃
      cases h₃
    · obtain rfl : s' = s₂ := Option.some.inj (h₂.symm.trans h₃)
      exact .inr ⟨s, s'', h₁, h₄, fun i hi => hf'.readers i (hf.readers i hi),
        .inl ((hf'.shows.resolve_right id).trans (hf.shows.resolve_right id))⟩

theorem allFollow_subscribe (r : Registry) (name : String) (i : NodeId) :
    AllFollow (fun _ => False) r (r.subscribe name i).2 := by
  unfold subscribe
  cases hs : r.stream? name with
  | none => exact AllFollow.refl r
  | some s => exact AllFollow.set hs ⟨fun j hj => mem_pushNew.2 (.inl hj), .inl rfl⟩

/-- Subscriptions change nothing that shows. -/
theorem allFollow_subscribeAll (subscriptions : List (String × NodeId)) (r : Registry) :
    AllFollow (fun _ => False) r (r.subscribeAll subscriptions) := by
  induction subscriptions generalizing r with
  | nil => exact AllFollow.refl r
  | cons p rest ih => exact (allFollow_subscribe r p.1 p.2).trans (ih _)

/-- After subscribing, a node is among the readers of its stream. -/
theorem mem_readers_subscribeAll (subscriptions : List (String × NodeId)) (r : Registry)
    {name : String} {i : NodeId} (h : (name, i) ∈ subscriptions) {s : Stream}
    (hs : (r.subscribeAll subscriptions).stream? name = some s) : i ∈ s.readers := by
  induction subscriptions generalizing r with
  | nil => cases h
  | cons p rest ih =>
    rcases List.mem_cons.1 h with rfl | h
    · rcases allFollow_subscribeAll rest (r.subscribe name i).2 name with ⟨-, h'⟩ | ⟨s₁, s', h₁, h', hf⟩
      · exact absurd (h'.symm.trans hs) (by simp)
      · obtain rfl : s' = s := Option.some.inj (h'.symm.trans hs)
        refine hf.readers i ?_
        unfold subscribe at h₁
        cases h₀ : r.stream? name with
        | none => simp [h₀] at h₁
        | some s₀ =>
          simp only [h₀, stream?_set, if_true] at h₁
          obtain rfl := Option.some.inj h₁
          exact mem_pushNew.2 (.inr rfl)
    · exact ih _ h hs

theorem readers_record {s s' : Stream} {v : Value} {n : Nat} (h : s.record v n = .ok s') :
    s'.readers = s.readers := by
  obtain ⟨-, version, origin, history, rfl⟩ := Stream.record_eq_ok h
  rfl

/-- Recording an event is heard by the readers of its stream. -/
theorem allFollow_record {r r' : Registry} {name : String} {v : Value} {recorded : Recorded}
    (h : r.record name v = .ok (recorded, r')) :
    AllFollow (fun readers => recorded.readers = readers) r r' := by
  rw [record_eq] at h
  cases hs : r.stream? name with
  | none => simp [hs] at h
  | some s =>
    simp only [hs] at h
    obtain ⟨s', hr, hrecorded⟩ := of_map_eq_ok h
    obtain ⟨rfl, rfl⟩ := Prod.mk.inj hrecorded
    have hread := readers_record hr
    exact AllFollow.set (r := r) hs ⟨fun i hi => hread ▸ hi, .inr hread⟩

/-- So is opening or closing a stream. -/
theorem allFollow_setAvailable {r r' : Registry} {name : String} {available : Bool}
    {readers : List NodeId} (h : r.setAvailable name available = .ok (readers, r')) :
    AllFollow (fun rs => readers = rs) r r' := by
  unfold setAvailable at h
  cases hs : r.stream? name with
  | none => simp [hs] at h
  | some s =>
    simp only [hs] at h
    split at h
    · cases h
      exact AllFollow.refl r
    · cases h
      exact AllFollow.set hs ⟨fun _ h => h, .inr rfl⟩

end Registry

/-- Every node that reads a stream is among its readers. -/
def Registry.Subscribed (t : Tree) (r : Registry) : Prop :=
  ∀ i k stream x, t.kind? i = some k → k.stream? = some stream → r.stream? stream = some x →
    i ∈ x.readers

namespace Registry.Subscribed

variable {t : Tree} {hear : List NodeId → Prop} {r r' : Registry}

theorem follow (h : Subscribed t r) (hr : AllFollow hear r r') : Subscribed t r' := by
  intro i k stream x' hk hstream hx'
  rcases hr stream with ⟨-, h'⟩ | ⟨x, x₁, hx, h', hf⟩
  · rw [h'] at hx'
    cases hx'
  · obtain rfl : x₁ = x' := Option.some.inj (h'.symm.trans hx')
    exact hf.readers i (h i k stream x hk hstream hx)

theorem subscribeReaders (t : Tree) (r : Registry) :
    Subscribed t (r.subscribeAll (Analysis.ofTree t).readers) := fun _ k _ _ hk hstream hx =>
  mem_readers_subscribeAll _ _ (Analysis.mem_readers.2 ⟨k, hk, hstream⟩) hx

end Registry.Subscribed

/-- The same world, but with the streams as they show now. -/
def World.now (w : World) (r : Registry) : World := { w with snapshot := r.snapshot 0 }

namespace World

theorem reading_of_entry {w w' : World} {stream : String}
    (h : w.snapshot.get? stream = w'.snapshot.get? stream) (hp : w.policy = w'.policy) (i : NodeId)
    (mode : FetchMode) :
    w.reading i stream mode = w'.reading i stream mode := by
  simp only [reading, h, hp]

/-- What was read last does not depend on whether it is new. -/
theorem reading_latest {w w' : World} {stream : String}
    (h : w'.snapshot.get? stream = (w.snapshot.get? stream).map fun e => { e with changed := false })
    (hp : w'.policy = w.policy) (i : NodeId) :
    w'.reading i stream .latest = w.reading i stream .latest := by
  unfold reading
  rw [h, hp]
  cases w.snapshot.get? stream <;> rfl

end World

/-- What readers have been told, if `w` is the world seen last and `edges` are the nodes to be told
that their stream has changed no more. -/
structure Attentive {t : Tree} (f : t.Focus) (left : NodeId → Prop) (w : World) (s : Staleness)
    (edges : List NodeId) (r : Registry) : Prop where
  readers : r.Subscribed t
  seen : ∀ i n stream mode, ¬ left i → f.steady i → t.Working i n →
    Machine.reads? n.kind = some (stream, mode) →
    w.reading i stream mode ≠ (w.now r).reading i stream mode →
    s.walked[i]? = some .dirty ∨ mode = .changed ∧ i ∈ edges
  /-- Once a pass has committed, no change goes unnoticed. -/
  told : ∀ c i, ¬ left c → t.Signals (r.snapshot 0) i → s.walked[i]? = some .dirty

namespace Attentive

variable {t : Tree} {f : t.Focus} {left : NodeId → Prop} {w : World} {s s' : Staleness}
  {edges edges' : List NodeId} {r r' : Registry}

theorem kind_of_reads {i : NodeId} {n : Node} {stream : String} {mode : FetchMode}
    (hw : t.Working i n) (hk : Machine.reads? n.kind = some (stream, mode)) :
    t.kind? i = some n.kind ∧ n.kind.stream? = some stream := by
  refine ⟨hw.kind, ?_⟩
  cases h : n.kind <;> rw [h] at hk <;> simp_all [Machine.reads?, NodeKind.stream?]

/-- Readers stay attentive if they hear of what their streams show. -/
theorem follow (h : Attentive f left w s edges r)
    (hr : Registry.AllFollow (fun readers => ∀ i ∈ readers, i < t.size →
      s'.walked[i]? = some .dirty) r r')
    (hs : ∀ i : NodeId, s.walked[i]? = some .dirty → s'.walked[i]? = some .dirty)
    (he : ∀ i ∈ edges, i < t.size → s'.walked[i]? = some .dirty ∨ i ∈ edges') :
    Attentive f left w s' edges' r' := by
  have before {stream : String} {x' : Stream} (hx' : r'.stream? stream = some x') :
      ∃ x, r.stream? stream = some x ∧ Registry.Follows (fun readers => ∀ i ∈ readers,
        i < t.size → s'.walked[i]? = some .dirty) x x' := by
    rcases hr stream with ⟨-, h'⟩ | ⟨x, x₁, hx, h', hf⟩
    · rw [h'] at hx'
      cases hx'
    · obtain rfl : x₁ = x' := Option.some.inj (h'.symm.trans hx')
      exact ⟨x, hx, hf⟩
  refine ⟨h.readers.follow hr, ?_, ?_⟩
  · intro i n stream mode hl hi hw hk hne
    obtain ⟨hkind, hstream⟩ := kind_of_reads hw hk
    by_cases hold : w.reading i stream mode = (w.now r).reading i stream mode
    · left
      have same (hx : (r.stream? stream).map Stream.entry = (r'.stream? stream).map Stream.entry) :
          False := by
        have hget : (w.now r).snapshot.get? stream = (w.now r').snapshot.get? stream := by
          simpa only [World.now, Registry.snapshot_get?] using hx
        exact hne (hold.trans (World.reading_of_entry hget rfl i mode))
      rcases hr stream with ⟨h₁, h₂⟩ | ⟨x, x', h₁, h₂, hf⟩
      · exact (same (by rw [h₁, h₂])).elim
      · rcases hf.shows with hshow | hheard
        · exact (same (by rw [h₁, h₂, Option.map_some, Option.map_some, hshow])).elim
        · exact hheard i (h.readers i n.kind stream x hkind hstream h₁)
            (Tree.lt_size_of_kind hkind)
    · rcases h.seen i n stream mode hl hi hw hk hold with hd | ⟨hm, hedge⟩
      · exact .inl (hs i hd)
      · exact (he i hedge (Tree.lt_size_of_kind hkind)).imp id fun h => ⟨hm, h⟩
  · rintro c i hl ⟨n, stream, e, hw, hk, he, hch⟩
    rw [Registry.snapshot_get?] at he
    obtain ⟨x', hx', rfl⟩ := Option.map_eq_some_iff.1 he
    obtain ⟨x, hx, hf⟩ := before hx'
    have hstream : n.kind.stream? = some stream := by rw [hk]; rfl
    rcases hf.shows with hshow | hheard
    · have hget : (r.snapshot 0).get? stream = some x.entry := by
        rw [Registry.snapshot_get?, hx, Option.map_some]
      exact hs i (h.told c i hl ⟨n, stream, x.entry, hw, hk, hget, hshow ▸ hch⟩)
    · exact hheard i (h.readers i n.kind stream x hw.kind hstream hx) (Tree.lt_size_of_kind hw.kind)

end Attentive
end StreamLang
