import StreamLang.Proofs.Machine.Reads
import StreamLang.Proofs.Reuse.Between
/-!
Stream readers whose committed value is not what their stream shows any more, and their marks. What
happens between passes marks them all. A commit writes some of them, and of the others it leaves out
of account just those that it sweeps clean along with a node above them.
-/
namespace StreamLang

open Staleness (Walked)

namespace Reactor

/-- What readers of streams would be given now. -/
def view (r : Reactor) (policy : UnavailablePolicy) : World :=
  ⟨r.registry.snapshot 0, policy, fun _ => none, fun _ => none⟩

/-- A reader of a stream whose committed value is not what it would be given now. -/
def OutOfDate (t : Tree) (policy : UnavailablePolicy) (r : Reactor) (i : NodeId) : Prop :=
  ∃ n stream u, t.Working i n ∧ n.kind = .stream stream ∧ (r.registry.stream? stream).isSome ∧
    r.cache.value? i = some u ∧ u ≠ (r.view policy).reading i stream .latest

/-- Every reader that is out of date is known to be dirty. -/
def Accounted (t : Tree) (policy : UnavailablePolicy) (r : Reactor) : Prop :=
  ∀ i, r.OutOfDate t policy i → r.staleness.mark? i = some .dirty

/-- Every walk has left its marks, and streams know their readers. -/
structure Alert (t : Tree) (r : Reactor) : Prop where
  walked : Walked t (fun _ => True) r.staleness
  readers : r.registry.Subscribed t

variable {t : Tree} {policy : UnavailablePolicy} {r r' : Reactor} {seen : Snapshot} {done : Record}
  {s : Setting} {i : NodeId}

theorem accounted_of_empty (hc : r.cache = .empty) : r.Accounted t policy := by
  rintro i ⟨n, stream, u, -, -, -, hu, -⟩
  simp [hc, Cache.value?] at hu

theorem Alert.fresh (t : Tree) (hs : r.staleness = .empty) :
    Alert t (r.subscribeReaders (.ofTree t)) := by
  refine ⟨?_, Registry.Subscribed.subscribeReaders t r.registry⟩
  rw [subscribeReaders, hs]
  refine ⟨?_, ?_, ?_, ?_, ?_, ?_⟩ <;> simp [Staleness.empty]

theorem Alert.marked (o : t.Ordered) (h : r.Alert t) {readers : List NodeId}
    (m : Marked t readers r r') : r'.Alert t := by
  refine ⟨?_, h.readers.follow m.registry⟩
  rw [m.staleness]
  exact (Staleness.walked_markAllChanged o readers h.walked).1

/-- The readers of a stream that shows something else are marked, and all others show as before. -/
theorem Accounted.marked (o : t.Ordered) (l : r.Alert t) (h : r.Accounted t policy)
    {readers : List NodeId} (m : Marked t readers r r') : r'.Accounted t policy := by
  obtain ⟨hwalked, hgrows, hdirty⟩ := Staleness.walked_markAllChanged o readers l.walked
  rintro i ⟨n, stream, u, hw, hk, hx, hu, hne⟩
  rw [m.staleness]
  rw [m.cache] at hu
  rcases m.registry stream with ⟨-, hx'⟩ | ⟨x, x', hx₁, hx', hf⟩
  · simp [hx'] at hx
  rcases hf.shows with hshow | hheard
  · have hget : (r.view policy).snapshot.get? stream = (r'.view policy).snapshot.get? stream := by
      simp only [view, Registry.snapshot_get?, hx₁, hx', Option.map_some, hshow]
    have hold : r.staleness.mark? i = some .dirty :=
      h i ⟨n, stream, u, hw, hk, by simp [hx₁], hu,
        fun heq => hne (heq.trans (World.reading_of_entry hget rfl i .latest))⟩
    have hle := hgrows.marks i
    rw [hold] at hle
    exact Mark.eq_dirty_of_le hle
  · have hread : i ∈ readers := by
      rw [hheard]
      exact l.readers i n.kind stream x hw.kind (by rw [hk]; rfl) hx₁
    have hle := hwalked.walked_le i
    rw [hdirty i hread (Tree.lt_size_of_kind hw.kind)] at hle
    exact Mark.eq_dirty_of_le hle

theorem Alert.between (o : t.Ordered) (l : r.Alert t) (hb : Between t r r') : r'.Alert t := by
  induction hb with
  | refl => exact l
  | tail _ hm ih =>
    obtain ⟨readers, hm⟩ := hm
    exact ih.marked o hm

theorem Accounted.between (o : t.Ordered) (l : r.Alert t) (h : r.Accounted t policy)
    (hb : Between t r r') : r'.Accounted t policy := by
  induction hb with
  | refl => exact h
  | tail hb hm ih =>
    obtain ⟨readers, hm⟩ := hm
    exact Accounted.marked o (l.between o hb) ih hm

/-! ### Commits -/

theorem Alert.commit (o : t.Ordered) (l : r.Alert t)
    (hseen : seen = r.registry.snapshot seen.pass) : (r.commit t seen done).Alert t := by
  refine ⟨?_, ?_⟩
  · exact (r.commit_cleans o seen done).keeps_walked l.walked fun i hi => absurd trivial hi
  · rw [commit_registry, hseen]
    exact l.readers.committed seen.pass done.subscriptions

/-- A reader that is out of date after a commit was so before, and was not written. -/
theorem OutOfDate.of_commit (ht : s.program.tree = t) (hr : s.Reads done)
    (hseen : s.snapshot = r.registry.snapshot s.snapshot.pass)
    (h : (r.commit t s.snapshot done).OutOfDate t s.policy i) :
    ¬ done.Wrote i ∧ r.OutOfDate t s.policy i := by
  obtain ⟨n, stream, u, hw, hk, hx, hu, hne⟩ := h
  have hregistry := r.commit_registry t s.snapshot done
  have committed := r.registry.stream?_committed s.snapshot.pass done.subscriptions stream
  simp only [← hseen, ← hregistry] at committed
  rcases committed with ⟨-, hn⟩ | ⟨x, x', hx₁, hx', -, hentry, -⟩
  · simp [hn] at hx
  have hmap : ((r.commit t s.snapshot done).view s.policy).snapshot.get? stream =
      ((r.view s.policy).snapshot.get? stream).map fun e => { e with changed := false } := by
    simp only [view, Registry.snapshot_get?, hx₁, hx', Option.map_some, hentry]
  rw [World.reading_latest hmap rfl] at hne
  obtain ⟨e, he, rfl⟩ := Option.map_eq_some_iff.1 hu
  rcases r.commit_find? he with ⟨w, hm, rfl⟩ | ⟨hwrote, he'⟩
  · have hget : (s.world .empty).snapshot.get? stream = (r.view s.policy).snapshot.get? stream := by
      simp only [Setting.world, view, Registry.snapshot_get?]
      rw [hseen, Registry.snapshot_get?]
    exact absurd ((hr i w n stream hm (ht ▸ hw) hk).trans
      (World.reading_of_entry hget rfl i .latest)) hne
  · exact ⟨hwrote, n, stream, e.value, hw, hk, by simp [hx₁], by simp [Cache.value?, he'], hne⟩

/-- After a commit all readers out of date are accounted for, if none of them was swept clean. -/
theorem accounted_commit (o : t.Ordered) (ht : s.program.tree = t) (hr : s.Reads done)
    (hseen : s.snapshot = r.registry.snapshot s.snapshot.pass) (h : r.Accounted t s.policy)
    (hs : ∀ i, (r.commit t s.snapshot done).OutOfDate t s.policy i →
      ¬ r.Sweeps t s.snapshot done i) :
    (r.commit t s.snapshot done).Accounted t s.policy := by
  intro i hi
  obtain ⟨hw, hbefore⟩ := hi.of_commit ht hr hseen
  exact mark?_of_not_sweeps o hw (hs i hi) (by simp [h i hbefore])

end Reactor
end StreamLang
