import StreamLang.Proofs.Engine.Passes
import StreamLang.Proofs.Reuse.Ahead
import StreamLang.Proofs.Reuse.Stamps
/-!
What holds of an engine in every session, whatever its trees are made of: what has been walked is
closed, all readers of its tree are subscribed, and no committed value is newer than the pass begun
last.
-/
namespace StreamLang

open Staleness (Walked)

namespace Reactor

/-- What holds of a reactor that runs a tree. -/
structure Regular (t : Tree) (r : Reactor) : Prop where
  walked : Walked t (fun _ => True) r.staleness
  subscribed : r.registry.Subscribed t
  stamped : r.cache.Stamped r.pass

namespace Regular

variable {t : Tree} {r r' : Reactor}

theorem between (o : t.Ordered) (h : r.Regular t) (hb : r.Between t r') (hp : r.pass ≤ r'.pass) :
    r'.Regular t := by
  have kept : Walked t (fun _ => True) r'.staleness ∧ r'.registry.Subscribed t ∧
      r'.cache = r.cache := by
    clear hp
    induction hb with
    | refl => exact ⟨h.walked, h.subscribed, rfl⟩
    | tail _ hm ih =>
      obtain ⟨hw, hs, hc⟩ := ih
      obtain ⟨readers, hm⟩ := hm
      rw [hm.staleness, hm.cache]
      exact ⟨(Staleness.walked_markAllChanged o readers hw).1, hs.follow hm.registry, hc⟩
  obtain ⟨hw, hs, hc⟩ := kept
  exact ⟨hw, hs, fun i e he => Nat.le_trans (h.stamped i e (hc ▸ he)) hp⟩

/-- A reactor that has forgotten everything. -/
theorem fresh (t : Tree) (hc : r.cache = .empty) (hs : r.staleness = .empty) :
    (r.subscribeReaders (.ofTree t)).Regular t := by
  refine ⟨?_, Registry.Subscribed.subscribeReaders t r.registry, ?_⟩
  · rw [subscribeReaders, hs]
    refine ⟨?_, fun _ hl => absurd trivial hl, ?_, ?_, ?_, by simp⟩ <;> simp [Staleness.empty]
  · intro i e he
    rw [subscribeReaders, hc] at he
    simp at he

theorem commit (o : t.Ordered) (h : r.Regular t) (done : Record) :
    (r.commit t (r.registry.snapshot r.pass) done).Regular t := by
  refine ⟨?_, ?_, fun i e he => ?_⟩
  · exact (r.commit_cleans o _ done).keeps_walked h.walked fun i hl => absurd trivial hl
  · rw [commit_registry]
    exact h.subscribed.committed r.pass done.subscriptions
  · rw [commit_pass]
    rcases r.commit_find? he with ⟨w, -, rfl⟩ | ⟨-, he⟩
    · exact Nat.le_refl _
    · exact h.stamped i e he

end Regular
end Reactor

/-- What holds of an engine that runs a tree. -/
structure Engine.Regular (e : Engine) (t : Tree) : Prop where
  program : e.program = .ofTree t
  ordered : t.Ordered
  running : e.stopped = false
  reactor : e.reactor.Regular t

namespace Engine.Regular

variable {e e' : Engine} {t : Tree}

theorem between (h : e.Regular t) (hb : e.Between t e') (hp : e.reactor.pass ≤ e'.reactor.pass) :
    e'.Regular t :=
  ⟨hb.alike.program.trans h.program, h.ordered, hb.alike.stopped.trans h.running,
    h.reactor.between h.ordered hb.reactor hp⟩

theorem reset (hp : e.program = .ofTree t) (o : t.Ordered) (hs : e.stopped = false) :
    e.reset.Regular t := by
  refine ⟨hp, o, hs, ?_⟩
  have hr : e.reset.reactor = e.reactor.invalidate.subscribeReaders (.ofTree t) := by
    simp only [Engine.reset, hs, hp]
    rfl
  rw [hr]
  exact Reactor.Regular.fresh t rfl rfl

theorem new {catalog : Catalog} {config : Config} (o : t.Ordered)
    (h : Engine.new t catalog config = .ok e) : e.Regular t := by
  obtain ⟨config', rfl⟩ := Engine.new_eq_ok h
  exact ⟨rfl, o, rfl, Reactor.Regular.fresh t rfl rfl⟩

theorem send (h : e.Regular t) {stream : String} {v : Value} (hs : e.send stream v = .ok e') :
    e'.Regular t := by
  have hb := Engine.between_send t hs
  obtain ⟨inbox, -, rfl⟩ := Engine.inbox_of_send hs
  exact h.between hb (Nat.le_refl _)

theorem addEvent (h : e.Regular t) {stream : String} {v : Value}
    (hs : e.addEvent stream v = .ok e') : e'.Regular t := by
  rw [Engine.addEvent, h.running] at hs
  exact h.send hs

theorem setAvailable (h : e.Regular t) {stream : String} {available : Bool}
    (hs : e.setAvailable stream available = .ok e') : e'.Regular t := by
  have hb := Engine.between_setAvailable h.program hs
  refine h.between hb (Nat.le_of_eq ?_)
  obtain ⟨r, hr, rfl⟩ := Engine.setAvailable_eq_ok hs
  obtain ⟨readers, registry, -, rfl⟩ := Reactor.setAvailable_eq_ok hr
  rfl

theorem opened (h : e.Regular t) : (Pass.opened e).engine.Regular t := by
  refine h.between (Engine.between_opened h.program) ?_
  simp only [Pass.opened, Reactor.beginPass_eq]
  exact Nat.le_succ e.reactor.pass

theorem requestAbort (h : e.Regular t) : e.requestAbort.Regular t :=
  h.between (Engine.between_requestAbort t e) (Nat.le_refl _)

end Engine.Regular

namespace Stage

/-- What holds of a session between passes and in them. -/
def Regular : Stage → Prop
  | idle e => ∃ t, e.Regular t
  | busy before p => (∃ t, p.engine.Regular t) ∧
    (p.Open before (fun _ _ => True) ∧ p.setting.snapshot.pass = p.engine.reactor.pass ∨ p.Settled)

variable {s s' : Stage} {fair : Pass → Prop}

theorem Regular.tick {before : Engine} {p : Pass} (h : (busy before p).Regular) :
    (busy before p.tick).Regular := by
  obtain ⟨⟨t, h⟩, ⟨o, hpass⟩ | hp⟩ := h
  · obtain ⟨hsetting, ⟨ho, he⟩ | ⟨hq, hd | ⟨k, v, hc⟩⟩⟩ := o.tick fun _ _ _ => trivial
    · exact ⟨⟨t, he ▸ h⟩, .inl ⟨ho, by rw [hsetting, he, hpass]⟩⟩
    · exact ⟨⟨t, h.between (hd.engine t) (Nat.le_of_eq (by rw [hd.reactor]; rfl))⟩, .inr hq⟩
    · have htree : p.engine.program.tree = t := by
        rw [h.program]
        rfl
      refine ⟨⟨t, hc.alike.program.trans h.program, h.ordered,
        hc.alike.stopped.trans h.running, ?_⟩, .inr hq⟩
      rw [hc.reactor, htree, o.snapshot, hpass]
      exact h.reactor.commit h.ordered _
  · rw [Pass.Settled.tick hp]
    exact ⟨⟨t, h⟩, .inr hp⟩

theorem Regular.step (h : s.Regular) (hs : Step Tree.Accepted fair s s') : s'.Regular := by
  cases hs with
  | addEvent hs =>
    obtain ⟨t, h⟩ := h
    exact ⟨t, h.addEvent hs⟩
  | setAvailable hs =>
    obtain ⟨t, h⟩ := h
    exact ⟨t, h.setAvailable hs⟩
  | defineGlobal name v =>
    obtain ⟨t, h⟩ := h
    exact ⟨t, Engine.Regular.reset h.program h.ordered h.running⟩
  | replaceTree ht =>
    obtain ⟨t, h⟩ := h
    exact ⟨_, Engine.Regular.reset rfl ht.ordered h.running⟩
  | start hs =>
    obtain ⟨t, h⟩ := h
    obtain ⟨-, rfl⟩ := Pass.start_eq_ok hs
    exact ⟨⟨t, h.opened⟩, .inl ⟨Pass.open_opened _, rfl⟩⟩
  | tick hf => exact h.tick
  | sendDuring hs =>
    obtain ⟨⟨t, h⟩, hp⟩ := h
    refine ⟨⟨t, h.send hs⟩, hp.imp (fun ⟨o, hpass⟩ => ⟨o.sendDuring hs, hpass.trans ?_⟩)
      fun hp => ⟨hp.finished, hp.ended⟩⟩
    obtain ⟨inbox, -, rfl⟩ := Engine.inbox_of_send hs
    rfl
  | requestAbort =>
    obtain ⟨⟨t, h⟩, hp⟩ := h
    exact ⟨⟨t, h.requestAbort⟩, hp.imp (fun ⟨o, hpass⟩ => ⟨o.requestAbort, hpass⟩)
      fun hp => ⟨hp.finished, hp.ended⟩⟩
  | leave =>
    obtain ⟨⟨t, h⟩, hp⟩ := h
    refine ⟨t, ?_⟩
    rcases hp with ⟨o, -⟩ | hp
    · refine h.between (o.abandon t) (Nat.le_of_eq ?_)
      rw [Pass.abandon, o.unfinished]
      rfl
    · rw [Pass.abandon, if_pos hp.finished]
      exact h

theorem Reached.regular (h : Reached Tree.Accepted fair s) : s.Regular :=
  h.induction (fun t _ _ _ ht he => ⟨t, .new ht.ordered he⟩) fun _ _ h hs => h.step hs

/-- A pass that commits is open, and commits what its machine has come to. -/
theorem Regular.committed {before : Engine} {p : Pass} (h : (busy before p).Regular)
    (hc : p.commits = true) : (∃ t, p.engine.Regular t) ∧ p.Open before (fun _ _ => True) ∧
      ∃ k v, p.Committed p.tick before (fun _ _ => True) k v := by
  obtain ⟨hr, hopen⟩ := h
  simp only [Pass.commits, Bool.and_eq_true, Bool.not_eq_true'] at hc
  obtain ⟨o, -⟩ := hopen.resolve_right fun hp => by simp [hp.finished] at hc
  obtain ⟨v, hv⟩ := Option.isSome_iff_exists.1 hc.2
  obtain ⟨k, hk⟩ := o.committed (fun _ _ _ => trivial) hv
  exact ⟨hr, o, k, v, hk⟩

end Stage
end StreamLang
