import StreamLang.Proofs.Engine.Attempts
import StreamLang.Proofs.Engine.Captures
import StreamLang.Proofs.Engine.Confinement
import StreamLang.Proofs.Reaction.Reasons
import StreamLang.Proofs.Staleness.Origins
/-!
What holds between passes over trees without functions, as long as no function comes from outside
either. No pass comes by a function then, streams tell the readers that the tree has and no others, a
doubt is never older than the last commit, and with no bound on the cache whatever has a committed value
depends on binds that have one.
-/
namespace StreamLang

open Staleness (Walked)
open Machine (Listening)

/-- Trees without functions. -/
structure Tree.FirstOrder (t : Tree) : Prop where
  accepted : t.Accepted
  plain : ∀ i, t.isFunction i = false

/-- All functions that have come to an engine from outside are such: in what its streams show by default,
in events that wait, and among the globals. -/
structure Engine.Given (q : Closure → Prop) (e : Engine) : Prop where
  defaults : ∀ name x, e.reactor.registry.stream? name = some x → x.spec.default.Every q
  events : ∀ event ∈ e.reactor.inbox.events, event.value.Every q
  globals : ∀ b ∈ e.scopes.bindings e.globals, (b.2.read e.globals).Every q

/-- They make none. -/
theorem Tree.FirstOrder.makes {t : Tree} (ht : t.FirstOrder) :
    t.Makes (fun _ => True) fun _ => False := by
  intro i body parameters scope hk _ _
  have := ht.plain i
  simp [Tree.isFunction, hk] at this

/-- The pass comes by no function in what it finds. -/
structure Pass.FirstOrder (p : Pass) : Prop where
  setting : p.setting.Holds fun _ => False
  scopes : p.engine.scopes.Every fun _ => False

/-- The readers of a stream are those that the tree has. -/
def Registry.Known (t : Tree) (r : Registry) : Prop :=
  ∀ name x, r.stream? name = some x → ∀ i ∈ x.readers, (name, i) ∈ (Analysis.ofTree t).readers

namespace Registry.Known

variable {t : Tree} {r r' : Registry}

theorem of_telling (h : r.Known t) (same : ∀ name, r'.telling name = r.telling name) :
    r'.Known t := by
  intro name x' hx' i hi
  have ht := same name
  rw [telling, telling, hx', Option.map_some] at ht
  obtain ⟨x, hx, heq⟩ := Option.map_eq_some_iff.1 ht.symm
  obtain ⟨-, hreaders⟩ := Prod.mk.inj heq
  exact h name x hx i (hreaders.symm ▸ hi)

theorem new (t : Tree) (catalog : Catalog) (limit : Nat) : (Registry.new catalog limit).Known t := by
  intro name x hx i hi
  have hmap := Assoc.get?_map (fun _ spec => Stream.new spec limit) name catalog.specs
  have hx : Assoc.get? name (catalog.specs.map fun p => (p.1, Stream.new p.2 limit)) = some x := hx
  rw [hmap] at hx
  obtain ⟨spec, -, rfl⟩ := Option.map_eq_some_iff.1 hx
  cases hi

theorem unsubscribeAll (t : Tree) (r : Registry) : r.unsubscribeAll.Known t := by
  intro name x hx i hi
  rw [Registry.unsubscribeAll, stream?_mapStreams] at hx
  obtain ⟨s, -, rfl⟩ := Option.map_eq_some_iff.1 hx
  cases hi

theorem subscribeAll (h : r.Known t) {subscriptions : List (String × NodeId)}
    (known : ∀ x ∈ subscriptions, x ∈ (Analysis.ofTree t).readers) :
    (r.subscribeAll subscriptions).Known t := by
  induction subscriptions generalizing r with
  | nil => exact h
  | cons p rest ih =>
    refine ih (r := (r.subscribe p.1 p.2).2) ?_ fun x hx => known x (List.mem_cons_of_mem _ hx)
    unfold subscribe
    cases hs : r.stream? p.1 with
    | none => exact h
    | some s =>
      intro name x hx i hi
      rw [stream?_set] at hx
      split at hx
      · subst name
        obtain rfl := Option.some.inj hx
        rcases mem_pushNew.1 hi with hi | rfl
        · exact h p.1 s hs i hi
        · exact known p List.mem_cons_self
      · exact h name x hx i hi

theorem markObserved (h : r.Known t) (seen : Snapshot) : (r.markObserved seen).Known t := by
  intro name x hx i hi
  rw [stream?_markObserved] at hx
  obtain ⟨s, hs, rfl⟩ := Option.map_eq_some_iff.1 hx
  refine h name s hs i ?_
  split at hi <;> exact hi

/-- Only readers of its stream hear of an event. -/
theorem heard (h : r.Known t) {e : StreamEvent} {i : NodeId} (hi : i ∈ r.heard e) :
    (e.stream, i) ∈ (Analysis.ofTree t).readers := by
  rw [heard_eq] at hi
  split at hi
  · cases hi
  · rename_i s hs
    split at hi
    · exact h e.stream s hs i hi
    · cases hi

end Registry.Known

namespace Reactor

variable {t : Tree} {r r' : Reactor}

theorem evictOver_cache (h : r.capacity = none) : r.evictOver.cache = r.cache := by
  unfold evictOver
  rw [h]

/-- With no bound on the cache, what is committed stays. -/
theorem commit_has (hc : r.capacity = none) (t : Tree) (seen : Snapshot) (done : Record)
    (i : NodeId) :
    (r.commit t seen done).cache.has i = true ↔ done.Wrote i ∨ r.cache.has i = true := by
  have hcache : (r.commit t seen done).cache = (r.applyWrites seen.pass done.writes).cache := by
    refine (evictOver_cache ?_).trans rfl
    exact (r.applyWrites_capacity seen.pass done.writes).trans hc
  rw [hcache, Cache.has, Cache.has]
  rcases r.applyWrites_cache seen.pass done.writes i with ⟨w, hm, hw⟩ | ⟨hm, hw⟩
  · simp only [hw, Option.isSome_some, true_iff]
    exact .inl (List.mem_map_of_mem hm)
  · rw [hw]
    exact ⟨.inr, fun h => h.resolve_left hm⟩

/-- What holds of a reactor between passes. -/
structure Rested (t : Tree) (r : Reactor) : Prop where
  fresh : r.staleness.Fresh
  readers : r.registry.Known t
  reusable : ∀ i e, r.cache.find? i = some e → e.reusable = !(Analysis.ofTree t).isVolatile i
  depends : r.capacity = none → ∀ i, r.cache.has i = true →
    ∀ b ∈ (Analysis.ofTree t).dependencies i, r.cache.has b = true

namespace Rested

/-- What comes in between passes marks some nodes and changes nothing else of this. -/
theorem marked (o : t.Ordered) (h : r.Rested t) {left : NodeId → Prop}
    (hw : Walked t left r.staleness) {readers : List NodeId}
    (staleness : r'.staleness = r.staleness.markAllChanged (.ofTree t) readers)
    (telling : ∀ name, r'.registry.telling name = r.registry.telling name)
    (cache : r'.cache = r.cache) (capacity : r'.capacity = r.capacity) : r'.Rested t where
  fresh := by
    rw [staleness]
    exact h.fresh.markAllChanged o hw readers
  readers := h.readers.of_telling telling
  reusable := by
    rw [cache]
    exact h.reusable
  depends := by
    rw [cache, capacity]
    exact h.depends

/-- With nothing committed. -/
theorem empty (t : Tree) (hr : r.registry.Known t) (hc : r.cache = .empty)
    (hs : r.staleness = .empty) : (r.subscribeReaders (.ofTree t)).Rested t where
  fresh := by
    rw [subscribeReaders, hs]
    exact Staleness.fresh_empty
  readers := hr.subscribeAll fun _ h => h
  reusable i e he := by
    rw [subscribeReaders, hc] at he
    simp at he
  depends _ i hi := by
    rw [subscribeReaders, hc] at hi
    simp [Cache.has] at hi

theorem commit (h : r.Rested t) {s : Setting} {done : Record} (hp : s.program = .ofTree t)
    (hc : s.cache = r.cache) (notes : s.Notes done)
    (known : ∀ x ∈ done.subscriptions, x ∈ (Analysis.ofTree t).readers) (seen : Snapshot) :
    (r.commit t seen done).Rested t where
  fresh := by
    rw [commit_staleness]
    exact Staleness.fresh_promote _
  readers := by
    rw [commit_registry]
    exact (h.readers.subscribeAll known).markObserved seen
  reusable i e he := by
    rcases r.commit_find? he with ⟨w, hw, rfl⟩ | ⟨-, he⟩
    · exact (notes.reusable i w hw).trans (by rw [hp]; rfl)
    · exact h.reusable i e he
  depends hn i hi b hb := by
    rw [commit_capacity] at hn
    refine (commit_has hn t seen done b).2 ?_
    rcases (commit_has hn t seen done i).1 hi with hi | hi
    · exact hc ▸ notes.depends i hi b (by rw [hp]; exact hb)
    · exact .inr (h.depends hn i hi b hb)

end Rested
end Reactor

/-- What holds of an engine between passes and in them. -/
structure Engine.Rested (e : Engine) : Prop where
  tree : e.program.tree.FirstOrder
  reactor : e.reactor.Rested e.program.tree
  capacity : e.reactor.capacity = e.config.cacheCapacity

namespace Engine.Rested

variable {e e' : Engine} {t : Tree}

theorem marked (r : e.Regular t) (h : e.Rested) (alike : e.Alike e') (readers : List NodeId)
    (staleness : e'.reactor.staleness = e.reactor.staleness.markAllChanged (.ofTree t) readers)
    (telling : ∀ name, e'.reactor.registry.telling name = e.reactor.registry.telling name)
    (cache : e'.reactor.cache = e.reactor.cache)
    (capacity : e'.reactor.capacity = e.reactor.capacity) : e'.Rested := by
  have htree : e.program.tree = t := congrArg Program.tree r.program
  refine ⟨alike.program ▸ h.tree, ?_, ?_⟩
  · rw [alike.program, htree]
    exact (htree ▸ h.reactor).marked r.ordered r.reactor.walked staleness telling cache capacity
  · rw [capacity, alike.config, h.capacity]

theorem reset {t' : Tree} (h : e.Rested) (hp : e'.program = .ofTree t') (ht : t'.FirstOrder)
    (hs : e'.stopped = false) (reactor : e'.reactor = e.reactor) (config : e'.config = e.config) :
    e'.reset.Rested := by
  have hr : e'.reset.reactor = e.reactor.invalidate.subscribeReaders (.ofTree t') := by
    simp only [Engine.reset, hs, hp, reactor]
    rfl
  refine ⟨hp ▸ ht, ?_, ?_⟩
  · rw [hr, show e'.reset.program.tree = t' from congrArg Program.tree hp]
    exact .empty t' (.unsubscribeAll t' e.reactor.registry) rfl rfl
  · rw [hr]
    exact h.capacity.trans (congrArg Config.cacheCapacity config.symm)

theorem new {catalog : Catalog} {config : Config} (ht : t.FirstOrder)
    (h : Engine.new t catalog config = .ok e) : e.Rested := by
  obtain ⟨config', rfl⟩ := new_eq_ok h
  exact ⟨ht, .empty t (.new t catalog config'.historyLimit) rfl rfl, rfl⟩

theorem send (r : e.Regular t) (h : e.Rested) {stream : String} {v : Value}
    (hs : e.send stream v = .ok e') : e'.Rested := by
  obtain ⟨inbox, -, rfl⟩ := inbox_of_send hs
  exact h.marked r ⟨rfl, rfl, rfl, rfl⟩ [] rfl (fun _ => rfl) rfl rfl

theorem addEvent (r : e.Regular t) (h : e.Rested) {stream : String} {v : Value}
    (hs : e.addEvent stream v = .ok e') : e'.Rested := by
  rw [Engine.addEvent, r.running] at hs
  exact h.send r hs

theorem setAvailable (r : e.Regular t) (h : e.Rested) {stream : String} {available : Bool}
    (hs : e.setAvailable stream available = .ok e') : e'.Rested := by
  obtain ⟨reactor, hr, rfl⟩ := setAvailable_eq_ok hs
  obtain ⟨readers, registry, hx, rfl⟩ := Reactor.setAvailable_eq_ok hr
  refine h.marked r ⟨rfl, rfl, rfl, rfl⟩ readers (by rw [r.program]) (fun name => ?_)
    rfl rfl
  rw [Registry.setAvailable_eq] at hx
  split at hx
  · cases hx
  · cases hx
    exact e.reactor.registry.telling_switch stream name available

theorem opened (r : e.Regular t) (h : e.Rested) : (Pass.opened e).engine.Rested := by
  have hr : (Pass.opened e).engine.reactor = (e.reactor.beginPass (.ofTree t)).2 := by
    rw [← r.program]
    rfl
  rw [Reactor.beginPass_eq] at hr
  exact h.marked r ⟨rfl, rfl, rfl, rfl⟩ _ (by rw [hr]) (fun name => by
    rw [hr]
    exact Registry.telling_takeInAll _ _ _) (by rw [hr]) (by rw [hr])

/-- A pass that is dropped leaves everything as it is. -/
theorem discard (r : e.Regular t) (h : e.Rested) {done : Record} (alike : e.Alike e')
    (known : ∀ x ∈ done.subscriptions, x ∈ (Analysis.ofTree t).readers)
    (reactor : e'.reactor = e.reactor.discard done) : e'.Rested := by
  have hsame := Registry.subscribeAll_of_subscribed r.reactor.subscribed known
  rw [Reactor.discard, Reactor.applySubscriptions, hsame] at reactor
  exact h.marked r alike [] (by rw [reactor]; rfl) (fun _ => by rw [reactor])
    (by rw [reactor]) (by rw [reactor])

end Engine.Rested

namespace Pass

variable {p : Pass} {before : Engine} {P : NodeId → Value → Prop} {t : Tree}

theorem Open.known (o : p.Open before P) (r : p.engine.Regular t) {m : Machine}
    (hm : m.Listening p.setting) :
    ∀ x ∈ m.record.subscriptions, x ∈ (Analysis.ofTree t).readers :=
  hm.readers (by rw [o.program, r.program])

/-- A pass over a tree without functions that no function has come to. -/
theorem Open.functionFree (o : p.Open before P) (r : p.engine.Regular t) (h : p.engine.Rested)
    (hf : p.FirstOrder) : p.setting.FunctionFree where
  accepted := by
    rw [o.program]
    exact h.tree.accepted
  program := by
    rw [o.program, r.program]
    rfl
  root := by rw [o.root, o.program]
  tree := by
    rw [o.program]
    exact h.tree.plain
  values := hf.setting

/-- What the machine of an open pass has attended to, however far it has come. -/
theorem Open.attended (o : p.Open before P) (r : p.engine.Regular t) (housed : p.engine.Housed)
    (h : p.engine.Rested) (hf : p.FirstOrder) (k : Nat) :
    ((Machine.start before.scopes).run p.setting false k).Traced p.setting
        ((Machine.start before.scopes).deeds p.setting k) ∧
      ((Machine.start before.scopes).run p.setting false k).Attended p.setting
        ((Machine.start before.scopes).deeds p.setting k) := by
  rw [← o.scopes]
  exact Machine.attended_run (o.functionFree r h hf) housed.nested (o.globals ▸ housed.globals)
    hf.scopes k

theorem Committed.rested {q : Pass} {k : Nat} {v : Value} (hc : p.Committed q before P k v)
    (o : p.Open before P) (r : p.engine.Regular t) (housed : p.engine.Housed) (h : p.engine.Rested)
    (hf : p.FirstOrder) : q.engine.Rested := by
  have htree : p.engine.program.tree = t := congrArg Program.tree r.program
  have hlistening : p.next.Listening p.setting :=
    (Listening.invariant _).tick o.listening p.engine.abortRequested
  have notes : p.setting.Notes p.next.record := by
    rw [hc.concluded.eq]
    exact (o.attended r housed h hf k).2.notes
  refine ⟨hc.alike.program ▸ h.tree, ?_, ?_⟩
  · rw [hc.reactor, hc.alike.program, htree]
    exact (htree ▸ h.reactor).commit (by rw [o.program, r.program]) o.cache notes
      (o.known r hlistening) p.setting.snapshot
  · rw [hc.reactor, Reactor.commit_capacity, h.capacity, hc.alike.config]

end Pass

namespace Stage

variable {s s' : Stage}

/-- What is sent or defined is in the engine after that. -/
theorem Proceeds.given {sent defined : Value → Prop} {q : Closure → Prop} (h : s.engine.Housed)
    (hs : Proceeds sent defined s s') (given : s'.engine.Given q) :
    Proceeds (·.Every q) (·.Every q) s s' := by
  have waits {e e' : Engine} {stream : String} {v : Value} (hs : e.send stream v = .ok e')
      (given : e'.Given q) : v.Every q := by
    obtain ⟨inbox, hi, rfl⟩ := Engine.inbox_of_send hs
    obtain ⟨-, rfl⟩ := Inbox.send_eq_ok hi
    exact given.events ⟨stream, v⟩ (List.mem_append_right _ List.mem_cons_self)
  cases hs with
  | addEvent hs => exact .addEvent hs (waits (Engine.send_of_addEvent hs) given)
  | setAvailable hs => exact .setAvailable hs
  | @defineGlobal e v name =>
    have globals : e.globals < e.scopes.all.size := h.globals
    have bound : (name, Binding.keep e.globals v) ∈
        (e.scopes.define e.globals name v).bindings e.globals := by
      rw [Scopes.bindings, Scopes.define_all, Array.getElem?_eq_getElem globals]
      simpa using Assoc.mem_of_get? ((Assoc.get?_put name name _ _).trans (if_pos rfl))
    exact .defineGlobal name (Binding.read_keep e.globals v ▸ given.globals _ bound)
  | start hs => exact .start hs
  | tick => exact .tick
  | sendDuring hs => exact .sendDuring hs (waits hs given)
  | requestAbort => exact .requestAbort
  | leave => exact .leave

/-- What holds of sessions over trees without functions, to which none comes from outside. -/
structure Rested (s : Stage) : Prop where
  regular : s.Regular
  housed : s.engine.Housed
  engine : s.engine.Rested
  plain : s.Confined s.engine.program.tree (fun _ => True) fun _ => False

/-- A pass that is open comes by no function. -/
theorem Rested.firstOrder {before : Engine} {p : Pass} {P : NodeId → Value → Prop}
    (h : (busy before p).Rested) (o : p.Open before P) : p.FirstOrder where
  setting := (h.plain.engine.contains rfl o (fun _ _ => trivial) h.engine.tree.makes).holds
  scopes := Scopes.every_iff.2 h.plain.engine.scopes

theorem Rested.step {fair : Pass → Prop} (h : s.Rested) (hs : Step Tree.FirstOrder fair s s')
    (given : s'.engine.Given fun _ => False) : s'.Rested := by
  have hstep := hs.mono (fun _ ht => ht.accepted) fun _ h => h
  have plain : s'.Confined s'.engine.program.tree (fun _ => True) fun _ => False := by
    rcases hstep.proceeds with hp | ⟨e, t, -, rfl, rfl⟩
    · have next := h.plain.proceeds h.regular (hp.given h.housed given) (fun _ => id)
        (fun _ => id) (fun _ _ => trivial) h.engine.tree.makes
      rw [next.engine.tree]
      exact next
    · exact Engine.Confined.replaceTree h.plain t
  refine ⟨h.regular.step hstep, (housed_step h.regular h.housed hstep).1, ?_, plain⟩
  have firstOrder {before : Engine} {p : Pass} {P : NodeId → Value → Prop}
      (hp : s = busy before p) (o : p.Open before P) : p.FirstOrder := (hp ▸ h).firstOrder o
  obtain ⟨hr, housed, h, -⟩ := h
  cases hs with
  | addEvent hs =>
    obtain ⟨t, r⟩ := hr
    exact h.addEvent r hs
  | setAvailable hs =>
    obtain ⟨t, r⟩ := hr
    exact h.setAvailable r hs
  | @defineGlobal e name v =>
    obtain ⟨t, r⟩ := hr
    have htree : e.program.tree = t := congrArg Program.tree r.program
    exact h.reset r.program (htree ▸ h.tree) r.running rfl rfl
  | replaceTree ht =>
    obtain ⟨t, r⟩ := hr
    exact h.reset rfl ht r.running rfl rfl
  | start hs =>
    obtain ⟨t, r⟩ := hr
    obtain ⟨-, rfl⟩ := Pass.start_eq_ok hs
    exact h.opened r
  | @tick before p =>
    obtain ⟨⟨t, r⟩, ⟨o, -⟩ | hp⟩ := hr
    · obtain ⟨-, ⟨-, he⟩ | ⟨-, hd | ⟨k, v, hc⟩⟩⟩ := o.tick fun _ _ _ => trivial
      · rw [Stage.engine, he]
        exact h
      · have hlistening : p.next.Listening p.setting :=
          (Listening.invariant _).tick o.listening p.engine.abortRequested
        exact h.discard r hd.alike (o.known r hlistening) hd.reactor
      · exact hc.rested o r housed h (firstOrder rfl o)
    · rw [hp.tick]
      exact h
  | sendDuring hs =>
    obtain ⟨⟨t, r⟩, -⟩ := hr
    exact h.send r hs
  | requestAbort =>
    obtain ⟨⟨t, r⟩, -⟩ := hr
    exact h.marked r ⟨rfl, rfl, rfl, rfl⟩ [] rfl (fun _ => rfl) rfl rfl
  | @leave before p =>
    obtain ⟨⟨t, r⟩, ⟨o, -⟩ | hp⟩ := hr
    · refine h.discard r (o.abandon t).alike (o.known r o.listening) ?_
      rw [Stage.engine, Pass.abandon, o.unfinished]
      rfl
    · rw [Stage.engine, Pass.abandon, if_pos hp.finished]
      exact h

end Stage

/-- So they are over such trees at all stages of a session, if no function comes from outside. -/
theorem Session.rested {fair : Pass → Prop} {stages : List Stage}
    (h : Session Tree.FirstOrder fair stages)
    (given : ∀ s ∈ stages, s.engine.Given fun _ => False) : ∀ s ∈ stages, s.Rested := by
  induction h with
  | @new t catalog config e ht he =>
    refine List.forall_mem_singleton.2 ⟨⟨t, .new ht.accepted.ordered he⟩, Engine.housed_new he,
      .new ht he, ?_⟩
    have defaults (name : String) (spec : StreamSpec) (hspec : catalog.get? name = some spec) :
        spec.default.Every fun _ => False := by
      obtain ⟨config', rfl⟩ := Engine.new_eq_ok he
      have same := (Registry.sameEvents_subscribeAll (Analysis.ofTree t).readers
        (.new catalog config'.historyLimit)).2 name
      rw [Registry.stream?_new, hspec] at same
      obtain ⟨x, hx, hledger⟩ := Option.map_eq_some_iff.1 same
      obtain rfl : x.spec = spec := congrArg Prod.fst hledger
      exact (given _ List.mem_cons_self).defaults name x hx
    have fresh := Engine.confined_new he defaults
    rw [show (Stage.idle e).engine.program.tree = t from fresh.tree]
    exact fresh
  | step _ hs ih =>
    have ih := ih fun s hs => given s (List.mem_cons_of_mem _ hs)
    exact List.forall_mem_cons.2 ⟨(ih _ List.mem_cons_self).step hs (given _ List.mem_cons_self), ih⟩

end StreamLang
