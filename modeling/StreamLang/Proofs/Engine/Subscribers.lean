import StreamLang.Proofs.Engine.Isolation
import StreamLang.Proofs.Engine.Rested
/-!
Who is told of an event. Loading a program, replacing it and defining a global subscribe the readers of
the program; a pass may only subscribe them again, and nothing else changes who is subscribed. So the
readers of a stream are at all times those nodes of the present program that name it, in their order.
-/
namespace StreamLang

open Machine (Listening)

theorem pushAllNew_eq_append {α : Type} [DecidableEq α] {xs ys : List α} (h : (xs ++ ys).Nodup) :
    pushAllNew xs ys = xs ++ ys := by
  induction ys generalizing xs with
  | nil => exact (List.append_nil xs).symm
  | cons y rest ih =>
    have hy : y ∉ xs := fun hy => (List.nodup_append.1 h).2.2 y hy y List.mem_cons_self rfl
    have hpush : pushNew xs y = xs ++ [y] := if_neg hy
    have hstep : pushAllNew xs (y :: rest) = pushAllNew (xs ++ [y]) rest := by
      rw [← hpush]
      rfl
    rw [hstep, ih (by simpa using h), List.append_assoc]
    rfl

namespace Tree

variable {t : Tree} {name : String} {i : NodeId}

/-- The nodes that name a stream, in their order. -/
def readersOf (t : Tree) (name : String) : List NodeId :=
  t.ids.filter fun i => (t.kind? i).bind NodeKind.stream? == some name

theorem mem_readersOf :
    i ∈ t.readersOf name ↔ t.kind? i = some (.stream name) ∨ t.kind? i = some (.changed name) := by
  have hreads : i ∈ t.readersOf name ↔ ∃ k, t.kind? i = some k ∧ k.stream? = some name := by
    simp only [readersOf, List.mem_filter, ids, List.mem_range, beq_iff_eq, Option.bind_eq_some_iff]
    exact ⟨fun h => h.2, fun h => ⟨h.elim fun _ hk => lt_size_of_kind hk.1, h⟩⟩
  rw [hreads]
  constructor
  · rintro ⟨k, hk, hs⟩
    rw [hk]
    cases k <;> simp [NodeKind.stream?] at hs
    · exact .inl (congrArg _ (congrArg _ hs))
    · exact .inr (congrArg _ (congrArg _ hs))
  · rintro (hk | hk)
    · exact ⟨_, hk, rfl⟩
    · exact ⟨_, hk, rfl⟩

theorem nodup_readersOf (t : Tree) (name : String) : (t.readersOf name).Nodup :=
  List.nodup_range.filter _

/-- The analysis lists the readers of all streams, each under the name of its stream. -/
theorem readersOf_eq (t : Tree) (name : String) :
    (((Analysis.ofTree t).readers.filter (·.1 == name)).map (·.2)) = t.readersOf name := by
  simp only [Analysis.ofTree, readersOf]
  induction t.ids with
  | nil => rfl
  | cons i rest ih =>
    rw [List.filterMap_cons, List.filter_cons]
    cases hs : (t.kind? i).bind NodeKind.stream? with
    | none => exact ih
    | some stream =>
      by_cases hn : stream = name
      · subst hn
        simpa using ih
      · simpa [hn] using ih

end Tree

namespace Registry

variable {r : Registry} {name : String}

theorem readers_eq (r : Registry) (name : String) :
    r.readers name = ((r.telling name).map (·.2)).getD [] := by
  rw [readers, telling]
  cases r.stream? name <;> rfl

theorem telling_new (catalog : Catalog) (limit : Nat) (name : String) :
    (new catalog limit).telling name = (catalog.get? name).map fun spec => (spec, []) := by
  rw [telling, stream?_new]
  cases catalog.get? name <;> rfl

theorem telling_unsubscribeAll (r : Registry) (name : String) :
    r.unsubscribeAll.telling name = (r.telling name).map fun x => (x.1, []) := by
  rw [telling, unsubscribeAll, stream?_mapStreams, telling]
  cases r.stream? name <;> rfl

theorem telling_markObserved (r : Registry) (seen : Snapshot) (name : String) :
    (r.markObserved seen).telling name = r.telling name := by
  rw [telling, stream?_markObserved, telling]
  cases r.stream? name with
  | none => rfl
  | some s =>
    simp only [Option.map_some]
    cases seen.get? name <;> rfl

theorem telling_subscribe (r : Registry) (stream : String) (i : NodeId) (name : String) :
    (r.subscribe stream i).2.telling name =
      (r.telling name).map fun x => (x.1, if stream == name then pushNew x.2 i else x.2) := by
  by_cases hn : stream = name
  · subst hn
    unfold subscribe
    cases hs : r.stream? stream with
    | none => simp [telling, hs]
    | some s => simp [telling, hs, stream?_set]
  · unfold subscribe
    cases hs : r.stream? stream with
    | none => simp [hn]
    | some s =>
      have hother : ((r.set stream { s with readers := pushNew s.readers i }).stream? name) =
          r.stream? name := by rw [stream?_set, if_neg hn]
      rw [telling, hother, telling, Option.map_map]
      congr 1
      funext x
      simp [hn]

theorem telling_subscribeAll (subscriptions : List (String × NodeId)) (r : Registry)
    (name : String) : (r.subscribeAll subscriptions).telling name = (r.telling name).map fun x =>
      (x.1, pushAllNew x.2 ((subscriptions.filter (·.1 == name)).map (·.2))) := by
  induction subscriptions generalizing r with
  | nil => exact Option.map_id'.symm
  | cons p rest ih =>
    obtain ⟨stream, i⟩ := p
    have hcons : r.subscribeAll ((stream, i) :: rest) = (r.subscribe stream i).2.subscribeAll rest :=
      rfl
    rw [hcons, ih, telling_subscribe, Option.map_map]
    congr 1
    funext x
    by_cases hn : stream = name
    · simp [hn, pushAllNew]
    · simp [hn]

/-- Streams without readers have those of a tree once these are subscribed. -/
theorem telling_subscribeReaders {spec : Option StreamSpec}
    (h : r.telling name = spec.map fun spec => (spec, [])) (t : Tree) :
    (r.subscribeAll (Analysis.ofTree t).readers).telling name =
      spec.map fun spec => (spec, t.readersOf name) := by
  have hpush : pushAllNew [] (t.readersOf name) = t.readersOf name :=
    pushAllNew_eq_append (t.nodup_readersOf name)
  rw [telling_subscribeAll, h, Option.map_map, t.readersOf_eq]
  congr 1
  funext spec
  exact congrArg (spec, ·) hpush

end Registry

/-- Every stream tells the nodes of the present program that name it. -/
def Engine.TellsReaders (catalog : Catalog) (e : Engine) : Prop :=
  ∀ name, e.reactor.registry.telling name =
    (catalog.get? name).map fun spec => (spec, e.program.tree.readersOf name)

namespace Engine.TellsReaders

variable {catalog : Catalog} {e e' : Engine} {t : Tree}

theorem of_telling (h : e.TellsReaders catalog) (alike : e.Alike e')
    (same : ∀ name, e'.reactor.registry.telling name = e.reactor.registry.telling name) :
    e'.TellsReaders catalog := fun name => by
  rw [same, h name, alike.program]

theorem new {config : Config} (h : Engine.new t catalog config = .ok e) :
    e.TellsReaders catalog := by
  obtain ⟨config', rfl⟩ := Engine.new_eq_ok h
  exact fun name => Registry.telling_subscribeReaders
    (Registry.telling_new catalog config'.historyLimit name) t

/-- Whatever is kept from before, a reset subscribes the readers of the present program and no others. -/
theorem reset {e₀ : Engine} (h : e₀.TellsReaders catalog) (hr : e.reactor.registry = e₀.reactor.registry)
    (hp : e.program = .ofTree t) (hs : e.stopped = false) : e.reset.TellsReaders catalog := fun name => by
  have hreset : e.reset.reactor.registry =
      e.reactor.registry.unsubscribeAll.subscribeAll (Analysis.ofTree t).readers := by
    simp only [Engine.reset, hs, hp]
    rfl
  have hnone : e.reactor.registry.unsubscribeAll.telling name =
      (catalog.get? name).map fun spec => (spec, []) := by
    rw [Registry.telling_unsubscribeAll, hr, h name, Option.map_map]
    rfl
  rw [hreset, Registry.telling_subscribeReaders hnone, show e.reset.program.tree = t from
    congrArg Program.tree hp]

theorem send (h : e.TellsReaders catalog) {stream : String} {v : Value}
    (hs : e.send stream v = .ok e') : e'.TellsReaders catalog := by
  obtain ⟨inbox, -, rfl⟩ := inbox_of_send hs
  exact h

theorem setAvailable (h : e.TellsReaders catalog) {stream : String} {available : Bool}
    (hs : e.setAvailable stream available = .ok e') : e'.TellsReaders catalog := by
  obtain ⟨reactor, hr, rfl⟩ := setAvailable_eq_ok hs
  obtain ⟨readers, registry, hx, rfl⟩ := Reactor.setAvailable_eq_ok hr
  refine h.of_telling ⟨rfl, rfl, rfl, rfl⟩ fun name => ?_
  rw [Registry.setAvailable_eq] at hx
  split at hx
  · cases hx
  · cases hx
    exact e.reactor.registry.telling_switch stream name available

theorem opened (h : e.TellsReaders catalog) : (Pass.opened e).engine.TellsReaders catalog := by
  refine h.of_telling ⟨rfl, rfl, rfl, rfl⟩ fun name => ?_
  show (e.reactor.beginPass e.program).2.registry.telling name = _
  rw [Reactor.beginPass_registry]
  exact Registry.telling_takeInAll _ _ _

/-- A pass that is dropped has subscribed none but readers of the program. -/
theorem discard (h : e.TellsReaders catalog) (r : e.Regular t) {done : Record}
    (known : ∀ x ∈ done.subscriptions, x ∈ (Analysis.ofTree t).readers) (alike : e.Alike e')
    (reactor : e'.reactor = e.reactor.discard done) : e'.TellsReaders catalog := by
  have hsame := Registry.subscribeAll_of_subscribed r.reactor.subscribed known
  refine h.of_telling alike fun name => ?_
  rw [reactor, Reactor.discard, Reactor.applySubscriptions, hsame]

/-- Neither has a pass that is committed. -/
theorem commit (h : e.TellsReaders catalog) (r : e.Regular t) {done : Record} {t' : Tree}
    {seen : Snapshot} (known : ∀ x ∈ done.subscriptions, x ∈ (Analysis.ofTree t).readers)
    (alike : e.Alike e') (reactor : e'.reactor = e.reactor.commit t' seen done) :
    e'.TellsReaders catalog := by
  have hsame := Registry.subscribeAll_of_subscribed r.reactor.subscribed known
  refine h.of_telling alike fun name => ?_
  rw [reactor, Reactor.commit_registry, hsame, Registry.telling_markObserved]

end Engine.TellsReaders

namespace Stage

variable {catalog : Catalog} {s s' : Stage} {fair : Pass → Prop}

theorem tellsReaders_step (hr : s.Regular) (h : s.engine.TellsReaders catalog)
    (hs : Step Tree.Accepted fair s s') : s'.engine.TellsReaders catalog := by
  cases hs with
  | addEvent hs =>
    obtain ⟨t, r⟩ := hr
    rw [Engine.addEvent, r.running] at hs
    exact h.send hs
  | setAvailable hs => exact h.setAvailable hs
  | defineGlobal name v =>
    obtain ⟨t, r⟩ := hr
    exact h.reset rfl r.program r.running
  | replaceTree _ =>
    obtain ⟨t, r⟩ := hr
    exact h.reset rfl rfl r.running
  | start hs =>
    obtain ⟨-, rfl⟩ := Pass.start_eq_ok hs
    exact h.opened
  | @tick before p _ =>
    obtain ⟨⟨t, r⟩, ⟨o, -⟩ | hp⟩ := hr
    · have known := o.known r <|
        (Listening.invariant p.setting).tick o.listening p.engine.abortRequested
      obtain ⟨-, ⟨-, he⟩ | ⟨-, hd | ⟨k, v, hc⟩⟩⟩ := o.tick fun _ _ _ => trivial
      · rw [engine_busy, he]
        exact h
      · exact h.discard r known hd.alike hd.reactor
      · exact h.commit r known hc.alike hc.reactor
    · rw [hp.tick]
      exact h
  | sendDuring hs => exact h.send hs
  | requestAbort => exact h
  | @leave before p =>
    obtain ⟨⟨t, r⟩, ⟨o, -⟩ | hp⟩ := hr
    · refine h.discard r (o.known r o.listening) (o.abandon t).alike ?_
      rw [Stage.engine, Pass.abandon, o.unfinished]
      rfl
    · rw [Stage.engine, Pass.abandon, if_pos hp.finished]
      exact h

theorem tellsReaders {t : Tree} {config : Config} {e : Engine} (ht : t.Accepted)
    (he : Engine.new t catalog config = .ok e)
    (hs : Relation.ReflTransGen (Step Tree.Accepted fair) (.idle e) s) :
    s.Regular ∧ s.engine.TellsReaders catalog := by
  induction hs with
  | refl => exact ⟨⟨t, .new ht.ordered he⟩, .new he⟩
  | tail _ hstep ih => exact ⟨ih.1.step hstep, tellsReaders_step ih.1 ih.2 hstep⟩

/-- The readers of a stream of the catalog are exactly the nodes of the present program that read it or
ask whether it has changed, each once; whether they have run or ever will does not matter. -/
theorem readers_exact {t : Tree} {config : Config} {e : Engine} (ht : t.Accepted)
    (he : Engine.new t catalog config = .ok e)
    (hs : Relation.ReflTransGen (Step Tree.Accepted fair) (.idle e) s) {name : String}
    (hname : (catalog.get? name).isSome = true) :
    (s.engine.reactor.registry.readers name).Nodup ∧ ∀ i,
      i ∈ s.engine.reactor.registry.readers name ↔
        s.engine.program.tree.kind? i = some (.stream name) ∨
        s.engine.program.tree.kind? i = some (.changed name) := by
  obtain ⟨spec, hspec⟩ := Option.isSome_iff_exists.1 hname
  have hreaders : s.engine.reactor.registry.readers name = s.engine.program.tree.readersOf name := by
    rw [Registry.readers_eq, (tellsReaders ht he hs).2 name, hspec]
    rfl
  rw [hreaders]
  exact ⟨s.engine.program.tree.nodup_readersOf name, fun i => Tree.mem_readersOf⟩

end Stage

/-! A program that shows a key is replaced, after a pass that was given up, by one in which a function
reads the key that nobody calls, and a branch asks for it that is not taken. Then the keyboard goes. -/

namespace Swap

def before : Draft :=
  ⟨#[⟨.text "a", [], none, none⟩, ⟨.stream "keyboard", [], none, none⟩,
    ⟨.list, [0, 1], none, none⟩]⟩

def after : Draft :=
  ⟨#[⟨.stream "keyboard", [], none, none⟩, ⟨.function [], [0], none, none⟩,
    ⟨.boolean false, [], none, none⟩, ⟨.changed "keyboard", [], none, none⟩,
    ⟨.text "b", [], none, none⟩, ⟨.conditional, [2, 3, 4], none, none⟩,
    ⟨.list, [1, 5], none, none⟩]⟩

def old : Tree := ((before.finish 2).toOption).getD ⟨#[], 0⟩

def new : Tree := ((after.finish 6).toOption).getD ⟨#[], 0⟩

def fresh : Engine := .load old .builtin .default

/-- After a pass and a key. -/
def pressed : Engine := fresh.passed.told "keyboard" (.text "k")

/-- A pass is given up after one tick, and the program replaced. -/
def replaced : Engine := (Pass.opened pressed).tick.abandon.engine.replaceTree new

def closed : Engine := ((replaced.setAvailable "keyboard" false).toOption).getD replaced

/-- What can be read off the programs and their passes. -/
@[mk_iff]
structure Checked : Prop where
  built : before.finish 2 = .ok old ∧ after.finish 6 = .ok new
  told : (fresh.passed.addEvent "keyboard" (.text "k")).toOption.isSome = true
  runs : pressed.stopped = false ∧ pressed.config.conflictPolicy = .attach
  closed : (replaced.setAvailable "keyboard" false).toOption.isSome = true
  known : (Catalog.builtin.get? "keyboard").isSome = true
  readers : Swap.closed.passed.reactor.registry.readers "keyboard" = [0, 3]
  runs_on : Swap.closed.stopped = false ∧ Swap.closed.config.conflictPolicy = .attach
  counts : Swap.closed.passed.evaluationCount 0 = 0 ∧ Swap.closed.passed.evaluationCount 3 = 0

theorem checked : Checked := checked_iff.2 (by decide +kernel)

/-- All that was done after the program was loaded. -/
theorem steps : Relation.ReflTransGen (Stage.Step Tree.Accepted fun _ => True) (.idle fresh)
    (.busy closed (Pass.opened closed).toEnd) := by
  have first : Relation.ReflTransGen (Stage.Step Tree.Accepted fun _ => True) (.idle fresh)
      (.idle fresh.passed) := (Stage.steps_passed rfl rfl fun _ => trivial).tail .leave
  have told := first.tail (.addEvent (Engine.addEvent_eq_ok checked.told))
  have abandoned := ((told.tail (.start (Pass.start_eq_opened checked.runs.1 checked.runs.2))).tail
    (.tick trivial)).tail .leave
  have swapped := abandoned.tail (.replaceTree ⟨after, 6, checked.built.2⟩)
  have gone : Relation.ReflTransGen (Stage.Step Tree.Accepted fun _ => True) (.idle fresh)
      (.idle closed) := swapped.tail (.setAvailable (Engine.eq_ok_of_isSome checked.closed))
  exact gone.trans (Stage.steps_passed checked.runs_on.1 checked.runs_on.2 fun _ => trivial)

end Swap

/-- The readers of the keyboard are the two nodes of the new program, none of which has run. -/
theorem Stage.readers_swapped :
    (∀ i, Swap.new.kind? i = some (.stream "keyboard") ∨ Swap.new.kind? i = some (.changed "keyboard")
      ↔ i ∈ [0, 3]) ∧
      Swap.closed.passed.evaluationCount 0 = 0 ∧ Swap.closed.passed.evaluationCount 3 = 0 := by
  have hnew : Engine.new Swap.old .builtin .default = .ok Swap.fresh := rfl
  have h := Stage.readers_exact ⟨Swap.before, 2, Swap.checked.built.1⟩ hnew Swap.steps
    Swap.checked.known
  refine ⟨fun i => ?_, Swap.checked.counts⟩
  rw [← Swap.checked.readers]
  exact (h.2 i).symm

end StreamLang
