import StreamLang.Proofs.Engine.Regular
import StreamLang.Proofs.Machine.Confinement
import StreamLang.Proofs.Stream.Receipts
/-!
Where functions stay from one pass to the next: in committed values, in what streams have taken in, in
events that wait, among the globals, and in the scopes of functions that stay. As long as the program is
not replaced, an engine comes by no others but those that its program makes and those that come from
outside. So what holds of all of these holds of every function that any pass ever holds.
-/
namespace StreamLang

/-! ### What streams may show -/

/-- The values that the stream may show, its default among them. -/
def Stream.showable (x : Stream) : List Value := x.spec.default :: x.history.map (·.value)

namespace Stream

variable {x x' : Stream} {q : Closure → Prop} {v : Value} {n : Nat}

theorem current_mem_showable (x : Stream) : x.current ∈ x.showable := by
  unfold current latest
  split
  · cases hl : x.history.getLast? with
    | none => exact List.mem_cons_self
    | some e => exact List.mem_cons_of_mem _ (List.mem_map_of_mem (List.mem_of_getLast? hl))
  · exact List.mem_cons_self

theorem showable_of_ledger (h : x'.ledger = x.ledger) : x'.showable = x.showable := by
  simp only [ledger, Prod.mk.injEq] at h
  obtain ⟨hs, -, hh, -⟩ := h
  rw [showable, showable, hs, hh]

/-- What a stream has made of an input is the input or a number. -/
theorem every_observe (hv : v.Every q) : (x.observe v).1.Every q := by
  unfold observe
  split
  · exact Value.every_number _
  · exact hv

theorem every_record (hx : ∀ u ∈ x.showable, u.Every q) (hv : v.Every q)
    (h : x.record v n = .ok x') : ∀ u ∈ x'.showable, u.Every q := by
  rw [record_eq] at h
  obtain ⟨u, -, rfl⟩ := of_map_eq_ok h
  refine List.forall_mem_cons.2 ⟨hx _ List.mem_cons_self, fun u hu => ?_⟩
  obtain ⟨e, he, rfl⟩ := List.mem_map.1 hu
  rcases List.mem_append.1 (List.mem_of_mem_drop he) with he | he
  · exact hx _ (List.mem_cons_of_mem _ (List.mem_map_of_mem he))
  · rw [List.mem_singleton.1 he]
    exact every_observe hv

end Stream

namespace Registry

variable {r r' : Registry} {q : Closure → Prop}

/-- All functions in what the streams may show are such. -/
def Every (q : Closure → Prop) (r : Registry) : Prop :=
  ∀ name x, r.stream? name = some x → ∀ v ∈ x.showable, v.Every q

theorem Every.same (h : r.Every q) (hs : SameEvents r r') : r'.Every q := by
  intro name x hx v hv
  have hl := hs.2 name
  rw [hx, Option.map_some] at hl
  obtain ⟨y, hy, heq⟩ := Option.map_eq_some_iff.1 hl.symm
  exact h name y hy v (Stream.showable_of_ledger heq ▸ hv)

theorem Every.takeIn (h : r.Every q) {e : StreamEvent} (he : e.value.Every q) :
    (r.takeIn e).Every q := by
  rw [takeIn_eq_record]
  split
  · rename_i recorded r' hr
    obtain ⟨x, x', hx, hx', rfl⟩ := record_eq_ok hr
    intro name y hy
    have hset : (r.set e.stream x').stream? name = some y := hy
    rw [stream?_set] at hset
    split at hset
    · obtain rfl := Option.some.inj hset
      exact Stream.every_record (h _ x hx) he hx'
    · exact h name y hset
  · exact h

theorem Every.takeInAll (h : r.Every q) {events : List StreamEvent}
    (he : ∀ e ∈ events, e.value.Every q) : (events.foldl Registry.takeIn r).Every q := by
  induction events generalizing r with
  | nil => exact h
  | cons e rest ih =>
    exact ih (h.takeIn (he e List.mem_cons_self)) fun d hd => he d (List.mem_cons_of_mem _ hd)

theorem Every.snapshot (h : r.Every q) (pass : Nat) (stream : String) {e : SnapshotEntry}
    (he : (r.snapshot pass).get? stream = some e) : e.value.Every q := by
  rw [snapshot_get?] at he
  obtain ⟨x, hx, rfl⟩ := Option.map_eq_some_iff.1 he
  exact h stream x hx _ x.current_mem_showable

end Registry

/-! ### What a reactor keeps -/

namespace Reactor

/-- All functions in what is committed, shown or waiting are such, and what is committed for reactions is
known to be theirs. -/
structure Confined (t : Tree) (q : Closure → Prop) (r : Reactor) : Prop where
  values : ∀ i c, r.cache.find? i = some c → c.value.Every q
  reactions : ∀ i c, r.cache.find? i = some c → c.reaction = (t.kind? i == some .reaction)
  streams : r.registry.Every q
  waiting : ∀ e ∈ r.inbox.events, e.value.Every q

namespace Confined

variable {t : Tree} {p q : Closure → Prop} {r r' : Reactor}

theorem mono (h : r.Confined t p) (hpq : ∀ c, p c → q c) : r.Confined t q where
  values i c hc := (h.values i c hc).mono hpq
  reactions := h.reactions
  streams name x hx v hv := (h.streams name x hx v hv).mono hpq
  waiting e he := (h.waiting e he).mono hpq

theorem same (h : r.Confined t q) (cache : r'.cache = r.cache)
    (streams : Registry.SameEvents r.registry r'.registry) (inbox : r'.inbox = r.inbox) :
    r'.Confined t q :=
  ⟨cache ▸ h.values, cache ▸ h.reactions, h.streams.same streams, inbox ▸ h.waiting⟩

theorem beginPass (h : r.Confined t q) (p : Program) : (r.beginPass p).2.Confined t q := by
  rw [beginPass_eq]
  exact ⟨h.values, h.reactions, h.streams.takeInAll h.waiting, fun _ he => absurd he List.not_mem_nil⟩

theorem discard (h : r.Confined t q) (done : Record) : (r.discard done).Confined t q :=
  h.same rfl (Registry.sameEvents_subscribeAll _ _) rfl

/-- With nothing committed there is less to ask for. -/
theorem invalidate {t' : Tree} (h : r.Confined t q) : r.invalidate.Confined t' q where
  values i c hc := by simp [Reactor.invalidate] at hc
  reactions i c hc := by simp [Reactor.invalidate] at hc
  streams := h.streams.same (Registry.sameEvents_unsubscribeAll _)
  waiting := h.waiting

theorem subscribeReaders (h : r.Confined t q) (a : Analysis) : (r.subscribeReaders a).Confined t q :=
  h.same rfl (Registry.sameEvents_subscribeAll _ _) rfl

theorem commit (h : r.Confined t q) (seen : Snapshot) {done : Record}
    (values : ∀ x ∈ done.writes, x.2.value.Every q)
    (reactions : ∀ x ∈ done.writes, x.2.reaction = (t.kind? x.1 == some .reaction)) :
    (r.commit t seen done).Confined t q where
  values i c hc := by
    rcases r.commit_find? hc with ⟨w, hw, rfl⟩ | ⟨-, hc⟩
    · exact values _ hw
    · exact h.values i c hc
  reactions i c hc := by
    rcases r.commit_find? hc with ⟨w, hw, rfl⟩ | ⟨-, hc⟩
    · exact reactions _ hw
    · exact h.reactions i c hc
  streams := by
    rw [commit_registry]
    exact (h.streams.same (Registry.sameEvents_subscribeAll _ _)).same
      (Registry.sameEvents_markObserved _ _)
  waiting := by
    rw [commit_inbox]
    exact h.waiting

end Confined
end Reactor

namespace Engine

variable {t : Tree} {G : ScopeId → Prop} {q : Closure → Prop} {e e' : Engine}

/-- The functions that an engine keeps, be it only in events that wait or in a scope of another one. -/
inductive Keeps (e : Engine) : Closure → Prop where
  | committed {i v c} (hv : e.value? i = some v) (hc : v.Mentions c) : Keeps e c
  | streamed {name x v c} (hx : e.reactor.registry.stream? name = some x) (hv : v ∈ x.showable)
    (hc : v.Mentions c) : Keeps e c
  | waiting {event c} (he : event ∈ e.reactor.inbox.events) (hc : event.value.Mentions c) : Keeps e c
  | global {c} (hc : e.scopes.Shows e.globals c) : Keeps e c
  | captured {f c} (hf : Keeps e f) (hc : e.scopes.Shows f.scope c) : Keeps e c

/-- All functions that the engine keeps in some of its scopes or elsewhere are such. -/
structure Confined (t : Tree) (G : ScopeId → Prop) (q : Closure → Prop) (e : Engine) : Prop where
  tree : e.program.tree = t
  globals : G e.globals
  scopes : e.scopes.Confines G q
  reactor : e.reactor.Confined t q

/-- The scopes that an engine can look into. -/
def Opens (e : Engine) : ScopeId → Prop := e.scopes.Opens e.globals e.Keeps

namespace Confined

theorem mono {p : Closure → Prop} (h : e.Confined t G p) (hpq : ∀ c, p c → q c) : e.Confined t G q :=
  ⟨h.tree, h.globals, h.scopes.mono hpq, h.reactor.mono hpq⟩

theorem reset (h : e.scopes.Confines G q) (globals : G e.globals) {r : Reactor} {t' : Tree}
    (hr : r.Confined t' q) (heq : e.reactor = r) : e.reset.Confined e.program.tree G q := by
  subst heq
  refine ⟨rfl, globals, h, ?_⟩
  unfold Engine.reset
  simp only
  split
  · exact hr.invalidate
  · exact hr.invalidate.subscribeReaders _

theorem defineGlobal (h : e.Confined t G q) (name : String) {v : Value} (hv : v.Every q) :
    (e.defineGlobal name v).Confined t G q := by
  have htree : ({ e with scopes := e.scopes.define e.globals name v } : Engine).program.tree = t :=
    h.tree
  exact htree ▸ reset (e := { e with scopes := e.scopes.define e.globals name v })
    (h.scopes.define e.globals name hv) h.globals h.reactor rfl

theorem replaceTree (h : e.Confined t G q) (t' : Tree) : (e.replaceTree t').Confined t' G q :=
  reset (e := { e with program := .ofTree t', evaluations := ∅ }) h.scopes h.globals h.reactor rfl

theorem send (h : e.Confined t G q) {stream : String} {v : Value} (hs : e.send stream v = .ok e')
    (hv : v.Every q) : e'.Confined t G q := by
  obtain ⟨inbox, hi, rfl⟩ := inbox_of_send hs
  obtain ⟨-, rfl⟩ := Inbox.send_eq_ok hi
  refine { h with reactor := { h.reactor with waiting := fun ev hev => ?_ } }
  rcases List.mem_append.1 hev with hev | hev
  · exact h.reactor.waiting ev hev
  · rw [List.mem_singleton.1 hev]
    exact hv

theorem addEvent (h : e.Confined t G q) {stream : String} {v : Value}
    (hs : e.addEvent stream v = .ok e') (hv : v.Every q) : e'.Confined t G q :=
  h.send (send_of_addEvent hs) hv

theorem setAvailable (h : e.Confined t G q) {stream : String} {available : Bool}
    (hs : e.setAvailable stream available = .ok e') : e'.Confined t G q := by
  obtain ⟨r, hr, rfl⟩ := setAvailable_eq_ok hs
  obtain ⟨readers, registry, ha, rfl⟩ := Reactor.setAvailable_eq_ok hr
  exact { h with reactor := h.reactor.same rfl (Registry.sameEvents_setAvailable ha) rfl }

/-- Where a pass that is open gets functions from. -/
theorem contains (h : e.Confined t G q) {before : Engine} {p : Pass} {P : NodeId → Value → Prop}
    (he : p.engine = e) (o : p.Open before P) (inside : ∀ c, q c → G c.scope)
    (makes : t.Makes G q) : p.setting.Contains G q := by
  subst he
  refine ⟨⟨?_, ?_⟩, o.globals ▸ h.globals, inside, ?_⟩
  · rw [o.cache]
    exact h.reactor.values
  · rw [o.snapshot]
    exact fun stream _ => h.reactor.streams.snapshot _ stream
  · rw [o.program, h.tree]
    exact makes

end Confined

/-- Where all functions that an engine keeps are such, it keeps no others, seen from the scopes that it can
look into. -/
theorem confined_of_keeps (h : ∀ c, e.Keeps c → q c)
    (reactions : ∀ i c, e.reactor.cache.find? i = some c →
      c.reaction = (e.program.tree.kind? i == some .reaction)) :
    e.Confined e.program.tree e.Opens fun c => q c ∧ e.Opens c.scope := by
  have kept (c : Closure) (hc : e.Keeps c) : q c ∧ e.Opens c.scope :=
    ⟨h c hc, e.scopes.opens_kept e.globals hc⟩
  refine ⟨rfl, e.scopes.opens_globals e.globals _,
    Scopes.confines_opens (fun _ => .global) (fun _ _ => .captured) h, ?_, reactions, ?_, ?_⟩
  · exact fun i c hc f hf => kept f (.committed (by rw [value?, Cache.value?, hc]; rfl) hf)
  · exact fun name x hx v hv f hf => kept f (.streamed hx hv hf)
  · exact fun ev hev f hf => kept f (.waiting hev hf)

end Engine

namespace Engine

variable {t : Tree} {q : Closure → Prop} {e : Engine}

/-- In a new engine there are only the defaults of its streams. -/
theorem confined_new {catalog : Catalog} {config : Config} (h : Engine.new t catalog config = .ok e)
    (defaults : ∀ name spec, catalog.get? name = some spec → spec.default.Every q) :
    e.Confined t (fun _ => True) q := by
  obtain ⟨config', rfl⟩ := new_eq_ok h
  have fresh : (Reactor.new catalog config').Confined t q :=
    { values := fun i c hc => by simp [Reactor.new] at hc
      reactions := fun i c hc => by simp [Reactor.new] at hc
      streams := fun name x hx v hv => by
        have hx : (Registry.new catalog config'.historyLimit).stream? name = some x := hx
        rw [Registry.stream?_new] at hx
        obtain ⟨spec, hspec, rfl⟩ := Option.map_eq_some_iff.1 hx
        rw [List.mem_singleton.1 hv]
        exact defaults name spec hspec
      waiting := fun _ he => absurd he List.not_mem_nil }
  exact ⟨rfl, trivial, Scopes.every_iff.1 Scopes.every_empty.addRoot, fresh.subscribeReaders _⟩

/-- What holds of all functions that there are holds of those that are kept. -/
theorem Confined.of_keeps (h : e.Confined t (fun _ => True) q) {c : Closure} (hc : e.Keeps c) : q c := by
  have shown {i : ScopeId} {c : Closure} (hc : e.scopes.Shows i c) : q c := by
    obtain ⟨o, -, scope, hscope, b, hb, hc⟩ := hc
    exact h.scopes.every o scope trivial hscope b hb c hc
  cases hc with
  | committed hv hc =>
    obtain ⟨entry, he, rfl⟩ := Option.map_eq_some_iff.1 hv
    exact h.reactor.values _ entry he c hc
  | streamed hx hv hc => exact h.reactor.streams _ _ hx _ hv c hc
  | waiting he hc => exact h.reactor.waiting _ he c hc
  | global hc => exact shown hc
  | captured _ hc => exact shown hc

end Engine

/-! ### Sessions without another program -/

/-- When a pass is settled, at most its record is taken out of its machine. -/
theorem Pass.machine_settle (p : Pass) : p.settle.machine = p.machine ∨
    p.settle.machine = { p.machine with record := .empty } := by
  rcases p.settle_cases with h | ⟨-, ⟨T, h⟩ | h⟩
  · exact .inl (congrArg machine h)
  · exact .inr (congrArg machine h)
  · exact .inr (congrArg machine h)

namespace Stage

variable {t : Tree} {G : ScopeId → Prop} {q : Closure → Prop} {s s' : Stage}

/-- What happens in a session as long as the program stays; values come from outside only as allowed. -/
inductive Proceeds (sent defined : Value → Prop) : Stage → Stage → Prop where
  | addEvent {e e' stream v} (h : e.addEvent stream v = .ok e') (hv : sent v) :
    Proceeds sent defined (idle e) (idle e')
  | setAvailable {e e' stream available} (h : e.setAvailable stream available = .ok e') :
    Proceeds sent defined (idle e) (idle e')
  | defineGlobal {e v} (name : String) (hv : defined v) :
    Proceeds sent defined (idle e) (idle (e.defineGlobal name v))
  | start {e p} (h : Pass.start e = .ok p) : Proceeds sent defined (idle e) (busy e p)
  | tick {e p} : Proceeds sent defined (busy e p) (busy e p.tick)
  | sendDuring {e p e' stream v} (h : p.engine.send stream v = .ok e') (hv : sent v) :
    Proceeds sent defined (busy e p) (busy e { p with engine := e' })
  | requestAbort {e p} :
    Proceeds sent defined (busy e p) (busy e { p with engine := p.engine.requestAbort })
  | leave {e p} : Proceeds sent defined (busy e p) (idle p.abandon.engine)

theorem Proceeds.step {sent defined : Value → Prop} (admits : Tree → Prop)
    (h : Proceeds sent defined s s') : Step admits (fun _ => True) s s' := by
  cases h with
  | addEvent h => exact .addEvent h
  | setAvailable h => exact .setAvailable h
  | defineGlobal name => exact .defineGlobal name _
  | start h => exact .start h
  | tick => exact .tick trivial
  | sendDuring h => exact .sendDuring h
  | requestAbort => exact .requestAbort
  | leave => exact .leave

theorem Proceeds.mono {sent sent' defined defined' : Value → Prop} (hs : ∀ v, sent v → sent' v)
    (hd : ∀ v, defined v → defined' v) (h : Proceeds sent defined s s') :
    Proceeds sent' defined' s s' := by
  cases h with
  | addEvent h hv => exact .addEvent h (hs _ hv)
  | setAvailable h => exact .setAvailable h
  | defineGlobal name hv => exact .defineGlobal name (hd _ hv)
  | start h => exact .start h
  | tick => exact .tick
  | sendDuring h hv => exact .sendDuring h (hs _ hv)
  | requestAbort => exact .requestAbort
  | leave => exact .leave

/-- All else that can happen is that the program is replaced. -/
theorem Step.proceeds {admits : Tree → Prop} {fair : Pass → Prop} (h : Step admits fair s s') :
    Proceeds (fun _ => True) (fun _ => True) s s' ∨
      ∃ e t, admits t ∧ s = idle e ∧ s' = idle (e.replaceTree t) := by
  cases h with
  | addEvent h => exact .inl (.addEvent h trivial)
  | setAvailable h => exact .inl (.setAvailable h)
  | defineGlobal name v => exact .inl (.defineGlobal name trivial)
  | replaceTree ht => exact .inr ⟨_, _, ht, rfl, rfl⟩
  | start h => exact .inl (.start h)
  | tick => exact .inl .tick
  | sendDuring h => exact .inl (.sendDuring h trivial)
  | requestAbort => exact .inl .requestAbort
  | leave => exact .inl .leave

/-- All functions that the engine keeps or an open pass holds are such. -/
def Confined (t : Tree) (G : ScopeId → Prop) (q : Closure → Prop) : Stage → Prop
  | idle e => e.Confined t G q
  | busy _ p => p.engine.Confined t G q ∧ p.machine.Contained p.setting G q

theorem Confined.engine (h : s.Confined t G q) : s.engine.Confined t G q := by
  cases s with
  | idle e => exact h
  | busy before p => exact h.1

/-- The next tick of a pass that is open. -/
theorem Confined.next {before : Engine} {p : Pass} {P : NodeId → Value → Prop}
    (h : (busy before p).Confined t G q) (o : p.Open before P) (inside : ∀ c, q c → G c.scope)
    (makes : t.Makes G q) : p.next.Contained p.setting G q :=
  h.2.tick (h.1.contains rfl o inside makes) p.engine.abortRequested

/-- What a pass commits is what its machine has written. -/
theorem Confined.tick {before : Engine} {p : Pass} (h : (busy before p).Confined t G q)
    (r : (busy before p).Regular) (inside : ∀ c, q c → G c.scope) (makes : t.Makes G q) :
    (busy before p.tick).Confined t G q := by
  have he : p.engine.Confined t G q := h.1
  obtain ⟨-, ⟨o, -⟩ | hp⟩ := r
  · have next := h.next o inside makes
    obtain ⟨hsetting, outcome⟩ := o.tick fun _ _ _ => trivial
    refine ⟨?_, ?_⟩
    · rcases outcome with ⟨-, heq⟩ | ⟨-, hd | ⟨k, v, hc⟩⟩
      · exact heq ▸ he
      · refine ⟨hd.alike.program ▸ he.tree, hd.alike.globals ▸ he.globals, hd.scopes ▸ he.scopes, ?_⟩
        rw [hd.reactor]
        exact he.reactor.discard _
      · refine ⟨hc.alike.program ▸ he.tree, hc.alike.globals ▸ he.globals,
          hc.scopes ▸ next.confined.scopes, ?_⟩
        have htree : p.setting.program.tree = t := by rw [o.program, he.tree]
        rw [hc.reactor, he.tree]
        exact he.reactor.commit _ next.values (htree ▸ next.reactions)
    · show p.tick.machine.Contained p.tick.setting G q
      rw [hsetting]
      rcases Pass.machine_settle { p with machine := p.next } with hm | hm
      · have hm : p.tick.machine = p.next := hm
        exact hm ▸ next
      · have hm : p.tick.machine = { p.next with record := .empty } := hm
        exact hm ▸ next.forget
  · rw [Pass.Settled.tick hp]
    exact h

theorem Confined.proceeds {sent defined : Value → Prop} (h : s.Confined t G q) (r : s.Regular)
    (hs : Proceeds sent defined s s') (hsent : ∀ v, sent v → v.Every q)
    (hdefined : ∀ v, defined v → v.Every q) (inside : ∀ c, q c → G c.scope)
    (makes : t.Makes G q) : s'.Confined t G q := by
  cases hs with
  | addEvent hs hv => exact Engine.Confined.addEvent h hs (hsent _ hv)
  | setAvailable hs => exact Engine.Confined.setAvailable h hs
  | defineGlobal name hv => exact Engine.Confined.defineGlobal h name (hdefined _ hv)
  | @start e p hs =>
    have he : e.Confined t G q := h
    obtain ⟨-, rfl⟩ := Pass.start_eq_ok hs
    exact ⟨{ he with reactor := he.reactor.beginPass e.program }, .start _ he.scopes⟩
  | tick => exact h.tick r inside makes
  | sendDuring hs hv => exact ⟨h.1.send hs (hsent _ hv), h.2⟩
  | requestAbort => exact ⟨{ h.1 with }, h.2⟩
  | @leave e p =>
    have he : p.engine.Confined t G q := h.1
    show p.abandon.engine.Confined t G q
    unfold Pass.abandon
    split
    · exact he
    · exact { he with reactor := he.reactor.discard _ }

/-- In every session it is known of each entry whether it is that of a reaction. -/
theorem Reached.exists_confined {fair : Pass → Prop} (h : Reached Tree.Accepted fair s) :
    ∃ t, t.Accepted ∧ s.Confined t (fun _ => True) fun _ => True := by
  refine (h.induction (C := fun s => s.Regular ∧ ∃ t, t.Accepted ∧
    s.Confined t (fun _ => True) fun _ => True)
    (fun t catalog config e ht he => ⟨⟨t, .new ht.ordered he⟩, t, ht, ?_⟩) fun s s' h hs => ?_).2
  · exact Engine.confined_new he fun _ _ _ _ _ => trivial
  · obtain ⟨r, t, ht, h⟩ := h
    refine ⟨r.step hs, ?_⟩
    rcases hs.proceeds with hs | ⟨e, t', ht', rfl, rfl⟩
    · exact ⟨t, ht, h.proceeds r hs (fun _ _ _ _ => trivial) (fun _ _ _ _ => trivial)
        (fun _ _ => trivial) fun _ _ _ _ _ _ _ => trivial⟩
    · exact ⟨t', ht', Engine.Confined.replaceTree h t'⟩

end Stage

/-- All stages since an engine was at rest, the latest first, while its program stays. It may depend on
the stages so far what is sent to it and what is defined. -/
inductive Stretch (sent defined : List Stage → Value → Prop) (e : Engine) : List Stage → Prop where
  | rest : Stretch sent defined e [.idle e]
  | step {s s' past} (h : Stretch sent defined e (s :: past))
    (hs : Stage.Proceeds (sent (s :: past)) (defined (s :: past)) s s') :
    Stretch sent defined e (s' :: s :: past)

/-- Every function in the value is in one that was committed for a node at one of the stages. -/
def Known (stages : List Stage) (v : Value) : Prop :=
  v.Every fun c => ∃ s ∈ stages, ∃ i u, s.engine.value? i = some u ∧ u.Mentions c

section Known

variable {t : Tree} {G : ScopeId → Prop} {q : Closure → Prop} {stages : List Stage} {v : Value}

theorem known_of_value {s : Stage} {i : NodeId} (hs : s ∈ stages) (hv : s.engine.value? i = some v) :
    Known stages v := fun _ hc => ⟨s, hs, i, v, hv, hc⟩

theorem Known.every (h : Known stages v) (hs : ∀ s ∈ stages, s.Confined t G q) : v.Every q := by
  intro c hc
  obtain ⟨s, hmem, i, u, hu, hc⟩ := h c hc
  obtain ⟨entry, he, rfl⟩ := Option.map_eq_some_iff.1 hu
  exact (hs s hmem).engine.reactor.values i entry he c hc

end Known

namespace Stretch

variable {sent defined : List Stage → Value → Prop} {e : Engine} {stages past : List Stage}
  {s : Stage}

theorem mono {sent' defined' : List Stage → Value → Prop}
    (hs : ∀ stages v, sent stages v → sent' stages v)
    (hd : ∀ stages v, defined stages v → defined' stages v) (h : Stretch sent defined e stages) :
    Stretch sent' defined' e stages := by
  induction h with
  | rest => exact .rest
  | step _ hstep ih => exact .step ih (hstep.mono (hs _) (hd _))

/-- What holds when the engine is at rest and is kept by all that may happen holds at all stages. -/
theorem induction {C : Stage → Prop} (h : Stretch sent defined e stages) (rest : C (.idle e))
    (step : ∀ s s' past, Stretch sent defined e (s :: past) → C s →
      Stage.Proceeds (sent (s :: past)) (defined (s :: past)) s s' → C s') : ∀ s ∈ stages, C s := by
  induction h with
  | rest => exact fun s hs => List.mem_singleton.1 hs ▸ rest
  | step h hstep ih =>
    exact List.forall_mem_cons.2 ⟨step _ _ _ h (ih _ List.mem_cons_self) hstep, ih⟩

theorem regular (h : Stretch sent defined e stages) (r : (Stage.idle e).Regular) :
    ∀ s ∈ stages, s.Regular :=
  h.induction r fun _ _ _ _ ih hstep => ih.step (hstep.step Tree.Accepted)

/-- If the functions that are kept are such, and those that are made or come from outside, all are such at
all times. -/
theorem confined {t : Tree} {G : ScopeId → Prop} {q : Closure → Prop}
    (h : Stretch sent defined e stages) (r : (Stage.idle e).Regular) (he : e.Confined t G q)
    (hsent : ∀ stages v, (∀ s ∈ stages, s.Confined t G q) → sent stages v → v.Every q)
    (hdefined : ∀ stages v, (∀ s ∈ stages, s.Confined t G q) → defined stages v → v.Every q)
    (inside : ∀ c, q c → G c.scope) (makes : t.Makes G q) : ∀ s ∈ stages, s.Confined t G q := by
  induction h with
  | rest => exact fun s hs => List.mem_singleton.1 hs ▸ he
  | @step s s' past h hstep ih =>
    exact List.forall_mem_cons.2 ⟨(ih _ List.mem_cons_self).proceeds
      (h.regular r _ List.mem_cons_self) hstep (fun v => hsent _ v ih) (fun v => hdefined _ v ih)
      inside makes, ih⟩

theorem ticks {before : Engine} {p : Pass} (h : Stretch sent defined e (.busy before p :: past))
    (n : Nat) : Stretch sent defined e (Stage.ticks before p n ++ past) := by
  induction n with
  | zero => exact h
  | succ n ih =>
    have hn : Stage.ticks before p n =
        .busy before (Nat.iterate Pass.tick n p) :: (Stage.ticks before p n).tail := by
      cases n <;> rfl
    rw [hn] at ih
    rw [Stage.ticks, Function.iterate_succ_apply', hn]
    exact ih.step .tick

end Stretch
end StreamLang
