import StreamLang.Proofs.Engine.Subscribers
import StreamLang.Proofs.Machine.Untouched
import StreamLang.Proofs.Staleness.Cone
/-!
Events cost only what they reach. If no stream that has an event waiting is read in the cone of a node,
and nothing there was told of a change by the last commit, a pass that begins leaves the node without a
mark; so whatever is sent while the pass is open and wherever it ends, its committed value stands in for
the node, which is not run, and stays what it is unless it is evicted.
-/
namespace StreamLang

open Staleness (Walked)
open Machine (Listening)

/-! ### Streams tell only readers -/

namespace Engine

/-- The readers of the streams are those that the program has. -/
def Known (e : Engine) : Prop := e.reactor.registry.Known e.program.tree

variable {e : Engine}

theorem TellsReaders.known {catalog : Catalog} (h : e.TellsReaders catalog) : e.Known := by
  intro name x hx i hi
  have ht := h name
  rw [Registry.telling, hx, Option.map_some] at ht
  obtain ⟨spec, -, heq⟩ := Option.map_eq_some_iff.1 ht.symm
  obtain ⟨-, hreaders⟩ := Prod.mk.inj heq
  rcases Tree.mem_readersOf.1 (hreaders.symm ▸ hi) with hk | hk
  · exact Analysis.mem_readers.2 ⟨_, hk, rfl⟩
  · exact Analysis.mem_readers.2 ⟨_, hk, rfl⟩

end Engine

/-- Whatever happened in a session, streams tell none but the readers of its program. -/
theorem Stage.Reached.known {s : Stage} {fair : Pass → Prop} (h : Reached Tree.Accepted fair s) :
    s.engine.Known := by
  obtain ⟨t, catalog, config, e, ht, he, hs⟩ := h
  exact (tellsReaders ht he hs).2.known

/-! ### What a change does not reach -/

/-- The node has been committed, is up to date, and stays so whatever the streams of all waiting events
lead to. -/
structure Engine.Unreached (e : Engine) (n : NodeId) (c : CacheEntry) : Prop where
  steady : e.program.analysis.isVolatile n = false
  entry : e.reactor.cache.find? n = some c
  reusable : c.reusable = true
  clean : e.reactor.staleness.mark? n = none
  /-- The condition and the next value of a reaction are up to date as well. -/
  parts : e.program.tree.kind? n = some .reaction →
    ∀ d ∈ (e.program.tree.children n).drop 1, e.reactor.staleness.mark? d = none
  /-- No stream that has an event waiting is read in the cone of the node. -/
  unread : ∀ ev ∈ e.reactor.inbox.events, ∀ i k, e.program.tree.Cone n i →
    e.program.tree.kind? i = some k → k.stream? ≠ some ev.stream
  /-- Nothing in the cone was told by the last committed pass that its stream had changed. -/
  settled : ∀ i ∈ e.reactor.edgeTriggered, ¬ e.program.tree.Cone n i

/-- All that a pass has done to the node of such an entry: nothing, unless the entry was evicted. -/
structure Pass.LeavesAlone (q : Pass) (e : Engine) (n : NodeId) (c : CacheEntry) : Prop where
  run : q.machine.record.evaluations[n]? = none
  count : q.engine.evaluationCount n = e.evaluationCount n
  entry : q.engine.reactor.cache.find? n = some c ∨
    q.engine.reactor.cache.find? n = none ∧ e.reactor.capacity.isSome

namespace Engine

variable {e : Engine} {t : Tree} {n : NodeId} {c : CacheEntry}

/-- A pass that begins leaves everything in the cone of the node as it was. -/
theorem Unreached.mark?_opened (hn : e.Unreached n c) (r : e.Regular t) (known : e.Known) {d : NodeId}
    (hd : t.Within n d) (hmark : e.reactor.staleness.mark? d = none) :
    (Pass.opened e).setting.staleness.mark? d = none := by
  have htree : e.program.tree = t := congrArg Program.tree r.program
  have hcone {i : NodeId} (hi : t.Cone d i) : e.program.tree.Cone n i := htree ▸ hi.of_within hd
  show (e.reactor.beginPass e.program).2.staleness.mark? d = none
  rw [Reactor.beginPass_eq, r.program]
  refine (Staleness.mark?_markAllChanged_eq_none r.ordered r.reactor.walked).2
    ⟨hmark, fun i hi _ hcone' => ?_⟩
  rcases List.mem_append.1 hi with hi | hi
  · obtain ⟨ev, hev, hheard⟩ := List.mem_flatMap.1 hi
    obtain ⟨k, hk, hstream⟩ := Analysis.mem_readers.1 (Registry.Known.heard known hheard)
    exact hn.unread ev hev i k (hcone hcone') hk hstream
  · exact hn.settled i hi (hcone hcone')

/-- So the committed value stands in for the node. -/
theorem Unreached.reuse (hn : e.Unreached n c) (r : e.Regular t) (known : e.Known) (done : Record) :
    (Pass.opened e).setting.reuse? done n = some c.value := by
  have htree : e.program.tree = t := congrArg Program.tree r.program
  have hcache : (Pass.opened e).setting.cache = e.reactor.cache := by
    show (e.reactor.beginPass e.program).2.cache = _
    rw [Reactor.beginPass_eq]
  have unaffected {d : NodeId} (hd : t.Within n d) (hmark : e.reactor.staleness.mark? d = none) :
      (Pass.opened e).setting.unaffected done d = true := by
    rw [Setting.unaffected, hn.mark?_opened r known hd hmark]
  have holds : (Pass.opened e).setting.holds done n = true := by
    unfold Setting.holds
    split
    · rename_i hk
      obtain ⟨k, hk, heq⟩ : ∃ k, e.program.tree.kind? n = some k ∧ (k == .reaction) = true :=
        (Option.any_eq_true _ _).1 hk
      obtain rfl := beq_iff_eq.1 heq
      refine List.all_eq_true.2 fun d hd => unaffected ?_ (hn.parts hk d hd)
      exact .child (htree ▸ List.mem_of_mem_drop hd)
    · exact unaffected (.refl n) hn.clean
  have hsteady : (Pass.opened e).setting.program.analysis.isVolatile n = false := hn.steady
  rw [Setting.reuse?, hsteady, holds, hcache, Cache.reusable?, hn.entry]
  simp [hn.reusable]

theorem Unreached.avoids (hn : e.Unreached n c) (r : e.Regular t) (known : e.Known)
    (ho : ∀ f, (Pass.opened e).setting.Offers e.scopes f → f.body ≠ n) :
    (Pass.opened e).setting.Avoids e.scopes n where
  ordered := by
    show e.program.tree.Ordered
    rw [r.program]
    exact r.ordered
  program := by
    show e.program = .ofTree e.program.tree
    rw [r.program]
    rfl
  reuse done := by
    rw [hn.reuse r known done]
    rfl
  offers := ho

theorem evaluations_announce (e : Engine) (report : Report) :
    (e.announce report).evaluations = e.evaluations := by
  unfold announce
  split <;> rfl

/-- What is not in a record is not counted. -/
theorem evaluations_countEvaluations {done : Record} (h : done.evaluations[n]? = none) :
    (e.countEvaluations done).evaluations[n]? = e.evaluations[n]? := by
  have key (counts : List (NodeId × Nat)) (hc : ∀ p ∈ counts, p.1 ≠ n) (m : NodeMap Nat) :
      (counts.foldl (fun m p => m.insert p.1 ((m[p.1]?).getD 0 + p.2)) m)[n]? = m[n]? := by
    induction counts generalizing m with
    | nil => rfl
    | cons p rest ih =>
      rw [List.foldl_cons, ih fun q hq => hc q (List.mem_cons_of_mem _ hq),
        Std.ExtTreeMap.getElem?_insert, if_neg (by simpa using hc p List.mem_cons_self)]
  refine key _ (fun p hp hpn => ?_) _
  have hsome := Std.ExtTreeMap.mem_toList_iff_getElem?_eq_some.1 hp
  rw [hpn, h] at hsome
  cases hsome

end Engine

namespace Pass

variable {e : Engine} {n : NodeId} {c : CacheEntry} {p q : Pass}

theorem evaluations_conclude (h : p.machine.record.evaluations[n]? = none) (T : Terminal) :
    (p.conclude T).engine.evaluations[n]? = p.engine.evaluations[n]? := by
  refine Eq.trans ?_ (Engine.evaluations_countEvaluations h)
  show (Engine.announce _ _).evaluations[n]? = _
  rw [Engine.evaluations_announce]
  split <;> rfl

theorem evaluations_settle (h : p.machine.record.evaluations[n]? = none) :
    p.settle.engine.evaluations[n]? = p.engine.evaluations[n]? := by
  rcases p.settle_cases with hs | ⟨-, ⟨T, hs⟩ | hs⟩
  · rw [hs]
  · rw [hs, evaluations_conclude h]
  · rw [hs]
    exact Engine.evaluations_countEvaluations h

theorem evaluations_abandon (h : p.machine.record.evaluations[n]? = none) :
    p.abandon.engine.evaluations[n]? = p.engine.evaluations[n]? := by
  unfold abandon
  split
  · rfl
  · exact Engine.evaluations_countEvaluations h

/-- What holds of a pass that leaves a node alone, as far as it has come. -/
structure Spares (e : Engine) (n : NodeId) (c : CacheEntry) (q : Pass) : Prop where
  avoids : q.setting.Avoids e.scopes n
  machine : q.machine.Spares q.setting e.scopes n
  evaluations : q.engine.evaluations[n]? = e.evaluations[n]?
  capacity : q.engine.reactor.capacity = e.reactor.capacity
  committed : q.finished = false → q.engine.reactor.cache.find? n = some c
  entry : q.engine.reactor.cache.find? n = some c ∨
    q.engine.reactor.cache.find? n = none ∧ e.reactor.capacity.isSome

theorem spares_opened (hs : (opened e).setting.Avoids e.scopes n)
    (hc : e.reactor.cache.find? n = some c) : (opened e).Spares e n c := by
  have hreactor : (opened e).engine.reactor = (e.reactor.beginPass e.program).2 := rfl
  have hfind : (opened e).engine.reactor.cache.find? n = some c := by
    rw [hreactor, Reactor.beginPass_eq]
    exact hc
  exact ⟨hs, .start hs, rfl, by rw [hreactor, Reactor.beginPass_eq], fun _ => hfind, .inl hfind⟩

namespace Spares

variable (h : q.Spares e n c)
include h

theorem leavesAlone : q.LeavesAlone e n c :=
  ⟨h.machine.untouched.record.run, congrArg (·.getD 0) h.evaluations, h.entry⟩

/-- Another inbox is nothing to it. -/
theorem withInbox (b : Inbox) : (q.withInbox b).Spares e n c := { h with }

/-- Whatever ends the pass takes nothing away but what is evicted. -/
theorem close {settle : Engine → Record → Engine}
    (evaluations : (q.close settle).engine.evaluations[n]? = q.engine.evaluations[n]?)
    (reactor : (settle (q.engine.countEvaluations q.machine.record) q.machine.record).reactor =
        q.engine.reactor.discard q.machine.record ∨
      (settle (q.engine.countEvaluations q.machine.record) q.machine.record).reactor =
        q.engine.reactor.commit q.engine.program.tree q.setting.snapshot q.machine.record)
    (hf : q.finished = false) : (q.close settle).Spares e n c where
  avoids := h.avoids
  machine := ⟨h.machine.contained.forget, h.machine.untouched.of_eq rfl (.empty n)⟩
  evaluations := evaluations.trans h.evaluations
  capacity := by
    show (settle _ _).reactor.capacity = _
    rcases reactor with hr | hr <;> rw [hr]
    · exact h.capacity
    · rw [Reactor.commit_capacity]
      exact h.capacity
  committed hfinished := by cases hfinished
  entry := by
    show (settle _ _).reactor.cache.find? n = some c ∨ (settle _ _).reactor.cache.find? n = none ∧ _
    have hcache := h.committed hf
    rcases reactor with hr | hr <;> rw [hr]
    · exact .inl hcache
    · cases hfind : (q.engine.reactor.commit q.engine.program.tree q.setting.snapshot
          q.machine.record).cache.find? n with
      | some c' =>
        rcases Reactor.commit_find? _ hfind with ⟨w, hw, -⟩ | ⟨-, hold⟩
        · exact absurd (List.mem_map_of_mem hw) h.machine.untouched.record.write
        · exact .inl (hold.symm.trans hcache)
      | none =>
        refine .inr ⟨rfl, ?_⟩
        rw [← h.capacity]
        -- with no bound on the cache the entry would have stayed
        cases hn : q.engine.reactor.capacity with
        | some capacity => rfl
        | none =>
          have hhas := (Reactor.commit_has hn q.engine.program.tree q.setting.snapshot
            q.machine.record n).2 (.inr (by rw [Cache.has, hcache]; rfl))
          rw [Cache.has, hfind] at hhas
          cases hhas

theorem settle : q.settle.Spares e n c := by
  have unrun := h.machine.untouched.record.run
  rcases q.settle_cases with hs | ⟨hf, ⟨T, hs⟩ | hs⟩
  · rwa [hs]
  · rw [hs]
    refine h.close (evaluations_conclude unrun T) ?_ hf
    obtain ⟨-, -, hreactor, -⟩ := engine_announce
      (if T.value?.isSome then
        q.commit (q.engine.countEvaluations q.machine.record) q.machine.record
      else drop (q.engine.countEvaluations q.machine.record) q.machine.record)
      (q.report T q.machine.record)
    rw [hreactor]
    split
    · exact .inr rfl
    · exact .inl rfl
  · rw [hs]
    exact h.close (Engine.evaluations_countEvaluations unrun) (.inl rfl) hf

theorem act (a : Action) : (q.act a).Spares e n c := by
  cases a with
  | tick =>
    have hm : { q with machine := q.machine.tick q.setting q.engine.abortRequested }.Spares e n c :=
      { h with machine := h.machine.tick h.avoids q.engine.abortRequested }
    exact hm.settle
  | send stream v =>
    rw [act_send]
    exact h.withInbox _
  | requestAbort => exact { h with }

theorem during (actions : List Action) : (q.during actions).Spares e n c := by
  induction actions generalizing q with
  | nil => exact h
  | cons a rest ih => exact ih (h.act a)

end Spares
end Pass

/-- Events cost only what they reach: a node that none of those that wait leads to is not run by the next
pass, however that goes on, and its committed value stays unless it is evicted. No function from
elsewhere may have the node for its body. -/
theorem Stage.Reached.leaves_alone {e : Engine} {fair : Pass → Prop}
    (h : Reached Tree.Accepted fair (.idle e)) {n : NodeId} {c : CacheEntry} (hn : e.Unreached n c)
    {p : Pass} (hp : Pass.start e = .ok p)
    (ho : ∀ f, p.setting.Offers e.scopes f → f.body ≠ n) (actions : List Pass.Action) :
    (p.during actions).LeavesAlone e n c := by
  obtain ⟨t, r⟩ := h.regular
  obtain ⟨-, rfl⟩ := Pass.start_eq_ok hp
  have avoids := hn.avoids r h.known ho
  exact ((Pass.spares_opened avoids hn.entry).during actions).leavesAlone

/-! ### Functions from elsewhere -/

/-- The value is a text, a truth value, or such a function. -/
def Value.simple (q : Closure → Bool) : Value → Bool
  | text _ | boolean _ => true
  | function c => q c
  | _ => false

theorem Value.every_of_simple {q : Closure → Bool} {v : Value} (h : v.simple q = true) :
    v.Every fun c => q c = true := by
  cases v <;> simp_all [simple]

/-- Nothing but such values has come to the pass. -/
def Pass.simple (p : Pass) (q : Closure → Bool) : Bool :=
  p.setting.cache.entries.toList.all (·.2.value.simple q) &&
    p.setting.snapshot.entries.all (·.2.value.simple q) &&
    p.engine.scopes.all.toList.zipIdx.all fun (scope, i) =>
      scope.bindings.all fun b => (b.2.read i).simple q

theorem Pass.of_offers {e : Engine} {q : Closure → Bool} (h : (opened e).simple q = true)
    {c : Closure} (hc : (opened e).setting.Offers e.scopes c) : q c = true := by
  simp only [simple, Bool.and_eq_true, List.all_eq_true] at h
  obtain ⟨⟨hcache, hsnapshot⟩, hscopes⟩ := h
  refine hc.of_every (p := fun c => q c = true) ⟨fun i e he => ?_, fun stream e he => ?_⟩
    fun i scope hs b hb => ?_
  · exact Value.every_of_simple
      (hcache (i, e) (Std.ExtTreeMap.mem_toList_iff_getElem?_eq_some.2 he))
  · exact Value.every_of_simple (hsnapshot (stream, e) (Assoc.mem_of_get? he))
  · have hmem : (scope, i) ∈ e.scopes.all.toList.zipIdx := by
      rw [List.mk_mem_zipIdx_iff_getElem?, Array.getElem?_toList]
      exact hs
    exact Value.every_of_simple (hscopes (scope, i) hmem b hb)

/-! A program that shows a word and the last key after it. The word comes from a bind, whose value comes
from a function that another bind has. -/

namespace Aside

/-- The body of the function is node 2, and the reference to the word is node 9. -/
def draft : Draft :=
  ⟨#[⟨.reference "p", [], none, none⟩, ⟨.text "!", [], none, none⟩,
    ⟨.binary [.add], [0, 1], none, none⟩, ⟨.function ["p"], [2], none, none⟩,
    ⟨.bind "f", [3], none, none⟩, ⟨.reference "f", [], none, none⟩, ⟨.text "a", [], none, none⟩,
    ⟨.call, [5, 6], none, none⟩, ⟨.bind "x", [7], none, none⟩, ⟨.reference "x", [], none, none⟩,
    ⟨.stream "keyboard", [], none, none⟩, ⟨.binary [.add], [9, 10], none, none⟩,
    ⟨.block, [4, 8, 11], none, none⟩]⟩

def tree : Tree := ((draft.finish 12).toOption).getD ⟨#[], 0⟩

def catalog : Catalog := ⟨[("keyboard", ⟨"keyboard", .push, .text, .text ""⟩)]⟩

/-- The engine before its first pass. -/
def fresh : Engine := .load tree catalog .default

/-- After the first pass and a key. -/
def pressed : Engine := fresh.passed.told "keyboard" (.text "k")

/-- What was committed for the reference. -/
def entry : CacheEntry := (pressed.reactor.cache.find? 9).getD ⟨.text "", 0, none, false, false⟩

/-- Another key comes in while the next pass is open. -/
def actions : List Pass.Action :=
  .tick :: .send "keyboard" (.text "l") :: List.replicate 40 .tick

/-- The next pass. -/
def next : Pass := (Pass.opened pressed).during actions

/-- What can be read off the program and its passes. -/
@[mk_iff]
structure Checked : Prop where
  built : draft.finish 12 = .ok tree
  told : (fresh.passed.addEvent "keyboard" (.text "k")).toOption.isSome = true
  runs : pressed.stopped = false ∧ pressed.config.conflictPolicy = .attach
  steady : pressed.program.analysis.isVolatile 9 = false
  found : (pressed.reactor.cache.find? 9).isSome = true
  reusable : entry.reusable = true
  clean : pressed.reactor.staleness.mark? 9 = none
  kind : pressed.program.tree.kind? 9 = some (.reference "x")
  cone : ∀ i ∈ List.range 10, ∀ j ∈ pressed.program.tree.beneath i, j ∈ List.range 10
  unread : ∀ i ∈ List.range 10, (pressed.program.tree.kind? i).bind NodeKind.stream? = none
  settled : pressed.reactor.edgeTriggered = []
  simple : (Pass.opened pressed).simple (·.body == 2) = true
  shown : next.engine.latest.any (·.equal (.text "a!k")) = true

theorem checked : Checked := checked_iff.2 (by decide +kernel)

theorem reached : Stage.Reached Tree.Accepted (fun _ => True) (.idle pressed) := by
  have hnew : Engine.new tree catalog .default = .ok fresh := rfl
  have new : Stage.Reached Tree.Accepted (fun _ => True) (.idle fresh) :=
    .new ⟨draft, 12, checked.built⟩ hnew
  exact ((new.passed rfl rfl fun _ => trivial).step .leave).told "keyboard" (.text "k")
    checked.told

theorem unreached : pressed.Unreached 9 entry where
  steady := checked.steady
  entry := by
    obtain ⟨c, hc⟩ := Option.isSome_iff_exists.1 checked.found
    rw [entry, hc]
    rfl
  reusable := checked.reusable
  clean := checked.clean
  parts hk := by
    rw [checked.kind] at hk
    cases hk
  unread ev _ i k hc hk hs := by
    have hi := checked.unread i (hc.mem_of_closed (by decide) checked.cone)
    rw [hk, Option.bind_some, hs] at hi
    cases hi
  settled i hi := by
    rw [checked.settled] at hi
    cases hi

end Aside

/-- The word is not asked for again. -/
theorem Stage.Reached.word_left_alone :
    Aside.next.LeavesAlone Aside.pressed 9 Aside.entry ∧
      Aside.next.engine.latest.any (·.equal (.text "a!k")) = true := by
  have hstart := Pass.start_eq_opened Aside.checked.runs.1 Aside.checked.runs.2
  have other (f : Closure) (hf : (Pass.opened Aside.pressed).setting.Offers Aside.pressed.scopes f) :
      f.body ≠ 9 := by
    have hbody := Pass.of_offers Aside.checked.simple hf
    rw [beq_iff_eq.1 hbody]
    decide
  exact ⟨leaves_alone Aside.reached Aside.unreached hstart other Aside.actions, Aside.checked.shown⟩

/-! A function that is kept as a global while its program is replaced by another one, in which the number
of its body belongs to a text. -/

namespace Stray

def before : Draft := ⟨#[⟨.text "old", [], none, none⟩, ⟨.function ["p"], [0], none, none⟩]⟩

/-- The text is node 0; it is shown, and so is what the function gives for the last key. -/
def after : Draft :=
  ⟨#[⟨.text "new", [], none, none⟩, ⟨.reference "g", [], none, none⟩,
    ⟨.stream "keyboard", [], none, none⟩, ⟨.call, [1, 2], none, none⟩,
    ⟨.list, [0, 3], none, none⟩]⟩

def old : Tree := ((before.finish 1).toOption).getD ⟨#[], 0⟩

def new : Tree := ((after.finish 4).toOption).getD ⟨#[], 0⟩

/-- The engine before its first pass. -/
def fresh : Engine := .load old Aside.catalog .default

/-- The function is kept, and the program replaced. -/
def replaced : Engine :=
  (fresh.passed.defineGlobal "g" ((fresh.passed.value? 1).getD (.text ""))).replaceTree new

/-- After a pass over the new program and a key. -/
def pressed : Engine := replaced.passed.told "keyboard" (.text "k")

/-- What was committed for the text. -/
def entry : CacheEntry := (pressed.reactor.cache.find? 0).getD ⟨.text "", 0, none, false, false⟩

/-- What can be read off the programs and their passes. -/
@[mk_iff]
structure Checked : Prop where
  built : before.finish 1 = .ok old ∧ after.finish 4 = .ok new
  told : (replaced.passed.addEvent "keyboard" (.text "k")).toOption.isSome = true
  runs : replaced.stopped = false ∧ replaced.config.conflictPolicy = .attach
  runs_on : pressed.stopped = false ∧ pressed.config.conflictPolicy = .attach
  steady : pressed.program.analysis.isVolatile 0 = false
  found : (pressed.reactor.cache.find? 0).isSome = true
  reusable : entry.reusable = true
  clean : pressed.reactor.staleness.mark? 0 = none
  kind : pressed.program.tree.kind? 0 = some (.text "new")
  cone : pressed.program.tree.beneath 0 = []
  settled : pressed.reactor.edgeTriggered = []
  counts : pressed.evaluationCount 0 = 2
  counts_on : ((Pass.opened pressed).during (List.replicate 40 .tick)).engine.evaluationCount 0 = 3

theorem checked : Checked := checked_iff.2 (by decide +kernel)

theorem reached : Stage.Reached Tree.Accepted (fun _ => True) (.idle pressed) := by
  have hnew : Engine.new old Aside.catalog .default = .ok fresh := rfl
  have first : Stage.Reached Tree.Accepted (fun _ => True) (.idle fresh) :=
    .new ⟨before, 1, checked.built.1⟩ hnew
  have kept : Stage.Reached Tree.Accepted (fun _ => True) (.idle replaced) :=
    (((first.passed rfl rfl fun _ => trivial).step .leave).step (.defineGlobal "g" _)).step
      (.replaceTree ⟨after, 4, checked.built.2⟩)
  exact ((kept.passed checked.runs.1 checked.runs.2 fun _ => trivial).step .leave).told "keyboard"
    (.text "k") checked.told

theorem unreached : pressed.Unreached 0 entry where
  steady := checked.steady
  entry := by
    obtain ⟨c, hc⟩ := Option.isSome_iff_exists.1 checked.found
    rw [entry, hc]
    rfl
  reusable := checked.reusable
  clean := checked.clean
  parts hk := by
    rw [checked.kind] at hk
    cases hk
  unread ev _ i k hc hk hs := by
    have hi : i ∈ [0] := hc.mem_of_closed List.mem_cons_self (by simp [checked.cone])
    rw [List.mem_singleton.1 hi, checked.kind] at hk
    obtain rfl := Option.some.inj hk
    cases hs
  settled i hi := by
    rw [checked.settled] at hi
    cases hi

end Stray

/-- The function runs the text that has come in the place of its body, although the key does not lead
there. -/
theorem Stage.Reached.exists_not_left_alone : ∃ e n c p actions,
    Reached Tree.Accepted (fun _ => True) (.idle e) ∧ e.Unreached n c ∧ Pass.start e = .ok p ∧
      ¬ (p.during actions).LeavesAlone e n c := by
  refine ⟨Stray.pressed, 0, Stray.entry, _, List.replicate 40 .tick, Stray.reached, Stray.unreached,
    Pass.start_eq_opened Stray.checked.runs_on.1 Stray.checked.runs_on.2, fun h => ?_⟩
  have hcount := h.count
  rw [Stray.checked.counts, Stray.checked.counts_on] at hcount
  cases hcount

end StreamLang
