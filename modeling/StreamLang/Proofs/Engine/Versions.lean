import Mathlib.Tactic.MkIffOfInductiveProp
import StreamLang.Proofs.Engine.Regular
import StreamLang.Proofs.Machine.Versions
/-!
Stream versions that are committed. In a session over trees in which every node that runs runs all its
parts, a commit gives each node that the pass has written the newest version of a stream that the pass has
read within it. If all readers within it were run, that is the version that a pass with an empty cache
gives it. A reader whose committed value was used again is left out, though, so a list of two streams can
go back to an older version.
-/
namespace StreamLang

open Machine

namespace Stage

variable {admits : Tree → Prop} {fair : Pass → Prop} {s s' : Stage} {before : Engine} {p : Pass}
  {i : NodeId} {w : Write}

/-- A session runs trees that may be loaded. -/
theorem Reached.admitted (accepted : ∀ t, admits t → t.Accepted) (h : Reached admits fair s) :
    s.Regular ∧ ∃ t, admits t ∧ s.engine.program = .ofTree t := by
  refine h.induction (C := fun s => s.Regular ∧ ∃ t, admits t ∧ s.engine.program = .ofTree t)
    (fun t catalog config e ht he => ?_) fun s s' ⟨hr, t, ht, hp⟩ hs => ?_
  · have hr := Engine.Regular.new (accepted t ht).ordered he
    exact ⟨⟨t, hr⟩, t, ht, hr.program⟩
  refine ⟨hr.step (hs.mono accepted fun _ h => h), ?_⟩
  cases hs with
  | addEvent hs => exact ⟨t, ht, (Engine.between_addEvent t hs).alike.program.trans hp⟩
  | setAvailable hs => exact ⟨t, ht, (Engine.between_setAvailable hp hs).alike.program.trans hp⟩
  | defineGlobal name v => exact ⟨t, ht, hp⟩
  | @replaceTree e t' ht' => exact ⟨t', ht', rfl⟩
  | start hs =>
    obtain ⟨-, rfl⟩ := Pass.start_eq_ok hs
    exact ⟨t, ht, hp⟩
  | tick =>
    refine ⟨t, ht, ?_⟩
    obtain ⟨-, ⟨o, -⟩ | settled⟩ := hr
    · obtain ⟨-, ⟨-, he⟩ | ⟨-, hd | ⟨k, v, hc⟩⟩⟩ := o.tick fun _ _ _ => trivial
      · rwa [engine_busy, he]
      · exact hd.alike.program.trans hp
      · exact hc.alike.program.trans hp
    · rwa [settled.tick]
  | sendDuring hs => exact ⟨t, ht, (Engine.between_send t hs).alike.program.trans hp⟩
  | requestAbort => exact ⟨t, ht, hp⟩
  | leave =>
    refine ⟨t, ht, ?_⟩
    obtain ⟨-, ⟨o, -⟩ | settled⟩ := hr
    · exact (o.abandon t).alike.program.trans hp
    · rwa [engine, Pass.abandon, if_pos settled.finished]

/-- When a pass commits, each node that it has written gets the newest version of a stream that it has read
within that node; from scratch, the newest that there is within it. -/
theorem Reached.versions_newest (h : Reached Tree.Steady fair (busy before p)) (hc : p.commits = true)
    (hw : p.next.record.write? i = some w) :
    (∀ e, p.tick.engine.reactor.cache.find? i = some e →
      e = Reactor.entryOf p.setting.snapshot.pass w) ∧
    p.setting.Newest p.next.record.Ran [i] w.streamVersion ∧
    (∃ needed, ∀ budget, needed ≤ budget → ∃ w',
      ((Machine.start before.scopes).finish (p.setting.scratch budget) false).record.write? i = some w' ∧
      p.setting.Newest (fun _ => True) [i] w'.streamVersion ∧
      (p.setting.AllRead p.next.record.Ran i → w.streamVersion = w'.streamVersion)) ∧
    ((∀ j, p.setting.program.tree.Comes i j → j ≠ i → p.setting.cache.reusable? j = none) →
      p.setting.AllRead p.next.record.Ran i) := by
  obtain ⟨⟨-, hp⟩, t, ht, hprogram⟩ := h.admitted fun t ht => ht.plain.accepted
  obtain ⟨hf, hv⟩ : p.finished = false ∧ p.next.endValue?.isSome := by simpa [Pass.commits] using hc
  have o : p.Open before fun _ _ => True := by
    rcases hp with ⟨o, -⟩ | settled
    · exact o
    · rw [settled.finished] at hf
      cases hf
  obtain ⟨v, hv⟩ := Option.isSome_iff_exists.1 hv
  obtain ⟨k, committed⟩ := o.committed (fun _ _ _ => trivial) hv
  have htree : p.setting.program.tree = t := by
    rw [o.program]
    exact congrArg Program.tree hprogram
  have steady : p.setting.program.tree.Steady := htree ▸ ht
  have hroot : p.setting.root < p.setting.program.tree.size := by
    rw [o.root, ← o.program, htree]
    exact ht.plain.root_lt
  have hnext := committed.concluded.eq
  have hend : ((Machine.start before.scopes).run p.setting false k).endValue?.isSome := by
    rw [← hnext, hv]
    rfl
  rw [hnext] at hw
  have comes := comes_of_written steady hroot hend hw
  obtain ⟨newest, all⟩ := written_newest steady hroot hend hw
  rw [← hnext] at newest all
  refine ⟨fun e he => ?_, newest, ?_, fun unused j k hj _ => all unused j hj⟩
  · rw [committed.reactor, hnext] at he
    rcases p.engine.reactor.commit_find? he with ⟨w', hw', rfl⟩ | ⟨hnot, -⟩
    · rw [Option.some.inj (hw.symm.trans (write?_of_mem hw'))]
    · exact absurd (List.mem_map_of_mem (Assoc.mem_of_get? hw)) hnot
  · obtain ⟨needed, scratch⟩ := written_from_scratch (s := p.setting.scratch 0) steady hroot
      before.scopes rfl comes
    refine ⟨needed, fun budget hb => ?_⟩
    obtain ⟨w', hw', newest'⟩ := scratch budget hb
    exact ⟨w', hw', newest', fun read => (newest.all read).unique newest'⟩

end Stage

/-! A list of two streams. The first has had two events before the first pass; the second gets one after
it, so that the first is not run again. -/

namespace Pair

def draft : Draft :=
  ⟨#[⟨.stream "a", [], none, none⟩, ⟨.stream "b", [], none, none⟩, ⟨.list, [0, 1], none, none⟩]⟩

def tree : Tree := ((draft.finish 2).toOption).getD ⟨#[], 0⟩

def catalog : Catalog :=
  ⟨[("a", ⟨"a", .push, .text, .text ""⟩), ("b", ⟨"b", .push, .text, .text ""⟩)]⟩

/-- Before the first pass. -/
def fresh : Engine := .load tree catalog .default

def told : Engine := (fresh.told "a" (.text "x")).told "a" (.text "y")

/-- The second pass is due. -/
def ready : Engine := told.passed.told "b" (.text "z")

/-- The first pass before the tick that commits it. -/
def first : Pass := Nat.iterate Pass.tick 10 (Pass.opened told)

/-- And the second. -/
def second : Pass := Nat.iterate Pass.tick 8 (Pass.opened ready)

/-- What can be read off the program and its two passes. -/
@[mk_iff]
structure Checked : Prop where
  built : draft.finish 2 = .ok tree
  kinds : tree.nodes.all (·.kind.isPlain) = true
  unconditional : ∀ i ∈ tree.ids, tree.kind? i ≠ some .conditional
  events : (fresh.addEvent "a" (.text "x")).toOption.isSome = true ∧
    ((fresh.told "a" (.text "x")).addEvent "a" (.text "y")).toOption.isSome = true ∧
    (told.passed.addEvent "b" (.text "z")).toOption.isSome = true
  runs : (told.stopped = false ∧ told.config.conflictPolicy = .attach) ∧
    ready.stopped = false ∧ ready.config.conflictPolicy = .attach
  commits : first.commits = true ∧ second.commits = true
  ran : ∀ i < 3, (first.next.record.write? i).isSome = true
  reused : (second.next.record.write? 0).isNone = true
  versions : (first.next.record.write? 2).any (·.streamVersion = some 2) = true ∧
    (second.next.record.write? 2).any (·.streamVersion = some 1) = true
  committed : (second.tick.engine.reactor.cache.find? 2).isSome = true
  trees : first.setting.program.tree = tree ∧ second.setting.program.tree = tree
  list : tree.node? 2 = some ⟨.list, [0, 1], some 3, none⟩
  reader : tree.node? 0 = some ⟨.stream "a", [], some 2, none⟩
  stands : (second.setting.snapshot.get? "a").any (·.version = 2) = true

theorem checked : Checked := checked_iff.2 (by decide +kernel)

theorem steady : tree.Steady := by
  refine ⟨.of_all checked.built checked.kinds, fun i hi => ?_⟩
  exact checked.unconditional i (List.mem_range.2 (Tree.lt_size_of_kind hi)) hi

theorem reached_told : Stage.Reached Tree.Steady (fun _ => True) (.idle told) := by
  have hnew : Engine.new tree catalog .default = .ok fresh := rfl
  exact ((Stage.Reached.new steady hnew).told "a" (.text "x") checked.events.1).told "a" (.text "y")
    checked.events.2.1

theorem reached_first : Stage.Reached Tree.Steady (fun _ => True) (.busy told first) :=
  (reached_told.step (.start (Pass.start_eq_opened checked.runs.1.1 checked.runs.1.2))).ticks 10
    fun _ _ => trivial

theorem reached_second : Stage.Reached Tree.Steady (fun _ => True) (.busy ready second) := by
  have passed := (reached_told.passed checked.runs.1.1 checked.runs.1.2 fun _ => trivial).step .leave
  have ready := passed.told "b" (.text "z") checked.events.2.2
  exact (ready.step (.start (Pass.start_eq_opened checked.runs.2.1 checked.runs.2.2))).ticks 8
    fun _ _ => trivial

end Pair

/-- In the first pass both streams are read, and the list gets the version of the first, as it would from
scratch. In the second pass the value of the first stream is used again, and the list gets the version of
what has been read. -/
theorem Stage.Reached.pair_newest :
    (∃ needed, ∀ budget, needed ≤ budget → ∃ w', ((Machine.start Pair.told.scopes).finish
      (Pair.first.setting.scratch budget) false).record.write? 2 = some w' ∧
        w'.streamVersion = some 2) ∧
    (Pair.second.next.record.write? 0).isNone = true ∧
      Pair.second.setting.Newest Pair.second.next.record.Ran [2] (some 1) ∧
      ∃ e, Pair.second.tick.engine.reactor.cache.find? 2 = some e ∧ e.streamVersion = some 1 := by
  refine ⟨?_, Pair.checked.reused, ?_⟩
  swap
  · obtain ⟨w, hw, hversion⟩ := (Option.any_eq_true _ _).1 Pair.checked.versions.2
    obtain ⟨e, he⟩ := Option.isSome_iff_exists.1 Pair.checked.committed
    obtain ⟨entry, newest, -⟩ := versions_newest Pair.reached_second Pair.checked.commits.2 hw
    have hversion : w.streamVersion = some 1 := by simpa using hversion
    exact ⟨hversion ▸ newest, e, he, by rw [entry e he]; exact hversion⟩
  obtain ⟨w, hw, hversion⟩ := (Option.any_eq_true _ _).1 Pair.checked.versions.1
  obtain ⟨-, -, ⟨needed, scratch⟩, -⟩ :=
    versions_newest Pair.reached_first Pair.checked.commits.1 hw
  have read : Pair.first.setting.AllRead Pair.first.next.record.Ran 2 := by
    intro j k hj _
    have hle := (Pair.checked.trees.1 ▸ Pair.steady.plain.ordered).within_le hj.within
    exact Pair.checked.ran j (Nat.lt_succ_of_le hle)
  refine ⟨needed, fun budget hb => ?_⟩
  obtain ⟨w', hw', -, same⟩ := scratch budget hb
  exact ⟨w', hw', (same read).symm.trans (by simpa using hversion)⟩

/-- In the second pass only the second stream is read, and the list goes back to the version of that one,
though the first stands at a newer one. -/
theorem Stage.Reached.exists_not_newest : ∃ before p i w,
    Reached Tree.Steady (fun _ => True) (.busy before p) ∧ p.commits = true ∧
      p.next.record.write? i = some w ∧ ¬ p.setting.Newest (fun _ => True) [i] w.streamVersion := by
  obtain ⟨w, hw, hversion⟩ := (Option.any_eq_true _ _).1 Pair.checked.versions.2
  refine ⟨_, _, 2, w, Pair.reached_second, Pair.checked.commits.2, hw, fun newest => ?_⟩
  obtain ⟨e, he, hstands⟩ := (Option.any_eq_true _ _).1 Pair.checked.stands
  have list : Pair.second.setting.program.tree.Working 2 ⟨.list, [0, 1], some 3, none⟩ := by
    rw [Pair.checked.trees.2]
    exact ⟨Pair.checked.list, rfl, rfl⟩
  have reader : Pair.second.setting.program.tree.Working 0 ⟨.stream "a", [], some 2, none⟩ := by
    rw [Pair.checked.trees.2]
    exact ⟨Pair.checked.reader, rfl, rfl⟩
  have reads : Pair.second.setting.ReadsAt 0 2 := ⟨_, _, _, e, reader, rfl, he, by simpa using hstands⟩
  have hversion : w.streamVersion = some 1 := by simpa using hversion
  rw [hversion] at newest
  have hle := newest.2 2 ⟨2, List.mem_cons_self, 0, .part .refl list List.mem_cons_self, trivial, reads⟩
  exact absurd hle (by decide)

end StreamLang
