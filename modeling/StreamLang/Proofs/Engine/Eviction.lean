import StreamLang.Proofs.Engine.Regular
/-!
The cache stays within its capacity. A commit puts in what the pass has written and cuts the cache down to
what there is room for, so that nothing which the pass has written goes as long as something older could go
instead. In a session older is what the pass has not written, and the cache is within its capacity at any
time. All that eviction does is in `Cache.eviction_exact`.
-/
namespace StreamLang

/-- The cache has been cut down after a pass of such a number: there is room for all entries besides the
states of reactions, and if one has gone that the pass has written, none of an earlier pass has stayed. -/
structure Cache.Trimmed (c : Cache) (capacity pass : Nat) (done : Record) : Prop where
  within : c.plain.length ≤ capacity
  newest : ∀ i, done.Wrote i → c.has i = false →
    ∀ j ∈ c.plain, ∀ e, c.find? j = some e → pass ≤ e.pass

namespace Reactor

variable {r r' : Reactor} {capacity : Nat}

/-- A commit cuts down what there is after the writes. -/
theorem commit_cut (h : r.capacity = some capacity) (t : Tree) (seen : Snapshot) (done : Record) :
    ∃ gone, (r.applyWrites seen.pass done.writes).cache.Cut capacity gone
      (r.commit t seen done).cache := by
  have hcapacity : (r.unevicted t seen done).capacity = some capacity :=
    (r.applyWrites_capacity _ _).trans h
  have hcache : (r.commit t seen done).cache =
      ((r.applyWrites seen.pass done.writes).cache.evict capacity).2 := by
    rw [commit_eq, evictOver, hcapacity]
    rfl
  rw [hcache]
  exact ⟨_, Cache.evict_cut _ capacity⟩

theorem commit_trimmed (h : r.capacity = some capacity) (t : Tree) (seen : Snapshot) (done : Record) :
    (r.commit t seen done).cache.Trimmed capacity seen.pass done := by
  obtain ⟨gone, cut⟩ := r.commit_cut h t seen done
  refine ⟨cut.count ▸ Nat.min_le_right _ _, fun i hi hlost j hj e he => ?_⟩
  rcases r.applyWrites_cache seen.pass done.writes i with ⟨w, -, hw⟩ | ⟨hn, -⟩
  · have hgone : i ∈ gone := by
      by_contra hn
      have hfind := cut.find? i
      rw [if_neg hn, hw] at hfind
      simp [Cache.has, hfind] at hlost
    exact (cut.newest i hgone j hj).pass_le hw (cut.find?_of_rest he)
  · exact absurd hi hn

/-- There is room for all entries besides the states of reactions. -/
def Within (r : Reactor) : Prop := ∀ capacity, r.capacity = some capacity → r.cache.plain.length ≤ capacity

theorem Within.of_eq (h : r.Within) (capacity : r'.capacity = r.capacity) (cache : r'.cache = r.cache) :
    r'.Within := by
  intro n hn
  rw [cache]
  exact h n (capacity ▸ hn)

theorem within_of_empty (h : r.cache = .empty) : r.Within := by
  intro n _
  have hplain : Cache.empty.plain = [] := by
    refine List.eq_nil_iff_forall_not_mem.2 fun i hi => ?_
    obtain ⟨e, he, -⟩ := Cache.mem_plain.1 hi
    simp at he
  rw [h, hplain]
  exact Nat.zero_le n

theorem commit_within (r : Reactor) (t : Tree) (seen : Snapshot) (done : Record) :
    (r.commit t seen done).Within := fun _ h =>
  (r.commit_trimmed (r.commit_capacity t seen done ▸ h) t seen done).within

end Reactor

namespace Stage

variable {s s' : Stage} {fair : Pass → Prop} {before : Engine} {p : Pass} {capacity : Nat}

/-- At any time the cache is within its capacity, and while a pass is open all that is in it comes from
earlier passes. -/
def Bounded : Stage → Prop
  | idle e => e.reactor.Within
  | busy _ p => p.engine.reactor.Within ∧ (p.finished = false →
    ∀ i e, p.engine.reactor.cache.find? i = some e → e.pass < p.engine.reactor.pass)

theorem Bounded.within (h : s.Bounded) : s.engine.reactor.Within := by
  cases s with
  | idle e => exact h
  | busy before p => exact h.1

theorem bounded_reset (e : Engine) : (idle e.reset).Bounded := by
  refine Reactor.within_of_empty ?_
  unfold Engine.reset
  cases e.stopped <;> rfl

theorem Bounded.step (h : s.Bounded) (regular : s.Regular) (hs : Step Tree.Accepted fair s s') :
    s'.Bounded := by
  cases hs with
  | addEvent hs =>
    obtain ⟨inbox, -, rfl⟩ := Engine.inbox_of_send (Engine.send_of_addEvent hs)
    exact h
  | setAvailable hs =>
    obtain ⟨r, hr, rfl⟩ := Engine.setAvailable_eq_ok hs
    obtain ⟨readers, registry, -, rfl⟩ := Reactor.setAvailable_eq_ok hr
    exact h
  | defineGlobal name v => exact bounded_reset _
  | replaceTree ht => exact bounded_reset _
  | @start e p hs =>
    obtain ⟨-, rfl⟩ := Pass.start_eq_ok hs
    obtain ⟨t, r⟩ := regular
    have hopened : (Pass.opened e).engine.reactor = (e.reactor.beginPass e.program).2 := rfl
    rw [Reactor.beginPass_eq] at hopened
    refine ⟨Reactor.Within.of_eq h (by rw [hopened]) (by rw [hopened]), fun _ i c hc => ?_⟩
    rw [hopened] at hc ⊢
    exact Nat.lt_succ_of_le (r.reactor.stamped i c hc)
  | @tick before p =>
    obtain ⟨within, older⟩ := h
    obtain ⟨-, ⟨o, -⟩ | hp⟩ := regular
    · obtain ⟨-, ⟨-, he⟩ | ⟨hq, hd | ⟨k, v, hc⟩⟩⟩ := o.tick fun _ _ _ => trivial
      · rw [Bounded, he]
        exact ⟨within, fun _ => older o.unfinished⟩
      · refine ⟨?_, fun hf => ?_⟩
        · rw [hd.reactor]
          exact within.of_eq rfl rfl
        · rw [hq.finished] at hf
          cases hf
      · refine ⟨?_, fun hf => ?_⟩
        · rw [hc.reactor]
          exact Reactor.commit_within _ _ _ _
        · rw [hq.finished] at hf
          cases hf
    · rw [hp.tick]
      exact ⟨within, older⟩
  | sendDuring hs =>
    obtain ⟨inbox, -, rfl⟩ := Engine.inbox_of_send hs
    exact h
  | requestAbort => exact h
  | leave =>
    refine h.within.of_eq ?_ ?_
    · unfold Pass.abandon
      split <;> rfl
    · unfold Pass.abandon
      split <;> rfl

theorem Reached.bounded (h : Reached Tree.Accepted fair s) : s.Bounded := by
  refine And.right (h.induction (C := fun s => s.Regular ∧ s.Bounded) (fun t _ _ _ ht he => ?_)
    fun _ _ ⟨hr, hb⟩ hs => ⟨hr.step hs, hb.step hr hs⟩)
  refine ⟨⟨t, .new ht.ordered he⟩, ?_⟩
  obtain ⟨config, rfl⟩ := Engine.new_eq_ok he
  exact Reactor.within_of_empty rfl

/-- When a pass commits, the cache is cut down, and what it has not written is of an earlier pass. -/
theorem Reached.trimmed (h : Reached Tree.Accepted fair (busy before p))
    (hcapacity : p.engine.reactor.capacity = some capacity) (hc : p.commits = true) :
    p.tick.engine.reactor.cache.Trimmed capacity p.setting.snapshot.pass p.next.record ∧
      ∀ j e, p.tick.engine.reactor.cache.find? j = some e →
        (e.pass < p.setting.snapshot.pass ↔ ¬ p.next.record.Wrote j) := by
  obtain ⟨-, o, k, v, committed⟩ := h.regular.committed hc
  obtain ⟨-, ⟨-, hpass⟩ | hp⟩ := h.regular
  · rw [committed.reactor]
    refine ⟨Reactor.commit_trimmed hcapacity _ _ _, fun j e he => ?_⟩
    rcases p.engine.reactor.commit_find? he with ⟨w, hw, rfl⟩ | ⟨hn, hold⟩
    · exact iff_of_false (Nat.lt_irrefl _) (not_not_intro (List.mem_map_of_mem hw))
    · exact iff_of_true (hpass ▸ h.bounded.2 o.unfinished j e hold) hn
  · exact absurd (o.unfinished.symm.trans hp.finished) Bool.false_ne_true

end Stage

/-- Eviction cuts a cache down, which can be done in one way only; it does not matter in which order it comes
by the entries, and doing it again removes nothing. A commit of any reactor cuts its cache down. In a session
the cache is within its capacity at any time, and what has stayed after a commit is of an earlier pass just if
this one has not written it. -/
theorem Cache.eviction_exact (capacity : Nat) :
    (∀ (c : Cache) gone rest, c.evict capacity = (gone, rest) ↔ c.Cut capacity gone rest) ∧
      (∀ c : Cache, (c.evict capacity).2.evict capacity = ([], (c.evict capacity).2)) ∧
      (∀ (c : Cache) (entries : List (NodeId × CacheEntry)), entries.Perm c.entries.toList →
        sortByAge (entries.filter (!·.2.reaction)) = c.evictable) ∧
      (∀ (r : Reactor) (t : Tree) (seen : Snapshot) (done : Record), r.capacity = some capacity →
        (∃ gone, (r.applyWrites seen.pass done.writes).cache.Cut capacity gone
          (r.commit t seen done).cache) ∧
        (r.commit t seen done).cache.Trimmed capacity seen.pass done) ∧
      ∀ (fair : Pass → Prop) (s : Stage), Stage.Reached Tree.Accepted fair s →
        s.engine.reactor.capacity = some capacity →
        s.engine.reactor.cache.plain.length ≤ capacity ∧
          ∀ before p, s = .busy before p → p.commits = true →
            p.tick.engine.reactor.cache.Trimmed capacity p.setting.snapshot.pass p.next.record ∧
              ∀ j e, p.tick.engine.reactor.cache.find? j = some e →
                (e.pass < p.setting.snapshot.pass ↔ ¬ p.next.record.Wrote j) := by
  refine ⟨fun c gone rest => evict_eq_iff, fun c => c.evict_evict capacity, fun c entries => evictable_of_perm,
    fun r t seen done h => ⟨r.commit_cut h t seen done, r.commit_trimmed h t seen done⟩,
    fun fair s h hcapacity => ⟨?_, ?_⟩⟩
  · exact h.bounded.within capacity hcapacity
  · rintro before p rfl hc
    exact h.trimmed hcapacity hc

/-! A branch and the state of a reaction, with room for four entries. After the other branch has been taken,
two entries have to go. -/

namespace Branches

/-- The reaction is node 2, the stream node 3, and the branches are nodes 4 and 5. -/
def draft : Draft :=
  ⟨#[⟨.text "", [], none, none⟩, ⟨.text "n", [], none, none⟩, ⟨.reaction, [0, 1], none, none⟩,
    ⟨.stream "c", [], none, none⟩, ⟨.text "x", [], none, none⟩, ⟨.text "y", [], none, none⟩,
    ⟨.conditional, [3, 4, 5], none, none⟩, ⟨.list, [2, 6], none, none⟩]⟩

def tree : Tree := ((draft.finish 7).toOption).getD ⟨#[], 0⟩

def catalog : Catalog := ⟨[("c", ⟨"c", .push, .boolean, .boolean true⟩)]⟩

/-- Before the first pass. -/
def fresh : Engine := .load tree catalog { Config.default with cacheCapacity := some 4 }

/-- The second pass is due. -/
def ready : Engine := fresh.passed.told "c" (.boolean false)

/-- The second pass before the tick that commits it. -/
def second : Pass := Nat.iterate Pass.tick 14 (Pass.opened ready)

/-- All entries, with those that the second pass has written, before any goes. -/
def written : Cache :=
  (second.engine.reactor.applyWrites second.setting.snapshot.pass second.next.record.writes).cache

/-- What a commit of that leaves. -/
def committed : Cache := (second.engine.reactor.commit second.engine.program.tree
  second.setting.snapshot second.next.record).cache

/-- The entries that stay when the pass ends. -/
def rest : Cache := second.tick.engine.reactor.cache

/-- What can be read off the program and its passes. -/
@[mk_iff]
structure Checked : Prop where
  built : draft.finish 7 = .ok tree
  told : (fresh.passed.addEvent "c" (.boolean false)).toOption.isSome = true
  runs : ready.stopped = false ∧ ready.config.conflictPolicy = .attach
  capacity : second.engine.reactor.capacity = some 4
  commits : second.commits = true
  wrote : Assoc.keys second.next.record.writes = [3, 5, 6, 7, 8]
  lost : rest.has 3 = false
  gone : (written.evict 4).1 = [4, 3]
  plain : rest.plain = [5, 6, 7, 8]
  state : (rest.find? 2).any (fun e => e.reaction && e.pass == 1) = true

theorem checked : Checked := checked_iff.2 (by decide +kernel)

theorem new_fresh :
    Engine.new tree catalog { Config.default with cacheCapacity := some 4 } = .ok fresh := rfl

theorem reached : Stage.Reached Tree.Accepted (fun _ => True) (.busy ready second) := by
  have new : Stage.Reached Tree.Accepted (fun _ => True) (.idle fresh) :=
    .new ⟨draft, 7, checked.built⟩ new_fresh
  have first := (new.passed rfl rfl fun _ => trivial).step .leave
  have told : Stage.Reached Tree.Accepted (fun _ => True) (.idle ready) := first.told "c" _ checked.told
  exact (told.step (.start (Pass.start_eq_opened checked.runs.1 checked.runs.2))).ticks 14
    fun _ _ => trivial

end Branches

open Branches in
/-- The branch that was taken before goes first, then the stream, which is the lowest node of the second pass.
What stays besides the state of the reaction is all written by that pass. -/
theorem Cache.branch_evicted :
    written.Cut 4 [4, 3] (written.evict 4).2 ∧
      (written.evict 4).2.evict 4 = ([], (written.evict 4).2) ∧
      sortByAge (written.entries.toList.reverse.filter (!·.2.reaction)) = written.evictable ∧
      ((∃ gone, written.Cut 4 gone committed) ∧
        committed.Trimmed 4 second.setting.snapshot.pass second.next.record) ∧
      second.engine.reactor.cache.plain.length ≤ 4 ∧
      (rest.find? 2).any (fun e => e.reaction && e.pass == 1) = true ∧
      rest.plain = [5, 6, 7, 8] ∧ ∀ j ∈ rest.plain, second.next.record.Wrote j := by
  obtain ⟨cut, again, order, commit, session⟩ := eviction_exact 4
  obtain ⟨within, trimmed⟩ := session _ _ reached checked.capacity
  obtain ⟨trimmed, earlier⟩ := trimmed _ _ rfl checked.commits
  refine ⟨(cut _ _ _).1 (Prod.ext checked.gone rfl), again _, order _ _ (List.reverse_perm _),
    commit _ _ _ _ checked.capacity, within, checked.state, checked.plain, fun j hj => ?_⟩
  obtain ⟨e, he, -⟩ := mem_plain.1 hj
  have wrote : second.next.record.Wrote 3 := by simp [Record.Wrote, checked.wrote]
  have hpass := trimmed.newest 3 wrote checked.lost j hj e he
  exact not_not.1 fun hn => Nat.not_lt.2 hpass ((earlier j e he).2 hn)

end StreamLang
